import ZephyrRust.Devicetree.Items

/-!
# `ZephyrRust.Devicetree.Augment`: code for matching nodes

`zephyr-build/src/devicetree/augment.rs`. An augmentation says by its rules which nodes it matches, and
by its actions what it adds to the module of such a node. `dtRust` at the end is the file
`dt-rust.yaml`, the augmentations of Zephyr itself.
-/

set_option autoImplicit false

namespace ZephyrRust.Devicetree

/-- The trait `Augment`. -/
structure Augment where
  isCompatible : DeviceTree → Node → Bool
  generate : DeviceTree → Node → Except Panic (List Item)

/-- `Augment::augment`. -/
def Augment.augment (aug : Augment) (dt : DeviceTree) (n : Node) : Except Panic (List Item) :=
  if aug.isCompatible dt n then aug.generate dt n else .ok []

namespace Augment

/-! ## Rules -/

/-- `Rule`. -/
inductive Rule
  | or (rules : List Rule)
  | and (rules : List Rule)
  | hasProp (name : String)
  | compatible (names : List String) (level : Nat)
  | root

/-- `parent_compatible`. -/
def parentCompatible (dt : DeviceTree) (names : List String) : Nat → Node → Bool
  | 0, n => names.any n.isCompatible
  | level + 1, n =>
    match n.parentIn dt with
    | some p => parentCompatible dt names level p
    | none => false

mutual

/-- `Rule::is_compatible`. -/
def Rule.isCompatible (dt : DeviceTree) (n : Node) : Rule → Bool
  | .or rules => anyCompatible dt n rules
  | .and rules => allCompatible dt n rules
  | .hasProp name => n.hasProp name
  | .compatible names level => parentCompatible dt names level n
  | .root => n.parent.isNone

/-- Some rule matches. -/
def anyCompatible (dt : DeviceTree) (n : Node) : List Rule → Bool
  | [] => false
  | r :: rs => r.isCompatible dt n || anyCompatible dt n rs

/-- All rules match. -/
def allCompatible (dt : DeviceTree) (n : Node) : List Rule → Bool
  | [] => true
  | r :: rs => r.isCompatible dt n && allCompatible dt n rs

end

/-! ## Instances -/

/-- `ArgInfo`. -/
inductive ArgInfo
  | reg
  | childIdx

/-- `ArgInfo::args`. -/
def ArgInfo.args (dt : DeviceTree) (n : Node) : ArgInfo → Except Panic (List UInt32)
  | .reg =>
    match n.getNumbers "reg" with
    | some numbers => .ok numbers
    | none => .error (.noProperty "reg")
  | .childIdx => do
    let index ← n.childIndex dt
    return [UInt32.ofNat index]

/-- `RawInfo`. -/
inductive RawInfo
  | myself
  | parent (level : Nat) (args : List ArgInfo)
  | phandle (pname : String)

/-- The match on `status`: "okay", "ok" or no such string. -/
def okay (n : Node) : Bool :=
  match n.getSingleString "status" with
  | some text => text = "okay" || text = "ok"
  | none => true

/-- The loop over the parents in `RawInfo::generate`. -/
def climb (dt : DeviceTree) : Nat → Option Node → Option Node
  | 0, cur => cur
  | k + 1, cur => climb dt k (cur.bind fun n => n.parentIn dt)

/-- The ancestor of `RawInfo::Parent`. -/
def ancestor (dt : DeviceTree) (level : Nat) (n : Node) : Option Node :=
  climb dt (level - 1) (n.parentIn dt)

/-- `UNIQUE`, `STATIC` and `get_instance`, which all instances have. -/
def instanceItems (cfg : Option String) (staticType : List String) (body : Body) : List Item :=
  [.static cfg "UNIQUE" ["crate", "device", "Unique"],
    .static cfg "STATIC" staticType,
    .fn cfg "get_instance" body]

/-- The target and the numbers of a phandle property. -/
def phandleTarget (dt : DeviceTree) (n : Node) (pname : String) :
    Except Panic (Node × List UInt32) :=
  match n.getWords pname with
  | none => .error (.noProperty pname)
  | some [] => .error .noCell
  | some (.number _ :: _) => .error (.emptyPhandle pname)
  | some (.phandle ph :: words) => do
    let target ← ph.nodeRef
    let target ← dt.node target
    let args ← words.mapM fun w =>
      match w.asNumber with
      | some k => .ok k
      | none => .error .notNumber
    return (target, args)

/-- `RawInfo::generate`. -/
def RawInfo.generate (dt : DeviceTree) (n : Node) (device : String) (staticType : Option String)
    (cfg : Option String) (raw : RawInfo) : Except Panic (List Item) := do
  let deviceId ← strToPath device
  let staticType ← strToPath (staticType.getD "crate::device::NoStatic")
  match raw with
  | .myself =>
    if okay n then
      return [.fn cfg "get_instance_raw" (.device n.ord), .fn cfg "get_static_raw" .static] ++
        instanceItems cfg staticType (.new deviceId .here false [])
    else
      return []
  | .phandle pname =>
    let (target, args) ← phandleTarget dt n pname
    let route ← target.routeToRust
    return instanceItems cfg staticType (.new deviceId (.crate route) true args)
  | .parent level args =>
    if level = 0 then .error .level
    else
      -- No instance below an ancestor that is disabled.
      match ancestor dt level n with
      | some anc =>
        if okay anc then do
          let args ← args.mapM (ArgInfo.args dt n)
          return instanceItems cfg staticType (.new deviceId (.super level) false args.flatten)
        else return []
      | none =>
        let args ← args.mapM (ArgInfo.args dt n)
        return instanceItems cfg staticType (.new deviceId (.super level) false args.flatten)

/-! ## Properties -/

/-- The numbers of a GPIO reference: `cells` of them, when there are so many. -/
def gpioArgs : Nat → List Word → Option (List UInt32)
  | 0, _ => some []
  | k + 1, .number n :: ws => (gpioArgs k ws).map fun args => n :: args
  | _ + 1, _ => none

/-- The number of cells after a reference to a GPIO controller. -/
def gpioCells (dt : DeviceTree) (ph : Phandle) : Option Nat :=
  match ph.node.bind dt.deref with
  | some target =>
    if target.hasProp "gpio-controller" then
      (target.getNumber "#gpio-cells").map UInt32.toNat
    else none
  | none => none

/-- The loop of `Value::to_tokens` over the cells. `skip` cells are part of the item before. -/
def wordTokens (dt : DeviceTree) : Nat → List Word → List RawWord
  | _, [] => []
  | skip + 1, _ :: ws => wordTokens dt skip ws
  | 0, .number n :: ws => .number n :: wordTokens dt 0 ws
  | 0, .phandle ph :: ws =>
    match (gpioCells dt ph).bind fun cells => (gpioArgs cells ws).map fun args => (cells, args) with
    | some (cells, args) => .gpio ph.name args :: wordTokens dt cells ws
    | none => .phandle ph.name :: wordTokens dt 0 ws

/-- `Value::to_tokens`. -/
def toTokens (dt : DeviceTree) : Value → RawValue
  | .bytes bs => .bytes bs
  | .string text => .string text
  | .phandle ph => .phandle ph.name
  | .words ws => .words (wordTokens dt 0 ws)

/-! ## Actions -/

/-- `Action`. -/
inductive Action
  | inst (raw : RawInfo) (device : String) (staticType : Option String)
  | labels
  | rawProperties

/-- The name of a constant of `Action::RawProperties`. -/
def rawName (text : String) : Except Panic String := do
  let name ← dtToUpperId text
  formatIdent ("RAW_" ++ name)

/-- A module of `Action::Labels`. -/
def labelModule (dt : DeviceTree) (entry : String × Addr) : Except Panic Item := do
  let name ← dtToLowerId entry.1
  let target ← dt.node entry.2
  let path ← target.routeToRust
  return .mod name [.reexport path]

/-- `Action::generate`. -/
def Action.generate (dt : DeviceTree) (n : Node) (cfg : Option String) :
    Action → Except Panic (List Item)
  | .inst raw device staticType => raw.generate dt n device staticType cfg
  | .rawProperties => n.properties.mapM fun prop => do
    let name ← rawName prop.name
    return .rawProperty name (prop.value.map (toTokens dt))
  | .labels => do
    let nodes ← dt.labels.mapM (labelModule dt)
    return [.mod "labels" nodes]

/-- `Augmentation`. -/
structure Augmentation where
  name : String
  rules : List Rule
  actions : List Action
  cfg : Option String

/-- `Augmentation::is_compatible`. -/
def Augmentation.isCompatible (aug : Augmentation) (dt : DeviceTree) (n : Node) : Bool :=
  aug.rules.all (Rule.isCompatible dt n)

/-- The `cfg_attr` of `Augmentation::generate`. -/
def cfgAttr : Option String → Except Panic (Option String)
  | some cfgName => (formatIdent cfgName).map some
  | none => .ok none

/-- `Augmentation::generate`. -/
def Augmentation.generate (aug : Augmentation) (dt : DeviceTree) (n : Node) :
    Except Panic (List Item) := do
  let _ ← dtToLowerId aug.name
  let cfg ← cfgAttr aug.cfg
  let actions ← aug.actions.mapM (Action.generate dt n cfg)
  return actions.flatten

/-- `impl Augment for Augmentation`. -/
def Augmentation.toAugment (aug : Augmentation) : Augment where
  isCompatible := aug.isCompatible
  generate := aug.generate

/-! ## `dt-rust.yaml` -/

/-- An augmentation with one rule and one instance, as most entries are. -/
def instanceOf (name : String) (cfg : Option String) (rules : List Rule) (raw : RawInfo)
    (device : String) (staticType : Option String) : Augmentation where
  name := name
  cfg := cfg
  rules := rules
  actions := [.inst raw device staticType]

def gpioController : Augmentation :=
  instanceOf "gpio-controller" (some "CONFIG_GPIO") [.hasProp "gpio-controller"] .myself
    "crate::device::gpio::Gpio" (some "crate::device::gpio::GpioStatic")

def gpioLeds : Augmentation :=
  instanceOf "gpio-leds" (some "CONFIG_GPIO") [.compatible ["gpio-leds"] 1] (.phandle "gpios")
    "crate::device::gpio::GpioPin" none

/-- It has no `cfg`. -/
def gpioKeys : Augmentation :=
  instanceOf "gpio-keys" none [.compatible ["gpio-keys"] 1] (.phandle "gpios")
    "crate::device::gpio::GpioPin" none

def pwmLedController : Augmentation :=
  instanceOf "pwm-led-controller" (some "CONFIG_LED_PWM") [.compatible ["pwm-leds"] 0] .myself
    "crate::device::led::LedController" none

def pwmLeds : Augmentation :=
  instanceOf "pwm-leds" (some "CONFIG_LED_PWM") [.compatible ["pwm-leds"] 1]
    (.parent 1 [.childIdx]) "crate::device::led::Led" none

def ws2812RpiPicoPioLedStrip : Augmentation :=
  instanceOf "ws2812-rpi-pico-pio-led-strip" (some "CONFIG_WS2812_STRIP_RPI_PICO_PIO")
    [.compatible ["worldsemi,ws2812-rpi_pico-pio"] 1] .myself
    "crate::device::led_strip::LedStrip" none

def ws2812SpiLedStrip : Augmentation :=
  instanceOf "ws2812-spi-led-strip" (some "CONFIG_WS2812_STRIP_SPI")
    [.compatible ["worldsemi,ws2812-spi"] 0] .myself "crate::device::led_strip::LedStrip" none

def ws2812GpioLedStrip : Augmentation :=
  instanceOf "ws2812-gpio-led-strip" (some "CONFIG_WS2812_STRIP_GPIO")
    [.compatible ["worldsemi,ws2812-gpio"] 0] .myself "crate::device::led_strip::LedStrip" none

def i2cController : Augmentation :=
  instanceOf "i2c-controller" (some "CONFIG_I2C")
    [.compatible ["raspberrypi,pico-i2c", "snps,designware-i2c", "nordic,nrf-twi",
      "nordic,nrf-twim"] 0] .myself "crate::device::i2c::I2c" none

def flashController : Augmentation :=
  instanceOf "flash-controller" (some "CONFIG_FLASH")
    [.compatible ["nordic,nrf51-flash-controller", "nordic,nrf52-flash-controller",
      "nordic,nrf53-flash-controller", "nordic,nrf91-flash-controller",
      "raspberrypi,pico-flash-controller", "zephyr,sim-flash", "st,stm32-flash-controller",
      "nxp,msf1", "espressif,esp32-flash-controller"] 0]
    .myself "crate::device::flash::FlashController" none

def flashPartition : Augmentation :=
  instanceOf "flash-partition" (some "CONFIG_FLASH")
    [.compatible ["fixed-partitions"] 1, .compatible ["soc-nv-flash"] 2] (.parent 3 [.reg])
    "crate::device::flash::FlashPartition" none

def rawProperties : Augmentation where
  name := "raw_properties"
  rules := []
  actions := [.rawProperties]
  cfg := none

def labels : Augmentation where
  name := "labels"
  rules := [.root]
  actions := [.labels]
  cfg := none

/-- `dt-rust.yaml`. -/
def dtRust : List Augmentation :=
  [gpioController, gpioLeds, gpioKeys, pwmLedController, pwmLeds, ws2812RpiPicoPioLedStrip,
    ws2812SpiLedStrip, ws2812GpioLedStrip, i2cController, flashController, flashPartition,
    rawProperties, labels]

end Augment

end ZephyrRust.Devicetree
