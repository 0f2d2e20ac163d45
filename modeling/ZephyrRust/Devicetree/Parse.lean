import ZephyrRust.Devicetree
import ZephyrRust.Devicetree.Grammar

/-!
# `ZephyrRust.Devicetree.Parse`: from the parse tree to the device tree

`zephyr-build/src/devicetree/parse.rs`. `TreeBuilder` walks over the nodes of the parse tree and
makes the device tree. It carries the path and the route of the parent down, and it collects all
labels in a map. The name of a node comes before its children, and `LazyName` keeps what is known of
it so far.

The map from paths to ordinals comes from `devicetree_generated.h`. It is an argument here.
-/

set_option autoImplicit false

namespace ZephyrRust.Devicetree

open ZephyrRust.Lib.Peg (Pair)

/-- `OrdMap`. -/
abbrev OrdMap := String → Option Nat

/-- `ords.0[path]`. -/
def OrdMap.index (ords : OrdMap) (path : String) : Except Panic Nat :=
  match ords path with
  | some ord => .ok ord
  | none => .error (.noOrd path)

/-! ## Values -/

/-- `char::to_digit`. -/
def toDigit (radix : Nat) (c : Char) : Option Nat :=
  let d :=
    if '0' ≤ c ∧ c ≤ '9' then some (c.toNat - 48)
    else if 'a' ≤ c ∧ c ≤ 'z' then some (c.toNat - 87)
    else if 'A' ≤ c ∧ c ≤ 'Z' then some (c.toNat - 55)
    else none
  d.filter fun d => d < radix

/-- The number that the digits continue `acc` to, as long as it is less than `size`. -/
def digitsFrom (radix size acc : Nat) : List Char → Option Nat
  | [] => some acc
  | c :: t =>
    match toDigit radix c with
    | none => none
    | some d =>
      if acc * radix + d < size then digitsFrom radix size (acc * radix + d) t else none

/-- `from_str_radix` of an unsigned type with `size` values, on a text without a sign. -/
def fromStrRadix (radix size : Nat) (t : List Char) : Except Panic Nat :=
  if t = [] then .error .number
  else
    match digitsFrom radix size 0 t with
    | some n => .ok n
    | none => .error .number

/-- A node of `decode_words`. -/
def decodeWord (p : Pair Rule) : Except Panic Word :=
  match p.rule with
  | .hexNumber =>
    -- Without `0x`.
    (fromStrRadix 16 UInt32.size (p.text.drop 2)).map fun n => .number (UInt32.ofNat n)
  | .decimalNumber =>
    (fromStrRadix 10 UInt32.size p.text).map fun n => .number (UInt32.ofNat n)
  | .phandle => .ok (.phandle (Phandle.new (String.ofList (p.text.drop 1))))
  | _ => .error .rule

/-- `decode_words`. -/
def decodeWords (p : Pair Rule) : Except Panic (List Word) := p.inner.mapM decodeWord

/-- A node of `decode_bytes`. -/
def decodeByte (p : Pair Rule) : Except Panic UInt8 :=
  match p.rule with
  | .plainHexNumber => (fromStrRadix 16 UInt8.size p.text).map UInt8.ofNat
  | _ => .error .rule

/-- `decode_bytes`. -/
def decodeBytes (p : Pair Rule) : Except Panic (List UInt8) := p.inner.mapM decodeByte

/-- The loop of `decode_property`, with the name and the values so far. -/
def decodePropertyLoop (name : Option String) (value : List Value) :
    List (Pair Rule) → Except Panic Property
  | [] =>
    match name with
    | some name => .ok { name := name, value := value }
    | none => .error .noName
  | p :: ps =>
    match p.rule with
    | .nodename => decodePropertyLoop (some (String.ofList p.text)) value ps
    | .words => do
      let ws ← decodeWords p
      decodePropertyLoop name (value ++ [.words ws]) ps
    | .phandle =>
      let ph := Phandle.new (String.ofList (p.text.drop 1))
      decodePropertyLoop name (value ++ [.phandle ph]) ps
    | .string =>
      -- Without the quotes.
      let text := String.ofList (p.text.drop 1).dropLast
      decodePropertyLoop name (value ++ [.string text]) ps
    | .bytes => do
      let bs ← decodeBytes p
      decodePropertyLoop name (value ++ [.bytes bs]) ps
    | _ => .error .rule

/-- `decode_property`. -/
def decodeProperty (p : Pair Rule) : Except Panic Property :=
  decodePropertyLoop none [] p.inner

/-! ## Names -/

/-- `Info`. -/
structure Info where
  name : String
  path : String
  ord : Nat

/-- `LazyName`. -/
structure LazyName where
  /-- The path of the parent. It is empty for the root. -/
  path : String
  route : List String
  info : Option Info

namespace LazyName

/-- `LazyName::new`. -/
def new (ords : OrdMap) (path : String) (route : List String) : Except Panic LazyName :=
  if path = "" then do
    let ord ← ords.index "/"
    return { path, route, info := some { name := "/", path := "/", ord } }
  else .ok { path, route, info := none }

/-- `LazyName::set`. -/
def set (ords : OrdMap) (l : LazyName) (name : String) : Except Panic LazyName :=
  match l.info with
  | some _ => .error .multipleNames
  | none => do
    let path := if 1 < l.path.length then l.path ++ "/" ++ name else l.path ++ name
    let ord ← ords.index path
    return { l with route := l.route ++ [name], info := some { name, path, ord } }

/-- The `unwrap` in `path_ref` and in `into_node`. -/
def known (l : LazyName) : Except Panic Info :=
  match l.info with
  | some info => .ok info
  | none => .error .noName

end LazyName

/-! ## Nodes -/

/-- `TreeBuilder`, and the address of the next `Rc`. -/
structure Builder where
  labels : Labels
  next : Nat

/-- What the loop of `walk_node` has collected. -/
structure Parts where
  name : LazyName
  labels : List String
  properties : List Property
  children : List Node

/-- The end of `walk_node`: the node is put into an `Rc`, and its labels into the map. -/
def Parts.finish (parts : Parts) (b : Builder) : Except Panic (Node × Builder) := do
  let info ← parts.name.known
  let node : Node :=
    { id := b.next
      name := info.name
      path := info.path
      route := parts.name.route
      ord := info.ord
      labels := parts.labels
      properties := parts.properties
      children := parts.children
      parent := none }
  return (node,
    { labels := parts.labels.foldl (fun m l => m.insert l b.next) b.labels
      next := b.next + 1 })

mutual

/-- `TreeBuilder::walk_node`. -/
def walkNode (ords : OrdMap) (path : String) (route : List String) :
    Pair Rule → Builder → Except Panic (Node × Builder)
  | .mk _ _ inner, b => do
    let name ← LazyName.new ords path route
    let (parts, b) ← walkInner ords inner ⟨name, [], [], []⟩ b
    parts.finish b

/-- The loop of `TreeBuilder::walk_node`. -/
def walkInner (ords : OrdMap) :
    List (Pair Rule) → Parts → Builder → Except Panic (Parts × Builder)
  | [], parts, b => .ok (parts, b)
  | p :: ps, parts, b =>
    match p.rule with
    | .nodename => do
      let name ← parts.name.set ords (String.ofList p.text)
      walkInner ords ps { parts with name := name } b
    | .label =>
      walkInner ords ps { parts with labels := parts.labels ++ [String.ofList p.text] } b
    | .property => do
      let property ← decodeProperty p
      walkInner ords ps { parts with properties := parts.properties ++ [property] } b
    | .node => do
      let info ← parts.name.known
      let (child, b) ← walkNode ords info.path parts.name.route p b
      walkInner ords ps { parts with children := parts.children ++ [child] } b
    | _ => .error .rule

end

/-- `TreeBuilder::walk`. -/
def walk (ords : OrdMap) : List (Pair Rule) → Except Panic DeviceTree
  | [] => .error .noNode
  | p :: _ =>
    if p.rule = .node then do
      let (root, b) ← walkNode ords "" [] p { labels := [], next := 0 }
      return { root := root, labels := b.labels }
    else .error .noNode

/-- `parse`, for texts of at most `depth` levels. -/
def parse (depth : Nat) (text : List Char) (ords : OrdMap) : Except Panic DeviceTree :=
  match Grammar.file depth text with
  | some (pairs, _) => walk ords pairs
  | none => .error .parsing

/-- `DeviceTree::new`. -/
def DeviceTree.new (depth : Nat) (text : List Char) (ords : OrdMap) :
    Except Panic DeviceTree := do
  let dt ← parse depth text ords
  dt.link

end ZephyrRust.Devicetree
