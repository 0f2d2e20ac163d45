import ZephyrRust.Proofs.Devicetree.Output

/-!
# `ZephyrRust.Proofs.Devicetree.Accessors`: references between accessors

A generated `get_instance` calls `get_instance_raw`, and for a phandle also `get_static_raw`, maybe in
the module of another node. `NoDangling` says that all such calls find their function, for a given set
of `CONFIG` flags.

`exists_adds_of_fn` finds for each function the node and the augmentation that it comes from, and
`hasFn_iff` says when a module has the raw accessors. The path of a call is compared with the place of
its target by `climb_of_le`, which follows `super` and the parents of nodes at the same time.

`accessors_connected` is the result for `dt-rust.yaml`. `RawInfo::Parent` checks the status of the
ancestor and `RawInfo::Phandle` does not check that of its target, and none of them checks that its
device has an augmentation with the raw accessors.
-/

set_option autoImplicit false

namespace ZephyrRust.Devicetree

open ZephyrRust.Lib.Fallible

/-! ## Functions and calls -/

/-- The item is compiled: it has no `cfg`, or the flag is set. -/
def Enabled (flags : Set String) (cfg : Option String) : Prop := ∀ flag, cfg = some flag → flag ∈ flags

/-- The raw accessors that a function calls. -/
def Body.calls : Body → List (ModPath × String)
  | .new _ raw true _ => [(raw, "get_instance_raw"), (raw, "get_static_raw")]
  | .new _ raw false _ => [(raw, "get_instance_raw")]
  | _ => []

/-- The module that a path leads to, from the module `path`. -/
def ModPath.resolve (path : List String) : ModPath → Option (List String)
  | .here => some path
  | .crate route => some route
  | .super level =>
    if level ≤ path.length then some (path.take (path.length - level)) else none

/-- The module `path` has the function, and it is compiled. -/
def HasFn (flags : Set String) (items : List Item) (path : List String) (name : String) : Prop :=
  ∃ body cfg b, ModAt items path body ∧ .fn cfg name b ∈ body ∧ Enabled flags cfg

section

variable {dt : DeviceTree} {n : Node} {items : List Item}

namespace Augment

/-- The augmentation matches `n`, and `items` are what one of its instances adds. -/
def Augmentation.Adds (aug : Augmentation) (dt : DeviceTree) (n : Node) (raw : RawInfo)
    (items : List Item) : Prop :=
  aug.isCompatible dt n = true ∧ ∃ device staticType,
    .inst raw device staticType ∈ aug.actions ∧
      raw.generate dt n device staticType aug.cfg = .ok items

theorem Augmentation.Adds.generates {aug : Augmentation} {raw : RawInfo}
    (h : aug.Adds dt n raw items) : raw.Generates dt n aug.cfg items := by
  obtain ⟨-, device, staticType, -, hgen⟩ := h
  exact rawInfo_generates hgen

/-- A function that an augmentation adds is of an instance. -/
theorem exists_adds_of_augment {aug : Augmentation} {added : List Item}
    (h : aug.toAugment.augment dt n = .ok added) {cfg : Option String} {name : String} {b : Body}
    (hmem : .fn cfg name b ∈ added) :
    ∃ raw items, aug.Adds dt n raw items ∧ .fn cfg name b ∈ items := by
  obtain ⟨hcompat, action, haction, items, hok, hitem⟩ := mem_augment h hmem
  cases action with
  | inst raw device staticType =>
    exact ⟨raw, items, ⟨hcompat, device, staticType, haction, hok⟩, hitem⟩
  | rawProperties =>
    obtain ⟨p, -, hp⟩ := mem_of_mapM hok hitem
    obtain ⟨tag, -, hp⟩ := bind_eq_ok.mp hp
    cases hp
  | labels =>
    obtain ⟨nodes, -, hok⟩ := bind_eq_ok.mp hok
    rw [← Except.ok.inj hok] at hitem
    cases List.mem_singleton.mp hitem

/-- There is no function in a module that an augmentation adds. -/
theorem fn_not_mem_of_mod {aug : Augmentation} {added body body' : List Item}
    (h : aug.toAugment.augment dt n = .ok added) {name : String} (hmem : .mod name body ∈ added)
    {path : List String} (hmod : ModAt body path body') {cfg : Option String} {f : String}
    {b : Body} : .fn cfg f b ∉ body' := by
  intro hfn
  obtain ⟨-, action, -, items, hok, hmem⟩ := mem_augment h hmem
  obtain ⟨-, -, hnodes⟩ := action_mod hok hmem
  cases hmod with
  | here =>
    obtain ⟨e, -, he⟩ := mem_of_mapM hnodes hfn
    obtain ⟨route, hitem⟩ := labelModule_eq_ok he
    cases hitem
  | inside hinner hmod =>
    obtain ⟨e, -, he⟩ := mem_of_mapM hnodes hinner
    obtain ⟨route, hitem⟩ := labelModule_eq_ok he
    cases hitem
    cases hmod with
    | here => cases List.mem_singleton.mp hfn
    | inside hinner _ => cases List.mem_singleton.mp hinner

/-- What an instance adds is in the module of its node. -/
theorem exists_adds_of_compatible {augs : List Augmentation}
    (h : dt.nodeItems (augs.map Augmentation.toAugment) n = .ok items) {aug : Augmentation}
    (haug : aug ∈ augs) (hcompat : aug.isCompatible dt n = true) {raw : RawInfo} {device : String}
    {staticType : Option String} (haction : .inst raw device staticType ∈ aug.actions) :
    ∃ added, aug.Adds dt n raw added ∧ ∀ item ∈ added, item ∈ items := by
  obtain ⟨all, hall, hsub⟩ := added_subset_nodeItems h
    (List.mem_map_of_mem (f := Augmentation.toAugment) haug)
  obtain ⟨added, hok, hsub'⟩ := action_subset_augment hall hcompat haction
  exact ⟨added, ⟨hcompat, device, staticType, haction, hok⟩,
    fun item hitem => hsub item (hsub' item hitem)⟩

end Augment

open Augment

/-- The node and the augmentation of a function. -/
theorem exists_adds_of_fn {augs : List Augmentation} {path : List String} {body : List Item}
    (h : dt.nodeItems (augs.map Augmentation.toAugment) n = .ok items)
    (hmod : ModAt items path body) {cfg : Option String} {name : String} {b : Body}
    (hmem : .fn cfg name b ∈ body) :
    ∃ names m, Under n names m ∧ path = names.map fixId ∧ ∃ aug ∈ augs, ∃ raw added,
      aug.Adds dt m raw added ∧ .fn cfg name b ∈ added := by
  induction n using Node.induct generalizing items path body with
  | h n ih =>
    cases hmod with
    | here =>
      rcases mem_nodeItems h hmem with ⟨p, -, hwalk⟩ | ⟨c, -, hchild⟩ | ⟨a, ha, added, hok, hadd⟩
      · rcases propertyWalk_eq_ok hwalk with ⟨-, -, -, _, -, -, he⟩ | ⟨-, ⟨_, _, he⟩ | ⟨_, _, he⟩⟩
        all_goals cases he
      · obtain ⟨nameId, -, hchild⟩ := bind_eq_ok.mp hchild
        obtain ⟨inner, -, hchild⟩ := bind_eq_ok.mp hchild
        cases hchild
      · obtain ⟨aug, haug, rfl⟩ := List.mem_map.mp ha
        obtain ⟨raw, its, hadds, hfn⟩ := exists_adds_of_augment hok hadd
        exact ⟨[], n, .refl n, rfl, aug, haug, raw, its, hadds, hfn⟩
    | @inside _ inner _ modName path hinner hmod =>
      rcases mem_nodeItems h hinner with ⟨p, -, hwalk⟩ | ⟨c, hc, hchild⟩ | ⟨a, ha, added, hok, hadd⟩
      · obtain ⟨-, -, route, rfl⟩ := propertyWalk_mod hwalk
        cases hmod with
        | here => cases List.mem_singleton.mp hmem
        | inside hinner _ => cases List.mem_singleton.mp hinner
      · obtain ⟨nameId, hname, hchild⟩ := bind_eq_ok.mp hchild
        obtain ⟨inner, hitems, hchild⟩ := bind_eq_ok.mp hchild
        cases Except.ok.inj hchild
        rw [dtToLowerId_eq_ok hname]
        -- Without the constant `ORD`, it is the module of the child.
        have hsub : ∃ body', ModAt inner path body' ∧ .fn cfg name b ∈ body' := by
          by_cases hpath : path = []
          · subst hpath
            cases hmod with
            | here =>
              rcases List.mem_cons.mp hmem with he | hmem
              · cases he
              · exact ⟨inner, .here inner, hmem⟩
          · exact ⟨body, hmod.of_ord hpath, hmem⟩
        obtain ⟨body', hmod', hmem'⟩ := hsub
        obtain ⟨names, m, hu, rfl, hrest⟩ := ih c hc hitems hmod' hmem'
        exact ⟨c.name :: names, m, .child hc hu, rfl, hrest⟩
      · obtain ⟨aug, -, rfl⟩ := List.mem_map.mp ha
        exact absurd hmem (fn_not_mem_of_mod hok hadd hmod)

/-! ## Paths to ancestors -/

variable {ords : OrdMap} {names : List String}

/-- The parent of a node that is not the root. -/
theorem parentIn_of_under (hvalid : dt.Valid ords) (hu : Under dt.root names n)
    (hne : names ≠ []) : ∃ p, n.parentIn dt = some p ∧ Under dt.root names.dropLast p := by
  obtain ⟨p, hp, hc⟩ := hu.parent hne
  refine ⟨p, ?_, hp⟩
  rw [Node.parentIn, hvalid.childParent p hp.mem_nodes n hc]
  exact deref_of_mem hvalid.ids hp.mem_nodes

/-- The loop over the parents stays on the way from the root to the node. -/
theorem climb_of_le (hvalid : dt.Valid ords) {k : Nat} (hu : Under dt.root names n)
    (hk : k ≤ names.length) :
    ∃ anc, climb dt k (some n) = some anc ∧
      Under dt.root (names.take (names.length - k)) anc := by
  induction k generalizing names n with
  | zero =>
    refine ⟨n, rfl, ?_⟩
    rw [Nat.sub_zero, List.take_length]
    exact hu
  | succ k ih =>
    have hne : names ≠ [] := List.ne_nil_of_length_pos (by omega)
    obtain ⟨p, hparent, hp⟩ := parentIn_of_under hvalid hu hne
    have hlen : names.dropLast.length = names.length - 1 := List.length_dropLast
    obtain ⟨anc, hclimb, hanc⟩ := ih hp (by omega)
    refine ⟨anc, ?_, ?_⟩
    · rw [climb, Option.bind_some, hparent]
      exact hclimb
    · rw [hlen, List.dropLast_eq_take, List.take_take] at hanc
      rw [show names.length - (k + 1) = min (names.length - 1 - k) (names.length - 1) by omega]
      exact hanc

theorem climb_none (dt : DeviceTree) (k : Nat) : climb dt k none = none := by
  induction k with
  | zero => rfl
  | succ k ih => exact ih

/-- It stops at the root. -/
theorem climb_of_lt (hvalid : dt.Valid ords) {k : Nat} (hu : Under dt.root names n)
    (hk : names.length < k) : climb dt k (some n) = none := by
  induction k generalizing names n with
  | zero => omega
  | succ k ih =>
    rw [climb, Option.bind_some]
    by_cases hne : names = []
    · subst hne
      cases hu
      rw [Node.parentIn, hvalid.rootParent, Option.bind_none, climb_none]
    · obtain ⟨p, hparent, hp⟩ := parentIn_of_under hvalid hu hne
      have hlen : names.dropLast.length = names.length - 1 := List.length_dropLast
      have hpos : 0 < names.length := List.length_pos_iff.mpr hne
      rw [hparent]
      exact ih hp (by omega)

theorem ancestor_eq_climb {level : Nat} (hlevel : level ≠ 0) (dt : DeviceTree) (n : Node) :
    ancestor dt level n = climb dt level (some n) := by
  cases level with
  | zero => exact absurd rfl hlevel
  | succ k => rfl

/-- A path of `super` leads to the module of the ancestor, if there is one. -/
theorem resolve_super (hvalid : dt.Valid ords) {level : Nat} (hlevel : level ≠ 0)
    (hu : Under dt.root names n) {target : List String} :
    (ModPath.super level).resolve (names.map fixId) = some target ↔
      ∃ anc, ancestor dt level n = some anc ∧ target = anc.route.map fixId := by
  rw [ModPath.resolve, ancestor_eq_climb hlevel, List.length_map]
  by_cases hle : level ≤ names.length
  · obtain ⟨anc, hclimb, hanc⟩ := climb_of_le hvalid hu hle
    rw [if_pos hle, hclimb, ← List.map_take]
    constructor
    · intro he
      refine ⟨anc, rfl, ?_⟩
      rw [(hvalid.coherent hanc).2]
      exact (Option.some.inj he).symm
    · rintro ⟨anc', he, rfl⟩
      cases Option.some.inj he
      rw [(hvalid.coherent hanc).2]
  · rw [if_neg hle, climb_of_lt hvalid hu (Nat.lt_of_not_le hle)]
    constructor
    · intro he
      cases he
    · rintro ⟨anc, he, -⟩
      cases he

/-! ## Raw accessors -/

/-- The augmentations with raw accessors. -/
def rawDevices : List Augmentation :=
  [gpioController, pwmLedController, ws2812RpiPicoPioLedStrip, ws2812SpiLedStrip,
    ws2812GpioLedStrip, i2cController, flashController]

/-- The node is okay, and one of these augmentations matches it and is compiled. -/
def RawDevice (dt : DeviceTree) (flags : Set String) (n : Node) : Prop :=
  okay n = true ∧ ∃ aug ∈ rawDevices, aug.isCompatible dt n = true ∧ Enabled flags aug.cfg

/-- There is such a node with the path. -/
def Supplied (dt : DeviceTree) (flags : Set String) (path : List String) : Prop :=
  ∃ m ∈ dt.root.nodes, m.route.map fixId = path ∧ RawDevice dt flags m

variable {flags : Set String} {aug : Augmentation} {raw : RawInfo}

theorem enabled_some {flag : String} : Enabled flags (some flag) ↔ flag ∈ flags := by
  constructor
  · intro h
    exact h flag rfl
  · rintro h flag' he
    rw [← Option.some.inj he]
    exact h

theorem enabled_none : Enabled flags none := by
  intro flag he
  cases he

/-- All instances of `dt-rust.yaml`. -/
theorem dtRust_instances (haug : aug ∈ dtRust) (h : aug.Adds dt n raw items) :
    (raw = .myself ∧ aug ∈ rawDevices) ∨
    (raw = .phandle "gpios" ∧ (aug = gpioLeds ∨ aug = gpioKeys)) ∨
    (raw = .parent 1 [.childIdx] ∧ aug = pwmLeds) ∨
    (raw = .parent 3 [.reg] ∧ aug = flashPartition) := by
  obtain ⟨-, device, staticType, haction, -⟩ := h
  simp only [dtRust, List.mem_cons, List.not_mem_nil, or_false] at haug
  rcases haug with rfl | rfl | rfl | rfl | rfl | rfl | rfl | rfl | rfl | rfl | rfl | rfl | rfl
  all_goals cases List.mem_singleton.mp haction
  all_goals simp [rawDevices]

theorem rawDevices_subset (haug : aug ∈ rawDevices) :
    aug ∈ dtRust ∧ ∃ device staticType, .inst .myself device staticType ∈ aug.actions := by
  simp only [rawDevices, List.mem_cons, List.not_mem_nil, or_false] at haug
  rcases haug with rfl | rfl | rfl | rfl | rfl | rfl | rfl
  all_goals exact ⟨by simp [dtRust], _, _, List.mem_singleton_self _⟩

theorem fn_mem_instanceItems {cfg cfg' : Option String} {static : List String} {b b' : Body}
    {name : String} (h : .fn cfg' name b' ∈ instanceItems cfg static b) :
    cfg' = cfg ∧ name = "get_instance" ∧ b' = b := by
  simp only [instanceItems, List.mem_cons, List.not_mem_nil, or_false] at h
  rcases h with he | he | he
  · cases he
  · cases he
  · cases he
    exact ⟨rfl, rfl, rfl⟩

theorem get_instance_mem_instanceItems (cfg : Option String) (static : List String) (b : Body) :
    .fn cfg "get_instance" b ∈ instanceItems cfg static b := by
  simp [instanceItems]

/-- What the instances of an augmentation add is in the module of the node. -/
theorem exists_module_of_adds {augs : List Augmentation}
    (htokens : dt.toTokens (augs.map Augmentation.toAugment) = .ok items)
    (hu : Under dt.root names n) (haug : aug ∈ augs) (hcompat : aug.isCompatible dt n = true)
    {device : String} {staticType : Option String}
    (haction : .inst raw device staticType ∈ aug.actions) :
    ∃ body added, ModAt items (names.map fixId) body ∧ aug.Adds dt n raw added ∧
      ∀ item ∈ added, item ∈ body := by
  obtain ⟨inner, hinner, hmod⟩ := isModuleOf_node htokens hu
  obtain ⟨added, hadds, hsub⟩ := exists_adds_of_compatible hinner haug hcompat haction
  refine ⟨_, added, hmod, hadds, fun item hitem => ?_⟩
  split
  · exact hsub item hitem
  · exact List.mem_cons_of_mem _ (hsub item hitem)

/-- Where the raw accessors are. -/
theorem hasFn_iff (hvalid : dt.Valid ords)
    (htokens : dt.toTokens (dtRust.map Augmentation.toAugment) = .ok items) {name : String}
    (hname : name = "get_instance_raw" ∨ name = "get_static_raw") (path : List String) :
    HasFn flags items path name ↔ Supplied dt flags path := by
  have hinstance : name ≠ "get_instance" := by
    rcases hname with rfl | rfl <;> decide
  constructor
  · rintro ⟨body, cfg, b, hmod, hmem, henabled⟩
    obtain ⟨names, m, hu, rfl, aug, haug, raw, added, hadds, hfn⟩ :=
      exists_adds_of_fn htokens hmod hmem
    cases hadds.generates with
    | @myself deviceId static hok =>
      have hcfg : cfg = aug.cfg := by
        rcases List.mem_append.mp hfn with hfn | hfn
        · simp only [List.mem_cons, List.not_mem_nil, or_false] at hfn
          rcases hfn with he | he <;> cases he <;> rfl
        · exact absurd (fn_mem_instanceItems hfn).2.1 hinstance
      rcases dtRust_instances haug hadds with ⟨-, hraw⟩ | ⟨he, -⟩ | ⟨he, -⟩ | ⟨he, -⟩
      · refine ⟨m, hu.mem_nodes, ?_, hok, aug, hraw, hadds.1, hcfg ▸ henabled⟩
        rw [(hvalid.coherent hu).2]
      all_goals cases he
    | disabled _ => cases hfn
    | phandle _ _ => exact absurd (fn_mem_instanceItems hfn).2.1 hinstance
    | parent _ _ => exact absurd (fn_mem_instanceItems hfn).2.1 hinstance
    | below _ _ => cases hfn
  · rintro ⟨m, hm, rfl, hok, aug, hraw, hcompat, henabled⟩
    obtain ⟨haug, device, staticType, haction⟩ := rawDevices_subset hraw
    obtain ⟨names, hu⟩ := exists_under_of_mem_nodes hm
    obtain ⟨body, added, hmod, hadds, hsub⟩ := exists_module_of_adds htokens hu haug hcompat haction
    rw [(hvalid.coherent hu).2]
    cases hadds.generates with
    | myself _ =>
      rcases hname with rfl | rfl
      · exact ⟨body, aug.cfg, _, hmod, hsub _ List.mem_cons_self, henabled⟩
      · exact ⟨body, aug.cfg, _, hmod, hsub _ (List.mem_cons_of_mem _ List.mem_cons_self), henabled⟩
    | disabled hno =>
      rw [hok] at hno
      cases hno

/-! ## No dangling calls -/

/-- The node whose device an instance takes. -/
def Augment.RawInfo.source (dt : DeviceTree) (n : Node) : RawInfo → Option Node
  | .myself => some n
  | .parent level _ => ancestor dt level n
  | .phandle pname => (phandleTarget dt n pname).toOption.map Prod.fst

/-- A compiled instance in the module of `n` takes the device of `t`. -/
def Refers (dt : DeviceTree) (flags : Set String) (n t : Node) : Prop :=
  ∃ aug ∈ dtRust, Enabled flags aug.cfg ∧ ∃ raw added, aug.Adds dt n raw added ∧ added ≠ [] ∧
    raw.source dt n = some t

/-- Every call in a compiled `get_instance` finds its function, which is compiled too, and no instance
takes the device of a node that is not okay. -/
structure NoDangling (dt : DeviceTree) (flags : Set String) (items : List Item) : Prop where
  calls : ∀ path body cfg b, ModAt items path body → .fn cfg "get_instance" b ∈ body →
    Enabled flags cfg → ∀ call ∈ b.calls, ∃ target, call.1.resolve path = some target ∧
      HasFn flags items target call.2
  status : ∀ n ∈ dt.root.nodes, ∀ t, Refers dt flags n t → okay t = true

/-- The instances of `dt-rust.yaml` for other nodes find their devices. The instances of "pwm-leds"
always do, so they need no condition. -/
structure Connected (dt : DeviceTree) (flags : Set String) : Prop where
  gpios : ∀ n ∈ dt.root.nodes,
    (gpioLeds.isCompatible dt n = true ∧ "CONFIG_GPIO" ∈ flags) ∨
      gpioKeys.isCompatible dt n = true →
    ∀ target args, phandleTarget dt n "gpios" = .ok (target, args) →
      okay target = true ∧ Supplied dt flags (target.route.map fixId)
  partitions : ∀ n ∈ dt.root.nodes, flashPartition.isCompatible dt n = true →
    "CONFIG_FLASH" ∈ flags →
    ∃ anc, ancestor dt 3 n = some anc ∧
      (okay anc = true → Supplied dt flags (anc.route.map fixId))

theorem routeToRust_eq_ok {t : Node} {route : List String} (h : t.routeToRust = .ok route) :
    route = t.route.map fixId :=
  mapM_dtToLowerId_eq_ok h

section

variable (hvalid : dt.Valid ords)
  (htokens : dt.toTokens (dtRust.map Augmentation.toAugment) = .ok items)

include hvalid htokens

/-- An instance with a phandle shows that its target has the accessors. -/
theorem NoDangling.phandle (h : NoDangling dt flags items) (hn : n ∈ dt.root.nodes)
    (haug : aug ∈ dtRust) (hcompat : aug.isCompatible dt n = true)
    (henabled : Enabled flags aug.cfg) {pname device : String} {staticType : Option String}
    (haction : .inst (.phandle pname) device staticType ∈ aug.actions) {target : Node}
    {args : List UInt32} (htarget : phandleTarget dt n pname = .ok (target, args)) :
    okay target = true ∧ Supplied dt flags (target.route.map fixId) := by
  obtain ⟨names, hu⟩ := exists_under_of_mem_nodes hn
  obtain ⟨body, added, hmod, hadds, hsub⟩ := exists_module_of_adds htokens hu haug hcompat haction
  constructor
  · refine h.status n hn target ⟨aug, haug, henabled, .phandle pname, added, hadds, ?_, ?_⟩
    · cases hadds.generates with
      | phandle _ _ => exact List.cons_ne_nil _ _
    · rw [RawInfo.source, htarget]
      rfl
  · cases hadds.generates with
    | phandle htarget' hroute =>
      cases Except.ok.inj (htarget.symm.trans htarget')
      obtain ⟨path, hpath, hfn⟩ := h.calls _ body _ _ hmod
        (hsub _ (get_instance_mem_instanceItems _ _ _)) henabled _ List.mem_cons_self
      rw [← routeToRust_eq_ok hroute, Option.some.inj hpath]
      exact (hasFn_iff hvalid htokens (Or.inl rfl) path).mp hfn

/-- An instance with an ancestor shows that there is one, and that it has the accessors. -/
theorem NoDangling.parent (h : NoDangling dt flags items) (hn : n ∈ dt.root.nodes)
    (haug : aug ∈ dtRust) (hcompat : aug.isCompatible dt n = true)
    (henabled : Enabled flags aug.cfg) {level : Nat} {infos : List ArgInfo} {device : String}
    {staticType : Option String}
    (haction : .inst (.parent level infos) device staticType ∈ aug.actions) :
    ∃ anc, ancestor dt level n = some anc ∧
      (okay anc = true → Supplied dt flags (anc.route.map fixId)) := by
  obtain ⟨names, hu⟩ := exists_under_of_mem_nodes hn
  obtain ⟨body, added, hmod, hadds, hsub⟩ := exists_module_of_adds htokens hu haug hcompat haction
  cases hadds.generates with
  | parent hlevel _ =>
    obtain ⟨path, hpath, hfn⟩ := h.calls _ body _ _ hmod
      (hsub _ (get_instance_mem_instanceItems _ _ _)) henabled _ List.mem_cons_self
    obtain ⟨anc, hanc, rfl⟩ := (resolve_super hvalid hlevel hu).mp hpath
    exact ⟨anc, hanc, fun _ => (hasFn_iff hvalid htokens (Or.inl rfl) _).mp hfn⟩
  | below hanc hno =>
    refine ⟨_, hanc, fun hok => ?_⟩
    rw [hok] at hno
    cases hno

theorem NoDangling.connected (h : NoDangling dt flags items) : Connected dt flags where
  gpios n hn hcase target args htarget := by
    rcases hcase with ⟨hcompat, hflag⟩ | hcompat
    · exact h.phandle hvalid htokens hn (by simp [dtRust]) hcompat (enabled_some.mpr hflag)
        (List.mem_singleton_self _) htarget
    · exact h.phandle hvalid htokens hn (by simp [dtRust]) hcompat enabled_none
        (List.mem_singleton_self _) htarget
  partitions n hn hcompat hflag :=
    h.parent hvalid htokens hn (by simp [dtRust]) hcompat (enabled_some.mpr hflag)
      (List.mem_singleton_self _)

end

theorem Connected.phandle (h : Connected dt flags) (hn : n ∈ dt.root.nodes) (haug : aug ∈ dtRust)
    {pname : String} {added : List Item} (hadds : aug.Adds dt n (.phandle pname) added)
    (henabled : Enabled flags aug.cfg) {target : Node} {args : List UInt32}
    (htarget : phandleTarget dt n pname = .ok (target, args)) :
    okay target = true ∧ Supplied dt flags (target.route.map fixId) := by
  rcases dtRust_instances haug hadds with ⟨he, -⟩ | ⟨he, rfl | rfl⟩ | ⟨he, -⟩ | ⟨he, -⟩
  · cases he
  · cases he
    exact h.gpios n hn (Or.inl ⟨hadds.1, enabled_some.mp henabled⟩) target args htarget
  · cases he
    exact h.gpios n hn (Or.inr hadds.1) target args htarget
  · cases he
  · cases he

/-- The parent of an LED of "pwm-leds" is a controller. -/
theorem pwmLeds_parent (hcompat : pwmLeds.isCompatible dt n = true) :
    ∃ p ∈ dt.root.nodes, ancestor dt 1 n = some p ∧ pwmLedController.isCompatible dt p = true := by
  cases hparent : n.parentIn dt with
  | none =>
    simp [pwmLeds, instanceOf, Augmentation.isCompatible, Rule.isCompatible, parentCompatible,
      hparent] at hcompat
  | some p =>
    obtain ⟨a, -, hderef⟩ := Option.bind_eq_some_iff.mp hparent
    refine ⟨p, (mem_of_deref hderef).1, hparent, ?_⟩
    simpa [pwmLeds, pwmLedController, instanceOf, Augmentation.isCompatible, Rule.isCompatible,
      parentCompatible, hparent] using hcompat

theorem Connected.parent (h : Connected dt flags) (hn : n ∈ dt.root.nodes) (haug : aug ∈ dtRust)
    {level : Nat} {infos : List ArgInfo} {added : List Item}
    (hadds : aug.Adds dt n (.parent level infos) added) (henabled : Enabled flags aug.cfg)
    (hok : ∀ anc, ancestor dt level n = some anc → okay anc = true) :
    ∃ anc, ancestor dt level n = some anc ∧ Supplied dt flags (anc.route.map fixId) := by
  rcases dtRust_instances haug hadds with ⟨he, -⟩ | ⟨he, -⟩ | ⟨he, rfl⟩ | ⟨he, rfl⟩
  · cases he
  · cases he
  · cases he
    obtain ⟨p, hp, hparent, hcompat⟩ := pwmLeds_parent hadds.1
    exact ⟨p, hparent, p, hp, rfl, hok p hparent, pwmLedController, by simp [rawDevices], hcompat,
      henabled⟩
  · cases he
    obtain ⟨anc, hanc, hsupplied⟩ := h.partitions n hn hadds.1 (enabled_some.mp henabled)
    exact ⟨anc, hanc, hsupplied (hok anc hanc)⟩

theorem Connected.noDangling (h : Connected dt flags) (hvalid : dt.Valid ords)
    (htokens : dt.toTokens (dtRust.map Augmentation.toAugment) = .ok items) :
    NoDangling dt flags items where
  calls path body cfg b hmod hmem henabled call hcall := by
    obtain ⟨names, n, hu, rfl, aug, haug, raw, added, hadds, hfn⟩ :=
      exists_adds_of_fn htokens hmod hmem
    cases hadds.generates with
    | @myself deviceId static hok =>
      -- The call is to the module itself.
      have hcase : cfg = aug.cfg ∧ b = .new deviceId .here false [] := by
        rcases List.mem_append.mp hfn with hfn | hfn
        · simp only [List.mem_cons, List.not_mem_nil, or_false] at hfn
          rcases hfn with he | he <;> simp at he
        · exact ⟨(fn_mem_instanceItems hfn).1, (fn_mem_instanceItems hfn).2.2⟩
      obtain ⟨rfl, rfl⟩ := hcase
      cases List.mem_singleton.mp hcall
      refine ⟨names.map fixId, rfl, (hasFn_iff hvalid htokens (Or.inl rfl) _).mpr ?_⟩
      rcases dtRust_instances haug hadds with ⟨-, hraw⟩ | ⟨he, -⟩ | ⟨he, -⟩ | ⟨he, -⟩
      · refine ⟨n, hu.mem_nodes, ?_, hok, aug, hraw, hadds.1, henabled⟩
        rw [(hvalid.coherent hu).2]
      all_goals cases he
    | disabled _ => cases hfn
    | @phandle deviceId static route pname target args htarget hroute =>
      obtain ⟨rfl, -, rfl⟩ := fn_mem_instanceItems hfn
      have hsupplied := (h.phandle hu.mem_nodes haug hadds henabled htarget).2
      rw [← routeToRust_eq_ok hroute] at hsupplied
      simp only [Body.calls, List.mem_cons, List.not_mem_nil, or_false] at hcall
      rcases hcall with rfl | rfl
      · exact ⟨route, rfl, (hasFn_iff hvalid htokens (Or.inl rfl) route).mpr hsupplied⟩
      · exact ⟨route, rfl, (hasFn_iff hvalid htokens (Or.inr rfl) route).mpr hsupplied⟩
    | @parent deviceId static level infos args hlevel hok =>
      obtain ⟨rfl, -, rfl⟩ := fn_mem_instanceItems hfn
      obtain ⟨anc, hanc, hsupplied⟩ := h.parent hu.mem_nodes haug hadds henabled hok
      cases List.mem_singleton.mp hcall
      exact ⟨anc.route.map fixId, (resolve_super hvalid hlevel hu).mpr ⟨anc, hanc, rfl⟩,
        (hasFn_iff hvalid htokens (Or.inl rfl) _).mpr hsupplied⟩
    | below _ _ => cases hfn
  status n hn t := by
    rintro ⟨aug, haug, henabled, raw, added, hadds, hne, hsource⟩
    cases hadds.generates with
    | myself hok =>
      rw [← Option.some.inj hsource]
      exact hok
    | disabled _ => exact absurd rfl hne
    | phandle htarget _ =>
      rw [RawInfo.source, htarget] at hsource
      rw [← Option.some.inj hsource]
      exact (h.phandle hn haug hadds henabled htarget).1
    | parent _ hok => exact hok t hsource
    | below _ _ => exact absurd rfl hne

/-- When the calls in the accessors of `dt-rust.yaml` all find their functions. -/
theorem accessors_connected {depth : Nat} {text : List Char}
    (hnew : DeviceTree.new depth text ords = .ok dt)
    (htokens : dt.toTokens (dtRust.map Augmentation.toAugment) = .ok items) (flags : Set String) :
    NoDangling dt flags items ↔ Connected dt flags := by
  have hvalid := new_valid hnew
  constructor
  · intro h
    exact h.connected hvalid htokens
  · intro h
    exact h.noDangling hvalid htokens

/-- The LED of `gpioTree` finds its controller. -/
theorem accessors_connected_gpio :
    ∃ dt items, DeviceTree.new 4 gpioTree (fun _ => some 0) = .ok dt ∧
      dt.toTokens (dtRust.map Augmentation.toAugment) = .ok items ∧
      (∃ n ∈ dt.root.nodes, gpioLeds.isCompatible dt n = true) ∧
      NoDangling dt {"CONFIG_GPIO"} items := by
  have hcheck : (DeviceTree.new 4 gpioTree (fun _ => some 0)).toOption.any (fun dt =>
      dt.root.nodes.any (fun n => gpioLeds.isCompatible dt n) &&
        dt.root.nodes.all (fun n => !flashPartition.isCompatible dt n &&
          (phandleTarget dt n "gpios").toOption.all fun t =>
            okay t.1 && gpioController.isCompatible dt t.1) &&
        (dt.toTokens (dtRust.map Augmentation.toAugment)).toOption.any fun _ => true) = true := by
    decide +kernel
  obtain ⟨dt, hnew, hdt⟩ := exists_ok_of_any hcheck
  obtain ⟨hdt, htok⟩ := Bool.and_eq_true_iff.mp hdt
  obtain ⟨hled, hall⟩ := Bool.and_eq_true_iff.mp hdt
  obtain ⟨items, htokens, -⟩ := exists_ok_of_any htok
  refine ⟨dt, items, hnew, htokens, List.any_eq_true.mp hled, ?_⟩
  refine (accessors_connected hnew htokens _).mpr ⟨fun n hn _ target args htarget => ?_,
    fun n hn hcompat => ?_⟩
  · obtain ⟨-, htargets⟩ := Bool.and_eq_true_iff.mp (List.all_eq_true.mp hall n hn)
    rw [htarget] at htargets
    obtain ⟨hok, hcontroller⟩ := Bool.and_eq_true_iff.mp htargets
    obtain ⟨a, ha⟩ := phandleTarget_node htarget
    exact ⟨hok, target, mem_of_node ha, rfl, hok, gpioController, List.mem_cons_self, hcontroller,
      enabled_some.mpr rfl⟩
  · obtain ⟨hno, -⟩ := Bool.and_eq_true_iff.mp (List.all_eq_true.mp hall n hn)
    rw [hcompat] at hno
    cases hno

/-- An LED whose controller is disabled. -/
def disabledGpio : List Char :=
  ("/dts-v1/; / \x7b g: gpio@1 \x7b gpio-controller; status = \"disabled\"; \x7d; " ++
    "leds \x7b compatible = \"gpio-leds\"; led0 \x7b gpios = <&g 1 2>; \x7d; \x7d; \x7d;").toList

/-- `RawInfo::Phandle` does not check the status of the target. -/
theorem phandle_of_disabled_dangles :
    ∃ dt items, DeviceTree.new 4 disabledGpio (fun _ => some 0) = .ok dt ∧
      dt.toTokens (dtRust.map Augmentation.toAugment) = .ok items ∧
      ¬ NoDangling dt {"CONFIG_GPIO"} items := by
  have hcheck : (DeviceTree.new 4 disabledGpio (fun _ => some 0)).toOption.any (fun dt =>
      dt.root.nodes.any (fun n => gpioLeds.isCompatible dt n &&
        (phandleTarget dt n "gpios").toOption.any fun t => !okay t.1) &&
        (dt.toTokens (dtRust.map Augmentation.toAugment)).toOption.any fun _ => true) = true := by
    decide +kernel
  obtain ⟨dt, hnew, hdt⟩ := exists_ok_of_any hcheck
  obtain ⟨hled, htok⟩ := Bool.and_eq_true_iff.mp hdt
  obtain ⟨items, htokens, -⟩ := exists_ok_of_any htok
  obtain ⟨n, hn, hcond⟩ := List.any_eq_true.mp hled
  obtain ⟨hcompat, hcond⟩ := Bool.and_eq_true_iff.mp hcond
  obtain ⟨⟨target, args⟩, htarget, hno⟩ := exists_ok_of_any hcond
  refine ⟨dt, items, hnew, htokens, fun h => ?_⟩
  have hconnected := h.connected (new_valid hnew) htokens
  rw [(hconnected.gpios n hn (Or.inl ⟨hcompat, rfl⟩) target args htarget).1] at hno
  cases hno

end

end ZephyrRust.Devicetree
