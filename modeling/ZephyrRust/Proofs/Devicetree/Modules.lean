import ZephyrRust.Devicetree.Output
import ZephyrRust.Proofs.Devicetree.Links

/-!
# `ZephyrRust.Proofs.Devicetree.Modules`: the modules of the output

Where the items of the generated code come from. `nodeItems_eq_ok` takes `node_walk` apart, and
`RawInfo.Generates` has the outcomes of `RawInfo::generate`.

`ModAt items path body` says that the module with this path is in the code, with the items `body`.
`modAt_iff` finds all modules of the output: one for each node below the root, and in the module of
each node those of `Local`, which are the aliases of its properties and what the augmentations add.
-/

set_option autoImplicit false

namespace ZephyrRust.Devicetree

open ZephyrRust.Lib.Fallible

/-! ## Identifiers -/

theorem formatIdent_eq_ok {text id : String} (h : formatIdent text = .ok id) : id = text := by
  unfold formatIdent at h
  split at h
  · exact (Except.ok.inj h).symm
  · cases h

theorem dtToLowerId_eq_ok {text id : String} (h : dtToLowerId text = .ok id) :
    id = fixId text :=
  formatIdent_eq_ok h

theorem mapM_dtToLowerId_eq_ok {names ids : List String}
    (h : names.mapM dtToLowerId = .ok ids) : ids = names.map fixId := by
  induction names generalizing ids with
  | nil => exact (Except.ok.inj h).symm
  | cons name names ih =>
    rw [List.mapM_cons] at h
    obtain ⟨id, hid, h⟩ := bind_eq_ok.mp h
    obtain ⟨rest, hrest, h⟩ := bind_eq_ok.mp h
    rw [← Except.ok.inj h, ih hrest, dtToLowerId_eq_ok hid]
    rfl

/-- The name of a device tree has no colon, and `fix_id` adds none. -/
theorem colon_not_mem_fixId {name : String} (h : IsName name) : ':' ∉ (fixId name).toList := by
  intro hmem
  rw [fixId, String.toList_ofList] at hmem
  obtain ⟨c, hc, he⟩ := List.mem_map.mp hmem
  have hname := h.2 c hc
  unfold fixChar at he
  split at he
  · cases he
  · split at he
    · cases he
    · subst he
      cases hname

/-! ## The items of a node -/

/-- The module of a child. -/
def DeviceTree.childModule (dt : DeviceTree) (augs : List Augment) (c : Node) :
    Except Panic Item := do
  let nameId ← dtToLowerId c.name
  let items ← dt.nodeItems augs c
  return .mod nameId (.ord c.ord :: items)

theorem childModules_eq_mapM (dt : DeviceTree) (augs : List Augment) (cs : List Node) :
    dt.childModules augs cs = cs.mapM (dt.childModule augs) := by
  induction cs with
  | nil => rfl
  | cons c cs ih =>
    rw [DeviceTree.childModules, ih, List.mapM_cons, DeviceTree.childModule]
    cases dtToLowerId c.name with
    | error e => rfl
    | ok nameId =>
      cases dt.nodeItems augs c with
      | error e => rfl
      | ok items => rfl

section

variable {dt : DeviceTree} {augs : List Augment} {n : Node} {items : List Item}

/-- `node_walk` taken apart. -/
theorem nodeItems_eq_ok (h : dt.nodeItems augs n = .ok items) :
    ∃ props mods added, n.properties.mapM dt.propertyWalk = .ok props ∧
      n.children.mapM (dt.childModule augs) = .ok mods ∧
      augs.mapM (fun aug => aug.augment dt n) = .ok added ∧
      items = props ++ mods ++ added.flatten := by
  obtain ⟨id, name, path, route, ord, labels, properties, children, parent⟩ := n
  rw [DeviceTree.nodeItems, childModules_eq_mapM] at h
  obtain ⟨props, hprops, h⟩ := bind_eq_ok.mp h
  obtain ⟨mods, hmods, h⟩ := bind_eq_ok.mp h
  obtain ⟨added, hadded, h⟩ := bind_eq_ok.mp h
  exact ⟨props, mods, added, hprops, hmods, hadded, (Except.ok.inj h).symm⟩

/-- Where an item comes from: a property, a child or an augmentation. -/
theorem mem_nodeItems (h : dt.nodeItems augs n = .ok items) {item : Item} (hitem : item ∈ items) :
    (∃ p ∈ n.properties, dt.propertyWalk p = .ok item) ∨
      (∃ c ∈ n.children, dt.childModule augs c = .ok item) ∨
      ∃ aug ∈ augs, ∃ added, aug.augment dt n = .ok added ∧ item ∈ added := by
  obtain ⟨props, mods, added, hprops, hmods, hadded, rfl⟩ := nodeItems_eq_ok h
  rcases List.mem_append.mp hitem with hitem | hitem
  · rcases List.mem_append.mp hitem with hitem | hitem
    · exact Or.inl (mem_of_mapM hprops hitem)
    · exact Or.inr (Or.inl (mem_of_mapM hmods hitem))
  · obtain ⟨a, ha, hitem⟩ := List.mem_flatten.mp hitem
    obtain ⟨aug, haug, hok⟩ := mem_of_mapM hadded ha
    exact Or.inr (Or.inr ⟨aug, haug, a, hok, hitem⟩)

/-- Every property has its item. -/
theorem property_mem_nodeItems (h : dt.nodeItems augs n = .ok items) {p : Property}
    (hp : p ∈ n.properties) : ∃ item ∈ items, dt.propertyWalk p = .ok item := by
  obtain ⟨props, mods, added, hprops, -, -, rfl⟩ := nodeItems_eq_ok h
  obtain ⟨item, hitem, hok⟩ := mapM_of_mem hprops hp
  exact ⟨item, List.mem_append_left _ (List.mem_append_left _ hitem), hok⟩

/-- Every child has its module. -/
theorem child_mem_nodeItems (h : dt.nodeItems augs n = .ok items) {c : Node}
    (hc : c ∈ n.children) :
    ∃ body, dt.nodeItems augs c = .ok body ∧ .mod (fixId c.name) (.ord c.ord :: body) ∈ items := by
  obtain ⟨props, mods, added, -, hmods, -, rfl⟩ := nodeItems_eq_ok h
  obtain ⟨item, hitem, hok⟩ := mapM_of_mem hmods hc
  obtain ⟨nameId, hname, hok⟩ := bind_eq_ok.mp hok
  obtain ⟨body, hbody, hok⟩ := bind_eq_ok.mp hok
  refine ⟨body, hbody, List.mem_append_left _ (List.mem_append_right _ ?_)⟩
  rw [← dtToLowerId_eq_ok hname, Except.ok.inj hok]
  exact hitem

/-- What an augmentation adds is there. -/
theorem added_subset_nodeItems (h : dt.nodeItems augs n = .ok items) {aug : Augment}
    (haug : aug ∈ augs) : ∃ added, aug.augment dt n = .ok added ∧ ∀ item ∈ added, item ∈ items := by
  obtain ⟨props, mods, all, -, -, hadded, rfl⟩ := nodeItems_eq_ok h
  obtain ⟨added, hmem, hok⟩ := mapM_of_mem hadded haug
  exact ⟨added, hok, fun item hitem =>
    List.mem_append_right _ (List.mem_flatten.mpr ⟨added, hmem, hitem⟩)⟩

end

/-! ## Modules -/

/-- The code has the module `path` with the items `body`. -/
inductive ModAt : List Item → List String → List Item → Prop
  | here (items : List Item) : ModAt items [] items
  | inside {items body body' : List Item} {name : String} {path : List String}
      (hmem : .mod name body ∈ items) (h : ModAt body path body') :
      ModAt items (name :: path) body'

theorem ModAt.mono {items items' body : List Item} {path : List String} (h : ModAt items path body)
    (hne : path ≠ []) (hsub : ∀ item ∈ items, item ∈ items') : ModAt items' path body := by
  cases h with
  | here => exact absurd rfl hne
  | inside hmem h => exact .inside (hsub _ hmem) h

/-- The constant `ORD` is no module. -/
theorem ModAt.of_ord {items body : List Item} {ord : Nat} {path : List String}
    (h : ModAt (.ord ord :: items) path body) (hne : path ≠ []) : ModAt items path body := by
  cases h with
  | here => exact absurd rfl hne
  | inside hmem h =>
    rcases List.mem_cons.mp hmem with he | hmem
    · cases he
    · exact .inside hmem h

/-- There is no module in an alias. -/
theorem ModAt.of_reexport {route path : List String} {body : List Item}
    (h : ModAt [.reexport route] path body) : path = [] := by
  cases h with
  | here => rfl
  | inside hmem _ => cases List.mem_singleton.mp hmem

/-- The property has a module, which is an alias of its target. -/
def Property.IsAlias (p : Property) : Prop := ∃ ph, p.getSingleValue = some (.phandle ph)

/-- The item of a property: an alias, or a constant. -/
theorem propertyWalk_eq_ok {dt : DeviceTree} {p : Property} {item : Item}
    (h : dt.propertyWalk p = .ok item) :
    (p.IsAlias ∧ ∃ a target route, dt.node a = .ok target ∧ target.routeToRust = .ok route ∧
      item = .mod (fixId p.name) [.reexport route]) ∨
    (¬ p.IsAlias ∧ ((∃ tag n, item = .number tag n) ∨ ∃ tag value, item = .debug tag value)) := by
  unfold DeviceTree.propertyWalk at h
  split at h
  · rename_i n hvalue
    obtain ⟨tag, -, h⟩ := bind_eq_ok.mp h
    refine Or.inr ⟨?_, Or.inl ⟨tag, n, (Except.ok.inj h).symm⟩⟩
    rintro ⟨ph, hph⟩
    rw [hvalue] at hph
    cases hph
  · rename_i ph hvalue
    obtain ⟨a, -, h⟩ := bind_eq_ok.mp h
    obtain ⟨target, htarget, h⟩ := bind_eq_ok.mp h
    obtain ⟨route, hroute, h⟩ := bind_eq_ok.mp h
    obtain ⟨tag, htag, h⟩ := bind_eq_ok.mp h
    refine Or.inl ⟨⟨ph, hvalue⟩, a, target, route, htarget, hroute, ?_⟩
    rw [← Except.ok.inj h, dtToLowerId_eq_ok htag]
  · rename_i hno
    obtain ⟨tag, -, h⟩ := bind_eq_ok.mp h
    refine Or.inr ⟨?_, Or.inr ⟨tag, p.value, (Except.ok.inj h).symm⟩⟩
    rintro ⟨ph, hph⟩
    exact hno ph hph

/-- The module of a property, if it has one. -/
theorem propertyWalk_mod {dt : DeviceTree} {p : Property} {name : String} {body : List Item}
    (h : dt.propertyWalk p = .ok (.mod name body)) :
    p.IsAlias ∧ name = fixId p.name ∧ ∃ route, body = [.reexport route] := by
  rcases propertyWalk_eq_ok h with ⟨halias, -, -, route, -, -, he⟩ | ⟨-, ⟨_, _, he⟩ | ⟨_, _, he⟩⟩
  · cases he
    exact ⟨halias, rfl, route, rfl⟩
  · cases he
  · cases he

/-- The modules in the module of a node that are not nodes. -/
def Local (dt : DeviceTree) (augs : List Augment) (m : Node) (path : List String) : Prop :=
  (∃ p ∈ m.properties, p.IsAlias ∧ path = [fixId p.name]) ∨
    path ≠ [] ∧ ∃ aug ∈ augs, ∃ added body, aug.augment dt m = .ok added ∧ ModAt added path body

/-- All modules. -/
theorem modAt_iff {dt : DeviceTree} {augs : List Augment} {n : Node} {items : List Item}
    (h : dt.nodeItems augs n = .ok items) (path : List String) :
    (∃ body, ModAt items path body) ↔
      ∃ names m rest, Under n names m ∧ path = names.map fixId ++ rest ∧
        (rest = [] ∨ Local dt augs m rest) := by
  constructor
  · rintro ⟨body, hmod⟩
    induction n using Node.induct generalizing items path with
    | h n ih =>
      cases hmod with
      | here => exact ⟨[], n, [], .refl n, rfl, Or.inl rfl⟩
      | @inside _ inner _ name path hmem hmod =>
        -- The first module of the path is of a property, of a child or of an augmentation.
        rcases mem_nodeItems h hmem with ⟨p, hp, hwalk⟩ | ⟨c, hc, hchild⟩ | ⟨aug, haug, hadd⟩
        · obtain ⟨halias, rfl, route, rfl⟩ := propertyWalk_mod hwalk
          rw [hmod.of_reexport]
          exact ⟨[], n, _, .refl n, rfl, Or.inr (Or.inl ⟨p, hp, halias, rfl⟩)⟩
        · obtain ⟨nameId, hname, hchild⟩ := bind_eq_ok.mp hchild
          obtain ⟨inner, hinner, hchild⟩ := bind_eq_ok.mp hchild
          cases Except.ok.inj hchild
          rw [dtToLowerId_eq_ok hname]
          -- The path ends at the child, or it goes on below the constant `ORD`.
          by_cases hpath : path = []
          · subst hpath
            exact ⟨[c.name], c, [], .child hc (.refl c), rfl, Or.inl rfl⟩
          · obtain ⟨names, m, rest, hu, rfl, hrest⟩ := ih c hc hinner path (hmod.of_ord hpath)
            exact ⟨c.name :: names, m, rest, .child hc hu, rfl, hrest⟩
        · obtain ⟨added, hok, hitem⟩ := hadd
          exact ⟨[], n, name :: path, .refl n, rfl, Or.inr (Or.inr
            ⟨List.cons_ne_nil name path, aug, haug, added, body, hok, .inside hitem hmod⟩)⟩
  · rintro ⟨names, m, rest, hu, rfl, hrest⟩
    -- Down to the node first, and then to what is local there.
    induction hu generalizing items with
    | refl n =>
      rcases hrest with rfl | ⟨p, hp, halias, rfl⟩ | ⟨hne, aug, haug, added, body, hok, hmod⟩
      · exact ⟨items, .here items⟩
      · obtain ⟨item, hitem, hwalk⟩ := property_mem_nodeItems h hp
        rcases propertyWalk_eq_ok hwalk with ⟨-, -, -, route, -, -, rfl⟩ | ⟨hno, -⟩
        · exact ⟨[.reexport route], .inside hitem (.here _)⟩
        · exact absurd halias hno
      · obtain ⟨added', hok', hsub⟩ := added_subset_nodeItems h haug
        cases Except.ok.inj (hok.symm.trans hok')
        exact ⟨body, hmod.mono hne hsub⟩
    | @child n c m names hc _ ih =>
      obtain ⟨inner, hinner, hmem⟩ := child_mem_nodeItems h hc
      obtain ⟨body, hmod⟩ := ih hinner hrest
      by_cases hpath : names.map fixId ++ rest = []
      · refine ⟨.ord c.ord :: inner, ?_⟩
        rw [List.map_cons, List.cons_append, hpath]
        exact .inside hmem (.here _)
      · exact ⟨body, .inside hmem (hmod.mono hpath fun item hi => List.mem_cons_of_mem _ hi)⟩

/-- The module of a node has the items of the node. -/
theorem modAt_node {dt : DeviceTree} {augs : List Augment} {n m : Node} {items : List Item}
    {names : List String} (h : dt.nodeItems augs n = .ok items) (hu : Under n names m)
    (hne : names ≠ []) :
    ∃ body, dt.nodeItems augs m = .ok body ∧
      ModAt items (names.map fixId) (.ord m.ord :: body) := by
  induction hu generalizing items with
  | refl n => exact absurd rfl hne
  | @child n c m names hc hu ih =>
    obtain ⟨inner, hinner, hmem⟩ := child_mem_nodeItems h hc
    by_cases hnames : names = []
    · subst hnames
      cases hu
      exact ⟨inner, hinner, .inside hmem (.here _)⟩
    · obtain ⟨body, hbody, hmod⟩ := ih hinner hnames
      have hpath : names.map fixId ≠ [] := fun he => hnames (List.map_eq_nil_iff.mp he)
      exact ⟨body, hbody,
        .inside hmem (hmod.mono hpath fun item hi => List.mem_cons_of_mem _ hi)⟩

/-! ## What an augmentation adds -/

section

variable {dt : DeviceTree}

theorem mem_of_node {a : Addr} {m : Node} (h : dt.node a = .ok m) : m ∈ dt.root.nodes := by
  unfold DeviceTree.node at h
  split at h
  · rename_i n hderef
    rw [← Except.ok.inj h]
    exact (mem_of_deref hderef).1
  · cases h

namespace Augment

/-- What `RawInfo::generate` returns. An instance takes its device from the node itself, from the node
of a phandle or from an ancestor. For a device that is not okay there is nothing, except that the node
of a phandle is not checked. -/
inductive RawInfo.Generates (dt : DeviceTree) (n : Node) (cfg : Option String) :
    RawInfo → List Item → Prop
  | myself {deviceId static : List String} (hok : okay n = true) :
      Generates dt n cfg .myself
        ([.fn cfg "get_instance_raw" (.device n.ord), .fn cfg "get_static_raw" .static] ++
          instanceItems cfg static (.new deviceId .here false []))
  | disabled (hok : okay n = false) : Generates dt n cfg .myself []
  | phandle {deviceId static route : List String} {pname : String} {target : Node}
      {args : List UInt32} (htarget : phandleTarget dt n pname = .ok (target, args))
      (hroute : target.routeToRust = .ok route) :
      Generates dt n cfg (.phandle pname)
        (instanceItems cfg static (.new deviceId (.crate route) true args))
  | parent {deviceId static : List String} {level : Nat} {infos : List ArgInfo}
      {args : List UInt32} (hlevel : level ≠ 0)
      (hanc : ∀ anc, ancestor dt level n = some anc → okay anc = true) :
      Generates dt n cfg (.parent level infos)
        (instanceItems cfg static (.new deviceId (.super level) false args))
  | below {level : Nat} {infos : List ArgInfo} {anc : Node}
      (hanc : ancestor dt level n = some anc) (hok : okay anc = false) :
      Generates dt n cfg (.parent level infos) []

theorem rawInfo_generates {n : Node} {device : String} {staticType cfg : Option String}
    {raw : RawInfo} {items : List Item} (h : raw.generate dt n device staticType cfg = .ok items) :
    raw.Generates dt n cfg items := by
  unfold RawInfo.generate at h
  obtain ⟨deviceId, -, h⟩ := bind_eq_ok.mp h
  obtain ⟨static, -, h⟩ := bind_eq_ok.mp h
  cases raw with
  | myself =>
    simp only at h
    split at h
    · rename_i hok
      rw [← Except.ok.inj h]
      exact .myself hok
    · rename_i hok
      rw [← Except.ok.inj h]
      exact .disabled (Bool.eq_false_iff.mpr hok)
  | phandle pname =>
    obtain ⟨⟨target, args⟩, htarget, h⟩ := bind_eq_ok.mp h
    obtain ⟨route, hroute, h⟩ := bind_eq_ok.mp h
    rw [← Except.ok.inj h]
    exact .phandle htarget hroute
  | parent level infos =>
    simp only at h
    split at h
    · cases h
    · rename_i hlevel
      split at h
      · rename_i anc hanc
        split at h
        · rename_i hok
          obtain ⟨args, -, h⟩ := bind_eq_ok.mp h
          rw [← Except.ok.inj h]
          refine .parent hlevel fun anc' hanc' => ?_
          rw [← Option.some.inj (hanc.symm.trans hanc')]
          exact hok
        · rename_i hok
          rw [← Except.ok.inj h]
          exact .below hanc (Bool.eq_false_iff.mpr hok)
      · -- Above the root there is no status to check, and the instance is written.
        rename_i hnone
        obtain ⟨args, -, h⟩ := bind_eq_ok.mp h
        rw [← Except.ok.inj h]
        refine .parent hlevel fun anc hanc => ?_
        rw [hnone] at hanc
        cases hanc

theorem phandleTarget_node {n target : Node} {pname : String} {args : List UInt32}
    (h : phandleTarget dt n pname = .ok (target, args)) : ∃ a, dt.node a = .ok target := by
  unfold phandleTarget at h
  split at h
  · cases h
  · cases h
  · cases h
  · obtain ⟨a, -, h⟩ := bind_eq_ok.mp h
    obtain ⟨target', htarget, h⟩ := bind_eq_ok.mp h
    obtain ⟨args', -, h⟩ := bind_eq_ok.mp h
    cases Except.ok.inj h
    exact ⟨a, htarget⟩

theorem mod_not_mem_instanceItems {cfg : Option String} {static : List String} {b : Body}
    {name : String} {body : List Item} : .mod name body ∉ instanceItems cfg static b := by
  intro hmem
  simp only [instanceItems, List.mem_cons, List.not_mem_nil, or_false] at hmem
  rcases hmem with he | he | he <;> cases he

/-- An instance has no modules. -/
theorem rawInfo_not_mod {n : Node} {device : String} {staticType cfg : Option String}
    {raw : RawInfo} {items : List Item} (h : raw.generate dt n device staticType cfg = .ok items)
    {name : String} {body : List Item} : .mod name body ∉ items := by
  intro hmem
  cases rawInfo_generates h with
  | myself _ =>
    rcases List.mem_append.mp hmem with hmem | hmem
    · simp only [List.mem_cons, List.not_mem_nil, or_false] at hmem
      rcases hmem with he | he <;> cases he
    · exact mod_not_mem_instanceItems hmem
  | disabled _ => cases hmem
  | phandle _ _ => exact mod_not_mem_instanceItems hmem
  | parent _ _ => exact mod_not_mem_instanceItems hmem
  | below _ _ => cases hmem

/-- The only action with modules is `Labels`. -/
theorem action_mod {n : Node} {cfg : Option String} {action : Action} {items : List Item}
    (h : action.generate dt n cfg = .ok items) {name : String} {body : List Item}
    (hmem : .mod name body ∈ items) :
    action = .labels ∧ name = "labels" ∧ dt.labels.mapM (labelModule dt) = .ok body := by
  cases action with
  | inst raw device staticType => exact absurd hmem (rawInfo_not_mod h)
  | rawProperties =>
    obtain ⟨p, -, hp⟩ := mem_of_mapM h hmem
    obtain ⟨tag, -, hp⟩ := bind_eq_ok.mp hp
    cases hp
  | labels =>
    obtain ⟨nodes, hnodes, h⟩ := bind_eq_ok.mp h
    rw [← Except.ok.inj h] at hmem
    cases List.mem_singleton.mp hmem
    exact ⟨rfl, rfl, hnodes⟩

theorem labelModule_eq_ok {e : String × Addr} {item : Item} (h : labelModule dt e = .ok item) :
    ∃ route, item = .mod (fixId e.1) [.reexport route] := by
  obtain ⟨name, hname, h⟩ := bind_eq_ok.mp h
  obtain ⟨target, -, h⟩ := bind_eq_ok.mp h
  obtain ⟨path, -, h⟩ := bind_eq_ok.mp h
  refine ⟨path, ?_⟩
  rw [← Except.ok.inj h, dtToLowerId_eq_ok hname]

theorem cfgAttr_eq_ok {cfg cfg' : Option String} (h : cfgAttr cfg = .ok cfg') : cfg' = cfg := by
  cases cfg with
  | none => exact (Except.ok.inj h).symm
  | some text =>
    obtain ⟨id, hid, rfl⟩ := map_eq_ok.mp h
    rw [formatIdent_eq_ok hid]

/-- What an augmentation adds, action by action. -/
theorem mem_augment {aug : Augmentation} {n : Node} {added : List Item}
    (h : aug.toAugment.augment dt n = .ok added) {item : Item} (hitem : item ∈ added) :
    aug.isCompatible dt n = true ∧ ∃ action ∈ aug.actions, ∃ items,
      action.generate dt n aug.cfg = .ok items ∧ item ∈ items := by
  unfold Augment.augment at h
  split at h
  · rename_i hcompat
    obtain ⟨name, -, h⟩ := bind_eq_ok.mp h
    obtain ⟨cfg, hcfg, h⟩ := bind_eq_ok.mp h
    obtain ⟨all, hall, h⟩ := bind_eq_ok.mp h
    rw [← Except.ok.inj h] at hitem
    obtain ⟨items, hitems, hitem⟩ := List.mem_flatten.mp hitem
    obtain ⟨action, haction, hok⟩ := mem_of_mapM hall hitems
    rw [cfgAttr_eq_ok hcfg] at hok
    exact ⟨hcompat, action, haction, items, hok, hitem⟩
  · rw [← Except.ok.inj h] at hitem
    cases hitem

/-- Every action of an augmentation that matches the node is applied. -/
theorem action_subset_augment {aug : Augmentation} {n : Node} {added : List Item}
    (h : aug.toAugment.augment dt n = .ok added) (hcompat : aug.isCompatible dt n = true)
    {action : Action} (haction : action ∈ aug.actions) :
    ∃ items, action.generate dt n aug.cfg = .ok items ∧ ∀ item ∈ items, item ∈ added := by
  have hgen : aug.generate dt n = .ok added := by
    rw [Augment.augment, if_pos (show aug.toAugment.isCompatible dt n = true from hcompat)] at h
    exact h
  obtain ⟨name, -, hgen⟩ := bind_eq_ok.mp hgen
  obtain ⟨cfg, hcfg, hgen⟩ := bind_eq_ok.mp hgen
  obtain ⟨all, hall, hgen⟩ := bind_eq_ok.mp hgen
  obtain ⟨items, hitems, hok⟩ := mapM_of_mem hall haction
  rw [cfgAttr_eq_ok hcfg] at hok
  refine ⟨items, hok, fun item hitem => ?_⟩
  rw [← Except.ok.inj hgen]
  exact List.mem_flatten.mpr ⟨items, hitems, hitem⟩

end Augment

end

end ZephyrRust.Devicetree
