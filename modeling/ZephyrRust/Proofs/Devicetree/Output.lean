import ZephyrRust.Proofs.Devicetree.Modules

/-!
# `ZephyrRust.Proofs.Devicetree.Output`: modules and cfg lines

What the cfg lines name, and how that compares with the modules. `outputPathWalk_eq` is the exact list
of lines that the second walk writes.

`module_paths_coherent` compares the paths of nodes in all places where they are built.
`cfg_lines_describe_modules` compares the two sets, and it finds that they differ by the aliases of the
root. `node_walk` makes modules for them, and `output_path_walk` writes lines for properties of
children only.
-/

set_option autoImplicit false

namespace ZephyrRust.Devicetree

open ZephyrRust.Lib.Fallible

/-! ## Lines -/

/-- The path of a node as a cfg line has it. -/
def Node.rustPath (n : Node) : String := "::".intercalate (n.route.map fixId)

/-- The lines for a node. -/
def Node.cfgLines (n : Node) : List String :=
  cfgLine n.rustPath :: n.properties.flatMap fun p => p.outputPath n.rustPath

theorem outputPathWalkAll_eq_flatMap (name : Option String) (cs : List Node) :
    outputPathWalkAll name cs = cs.flatMap fun c =>
      [cfgLine (childName name c.name)] ++
        c.properties.flatMap (fun p => p.outputPath (childName name c.name)) ++
        c.outputPathWalk (some (childName name c.name)) := by
  induction cs with
  | nil => rfl
  | cons c cs ih => rw [outputPathWalkAll, ih, List.flatMap_cons]

/-- All lines for nodes, in the order of the nodes. The name that the walk carries along is the path
of the node that it is at. -/
theorem outputPathWalk_eq {n : Node}
    (hroutes : ∀ {names m}, Under n names m → m.route = n.route ++ names) :
    n.outputPathWalk (if n.route = [] then none else some n.rustPath) =
      (n.children.flatMap Node.nodes).flatMap Node.cfgLines := by
  induction n using Node.induct with
  | h n ih =>
    have hwalk : ∀ name, n.outputPathWalk name = outputPathWalkAll name n.children := by
      intro name
      obtain ⟨id, nm, path, route, ord, labels, properties, children, parent⟩ := n
      rw [Node.outputPathWalk]
    rw [hwalk, outputPathWalkAll_eq_flatMap, List.flatMap_assoc]
    refine List.flatMap_congr fun c hc => ?_
    have hroute : c.route = n.route ++ [c.name] := hroutes (.child hc (.refl c))
    have hne : c.route ≠ [] := by
      rw [hroute]
      exact List.append_ne_nil_of_right_ne_nil _ (List.cons_ne_nil _ _)
    have hname : childName (if n.route = [] then none else some n.rustPath) c.name =
        c.rustPath := by
      show _ = "::".intercalate (c.route.map fixId)
      rw [hroute, List.map_append, List.map_singleton]
      -- Below the root there is nothing to join the name to.
      by_cases hn : n.route = []
      · rw [if_pos hn, hn]
        exact (String.intercalate_singleton).symm
      · have hmap : n.route.map fixId ≠ [] := fun he => hn (List.map_eq_nil_iff.mp he)
        rw [if_neg hn, String.intercalate_append_of_ne_nil hmap (List.cons_ne_nil _ _),
          String.intercalate_singleton]
        rfl
    have hrest := ih c hc fun {names m} hu => by
      rw [hroutes (.child hc hu), hroute, List.append_assoc, List.singleton_append]
    rw [if_neg hne] at hrest
    rw [hname, hrest, Node.nodes_eq c, List.flatMap_cons]
    rfl

/-- The route of the device that a function takes. -/
def Body.routes : Body → List (List String)
  | .new _ (.crate route) _ _ => [route]
  | _ => []

mutual

/-- The routes that an item names: of an alias, of a label or of the device of an instance. -/
def Item.routes : Item → List (List String)
  | .reexport route => [route]
  | .mod _ items => routesOf items
  | .fn _ _ body => body.routes
  | _ => []

/-- The routes in the items. -/
def routesOf : List Item → List (List String)
  | [] => []
  | item :: items => item.routes ++ routesOf items

end

section

variable {dt : DeviceTree}

namespace Augment

end Augment

end

/-! ## One path for every node -/

/-- The module `path` is the one that `node_walk` makes for `m`. -/
def IsModuleOf (dt : DeviceTree) (augs : List Augment) (items : List Item) (m : Node)
    (path : List String) : Prop :=
  ∃ body, dt.nodeItems augs m = .ok body ∧
    ModAt items path (if path = [] then body else .ord m.ord :: body)

/-- When the walk returns, all names are identifiers. -/
theorem mapM_dtToLowerId_of_under {dt : DeviceTree} {augs : List Augment} {n m : Node}
    {items : List Item} {names : List String} (h : dt.nodeItems augs n = .ok items)
    (hu : Under n names m) : names.mapM dtToLowerId = .ok (names.map fixId) := by
  induction hu generalizing items with
  | refl n => rfl
  | @child n c m names hc _ ih =>
    obtain ⟨props, mods, added, -, hmods, -, -⟩ := nodeItems_eq_ok h
    obtain ⟨item, -, hok⟩ := mapM_of_mem hmods hc
    obtain ⟨nameId, hname, hok⟩ := bind_eq_ok.mp hok
    obtain ⟨body, hbody, -⟩ := bind_eq_ok.mp hok
    rw [List.mapM_cons, hname, ih hbody, dtToLowerId_eq_ok hname]
    rfl

/-- The module of any node, the root included. -/
theorem isModuleOf_node {dt : DeviceTree} {augs : List Augment} {m : Node} {items : List Item}
    {names : List String} (h : dt.nodeItems augs dt.root = .ok items)
    (hu : Under dt.root names m) : IsModuleOf dt augs items m (names.map fixId) := by
  by_cases hnames : names = []
  · subst hnames
    cases hu
    exact ⟨items, h, .here items⟩
  · obtain ⟨body, hbody, hmod⟩ := modAt_node h hu hnames
    refine ⟨body, hbody, ?_⟩
    rw [if_neg fun he => hnames (List.map_eq_nil_iff.mp he)]
    exact hmod

/-- A tree with an alias in the root, a label and an instance, all for the same controller. -/
def gpioTree : List Char :=
  ("/dts-v1/; / \x7b p = &g; g: gpio@1 \x7b gpio-controller; \x7d; " ++
    "leds \x7b compatible = \"gpio-leds\"; led0 \x7b gpios = <&g 1 2>; \x7d; \x7d; \x7d;").toList

section

variable {dt : DeviceTree}

namespace Augment

/-- The augmentation puts the labels at this node. -/
def Augmentation.LabelsAt (aug : Augmentation) (dt : DeviceTree) (m : Node) : Prop :=
  aug.isCompatible dt m = true ∧ Action.labels ∈ aug.actions

/-- The modules that an augmentation adds. -/
theorem modAt_augment {aug : Augmentation} {m : Node} {added : List Item}
    (h : aug.toAugment.augment dt m = .ok added) {path : List String} (hne : path ≠ []) :
    (∃ body, ModAt added path body) ↔
      aug.LabelsAt dt m ∧ (path = ["labels"] ∨ ∃ e ∈ dt.labels, path = ["labels", fixId e.1]) := by
  constructor
  · rintro ⟨body, hmod⟩
    cases hmod with
    | here => exact absurd rfl hne
    | inside hmem hmod =>
      obtain ⟨hcompat, action, haction, items, hok, hmem⟩ := mem_augment h hmem
      obtain ⟨rfl, rfl, hnodes⟩ := action_mod hok hmem
      refine ⟨⟨hcompat, haction⟩, ?_⟩
      cases hmod with
      | here => exact Or.inl rfl
      | inside hmem hmod =>
        obtain ⟨e, he, hlabel⟩ := mem_of_mapM hnodes hmem
        obtain ⟨route, hitem⟩ := labelModule_eq_ok hlabel
        cases hitem
        rw [hmod.of_reexport]
        exact Or.inr ⟨e, he, rfl⟩
  · rintro ⟨⟨hcompat, haction⟩, hpath⟩
    obtain ⟨items, hok, hsub⟩ := action_subset_augment h hcompat haction
    obtain ⟨nodes, hnodes, hok⟩ := bind_eq_ok.mp hok
    have hmem : Item.mod "labels" nodes ∈ added := by
      apply hsub
      rw [← Except.ok.inj hok]
      exact List.mem_singleton_self _
    rcases hpath with rfl | ⟨e, he, rfl⟩
    · exact ⟨nodes, .inside hmem (.here nodes)⟩
    · obtain ⟨item, hitem, hlabel⟩ := mapM_of_mem hnodes he
      obtain ⟨route, rfl⟩ := labelModule_eq_ok hlabel
      exact ⟨_, .inside hmem (.inside hitem (.here _))⟩

end Augment

/-- The nodes below the root. -/
theorem mem_below_iff {n m : Node} :
    m ∈ n.children.flatMap Node.nodes ↔ ∃ names, names ≠ [] ∧ Under n names m := by
  rw [List.mem_flatMap]
  constructor
  · rintro ⟨c, hc, hm⟩
    obtain ⟨names, hu⟩ := exists_under_of_mem_nodes hm
    exact ⟨c.name :: names, List.cons_ne_nil _ _, .child hc hu⟩
  · rintro ⟨names, hne, hu⟩
    cases hu with
    | refl => exact absurd rfl hne
    | child hc hu => exact ⟨_, hc, hu.mem_nodes⟩

theorem cfgLine_inj {p q : String} : cfgLine p = cfgLine q ↔ p = q := by
  unfold cfgLine
  rw [String.append_left_inj, String.append_right_inj]

theorem mem_outputPath {q : Property} {name p : String} :
    cfgLine p ∈ q.outputPath name ↔ q.IsAlias ∧ p = name ++ "::" ++ fixId q.name := by
  unfold Property.outputPath Property.IsAlias
  split
  · rename_i ph hvalue
    rw [List.mem_singleton, cfgLine_inj]
    exact ⟨fun he => ⟨⟨ph, hvalue⟩, he⟩, fun he => he.2⟩
  · rename_i hno
    constructor
    · intro hmem
      cases hmem
    · rintro ⟨⟨ph, hvalue⟩, -⟩
      exact absurd hvalue (hno ph)

/-- The paths with modules of a node below the root: its own, and those of its aliases. -/
def NodePath (dt : DeviceTree) (p : String) : Prop :=
  ∃ names m, names ≠ [] ∧ Under dt.root names m ∧
    (p = m.rustPath ∨ ∃ q ∈ m.properties, q.IsAlias ∧ p = m.rustPath ++ "::" ++ fixId q.name)

/-- The paths of the labels. -/
def LabelPath (dt : DeviceTree) (p : String) : Prop :=
  p = "labels" ∨ ∃ e ∈ dt.labels, p = "labels::" ++ fixId e.1

variable {ords : OrdMap}

/-- All lines. -/
theorem mem_outputNodePaths (hvalid : dt.Valid ords) (p : String) :
    cfgLine p ∈ dt.outputNodePaths ↔ NodePath dt p ∨ LabelPath dt p := by
  have hroot : dt.root.route = [] := (hvalid.coherent (.refl dt.root)).2
  have hlines := outputPathWalk_eq (n := dt.root) fun hu => by
    rw [(hvalid.coherent hu).2, hroot, List.nil_append]
  rw [if_pos hroot] at hlines
  have hnode : cfgLine p ∈ dt.root.outputPathWalk none ↔ NodePath dt p := by
    rw [hlines, List.mem_flatMap]
    constructor
    · rintro ⟨m, hm, hp⟩
      obtain ⟨names, hne, hu⟩ := mem_below_iff.mp hm
      refine ⟨names, m, hne, hu, ?_⟩
      rcases List.mem_cons.mp hp with hp | hp
      · exact Or.inl (cfgLine_inj.mp hp)
      · obtain ⟨q, hq, hp⟩ := List.mem_flatMap.mp hp
        exact Or.inr ⟨q, hq, mem_outputPath.mp hp⟩
    · rintro ⟨names, m, hne, hu, hp⟩
      refine ⟨m, mem_below_iff.mpr ⟨names, hne, hu⟩, ?_⟩
      rcases hp with rfl | ⟨q, hq, hp⟩
      · exact List.mem_cons_self
      · exact List.mem_cons_of_mem _ (List.mem_flatMap.mpr ⟨q, hq, mem_outputPath.mpr hp⟩)
  rw [DeviceTree.outputNodePaths, List.mem_append, List.mem_append, hnode, List.mem_singleton,
    cfgLine_inj, List.mem_map, or_assoc]
  refine or_congr_right (or_congr_right ?_)
  constructor
  · rintro ⟨e, he, hline⟩
    exact ⟨e, he, (cfgLine_inj.mp hline).symm⟩
  · rintro ⟨e, he, rfl⟩
    exact ⟨e, he, rfl⟩

/-- The `Labels` action is applied to the root, and to no other node. -/
def LabelsAtRoot (dt : DeviceTree) (augs : List Augment.Augmentation) : Prop :=
  ∀ m ∈ dt.root.nodes, (∃ aug ∈ augs, aug.LabelsAt dt m) ↔ m = dt.root

/-- The path of a module that the code declares. -/
def Declared (items : List Item) (p : String) : Prop :=
  ∃ path body, path ≠ [] ∧ ModAt items path body ∧ p = "::".intercalate path

theorem intercalate_append_singleton {path : List String} (hne : path ≠ []) (x : String) :
    "::".intercalate (path ++ [x]) = "::".intercalate path ++ "::" ++ x := by
  rw [String.intercalate_append_of_ne_nil hne (List.cons_ne_nil x []),
    String.intercalate_singleton]

section

variable {augs : List Augment.Augmentation} {items : List Item} (hlabels : LabelsAtRoot dt augs)
  (htokens : dt.toTokens (augs.map Augment.Augmentation.toAugment) = .ok items)

include hlabels htokens

/-- The modules in the module of a node that are not nodes: aliases, and the labels in the root. -/
theorem local_iff {m : Node} (hm : m ∈ dt.root.nodes) (rest : List String) :
    Local dt (augs.map Augment.Augmentation.toAugment) m rest ↔
      (∃ q ∈ m.properties, q.IsAlias ∧ rest = [fixId q.name]) ∨
        m = dt.root ∧ (rest = ["labels"] ∨ ∃ e ∈ dt.labels, rest = ["labels", fixId e.1]) := by
  refine or_congr_right ?_
  constructor
  · rintro ⟨hne, a, ha, added, body, hok, hmod⟩
    obtain ⟨aug, haug, rfl⟩ := List.mem_map.mp ha
    obtain ⟨hat, hpaths⟩ := (Augment.modAt_augment hok hne).mp ⟨body, hmod⟩
    exact ⟨(hlabels m hm).mp ⟨aug, haug, hat⟩, hpaths⟩
  · rintro ⟨rfl, hpaths⟩
    have hne : rest ≠ [] := by
      rcases hpaths with rfl | ⟨e, -, rfl⟩
      · exact List.cons_ne_nil _ _
      · exact List.cons_ne_nil _ _
    obtain ⟨aug, haug, hat⟩ := (hlabels dt.root hm).mpr rfl
    have hmem := List.mem_map_of_mem (f := Augment.Augmentation.toAugment) haug
    obtain ⟨added, hok, -⟩ := added_subset_nodeItems htokens hmem
    obtain ⟨body, hmod⟩ := (Augment.modAt_augment hok hne).mpr ⟨hat, hpaths⟩
    exact ⟨hne, _, hmem, added, body, hok, hmod⟩

/-- All modules, by the node that they are in. -/
theorem declared_iff_place (p : String) :
    Declared items p ↔ ∃ names m rest, Under dt.root names m ∧
      names.map fixId ++ rest ≠ [] ∧ p = "::".intercalate (names.map fixId ++ rest) ∧
      (rest = [] ∨ (∃ q ∈ m.properties, q.IsAlias ∧ rest = [fixId q.name]) ∨
        m = dt.root ∧ (rest = ["labels"] ∨ ∃ e ∈ dt.labels, rest = ["labels", fixId e.1])) := by
  constructor
  · rintro ⟨path, body, hpath, hmod, rfl⟩
    obtain ⟨names, m, rest, hu, rfl, hrest⟩ := (modAt_iff htokens path).mp ⟨body, hmod⟩
    exact ⟨names, m, rest, hu, hpath, rfl,
      hrest.imp_right (local_iff hlabels htokens hu.mem_nodes rest).mp⟩
  · rintro ⟨names, m, rest, hu, hpath, rfl, hrest⟩
    obtain ⟨body, hmod⟩ := (modAt_iff htokens _).mpr ⟨names, m, rest, hu, rfl,
      hrest.imp_right (local_iff hlabels htokens hu.mem_nodes rest).mpr⟩
    exact ⟨_, body, hpath, hmod, rfl⟩

/-- All modules. They are those of the lines, and the aliases of the root. -/
theorem declared_iff (hvalid : dt.Valid ords) (p : String) :
    Declared items p ↔ NodePath dt p ∨
      (∃ q ∈ dt.root.properties, q.IsAlias ∧ p = fixId q.name) ∨ LabelPath dt p := by
  have hrust : ∀ {names m}, Under dt.root names m →
      m.rustPath = "::".intercalate (names.map fixId) := by
    intro names m hu
    rw [Node.rustPath, (hvalid.coherent hu).2]
  have hmap : ∀ {names : List String}, names ≠ [] → names.map fixId ≠ [] :=
    fun hne he => hne (List.map_eq_nil_iff.mp he)
  rw [declared_iff_place hlabels htokens]
  constructor
  · rintro ⟨names, m, rest, hu, hpath, rfl, rfl | ⟨q, hq, halias, rfl⟩ | ⟨rfl, hrest⟩⟩
    · have hnames : names ≠ [] := by
        rintro rfl
        exact hpath rfl
      rw [List.append_nil, ← hrust hu]
      exact Or.inl ⟨names, m, hnames, hu, Or.inl rfl⟩
    · by_cases hnames : names = []
      · subst hnames
        cases hu
        exact Or.inr (Or.inl ⟨q, hq, halias, String.intercalate_singleton⟩)
      · rw [intercalate_append_singleton (hmap hnames), ← hrust hu]
        exact Or.inl ⟨names, m, hnames, hu, Or.inr ⟨q, hq, halias, rfl⟩⟩
    · obtain rfl : [] = names := by
        rw [← (hvalid.coherent hu).2, (hvalid.coherent (.refl dt.root)).2]
      rcases hrest with rfl | ⟨e, he, rfl⟩
      · exact Or.inr (Or.inr (Or.inl String.intercalate_singleton))
      · exact Or.inr (Or.inr (Or.inr
          ⟨e, he, intercalate_append_singleton (List.cons_ne_nil "labels" []) _⟩))
  · rintro (⟨names, m, hne, hu, rfl | ⟨q, hq, halias, rfl⟩⟩ | ⟨q, hq, halias, rfl⟩ |
      rfl | ⟨e, he, rfl⟩)
    · refine ⟨names, m, [], hu, ?_, ?_, Or.inl rfl⟩
      · rw [List.append_nil]
        exact hmap hne
      · rw [List.append_nil, hrust hu]
    · refine ⟨names, m, [fixId q.name], hu,
        List.append_ne_nil_of_right_ne_nil _ (List.cons_ne_nil _ _), ?_,
        Or.inr (Or.inl ⟨q, hq, halias, rfl⟩)⟩
      rw [hrust hu, intercalate_append_singleton (hmap hne)]
    · exact ⟨[], dt.root, [fixId q.name], .refl dt.root, List.cons_ne_nil _ _,
        String.intercalate_singleton.symm, Or.inr (Or.inl ⟨q, hq, halias, rfl⟩)⟩
    · exact ⟨[], dt.root, ["labels"], .refl dt.root, List.cons_ne_nil _ _,
        String.intercalate_singleton.symm, Or.inr (Or.inr ⟨rfl, Or.inl rfl⟩)⟩
    · exact ⟨[], dt.root, ["labels", fixId e.1], .refl dt.root, List.cons_ne_nil _ _,
        (intercalate_append_singleton (List.cons_ne_nil "labels" []) _).symm,
        Or.inr (Or.inr ⟨rfl, Or.inr ⟨e, he, rfl⟩⟩)⟩

end

/-- The lines name exactly the modules. -/
def LinesMatchModules (dt : DeviceTree) (items : List Item) : Prop :=
  ∀ p, cfgLine p ∈ dt.outputNodePaths ↔ Declared items p

/-- The aliases of the root have the names of other modules. -/
def RootAliasesCovered (dt : DeviceTree) : Prop :=
  ∀ q ∈ dt.root.properties, q.IsAlias →
    fixId q.name = "labels" ∨ ∃ c ∈ dt.root.children, fixId q.name = fixId c.name

/-- An alias of the root with a name of its own has no line. -/
theorem LinesMatchModules.covered {augs : List Augment.Augmentation} {items : List Item}
    (hmatch : LinesMatchModules dt items) (hvalid : dt.Valid ords) (hlabels : LabelsAtRoot dt augs)
    (htokens : dt.toTokens (augs.map Augment.Augmentation.toAugment) = .ok items) :
    RootAliasesCovered dt := by
  intro q hq halias
  have hcolon := colon_not_mem_fixId (hvalid.propertyNames dt.root dt.root.mem_nodes_self q hq)
  have hdeclared := (declared_iff hlabels htokens hvalid (fixId q.name)).mpr
    (Or.inr (Or.inl ⟨q, hq, halias, rfl⟩))
  have hline := (mem_outputNodePaths hvalid (fixId q.name)).mp ((hmatch _).mpr hdeclared)
  -- The name of the alias has no colon, so the line is the one of a child or of the labels.
  have hsep : ∀ x y : String, fixId q.name ≠ x ++ "::" ++ y := by
    intro x y he
    rw [he, String.toList_append, String.toList_append] at hcolon
    exact hcolon (List.mem_append_left _ (List.mem_append_right _ List.mem_cons_self))
  rcases hline with ⟨names, m, hne, hu, hp | ⟨q', -, -, hp⟩⟩ | hp | ⟨e, -, hp⟩
  · cases hu with
    | refl => exact absurd rfl hne
    | @child _ c _ names hc hu =>
      rw [Node.rustPath, (hvalid.coherent (.child hc hu)).2, List.map_cons] at hp
      cases names with
      | nil => exact Or.inr ⟨c, hc, hp.trans String.intercalate_singleton⟩
      | cons y names =>
        rw [List.map_cons, String.intercalate_cons_cons] at hp
        exact absurd hp (hsep _ _)
  · exact absurd hp (hsep _ _)
  · exact Or.inl hp
  · exact absurd hp (hsep "labels" (fixId e.1))

/-- The cfg lines match the modules exactly when no alias of the root has a name of its own. -/
theorem cfg_lines_describe_modules {depth : Nat} {text : List Char}
    {augs : List Augment.Augmentation} {items : List Item}
    (hnew : DeviceTree.new depth text ords = .ok dt) (hlabels : LabelsAtRoot dt augs)
    (htokens : dt.toTokens (augs.map Augment.Augmentation.toAugment) = .ok items) :
    LinesMatchModules dt items ↔ RootAliasesCovered dt := by
  have hvalid := new_valid hnew
  have hlines := mem_outputNodePaths hvalid
  have hmods := declared_iff hlabels htokens hvalid
  constructor
  · intro hmatch
    exact hmatch.covered hvalid hlabels htokens
  · intro hcovered p
    rw [hlines, hmods]
    constructor
    · rintro (hp | hp)
      · exact Or.inl hp
      · exact Or.inr (Or.inr hp)
    · rintro (hp | ⟨q, hq, halias, rfl⟩ | hp)
      · exact Or.inl hp
      · rcases hcovered q hq halias with he | ⟨c, hc, he⟩
        · exact Or.inr (Or.inl he)
        · refine Or.inl ⟨[c.name], c, List.cons_ne_nil _ _, .child hc (.refl c), Or.inl ?_⟩
          rw [Node.rustPath, (hvalid.coherent (.child hc (.refl c))).2, he]
          exact (String.intercalate_singleton).symm
      · exact Or.inr hp

/-- `dt-rust.yaml` applies `Labels` to the root. -/
theorem labelsAtRoot_dtRust (hvalid : dt.Valid ords) : LabelsAtRoot dt Augment.dtRust := by
  intro m hm
  constructor
  · rintro ⟨aug, haug, hcompat, hactions⟩
    -- The other augmentations have other actions.
    have hlabels : aug = Augment.labels := by
      simp only [Augment.dtRust, List.mem_cons, List.not_mem_nil, or_false] at haug
      rcases haug with rfl | rfl | rfl | rfl | rfl | rfl | rfl | rfl | rfl | rfl | rfl | rfl | rfl
      all_goals first
        | rfl
        | cases List.mem_singleton.mp hactions
    subst hlabels
    by_contra hne
    obtain ⟨names, hu⟩ := exists_under_of_mem_nodes hm
    have hnames : names ≠ [] := by
      rintro rfl
      cases hu
      exact hne rfl
    obtain ⟨p, hp, hc⟩ := hu.parent hnames
    have hparent := hvalid.childParent p hp.mem_nodes m hc
    simp [Augment.Augmentation.isCompatible, Augment.labels, Augment.Rule.isCompatible,
      hparent] at hcompat
  · rintro rfl
    refine ⟨Augment.labels, ?_, ?_, List.mem_singleton_self _⟩
    · simp [Augment.dtRust]
    · simp [Augment.Augmentation.isCompatible, Augment.labels, Augment.Rule.isCompatible,
        hvalid.rootParent]

theorem cfg_lines_describe_modules_self :
    ∃ dt items, DeviceTree.new 4 selfReference (fun _ => some 0) = .ok dt ∧
      dt.toTokens (Augment.dtRust.map Augment.Augmentation.toAugment) = .ok items ∧
      LinesMatchModules dt items := by
  have hcheck : (DeviceTree.new 4 selfReference (fun _ => some 0)).toOption.any (fun dt =>
      dt.root.properties.isEmpty &&
        (dt.toTokens (Augment.dtRust.map Augment.Augmentation.toAugment)).toOption.any
          fun _ => true) = true := by decide +kernel
  obtain ⟨dt, hnew, hdt⟩ := exists_ok_of_any hcheck
  obtain ⟨hempty, htok⟩ := Bool.and_eq_true_iff.mp hdt
  obtain ⟨items, htokens, -⟩ := exists_ok_of_any htok
  refine ⟨dt, items, hnew, htokens, ?_⟩
  refine (cfg_lines_describe_modules hnew (labelsAtRoot_dtRust (new_valid hnew)) htokens).mpr ?_
  intro q hq
  rw [List.isEmpty_iff.mp hempty] at hq
  cases hq

/-- The root of `gpioTree` has the property `p`, whose module has no line. -/
theorem root_alias_has_no_cfg_line :
    ∃ dt items, DeviceTree.new 4 gpioTree (fun _ => some 0) = .ok dt ∧
      LabelsAtRoot dt Augment.dtRust ∧
      dt.toTokens (Augment.dtRust.map Augment.Augmentation.toAugment) = .ok items ∧
      ¬ LinesMatchModules dt items := by
  have hcheck : (DeviceTree.new 4 gpioTree (fun _ => some 0)).toOption.any (fun dt =>
      (dt.root.properties.any fun q =>
        decide (cfgLine ("" ++ "::" ++ fixId q.name) ∈ q.outputPath "") &&
          fixId q.name ≠ "labels" && dt.root.children.all fun c => fixId q.name ≠ fixId c.name) &&
        (dt.toTokens (Augment.dtRust.map Augment.Augmentation.toAugment)).toOption.any
          fun _ => true) = true := by decide +kernel
  obtain ⟨dt, hnew, hdt⟩ := exists_ok_of_any hcheck
  obtain ⟨hroot, htok⟩ := Bool.and_eq_true_iff.mp hdt
  obtain ⟨items, htokens, -⟩ := exists_ok_of_any htok
  have hvalid := new_valid hnew
  refine ⟨dt, items, hnew, labelsAtRoot_dtRust hvalid, htokens, fun hmatch => ?_⟩
  obtain ⟨q, hq, hcond⟩ := List.any_eq_true.mp hroot
  obtain ⟨hcond, hchildren⟩ := Bool.and_eq_true_iff.mp hcond
  obtain ⟨hphandle, hname⟩ := Bool.and_eq_true_iff.mp hcond
  have halias : q.IsAlias := (mem_outputPath.mp (of_decide_eq_true hphandle)).1
  rcases hmatch.covered hvalid (labelsAtRoot_dtRust hvalid) htokens q hq halias with he | ⟨c, hc, he⟩
  · exact of_decide_eq_true hname he
  · exact of_decide_eq_true (List.all_eq_true.mp hchildren c hc) he

end

end ZephyrRust.Devicetree
