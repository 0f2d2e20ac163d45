import Mathlib.Data.List.Nodup
import ZephyrRust.Devicetree

/-!
# `ZephyrRust.Proofs.Devicetree.Tree`: nodes and their places

The induction over a device tree, and two ways to name its nodes. `n.nodes` lists them, and
`Under n names m` says that `m` is below `n` and that `names` are the names on the way down.

`Node.relink` is a tree with other contents of its cells. The two walks of `DeviceTree::new` write
to the cells and to nothing else, so the tree after them is a `relink` of the tree from the parser,
and everything about names, routes and addresses is the same in both.
-/

set_option autoImplicit false

namespace ZephyrRust.Devicetree

/-- Induction over a tree: a property holds of a node when it holds of its children. -/
@[elab_as_elim]
theorem Node.induct {P : Node → Prop} (h : ∀ n : Node, (∀ c ∈ n.children, P c) → P n)
    (n : Node) : P n := by
  refine @Node.rec P (fun ns => ∀ c ∈ ns, P c) ?_ ?_ ?_ n
  · intro id name path route ord labels properties children parent ih
    exact h ⟨id, name, path, route, ord, labels, properties, children, parent⟩ ih
  · intro c hc
    cases hc
  · intro n ns hn hns c hc
    rcases List.mem_cons.mp hc with rfl | hc
    · exact hn
    · exact hns c hc

theorem nodesOf_eq_flatMap (ns : List Node) : nodesOf ns = ns.flatMap Node.nodes := by
  induction ns with
  | nil => rfl
  | cons n ns ih => rw [nodesOf, ih, List.flatMap_cons]

theorem Node.nodes_eq (n : Node) : n.nodes = n :: n.children.flatMap Node.nodes := by
  obtain ⟨id, name, path, route, ord, labels, properties, children, parent⟩ := n
  rw [Node.nodes, nodesOf_eq_flatMap]

theorem Node.mem_nodes_self (n : Node) : n ∈ n.nodes := by
  rw [Node.nodes_eq]
  exact List.mem_cons_self

/-- The nodes below a child are below the node. -/
theorem Node.mem_nodes_of_child {n c m : Node} (hc : c ∈ n.children) (hm : m ∈ c.nodes) :
    m ∈ n.nodes := by
  rw [Node.nodes_eq]
  exact List.mem_cons_of_mem n (List.mem_flatMap.mpr ⟨c, hc, hm⟩)

/-- A node of the tree is the root of it, or it is in the tree of a child. -/
theorem Node.mem_nodes_iff {n m : Node} :
    m ∈ n.nodes ↔ m = n ∨ ∃ c ∈ n.children, m ∈ c.nodes := by
  rw [Node.nodes_eq, List.mem_cons, List.mem_flatMap]

/-- The children of a node of the tree are in the tree. -/
theorem Node.child_mem_nodes {n m c : Node} (hm : m ∈ n.nodes) (hc : c ∈ m.children) :
    c ∈ n.nodes := by
  induction n using Node.induct with
  | h n ih =>
    rcases Node.mem_nodes_iff.mp hm with rfl | ⟨d, hd, hm⟩
    · exact Node.mem_nodes_of_child hc c.mem_nodes_self
    · exact Node.mem_nodes_of_child hd (ih d hd hm)

/-- `m` is below `n`, and `names` are the names from the child of `n` down to `m`. -/
inductive Under : Node → List String → Node → Prop
  | refl (n : Node) : Under n [] n
  | child {n c m : Node} {names : List String} (hc : c ∈ n.children) (h : Under c names m) :
      Under n (c.name :: names) m

theorem Under.mem_nodes {n m : Node} {names : List String} (h : Under n names m) :
    m ∈ n.nodes := by
  induction h with
  | refl n => exact n.mem_nodes_self
  | child hc _ ih => exact Node.mem_nodes_of_child hc ih

/-- Below a node that is below `n`. -/
theorem Under.trans {n a m : Node} {up down : List String} (ha : Under n up a)
    (hm : Under a down m) : Under n (up ++ down) m := by
  induction ha with
  | refl n => exact hm
  | child hc _ ih => exact .child hc (ih hm)

/-- Every node of the tree has a place. -/
theorem exists_under_of_mem_nodes {n m : Node} (h : m ∈ n.nodes) :
    ∃ names, Under n names m := by
  induction n using Node.induct with
  | h n ih =>
    rcases Node.mem_nodes_iff.mp h with rfl | ⟨c, hc, hm⟩
    · exact ⟨[], .refl m⟩
    · obtain ⟨names, hu⟩ := ih c hc hm
      exact ⟨c.name :: names, .child hc hu⟩

/-- A node other than the root is a child of a node of the tree, which is one step higher. -/
theorem Under.parent {n m : Node} {names : List String} (h : Under n names m)
    (hne : names ≠ []) : ∃ p, Under n names.dropLast p ∧ m ∈ p.children := by
  induction h with
  | refl n => exact absurd rfl hne
  | @child n c m names hc h ih =>
    cases names with
    | nil =>
      cases h
      exact ⟨n, .refl n, hc⟩
    | cons name names =>
      obtain ⟨p, hp, hm⟩ := ih (List.cons_ne_nil name names)
      exact ⟨p, .child hc hp, hm⟩

/-! ## Addresses -/

/-- The addresses of all nodes are different. -/
def DistinctIds (n : Node) : Prop := (n.nodes.map Node.id).Nodup

/-- Then an address determines the node. -/
theorem DistinctIds.eq_of_id {n m m' : Node} (h : DistinctIds n) (hm : m ∈ n.nodes)
    (hm' : m' ∈ n.nodes) (hid : m.id = m'.id) : m = m' :=
  List.inj_on_of_nodup_map h hm hm' hid

theorem deref_of_mem {dt : DeviceTree} {m : Node} (h : DistinctIds dt.root)
    (hm : m ∈ dt.root.nodes) : dt.deref m.id = some m := by
  cases hf : dt.deref m.id with
  | none =>
    have hno := List.find?_eq_none.mp hf m hm
    simp at hno
  | some m' =>
    have hmem := List.mem_of_find?_eq_some hf
    have hid := List.find?_some hf
    simp only [decide_eq_true_eq] at hid
    rw [h.eq_of_id hmem hm hid]

theorem mem_of_deref {dt : DeviceTree} {a : Addr} {m : Node} (h : dt.deref a = some m) :
    m ∈ dt.root.nodes ∧ m.id = a := by
  have hid := List.find?_some h
  simp only [decide_eq_true_eq] at hid
  exact ⟨List.mem_of_find?_eq_some h, hid⟩

/-! ## References -/

/-- The reference in a cell. -/
def Word.phandles : Word → List Phandle
  | .number _ => []
  | .phandle ph => [ph]

/-- The references in a value. -/
def Value.phandles : Value → List Phandle
  | .words ws => ws.flatMap Word.phandles
  | .bytes _ => []
  | .phandle ph => [ph]
  | .string _ => []

/-- The references in a property. -/
def Property.phandles (p : Property) : List Phandle := p.value.flatMap Value.phandles

/-- The references in the properties of one node. -/
def Node.phandles (n : Node) : List Phandle := n.properties.flatMap Property.phandles

/-- The cell with another reference. -/
def Word.relink (f : Phandle → Phandle) : Word → Word
  | .number n => .number n
  | .phandle ph => .phandle (f ph)

/-- The value with other references. -/
def Value.relink (f : Phandle → Phandle) : Value → Value
  | .words ws => .words (ws.map (Word.relink f))
  | .bytes bs => .bytes bs
  | .phandle ph => .phandle (f ph)
  | .string text => .string text

/-- The property with other references. -/
def Property.relink (f : Phandle → Phandle) (p : Property) : Property :=
  { p with value := p.value.map (Value.relink f) }

mutual

/-- The tree with other contents of its cells: `f` for the references, `g` of the address of a node
for the parents of its children, and `parent` for the node itself. -/
def Node.relink (f : Phandle → Phandle) (g : Addr → Option Addr) (parent : Option Addr) :
    Node → Node
  | ⟨id, name, path, route, ord, labels, properties, children, _⟩ =>
    ⟨id, name, path, route, ord, labels, properties.map (Property.relink f),
      relinkAll f g (g id) children, parent⟩

/-- The trees with other contents of their cells. -/
def relinkAll (f : Phandle → Phandle) (g : Addr → Option Addr) (parent : Option Addr) :
    List Node → List Node
  | [] => []
  | n :: ns => n.relink f g parent :: relinkAll f g parent ns

end

section Relink

variable {f : Phandle → Phandle} {g : Addr → Option Addr} {parent : Option Addr}

theorem relinkAll_eq_map (ns : List Node) :
    relinkAll f g parent ns = ns.map (Node.relink f g parent) := by
  induction ns with
  | nil => rfl
  | cons n ns ih => rw [relinkAll, ih, List.map_cons]

theorem Node.relink_eq (n : Node) :
    n.relink f g parent =
      { n with
        properties := n.properties.map (Property.relink f)
        children := n.children.map (Node.relink f g (g n.id))
        parent := parent } := by
  obtain ⟨id, name, path, route, ord, labels, properties, children, parent'⟩ := n
  rw [Node.relink, relinkAll_eq_map]

@[simp] theorem Node.relink_id (n : Node) : (n.relink f g parent).id = n.id := by
  rw [Node.relink_eq]

@[simp] theorem Node.relink_name (n : Node) : (n.relink f g parent).name = n.name := by
  rw [Node.relink_eq]

@[simp] theorem Node.relink_path (n : Node) : (n.relink f g parent).path = n.path := by
  rw [Node.relink_eq]

@[simp] theorem Node.relink_route (n : Node) : (n.relink f g parent).route = n.route := by
  rw [Node.relink_eq]

@[simp] theorem Node.relink_ord (n : Node) : (n.relink f g parent).ord = n.ord := by
  rw [Node.relink_eq]

@[simp] theorem Node.relink_labels (n : Node) : (n.relink f g parent).labels = n.labels := by
  rw [Node.relink_eq]

@[simp] theorem Node.relink_properties (n : Node) :
    (n.relink f g parent).properties = n.properties.map (Property.relink f) := by
  rw [Node.relink_eq]

@[simp] theorem Node.relink_children (n : Node) :
    (n.relink f g parent).children = n.children.map (Node.relink f g (g n.id)) := by
  rw [Node.relink_eq]

@[simp] theorem Node.relink_parent (n : Node) : (n.relink f g parent).parent = parent := by
  rw [Node.relink_eq]

theorem Value.phandles_relink (v : Value) : (v.relink f).phandles = v.phandles.map f := by
  cases v with
  | words ws =>
    show (ws.map (Word.relink f)).flatMap Word.phandles = (ws.flatMap Word.phandles).map f
    rw [List.flatMap_map, List.map_flatMap]
    refine List.flatMap_congr fun w _ => ?_
    cases w <;> rfl
  | bytes bs => rfl
  | phandle ph => rfl
  | string text => rfl

/-- The references of the new tree. -/
theorem Node.phandles_relink (n : Node) :
    (n.relink f g parent).phandles = n.phandles.map f := by
  unfold Node.phandles Property.phandles
  rw [Node.relink_properties, List.flatMap_map, List.map_flatMap]
  refine List.flatMap_congr fun p _ => ?_
  show (p.value.map (Value.relink f)).flatMap Value.phandles = _
  rw [List.flatMap_map, List.map_flatMap]
  exact List.flatMap_congr fun v _ => v.phandles_relink

/-- A place in the tree is a place in the new tree. -/
theorem Under.relink {n m : Node} {names : List String} (h : Under n names m)
    (parent : Option Addr) :
    ∃ parent', Under (n.relink f g parent) names (m.relink f g parent') := by
  induction h generalizing parent with
  | refl n => exact ⟨parent, .refl _⟩
  | @child n c m names hc _ ih =>
    obtain ⟨parent', hu⟩ := ih (g n.id)
    have hmem : c.relink f g (g n.id) ∈ (n.relink f g parent).children := by
      rw [Node.relink_children]
      exact List.mem_map_of_mem hc
    have hchild := Under.child hmem hu
    rw [Node.relink_name] at hchild
    exact ⟨parent', hchild⟩

/-- A place in the new tree is a place in the tree. -/
theorem Under.of_relink {n m' : Node} {names : List String}
    (h : Under (n.relink f g parent) names m') :
    ∃ m parent', Under n names m ∧ m' = m.relink f g parent' := by
  generalize hn' : n.relink f g parent = n' at h
  induction h generalizing n parent with
  | refl n' => exact ⟨n, parent, .refl n, hn'.symm⟩
  | child hc _ ih =>
    rw [← hn', Node.relink_children] at hc
    obtain ⟨c, hmem, rfl⟩ := List.mem_map.mp hc
    obtain ⟨m, parent', hu, hm⟩ := ih rfl
    rw [Node.relink_name]
    exact ⟨m, parent', .child hmem hu, hm⟩

theorem mem_nodes_relink {n m : Node} (h : m ∈ n.nodes) (parent : Option Addr) :
    ∃ parent', m.relink f g parent' ∈ (n.relink f g parent).nodes := by
  obtain ⟨names, hu⟩ := exists_under_of_mem_nodes h
  obtain ⟨parent', hu'⟩ := hu.relink (f := f) (g := g) parent
  exact ⟨parent', hu'.mem_nodes⟩

theorem mem_nodes_of_relink {n m' : Node} (h : m' ∈ (n.relink f g parent).nodes) :
    ∃ m ∈ n.nodes, ∃ parent', m' = m.relink f g parent' := by
  obtain ⟨names, hu⟩ := exists_under_of_mem_nodes h
  obtain ⟨m, parent', hu', hm⟩ := hu.of_relink
  exact ⟨m, hu'.mem_nodes, parent', hm⟩

/-- The addresses stay. -/
theorem map_id_nodes_relink (n : Node) (parent : Option Addr) :
    (n.relink f g parent).nodes.map Node.id = n.nodes.map Node.id := by
  induction n using Node.induct generalizing parent with
  | h n ih =>
    rw [Node.nodes_eq, Node.nodes_eq n, List.map_cons, List.map_cons, Node.relink_id,
      Node.relink_children, List.flatMap_map, List.map_flatMap, List.map_flatMap]
    congr 1
    exact List.flatMap_congr fun c hc => ih c hc _

/-- Cells can be written twice. -/
theorem Node.relink_relink {f' : Phandle → Phandle} {g' : Addr → Option Addr} (n : Node)
    (parent parent' : Option Addr) :
    (n.relink f g parent).relink f' g' parent' = n.relink (f' ∘ f) g' parent' := by
  have hword : ∀ w : Word, (w.relink f).relink f' = w.relink (f' ∘ f) := by
    intro w
    cases w <;> rfl
  have hvalue : ∀ v : Value, (v.relink f).relink f' = v.relink (f' ∘ f) := by
    intro v
    cases v with
    | words ws =>
      show Value.words ((ws.map (Word.relink f)).map (Word.relink f')) = _
      rw [List.map_map]
      exact congrArg Value.words (List.map_congr_left fun w _ => hword w)
    | bytes bs => rfl
    | phandle ph => rfl
    | string text => rfl
  have hproperty : ∀ p : Property, (p.relink f).relink f' = p.relink (f' ∘ f) := by
    intro p
    show Property.mk p.name ((p.value.map (Value.relink f)).map (Value.relink f')) = _
    rw [List.map_map]
    exact congrArg (Property.mk p.name) (List.map_congr_left fun v _ => hvalue v)
  induction n using Node.induct generalizing parent parent' with
  | h n ih =>
    rw [Node.relink_eq (n.relink f g parent), Node.relink_eq n, Node.relink_eq n]
    simp only [List.map_map]
    congr 1
    · exact List.map_congr_left fun p _ => hproperty p
    · exact List.map_congr_left fun c hc => ih c hc _ _

end Relink

end ZephyrRust.Devicetree
