import Mathlib.Data.List.Pairwise
import ZephyrRust.Proofs.Devicetree.Grammar

/-!
# `ZephyrRust.Proofs.Devicetree.Links`: what `DeviceTree::new` links

`link_eq_ok` is the specification of the two walks together. They return exactly when every
reference can be resolved, and the tree after them is the tree before with its cells filled in.

`Linked` is what the links of a tree should be, and `link_linked` proves it of the tree from
`DeviceTree::new` when no label is declared twice. `new_resolves_links` puts this together with the
other case, where a reference has no target and the construction fails.
-/

set_option autoImplicit false

namespace ZephyrRust.Devicetree

open ZephyrRust.Lib.Fallible

/-! ## References -/

/-- `phandle_resolve` does not panic. -/
def Phandle.Resolves (labels : Labels) (ph : Phandle) : Prop :=
  ph.node = none → ∃ a, labels.get ph.name = some a

/-- The reference after `phandle_resolve`. -/
def Phandle.resolved (labels : Labels) (ph : Phandle) : Phandle where
  name := ph.name
  node := ph.node.or (labels.get ph.name)

theorem computes_phandleResolve (labels : Labels) :
    Computes (Phandle.phandleResolve labels) (Phandle.Resolves labels)
      (Phandle.resolved labels) := by
  intro ph ph'
  obtain ⟨name, node⟩ := ph
  unfold Phandle.phandleResolve Phandle.Resolves Phandle.resolved
  cases node with
  | some a => simp [eq_comm]
  | none =>
    cases hget : labels.get name with
    | none => simp
    | some a => simp [eq_comm]

theorem computes_word (labels : Labels) :
    Computes (Word.phandleWalk labels) (fun w => ∀ ph ∈ w.phandles, ph.Resolves labels)
      (Word.relink (Phandle.resolved labels)) := by
  intro w w'
  cases w with
  | number n => simp [Word.phandleWalk, Word.phandles, Word.relink, eq_comm]
  | phandle ph =>
    show (ph.phandleResolve labels).map Word.phandle = .ok w' ↔
      (∀ ph' ∈ [ph], ph'.Resolves labels) ∧ _
    rw [List.forall_mem_singleton]
    exact (computes_phandleResolve labels).map Word.phandle ph w'

theorem computes_value (labels : Labels) :
    Computes (Value.phandleWalk labels) (fun v => ∀ ph ∈ v.phandles, ph.Resolves labels)
      (Value.relink (Phandle.resolved labels)) := by
  intro v v'
  cases v with
  | words ws =>
    have h := ((computes_word labels).mapM.map Value.words) ws v'
    simp only [Value.phandles, List.forall_mem_flatMap]
    exact h
  | bytes bs => simp [Value.phandleWalk, Value.phandles, Value.relink, eq_comm]
  | phandle ph =>
    show (ph.phandleResolve labels).map Value.phandle = .ok v' ↔
      (∀ ph' ∈ [ph], ph'.Resolves labels) ∧ _
    rw [List.forall_mem_singleton]
    exact (computes_phandleResolve labels).map Value.phandle ph v'
  | string text => simp [Value.phandleWalk, Value.phandles, Value.relink, eq_comm]

theorem computes_property (labels : Labels) :
    Computes (Property.phandleWalk labels) (fun p => ∀ ph ∈ p.phandles, ph.Resolves labels)
      (Property.relink (Phandle.resolved labels)) := by
  intro p p'
  have h := (computes_value labels).mapM.map (fun value => ({ p with value := value } : Property))
    p.value p'
  simp only [Property.phandles, List.forall_mem_flatMap]
  exact h

/-! ## The walks -/

theorem phandleWalkAll_eq_mapM (labels : Labels) (ns : List Node) :
    phandleWalkAll labels ns = ns.mapM (Node.phandleWalk labels) := by
  induction ns with
  | nil => rfl
  | cons n ns ih => rw [phandleWalkAll, ih, List.mapM_cons]

theorem Node.phandleWalk_eq (labels : Labels) (n : Node) :
    n.phandleWalk labels = (do
      let properties ← n.properties.mapM (Property.phandleWalk labels)
      let children ← n.children.mapM (Node.phandleWalk labels)
      return { n with properties := properties, children := children }) := by
  obtain ⟨id, name, path, route, ord, ls, properties, children, parent⟩ := n
  rw [Node.phandleWalk, phandleWalkAll_eq_mapM]

/-- All references in the tree can be resolved. -/
def Node.AllResolve (labels : Labels) (n : Node) : Prop :=
  ∀ m ∈ n.nodes, ∀ ph ∈ m.phandles, ph.Resolves labels

theorem Node.allResolve_iff {labels : Labels} {n : Node} :
    n.AllResolve labels ↔
      (∀ ph ∈ n.phandles, ph.Resolves labels) ∧ ∀ c ∈ n.children, c.AllResolve labels := by
  unfold Node.AllResolve
  rw [Node.nodes_eq, List.forall_mem_cons, List.forall_mem_flatMap]

/-- `Node::phandle_walk` on a tree without parents. -/
theorem Node.phandleWalk_eq_ok (labels : Labels) {n : Node}
    (hparents : ∀ m ∈ n.nodes, m.parent = none) (n' : Node) :
    n.phandleWalk labels = .ok n' ↔
      n.AllResolve labels ∧ n' = n.relink (Phandle.resolved labels) (fun _ => none) none := by
  induction n using Node.induct generalizing n' with
  | h n ih =>
    have hchildren := computes_mapM fun c hc =>
      ih c hc fun m hm => hparents m (mem_nodes_of_child hc hm)
    have hproperties := (computes_property labels).mapM n.properties
    have hparent := hparents n n.mem_nodes_self
    rw [Node.phandleWalk_eq, bind_eq_ok, Node.allResolve_iff, Node.relink_eq, Node.phandles,
      List.forall_mem_flatMap]
    constructor
    · rintro ⟨ps, hps, h⟩
      obtain ⟨cs, hcs, he⟩ := bind_eq_ok.mp h
      obtain ⟨hP, rfl⟩ := (hproperties ps).mp hps
      obtain ⟨hC, rfl⟩ := (hchildren cs).mp hcs
      rw [← Except.ok.inj he, ← hparent]
      exact ⟨⟨hP, hC⟩, rfl⟩
    · rintro ⟨⟨hP, hC⟩, rfl⟩
      refine ⟨_, (hproperties _).mpr ⟨hP, rfl⟩, bind_eq_ok.mpr
        ⟨_, (hchildren _).mpr ⟨hC, rfl⟩, ?_⟩⟩
      rw [← hparent]
      rfl

/-- The error "Missing phandle". -/
def Panic.IsMissingPhandle (e : Panic) : Prop := ∃ name, e = .missingPhandle name

/-- A walk that fails has met a label that is not in the map. -/
theorem Node.phandleWalk_fails {labels : Labels} {n : Node} {e : Panic}
    (h : n.phandleWalk labels = .error e) : e.IsMissingPhandle := by
  have hresolve : FailsWith (Phandle.phandleResolve labels) Panic.IsMissingPhandle := by
    intro ph e he
    unfold Phandle.phandleResolve at he
    split at he
    · cases he
    · split at he
      · cases he
      · cases he
        exact ⟨ph.name, rfl⟩
  have hword : FailsWith (Word.phandleWalk labels) Panic.IsMissingPhandle := by
    intro w e he
    cases w with
    | number n => cases he
    | phandle ph => exact hresolve.map Word.phandle ph e he
  have hvalue : FailsWith (Value.phandleWalk labels) Panic.IsMissingPhandle := by
    intro v e he
    cases v with
    | words ws => exact hword.mapM.map Value.words ws e he
    | bytes bs => cases he
    | phandle ph => exact hresolve.map Value.phandle ph e he
    | string text => cases he
  induction n using Node.induct generalizing e with
  | h n ih =>
    rw [Node.phandleWalk_eq] at h
    rcases bind_eq_error.mp h with h | ⟨ps, -, h⟩
    · refine failsWith_mapM (fun p _ e he => ?_) h
      exact hvalue.mapM.map (fun value => ({ p with value := value } : Property)) p.value e he
    · rcases bind_eq_error.mp h with h | ⟨cs, -, h⟩
      · exact failsWith_mapM (fun c hc e he => ih c hc he) h
      · cases h

theorem parentWalkAll_eq_map (a : Addr) (ns : List Node) :
    parentWalkAll a ns = ns.map fun n => { n.parentWalk with parent := some a } := by
  induction ns with
  | nil => rfl
  | cons n ns ih => rw [parentWalkAll, ih, List.map_cons]

theorem Property.relink_id (p : Property) : p.relink id = p := by
  have hword : ∀ w : Word, w.relink id = w := by
    intro w
    cases w <;> rfl
  have hvalue : ∀ v : Value, v.relink id = v := by
    intro v
    cases v with
    | words ws =>
      show Value.words (ws.map (Word.relink id)) = _
      rw [List.map_congr_left fun w _ => hword w, List.map_id']
    | bytes bs => rfl
    | phandle ph => rfl
    | string text => rfl
  show Property.mk p.name (p.value.map (Value.relink id)) = p
  rw [List.map_congr_left fun v _ => hvalue v, List.map_id']

/-- `Node::parent_walk` writes the address of every node to its children. -/
theorem parentWalk_eq (n : Node) : n.parentWalk = n.relink id some n.parent := by
  induction n using Node.induct with
  | h n ih =>
    have hwalk : n.parentWalk = { n with children := parentWalkAll n.id n.children } := by
      obtain ⟨id, name, path, route, ord, labels, properties, children, parent⟩ := n
      rw [Node.parentWalk]
    rw [hwalk, parentWalkAll_eq_map, Node.relink_eq,
      List.map_congr_left fun p _ => Property.relink_id p, List.map_id']
    congr 1
    refine List.map_congr_left fun c hc => ?_
    rw [ih c hc, Node.relink_eq, Node.relink_eq]

variable {ords : OrdMap} {dt dt' : DeviceTree}

/-- The tree with all its links. -/
def DeviceTree.linked (dt : DeviceTree) : DeviceTree where
  root := dt.root.relink (Phandle.resolved dt.labels) some none
  labels := dt.labels

/-- Both walks. -/
theorem link_eq_ok (h : Parsed ords dt) :
    dt.link = .ok dt' ↔ dt.root.AllResolve dt.labels ∧ dt' = dt.linked := by
  have hwalk := Node.phandleWalk_eq_ok dt.labels h.parents
  have hparent : ∀ n : Node, n = dt.root.relink (Phandle.resolved dt.labels) (fun _ => none) none →
      n.parentWalk = dt.linked.root := by
    rintro n rfl
    rw [parentWalk_eq, Node.relink_relink, Node.relink_parent]
    rfl
  unfold DeviceTree.link
  rw [bind_eq_ok]
  constructor
  · rintro ⟨n', hn', he⟩
    obtain ⟨hall, hroot⟩ := (hwalk n').mp hn'
    rw [← Except.ok.inj he, hparent n' hroot]
    exact ⟨hall, rfl⟩
  · rintro ⟨hall, rfl⟩
    refine ⟨_, (hwalk _).mpr ⟨hall, rfl⟩, ?_⟩
    rw [hparent _ rfl]
    rfl

/-! ## What the links are -/

/-- `m` is the node of the tree that declares the label. -/
def DeviceTree.Declares (dt : DeviceTree) (l : String) (m : Node) : Prop :=
  m ∈ dt.root.nodes ∧ l ∈ m.labels

/-- No label is declared twice. -/
def DeviceTree.UniqueLabels (dt : DeviceTree) : Prop :=
  (dt.root.nodes.flatMap Node.labels).Nodup

theorem DeviceTree.UniqueLabels.eq {l : String} {m m' : Node} (h : dt.UniqueLabels)
    (hm : dt.Declares l m) (hm' : dt.Declares l m') : m = m' := by
  have hdisjoint := (List.nodup_flatMap.mp h).2
  have hsymm : Std.Symm (Function.onFun List.Disjoint Node.labels) := ⟨fun _ _ hd _ ha hb => hd hb ha⟩
  by_contra hne
  exact hdisjoint.forall hm.1 hm'.1 hne hm.2 hm'.2

/-- The links of a tree are right: of the references, of the map of labels, of the parents and of
the positions. -/
structure Linked (dt : DeviceTree) : Prop where
  /-- `node_ref` is the node that declares the label. -/
  references : ∀ n ∈ dt.root.nodes, ∀ ph ∈ n.phandles, ∃ m, dt.Declares ph.name m ∧
    (∀ m', dt.Declares ph.name m' → m' = m) ∧ ph.nodeRef = .ok m.id ∧ dt.deref m.id = some m
  /-- The map has every declared label, with the node that declares it. -/
  labels : ∀ l a, dt.labels.get l = some a ↔ ∃ m, dt.Declares l m ∧ m.id = a
  /-- It has no other entries. -/
  entries : ∀ l a, (l, a) ∈ dt.labels ↔ ∃ m, dt.Declares l m ∧ m.id = a
  rootParent : dt.root.parentIn dt = none
  /-- The parent of a node has the node among its children, and no other node has. -/
  parents : ∀ n ∈ dt.root.nodes, n ≠ dt.root → ∃ p ∈ dt.root.nodes, n.parentIn dt = some p ∧
    n ∈ p.children ∧ ∀ p' ∈ dt.root.nodes, n ∈ p'.children → p' = p
  /-- `child_index` is the position. -/
  positions : ∀ n ∈ dt.root.nodes, n ≠ dt.root → ∃ p i, n.parentIn dt = some p ∧
    n.childIndex dt = .ok i ∧ p.children[i]? = some n

/-- The nodes of the linked tree have their addresses from the parser. -/
theorem Parsed.distinctIds_linked (h : Parsed ords dt) : DistinctIds dt.linked.root := by
  show (dt.linked.root.nodes.map Node.id).Nodup
  rw [DeviceTree.linked, map_id_nodes_relink]
  exact h.ids

/-- A declaration in the tree is one in the linked tree. -/
theorem DeviceTree.Declares.linked {l : String} {m : Node} (h : dt.Declares l m) :
    ∃ m', dt.linked.Declares l m' ∧ m'.id = m.id := by
  obtain ⟨parent, hmem⟩ := mem_nodes_relink (f := Phandle.resolved dt.labels) (g := some) h.1 none
  refine ⟨_, ⟨hmem, ?_⟩, m.relink_id⟩
  rw [Node.relink_labels]
  exact h.2

theorem DeviceTree.Declares.of_linked {l : String} {m' : Node} (h : dt.linked.Declares l m') :
    ∃ m, dt.Declares l m ∧ m.id = m'.id := by
  obtain ⟨m, hm, parent, rfl⟩ := mem_nodes_of_relink h.1
  refine ⟨m, ⟨hm, ?_⟩, (m.relink_id).symm⟩
  have hl := h.2
  rwa [Node.relink_labels] at hl

/-- The map, in the linked tree. -/
theorem Parsed.labels_linked (h : Parsed ords dt) (hunique : dt.UniqueLabels) (l : String)
    (a : Addr) : dt.linked.labels.get l = some a ↔ ∃ m, dt.linked.Declares l m ∧ m.id = a := by
  constructor
  · intro hget
    obtain ⟨m, hm, hl, rfl⟩ := h.entries (l, a) (Labels.mem_of_get hget)
    exact DeviceTree.Declares.linked ⟨hm, hl⟩
  · rintro ⟨m', hm', rfl⟩
    obtain ⟨m, hm, hid⟩ := hm'.of_linked
    obtain ⟨m₁, hm₁, hl₁, hget⟩ := h.declared m hm.1 l hm.2
    rw [← hid, hunique.eq hm ⟨hm₁, hl₁⟩]
    exact hget

/-- Every child has the address of its parent. -/
theorem parent_of_child {n m c : Node} {f : Phandle → Phandle} {parent : Option Addr}
    (hm : m ∈ (n.relink f some parent).nodes) (hc : c ∈ m.children) : c.parent = some m.id := by
  obtain ⟨m₀, -, parent', rfl⟩ := mem_nodes_of_relink hm
  rw [Node.relink_children] at hc
  obtain ⟨c₀, -, rfl⟩ := List.mem_map.mp hc
  rw [Node.relink_parent, Node.relink_id]

/-- The parent of a node that is not the root. -/
theorem Parsed.parent_linked (h : Parsed ords dt) {n : Node} (hn : n ∈ dt.linked.root.nodes)
    (hne : n ≠ dt.linked.root) :
    ∃ p ∈ dt.linked.root.nodes, n.parentIn dt.linked = some p ∧ n ∈ p.children := by
  obtain ⟨names, hu⟩ := exists_under_of_mem_nodes hn
  have hnames : names ≠ [] := by
    rintro rfl
    cases hu
    exact hne rfl
  obtain ⟨p, hp, hc⟩ := hu.parent hnames
  refine ⟨p, hp.mem_nodes, ?_, hc⟩
  rw [Node.parentIn, parent_of_child hp.mem_nodes hc]
  exact deref_of_mem h.distinctIds_linked hp.mem_nodes

theorem link_linked (h : Parsed ords dt) (hunique : dt.UniqueLabels)
    (hall : dt.root.AllResolve dt.labels) : Linked dt.linked where
  references n hn ph hph := by
    obtain ⟨m, hm, parent, rfl⟩ := mem_nodes_of_relink hn
    rw [Node.phandles_relink] at hph
    obtain ⟨ph₀, hph₀, rfl⟩ := List.mem_map.mp hph
    obtain ⟨p, hp, hph₁⟩ := List.mem_flatMap.mp hph₀
    have hnone := (h.decoded m hm p hp).unresolved ph₀ hph₁
    obtain ⟨a, ha⟩ := hall m hm ph₀ hph₀ hnone
    obtain ⟨m', hm', rfl⟩ := (h.labels_linked hunique ph₀.name a).mp ha
    refine ⟨m', hm', fun m₁ hm₁ => ?_, ?_, deref_of_mem h.distinctIds_linked hm'.1⟩
    · -- The map has one entry for the label, so both nodes have its address.
      have hget := (h.labels_linked hunique ph₀.name m₁.id).mpr ⟨m₁, hm₁, rfl⟩
      exact h.distinctIds_linked.eq_of_id hm₁.1 hm'.1 (Option.some.inj (hget.symm.trans ha))
    · simp [Phandle.nodeRef, Phandle.resolved, hnone, ha]
  labels := h.labels_linked hunique
  entries l a := by
    constructor
    · intro he
      obtain ⟨m, hm, hl, rfl⟩ := h.entries (l, a) he
      exact DeviceTree.Declares.linked ⟨hm, hl⟩
    · intro hm
      exact Labels.mem_of_get ((h.labels_linked hunique l a).mpr hm)
  rootParent := by
    show (dt.linked.root.parent).bind _ = none
    rw [DeviceTree.linked, Node.relink_parent]
    rfl
  parents n hn hne := by
    obtain ⟨p, hp, hparent, hc⟩ := h.parent_linked hn hne
    refine ⟨p, hp, hparent, hc, fun p' hp' hc' => ?_⟩
    -- The child has one parent address, and an address is of one node.
    have hid : some p'.id = some p.id := by
      rw [← parent_of_child hp' hc', parent_of_child hp hc]
    exact h.distinctIds_linked.eq_of_id hp' hp (Option.some.inj hid)
  positions n hn hne := by
    obtain ⟨p, hp, hparent, hc⟩ := h.parent_linked hn hne
    -- `child_index` compares addresses, and the first match is the node itself.
    cases hidx : p.children.findIdx? fun c => c.id = n.id with
    | none =>
      have hno := List.findIdx?_eq_none_iff.mp hidx n hc
      simp at hno
    | some i =>
      obtain ⟨hi, hid, -⟩ := List.findIdx?_eq_some_iff_getElem.mp hidx
      refine ⟨p, i, hparent, ?_, ?_⟩
      · rw [Node.childIndex, hparent]
        simp only [hidx]
      · rw [List.getElem?_eq_getElem hi]
        have hmem : p.children[i] ∈ dt.linked.root.nodes :=
          Node.child_mem_nodes hp (List.getElem_mem hi)
        exact congrArg some (h.distinctIds_linked.eq_of_id hmem hn (of_decide_eq_true hid))

/-- `DeviceTree::new` after the parser. When no label is declared twice and every reference has a
target, the result is the parsed tree with the right links. When some reference has no target, the
construction panics. -/
theorem new_resolves_links {depth : Nat} {text : List Char} {dt : DeviceTree}
    (hparse : parse depth text ords = .ok dt) :
    (dt.UniqueLabels → (∀ n ∈ dt.root.nodes, ∀ ph ∈ n.phandles, ∃ m, dt.Declares ph.name m) →
      DeviceTree.new depth text ords = .ok dt.linked ∧ Linked dt.linked) ∧
    ((∃ n ∈ dt.root.nodes, ∃ ph ∈ n.phandles, ∀ m, ¬ dt.Declares ph.name m) →
      ∃ name, DeviceTree.new depth text ords = .error (.missingPhandle name)) := by
  have hparsed := parse_parsed hparse
  have hnew : DeviceTree.new depth text ords = dt.link := by
    rw [DeviceTree.new, hparse]
    rfl
  rw [hnew]
  constructor
  · intro hunique hdeclared
    have hall : dt.root.AllResolve dt.labels := by
      intro n hn ph hph _
      obtain ⟨m, hm, hl⟩ := hdeclared n hn ph hph
      obtain ⟨m', -, -, hget⟩ := hparsed.declared m hm ph.name hl
      exact ⟨m'.id, hget⟩
    exact ⟨(link_eq_ok hparsed).mpr ⟨hall, rfl⟩, link_linked hparsed hunique hall⟩
  · rintro ⟨n, hn, ph, hph, hno⟩
    cases hlink : dt.link with
    | ok dt' =>
      -- Then the reference was resolved, and its entry in the map has a declaration.
      obtain ⟨hall, -⟩ := (link_eq_ok hparsed).mp hlink
      obtain ⟨p, hp, hph'⟩ := List.mem_flatMap.mp hph
      obtain ⟨a, ha⟩ := hall n hn ph hph ((hparsed.decoded n hn p hp).unresolved ph hph')
      obtain ⟨m, hm, hl, -⟩ := hparsed.entries _ (Labels.mem_of_get ha)
      exact absurd ⟨hm, hl⟩ (hno m)
    | error e =>
      rcases bind_eq_error.mp hlink with h | ⟨n', -, h⟩
      · obtain ⟨name, rfl⟩ := Node.phandleWalk_fails h
        exact ⟨name, rfl⟩
      · cases h

/-- The text declares `a` and refers to it from the node itself and from below it. -/
def selfReference : List Char := "/dts-v1/; / \x7b a: b \x7b x = <&a 1>; c \x7b y = &a; \x7d; \x7d; \x7d;".toList

/-- The text refers to `d`, which it does not declare. -/
def danglingReference : List Char := "/dts-v1/; / \x7b a: b \x7b x = <&a 1>; c \x7b y = &d; \x7d; \x7d; \x7d;".toList

theorem new_resolves_links_two :
    (∃ dt, parse 3 selfReference (fun _ => some 0) = .ok dt ∧
      (∃ n ∈ dt.root.nodes, n.phandles ≠ []) ∧
      DeviceTree.new 3 selfReference (fun _ => some 0) = .ok dt.linked ∧ Linked dt.linked) ∧
    ∃ name, DeviceTree.new 3 danglingReference (fun _ => some 0) =
      .error (.missingPhandle name) := by
  constructor
  · have hcheck : (parse 3 selfReference (fun _ => some 0)).toOption.any (fun dt =>
        (∃ n ∈ dt.root.nodes, n.phandles ≠ []) ∧ (dt.root.nodes.flatMap Node.labels).Nodup ∧
          ∀ n ∈ dt.root.nodes, ∀ ph ∈ n.phandles, ∃ m ∈ dt.root.nodes, ph.name ∈ m.labels) =
        true := by decide +kernel
    obtain ⟨dt, hparse, hdt⟩ := exists_ok_of_any hcheck
    obtain ⟨hsome, hunique, hdeclared⟩ := of_decide_eq_true hdt
    exact ⟨dt, hparse, hsome, (new_resolves_links hparse).1 hunique hdeclared⟩
  · have hcheck : (parse 3 danglingReference (fun _ => some 0)).toOption.any (fun dt =>
        ∃ n ∈ dt.root.nodes, ∃ ph ∈ n.phandles, ∀ m ∈ dt.root.nodes, ph.name ∉ m.labels) =
        true := by decide +kernel
    obtain ⟨dt, hparse, hdt⟩ := exists_ok_of_any hcheck
    obtain ⟨n, hn, ph, hph, hno⟩ := of_decide_eq_true hdt
    exact (new_resolves_links hparse).2 ⟨n, hn, ph, hph, fun m hm => hno m hm.1 hm.2⟩

/-! ## Every tree -/

/-- What holds of every tree from `DeviceTree::new`, also when labels are declared twice. -/
structure DeviceTree.Valid (ords : OrdMap) (dt : DeviceTree) : Prop where
  ids : DistinctIds dt.root
  coherent : ∀ {names m}, Under dt.root names m → m.Coherent ords ∧ m.route = names
  propertyNames : ∀ m ∈ dt.root.nodes, ∀ p ∈ m.properties, IsName p.name
  references : ∀ m ∈ dt.root.nodes, ∀ ph ∈ m.phandles, ∃ t ∈ dt.root.nodes, ph.node = some t.id
  entries : ∀ e ∈ dt.labels, ∃ m ∈ dt.root.nodes, e.1 ∈ m.labels ∧ m.id = e.2
  rootParent : dt.root.parent = none
  childParent : ∀ m ∈ dt.root.nodes, ∀ c ∈ m.children, c.parent = some m.id

theorem Parsed.valid_linked (h : Parsed ords dt) (hall : dt.root.AllResolve dt.labels) :
    dt.linked.Valid ords where
  ids := h.distinctIds_linked
  coherent hu := by
    obtain ⟨m, parent, hu', rfl⟩ := hu.of_relink
    obtain ⟨⟨hnames, hpath, hord⟩, hroute⟩ := h.coherent hu'
    refine ⟨⟨?_, ?_, ?_⟩, ?_⟩
    · rwa [Node.relink_route]
    · rwa [Node.relink_path, Node.relink_route]
    · rwa [Node.relink_path, Node.relink_ord]
    · rwa [Node.relink_route]
  propertyNames m hm p hp := by
    obtain ⟨m₀, hm₀, parent, rfl⟩ := mem_nodes_of_relink hm
    rw [Node.relink_properties] at hp
    obtain ⟨p₀, hp₀, rfl⟩ := List.mem_map.mp hp
    exact (h.decoded m₀ hm₀ p₀ hp₀).name
  references m hm ph hph := by
    obtain ⟨m₀, hm₀, parent, rfl⟩ := mem_nodes_of_relink hm
    rw [Node.phandles_relink] at hph
    obtain ⟨ph₀, hph₀, rfl⟩ := List.mem_map.mp hph
    obtain ⟨p, hp, hph₁⟩ := List.mem_flatMap.mp hph₀
    have hnone := (h.decoded m₀ hm₀ p hp).unresolved ph₀ hph₁
    obtain ⟨a, ha⟩ := hall m₀ hm₀ ph₀ hph₀ hnone
    obtain ⟨t, ht, hl, rfl⟩ := h.entries _ (Labels.mem_of_get ha)
    obtain ⟨t', ht', hid⟩ := DeviceTree.Declares.linked ⟨ht, hl⟩
    refine ⟨t', ht'.1, ?_⟩
    rw [hid, Phandle.resolved, hnone, ha]
    rfl
  entries e he := by
    obtain ⟨m, hm, hl, hid⟩ := h.entries e he
    obtain ⟨m', hm', hid'⟩ := DeviceTree.Declares.linked ⟨hm, hl⟩
    exact ⟨m', hm'.1, hm'.2, hid'.trans hid⟩
  rootParent := by
    rw [DeviceTree.linked, Node.relink_parent]
  childParent m hm c hc := parent_of_child hm hc

theorem new_valid {depth : Nat} {text : List Char} (h : DeviceTree.new depth text ords = .ok dt) :
    dt.Valid ords := by
  obtain ⟨dt₀, hparse, hlink⟩ := bind_eq_ok.mp h
  have hparsed := parse_parsed hparse
  obtain ⟨hall, rfl⟩ := (link_eq_ok hparsed).mp hlink
  exact hparsed.valid_linked hall

end ZephyrRust.Devicetree
