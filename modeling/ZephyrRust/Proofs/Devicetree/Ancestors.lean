import ZephyrRust.Proofs.Devicetree.Accessors

/-!
# `ZephyrRust.Proofs.Devicetree.Ancestors`: ways up the tree

Four functions go up from a node: the loop of `RawInfo::generate` over the parents, the segments
`super` that it writes, `parent_compatible`, and `compatible_path`. `Node.nthAncestor` is the
ancestor that they are compared with. `climb_eq` and `parentCompatible_eq` are the first and the
third one. In a tree from `DeviceTree::new` it is the node above (`nthAncestor_of_under`), and the
`super` segments lead to its module (`super_chain_names_ancestor`).

`compatible_path` negates its test. `compatiblePath_eq_true` says what it does, `Documented` what
it is for, and `compatiblePath_documented_iff` for which paths both agree.
-/

set_option autoImplicit false

namespace ZephyrRust.Devicetree

open ZephyrRust.Lib.Fallible

/-- The ancestor after `i` steps along the parents, which is the node itself for 0. -/
def Node.nthAncestor (dt : DeviceTree) : Nat → Node → Option Node
  | 0, n => some n
  | i + 1, n => (n.parentIn dt).bind (Node.nthAncestor dt i)

variable {dt : DeviceTree} {n : Node}

/-- Above a node without an ancestor there is none either. -/
theorem nthAncestor_none_of_le {i j : Nat} (h : n.nthAncestor dt i = none) (hij : i ≤ j) :
    n.nthAncestor dt j = none := by
  induction i generalizing n j with
  | zero => cases h
  | succ i ih =>
    cases j with
    | zero => omega
    | succ j =>
      rw [Node.nthAncestor] at h ⊢
      cases hp : n.parentIn dt with
      | none => rfl
      | some p =>
        rw [hp, Option.bind_some] at h
        exact ih h (by omega)

namespace Augment

/-- `parent_compatible` tests the ancestor of its level. -/
theorem parentCompatible_eq (dt : DeviceTree) (names : List String) (level : Nat) (n : Node) :
    parentCompatible dt names level n =
      (n.nthAncestor dt level).any fun a => names.any a.isCompatible := by
  induction level generalizing n with
  | zero => rfl
  | succ level ih =>
    rw [parentCompatible, Node.nthAncestor]
    cases n.parentIn dt with
    | none => rfl
    | some p => exact ih p

end Augment

/-! ## The super chain -/

open Augment

/-- A node that is compatible with "a", and its parent that is compatible with "b". -/
def twoLevels : List Char :=
  ("/dts-v1/; / \x7b n \x7b compatible = \"b\"; m \x7b compatible = \"a\"; \x7d; \x7d; \x7d;").toList

/-- What the comment of `compatible_path` says: every entry has its ancestor, and an entry
`Some(x)` has one that is compatible with `x`. -/
def Documented (dt : DeviceTree) (path : List (Option String)) (n : Node) : Prop :=
  ∀ i entry, path[i]? = some entry →
    ∃ a, n.nthAncestor dt i = some a ∧ ∀ x, entry = some x → a.isCompatible x = true

/-- The entry `i` is a name, and the ancestor `i` is compatible with it or not. -/
def EntryTest (dt : DeviceTree) (path : List (Option String)) (n : Node) (r : Bool) (i : Nat) :
    Prop :=
  ∃ x a, path[i]? = some (some x) ∧ n.nthAncestor dt i = some a ∧ a.isCompatible x = r

variable {path : List (Option String)}

/-- An entry `Some(name)` passes when the node is not compatible with the name, and then a parent is
needed. -/
theorem compatiblePath_some (name : String) :
    n.compatiblePath dt (some name :: path) =
      (!n.isCompatible name && (n.parentIn dt).any fun p => p.compatiblePath dt path) := by
  cases hcompat : n.isCompatible name with
  | true => simp [Node.compatiblePath, hcompat]
  | false =>
    cases hp : n.parentIn dt with
    | none => simp [Node.compatiblePath, hcompat, hp]
    | some p => simp [Node.compatiblePath, hcompat, hp]

/-- The test of a later entry is one from the parent. -/
theorem entryTest_succ {first : Option String} {r : Bool} {p : Node} (hp : n.parentIn dt = some p)
    (i : Nat) : EntryTest dt (first :: path) n r (i + 1) ↔ EntryTest dt path p r i := by
  simp only [EntryTest, List.getElem?_cons_succ, Node.nthAncestor, hp, Option.bind_some]

/-- What `compatible_path` does: it wants a name in every entry that the ancestor is not compatible
with, and one more ancestor above. -/
theorem compatiblePath_eq_true (path : List (Option String)) (n : Node) :
    n.compatiblePath dt path = true ↔
      (∀ i < path.length, EntryTest dt path n false i) ∧
        (n.nthAncestor dt path.length).isSome = true := by
  -- The code goes from an entry to the next one and from a node to its parent at once.
  induction path generalizing n with
  | nil => simp [Node.compatiblePath, Node.nthAncestor]
  | cons first path ih =>
    cases first with
    | none =>
      constructor
      · intro h
        cases h
      · intro ⟨hall, _⟩
        obtain ⟨x, a, hx, -⟩ := hall 0 (Nat.succ_pos _)
        cases hx
    | some name =>
      rw [compatiblePath_some, List.length_cons, Node.nthAncestor]
      cases hp : n.parentIn dt with
      | none => simp
      | some p =>
        rw [Option.any_some, Option.bind_some, Bool.and_eq_true, ih, Bool.not_eq_true']
        constructor
        · intro ⟨hcompat, hall, htop⟩
          refine ⟨fun i hi => ?_, htop⟩
          cases i with
          | zero => exact ⟨name, n, rfl, rfl, hcompat⟩
          | succ i => exact (entryTest_succ hp i).mpr (hall i (by omega))
        · intro ⟨hall, htop⟩
          obtain ⟨x, a, hx, ha, hno⟩ := hall 0 (Nat.succ_pos _)
          cases hx
          cases ha
          exact ⟨hno, fun i hi => (entryTest_succ hp i).mp (hall (i + 1) (by omega)), htop⟩

/-- The documented answer fails on a path that is longer than the way up, or because of a name that
its ancestor is not compatible with. -/
theorem not_documented_iff (hne : path ≠ []) :
    ¬Documented dt path n ↔
      n.nthAncestor dt (path.length - 1) = none ∨ ∃ i, EntryTest dt path n false i := by
  have hpos : 0 < path.length := List.length_pos_iff.mpr hne
  constructor
  · intro hno
    by_cases htop : n.nthAncestor dt (path.length - 1) = none
    · exact .inl htop
    · refine .inr (by_contra fun hnone => hno fun i entry hentry => ?_)
      have hi : i < path.length := (List.getElem?_eq_some_iff.mp hentry).1
      cases ha : n.nthAncestor dt i with
      | none => exact absurd (nthAncestor_none_of_le ha (by omega)) htop
      | some a =>
        refine ⟨a, rfl, fun x hx => ?_⟩
        cases hcompat : a.isCompatible x with
        | true => rfl
        | false => exact absurd ⟨i, x, a, hx ▸ hentry, ha, hcompat⟩ hnone
  · intro h hdoc
    cases h with
    | inl htop =>
      obtain ⟨a, ha, -⟩ := hdoc (path.length - 1) _ (List.getElem?_eq_getElem (by omega))
      rw [htop] at ha
      cases ha
    | inr h =>
      obtain ⟨i, x, a, hx, ha, hcompat⟩ := h
      obtain ⟨a', ha', hall⟩ := hdoc i (some x) hx
      rw [ha] at ha'
      cases ha'
      rw [hall x rfl] at hcompat
      cases hcompat

/-- When the answer of `compatible_path` is the documented one. The path is empty, or it is longer
than the way up to the root. Else there is an entry with a name that its ancestor is not compatible
with, and the path ends at the root, or there is an entry without a name or with a name that its
ancestor is compatible with. -/
def Agrees (dt : DeviceTree) (path : List (Option String)) (n : Node) : Prop :=
  path = [] ∨ n.nthAncestor dt (path.length - 1) = none ∨
    (∃ i, EntryTest dt path n false i) ∧
      (n.nthAncestor dt path.length = none ∨ (∃ i : Nat, path[i]? = some none) ∨
        ∃ i, EntryTest dt path n true i)

/-- On a path that is not too long, `compatible_path` fails at the root, or at an entry without a
name or with a name that the ancestor is compatible with. -/
theorem compatiblePath_eq_false (htop : n.nthAncestor dt (path.length - 1) ≠ none) :
    n.compatiblePath dt path = false ↔
      n.nthAncestor dt path.length = none ∨ (∃ i : Nat, path[i]? = some none) ∨
        ∃ i, EntryTest dt path n true i := by
  rw [← Bool.not_eq_true, compatiblePath_eq_true]
  constructor
  · intro hno
    by_cases hend : n.nthAncestor dt path.length = none
    · exact .inl hend
    · refine .inr (by_contra fun hnone => hno ⟨fun i hi => ?_, Option.isSome_iff_ne_none.mpr hend⟩)
      have hentry : path[i]? = some path[i] := List.getElem?_eq_getElem hi
      cases hpi : path[i] with
      | none => exact absurd (.inl ⟨i, hpi ▸ hentry⟩) hnone
      | some x =>
        cases ha : n.nthAncestor dt i with
        | none => exact absurd (nthAncestor_none_of_le ha (by omega)) htop
        | some a =>
          cases hcompat : a.isCompatible x with
          | false => exact ⟨x, a, hpi ▸ hentry, ha, hcompat⟩
          | true => exact absurd (.inr ⟨i, x, a, hpi ▸ hentry, ha, hcompat⟩) hnone
  · intro h ⟨hall, hsome⟩
    have hlt : ∀ (i : Nat) entry, path[i]? = some entry → i < path.length := by
      intro i entry hentry
      exact (List.getElem?_eq_some_iff.mp hentry).1
    cases h with
    | inl hend =>
      rw [hend] at hsome
      cases hsome
    | inr h =>
      cases h with
      | inl h =>
        obtain ⟨i, hi⟩ := h
        obtain ⟨x, a, hx, -⟩ := hall i (hlt i _ hi)
        rw [hi] at hx
        cases hx
      | inr h =>
        obtain ⟨i, x, a, hx, ha, hcompat⟩ := h
        obtain ⟨x', a', hx', ha', hno⟩ := hall i (hlt i _ hx)
        rw [hx] at hx'
        cases hx'
        rw [ha] at ha'
        cases ha'
        rw [hcompat] at hno
        cases hno

/-- The two answers agree exactly on these paths. -/
theorem compatiblePath_iff_documented (path : List (Option String)) (n : Node) :
    (n.compatiblePath dt path = true ↔ Documented dt path n) ↔ Agrees dt path n := by
  by_cases hne : path = []
  · subst hne
    exact iff_of_true (iff_of_true rfl fun i entry h => by cases h) (.inl rfl)
  · have hnotdoc : ¬Documented dt path n ↔ _ := not_documented_iff hne
    by_cases htop : n.nthAncestor dt (path.length - 1) = none
    · -- The path is too long for both.
      have hcode : ¬n.compatiblePath dt path = true := by
        rw [compatiblePath_eq_true, nthAncestor_none_of_le htop (Nat.sub_le _ _)]
        intro ⟨_, hsome⟩
        cases hsome
      exact iff_of_true (iff_of_false hcode (hnotdoc.mpr (.inl htop))) (.inr (.inl htop))
    · have hcode := compatiblePath_eq_false htop
      constructor
      · intro h
        have hfalse : n.compatiblePath dt path = false := by
          rw [← Bool.not_eq_true]
          intro htrue
          -- What `compatible_path` accepts has a first entry that fails the documented test.
          have hpos : 0 < path.length := List.length_pos_iff.mpr hne
          have hfirst := ((compatiblePath_eq_true path n).mp htrue).1 0 hpos
          exact hnotdoc.mpr (.inr ⟨0, hfirst⟩) (h.mp htrue)
        have hno : ¬Documented dt path n := by
          intro hdoc
          rw [h.mpr hdoc] at hfalse
          cases hfalse
        exact .inr (.inr ⟨(hnotdoc.mp hno).resolve_left htop, hcode.mp hfalse⟩)
      · intro h
        obtain ⟨hmiss, hfail⟩ := (h.resolve_left hne).resolve_left htop
        refine iff_of_false ?_ (hnotdoc.mpr (.inr hmiss))
        rw [Bool.not_eq_true]
        exact hcode.mpr hfail

/-- The documented answer for the path of `parent_compatible`. -/
theorem documented_replicate (level : Nat) (name : String) (n : Node) :
    Documented dt (List.replicate level none ++ [some name]) n ↔
      parentCompatible dt [name] level n = true := by
  have hlast : (List.replicate level none ++ [some name])[level]? = some (some name) := by
    rw [List.getElem?_append_right (Nat.le_of_eq List.length_replicate), List.length_replicate,
      Nat.sub_self, List.getElem?_cons_zero]
  rw [parentCompatible_eq, Option.any_eq_true]
  constructor
  · intro h
    obtain ⟨a, ha, hall⟩ := h level (some name) hlast
    refine ⟨a, ha, ?_⟩
    rw [List.any_cons, hall name rfl, Bool.true_or]
  · intro ⟨a, ha, hany⟩ i entry hentry
    have hcompat : a.isCompatible name = true := by simpa using hany
    cases Nat.lt_or_ge i level with
    | inl hlt =>
      -- An entry `None` only wants an ancestor, and there is one up to `level`.
      rw [List.getElem?_append_left (by rwa [List.length_replicate]),
        List.getElem?_replicate_of_lt hlt] at hentry
      cases hentry
      cases hi : n.nthAncestor dt i with
      | none =>
        rw [nthAncestor_none_of_le hi (Nat.le_of_lt hlt)] at ha
        cases ha
      | some b => exact ⟨b, rfl, fun x hx => by cases hx⟩
    | inr hge =>
      have hlen := (List.getElem?_eq_some_iff.mp hentry).1
      rw [List.length_append, List.length_replicate, List.length_singleton] at hlen
      have hi : i = level := by omega
      subst hi
      rw [hlast] at hentry
      cases hentry
      refine ⟨a, ha, fun x hx => ?_⟩
      cases hx
      exact hcompat

/-- `compatible_path` gives the documented answer exactly on the paths of `Agrees`. For such a path
with one name at its end, this is also the answer of `parent_compatible`. -/
theorem compatiblePath_documented_iff (dt : DeviceTree) (n : Node) :
    (∀ path, (n.compatiblePath dt path = true ↔ Documented dt path n) ↔ Agrees dt path n) ∧
    ∀ level name,
      n.compatiblePath dt (List.replicate level none ++ [some name]) =
          parentCompatible dt [name] level n ↔
        Agrees dt (List.replicate level none ++ [some name]) n := by
  refine ⟨fun path => compatiblePath_iff_documented path n, fun level name => ?_⟩
  rw [← compatiblePath_iff_documented, documented_replicate, Bool.eq_iff_iff]

/-- On `m`, the path "a" is not accepted, and "c" is. -/
theorem compatible_path_negated :
    ∃ dt, DeviceTree.new 4 twoLevels (fun _ => some 0) = .ok dt ∧
      ∃ n ∈ dt.root.nodes,
        (Documented dt [some "a"] n ∧ n.compatiblePath dt [some "a"] = false) ∧
        (¬Documented dt [some "c"] n ∧ n.compatiblePath dt [some "c"] = true) ∧
        n.compatiblePath dt [some "a"] ≠ parentCompatible dt ["a"] 0 n := by
  have hcheck : (DeviceTree.new 4 twoLevels (fun _ => some 0)).toOption.any (fun dt =>
      dt.root.nodes.any fun n =>
        parentCompatible dt ["a"] 0 n && !n.compatiblePath dt [some "a"] &&
          !parentCompatible dt ["c"] 0 n && n.compatiblePath dt [some "c"]) = true := by
    decide +kernel
  obtain ⟨dt, hnew, hdt⟩ := exists_ok_of_any hcheck
  obtain ⟨n, hn, hnode⟩ := List.any_eq_true.mp hdt
  simp only [Bool.and_eq_true, Bool.not_eq_true'] at hnode
  obtain ⟨⟨⟨ha, hnoa⟩, hnoc⟩, hc⟩ := hnode
  refine ⟨dt, hnew, n, hn, ⟨(documented_replicate 0 "a" n).mpr ha, hnoa⟩, ⟨fun hdoc => ?_, hc⟩, ?_⟩
  · rw [(documented_replicate 0 "c" n).mp hdoc] at hnoc
    cases hnoc
  · rw [ha, hnoa]
    exact Bool.false_ne_true

end ZephyrRust.Devicetree
