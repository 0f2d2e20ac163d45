import ZephyrRust.Devicetree.Render
import ZephyrRust.Lib.Fallible
import ZephyrRust.Proofs.Devicetree.Tree

/-!
# `ZephyrRust.Proofs.Devicetree.Build`: what the tree builder makes

`Built` is the specification of `walk_node`: what a node and its subtree look like when the builder
has made them below a parent with a given path and route, and what the builder's map and its next
address are then. `walkNode_built` proves it by induction over the parse tree. The rest of the module
reads facts off `Built` by induction over the device tree:

* the addresses are all different (`Built.distinctIds`),
* the map has the labels of the tree, and each of them for a node that declares it
  (`Built.labels_get`),
* the path, the route and the ordinal of a node follow from the names on the way down
  (`Built.under`).

The builder needs one fact about the parse tree, that its names are texts that the rule `nodename`
reads (`Wf`). `Proofs.Devicetree.Grammar` proves it of the grammar.
-/

set_option autoImplicit false

namespace ZephyrRust.Devicetree

open ZephyrRust.Lib.Peg (Pair)
open ZephyrRust.Lib.Fallible

/-! ## Names -/

/-- The names in the parse tree are texts that `nodename` reads. -/
inductive Wf : Pair Rule → Prop
  | mk {r : Rule} {text : List Char} {inner : List (Pair Rule)}
      (hname : r = .nodename → IsName (String.ofList text)) (hinner : ∀ p ∈ inner, Wf p) :
      Wf (.mk r text inner)

theorem Wf.isName {p : Pair Rule} (h : Wf p) (hrule : p.rule = .nodename) :
    IsName (String.ofList p.text) := by
  cases h with
  | mk hname _ => exact hname hrule

theorem Wf.of_inner {p q : Pair Rule} (h : Wf p) (hq : q ∈ p.inner) : Wf q := by
  cases h with
  | mk _ hinner => exact hinner q hq

/-! ## References -/

/-- No reference is resolved. -/
def Unresolved (phs : List Phandle) : Prop := ∀ ph ∈ phs, ph.node = none

theorem unresolved_new (name : String) : Unresolved [Phandle.new name] := by
  intro ph hph
  rw [List.mem_singleton.mp hph]
  rfl

/-- A decoded cell is unresolved. -/
theorem decodeWord_unresolved {p : Pair Rule} {w : Word} (h : decodeWord p = .ok w) :
    Unresolved w.phandles := by
  unfold decodeWord at h
  split at h
  · obtain ⟨n, -, rfl⟩ := map_eq_ok.mp h
    exact fun ph hph => by cases hph
  · obtain ⟨n, -, rfl⟩ := map_eq_ok.mp h
    exact fun ph hph => by cases hph
  · cases h
    exact unresolved_new _
  · cases h

theorem decodeWords_unresolved {p : Pair Rule} {ws : List Word} (h : decodeWords p = .ok ws) :
    Unresolved (Value.words ws).phandles := by
  intro ph hph
  obtain ⟨w, hw, hph⟩ := List.mem_flatMap.mp hph
  obtain ⟨q, -, hq⟩ := mem_of_mapM h hw
  exact decodeWord_unresolved hq ph hph

/-- A property as the decoder makes it. -/
structure Property.Decoded (p : Property) : Prop where
  name : IsName p.name
  unresolved : Unresolved p.phandles

theorem decodePropertyLoop_decoded {ps : List (Pair Rule)} {name : Option String}
    {value : List Value} {p : Property} (hwf : ∀ q ∈ ps, Wf q)
    (hname : ∀ t, name = some t → IsName t) (hv : Unresolved (value.flatMap Value.phandles))
    (h : decodePropertyLoop name value ps = .ok p) : p.Decoded := by
  -- One more value without resolved references.
  have hmore : ∀ {value : List Value} {v : Value},
      Unresolved (value.flatMap Value.phandles) → Unresolved v.phandles →
      Unresolved ((value ++ [v]).flatMap Value.phandles) := by
    intro value v hvalue hnew ph hph
    rw [List.flatMap_append, List.mem_append, List.flatMap_singleton] at hph
    rcases hph with hph | hph
    · exact hvalue ph hph
    · exact hnew ph hph
  induction ps generalizing name value with
  | nil =>
    cases name with
    | none => cases h
    | some name =>
      cases h
      exact ⟨hname name rfl, hv⟩
  | cons q ps ih =>
    have hps : ∀ q ∈ ps, Wf q := fun q' hq' => hwf q' (List.mem_cons_of_mem q hq')
    rw [decodePropertyLoop] at h
    split at h
    · rename_i hrule
      refine ih hps (fun t ht => ?_) hv h
      rw [← Option.some.inj ht]
      exact (hwf q List.mem_cons_self).isName hrule
    · obtain ⟨ws, hws, h⟩ := bind_eq_ok.mp h
      exact ih hps hname (hmore hv (decodeWords_unresolved hws)) h
    · exact ih hps hname (hmore (v := .phandle _) hv (unresolved_new _)) h
    · exact ih hps hname (hmore hv fun ph hph => by cases hph) h
    · obtain ⟨bs, -, h⟩ := bind_eq_ok.mp h
      exact ih hps hname (hmore hv fun ph hph => by cases hph) h
    · cases h

theorem decodeProperty_decoded {q : Pair Rule} {p : Property} (hwf : Wf q)
    (h : decodeProperty q = .ok p) : p.Decoded := by
  refine decodePropertyLoop_decoded (fun q' hq' => hwf.of_inner hq') ?_ ?_ h
  · intro t ht
    cases ht
  · intro ph hph
    cases hph

/-! ## The specification of the builder -/

/-- The name, the path, the route and the ordinal of a node below a parent with this path and
route. The root has no parent, and the path of its parent is empty. -/
def Node.Named (ords : OrdMap) (path : String) (route : List String) (n : Node) : Prop :=
  if path = "" then n.name = "/" ∧ n.path = "/" ∧ n.route = route ∧ ords "/" = some n.ord
  else
    IsName n.name ∧ n.route = route ++ [n.name] ∧ ords n.path = some n.ord ∧
      n.path = if 1 < path.length then path ++ "/" ++ n.name else path ++ n.name

mutual

/-- The node was made by the builder, which was `b` before and is `b'` after it. -/
def Node.Built (ords : OrdMap) (path : String) (route : List String) :
    Node → Builder → Builder → Prop
  | ⟨id, name, path', route', ord, labels, properties, children, parent⟩, b, b' =>
    Node.Named ords path route
        ⟨id, name, path', route', ord, labels, properties, children, parent⟩ ∧
      parent = none ∧ (∀ p ∈ properties, p.Decoded) ∧
      ∃ b₁, BuiltAll ords path' route' children b b₁ ∧ id = b₁.next ∧
        b' = ⟨labels.foldl (fun m l => m.insert l id) b₁.labels, b₁.next + 1⟩

/-- The nodes were made one after the other. -/
def BuiltAll (ords : OrdMap) (path : String) (route : List String) :
    List Node → Builder → Builder → Prop
  | [], b, b' => b' = b
  | n :: ns, b, b' => ∃ b₁, Node.Built ords path route n b b₁ ∧ BuiltAll ords path route ns b₁ b'

end

variable {ords : OrdMap}

theorem Node.built_iff {path : String} {route : List String} {n : Node} {b b' : Builder} :
    n.Built ords path route b b' ↔
      n.Named ords path route ∧ n.parent = none ∧ (∀ p ∈ n.properties, p.Decoded) ∧
      ∃ b₁, BuiltAll ords n.path n.route n.children b b₁ ∧ n.id = b₁.next ∧
        b' = ⟨n.labels.foldl (fun m l => m.insert l n.id) b₁.labels, b₁.next + 1⟩ := by
  obtain ⟨id, name, path', route', ord, labels, properties, children, parent⟩ := n
  rw [Node.Built]

/-- What the loop of `walk_node` adds to its parts. The name is set at most once, and the children
were made below the name that is known at the end. -/
def Adds (ords : OrdMap) (parts : Parts) (b : Builder) (parts' : Parts) (b' : Builder) : Prop :=
  (parts'.name = parts.name ∨
    parts.name.info = none ∧ ∃ name, IsName name ∧ parts.name.set ords name = .ok parts'.name) ∧
  ((∀ p ∈ parts.properties, p.Decoded) → ∀ p ∈ parts'.properties, p.Decoded) ∧
  ∃ cs, parts'.children = parts.children ++ cs ∧
    ∀ info, parts'.name.info = some info →
      BuiltAll ords info.path parts'.name.route cs b b'

theorem OrdMap.index_eq_ok {path : String} {ord : Nat} (h : ords.index path = .ok ord) :
    ords path = some ord := by
  unfold OrdMap.index at h
  split at h
  · rename_i hsome
    cases h
    exact hsome
  · cases h

theorem LazyName.known_eq_ok {l : LazyName} {info : Info} (h : l.known = .ok info) :
    l.info = some info := by
  unfold LazyName.known at h
  split at h
  · rename_i hinfo
    cases h
    exact hinfo
  · cases h

/-- `set` makes the name known. -/
theorem LazyName.set_eq_ok {l l' : LazyName} {name : String} (h : l.set ords name = .ok l') :
    l.info = none ∧ ∃ ord, ords (if 1 < l.path.length then l.path ++ "/" ++ name
        else l.path ++ name) = some ord ∧
      l' = { l with
        route := l.route ++ [name]
        info := some
          { name := name
            path := if 1 < l.path.length then l.path ++ "/" ++ name else l.path ++ name
            ord := ord } } := by
  unfold LazyName.set at h
  split at h
  · cases h
  · rename_i hinfo
    obtain ⟨ord, hord, he⟩ := bind_eq_ok.mp h
    exact ⟨hinfo, ord, OrdMap.index_eq_ok hord, (Except.ok.inj he).symm⟩

/-- A name that is known stays. -/
theorem Adds.name_eq {parts parts' : Parts} {b b' : Builder} (h : Adds ords parts b parts' b')
    {info : Info} (hinfo : parts.name.info = some info) : parts'.name = parts.name := by
  rcases h.1 with he | ⟨hnone, -⟩
  · exact he
  · rw [hinfo] at hnone
    cases hnone

/-- The end of `walk_node`, when the loop is done. -/
theorem finish_built {path : String} {route : List String} {name : LazyName} {parts : Parts}
    {b b₁ b' : Builder} {n : Node} (hname : LazyName.new ords path route = .ok name)
    (hadds : Adds ords ⟨name, [], [], []⟩ b parts b₁)
    (hfin : parts.finish b₁ = .ok (n, b')) : n.Built ords path route b b' := by
  obtain ⟨info, hinfo, he⟩ := bind_eq_ok.mp hfin
  have hknown := LazyName.known_eq_ok hinfo
  obtain ⟨hset, hprops, cs, hcs, hbuilt⟩ := hadds
  cases Except.ok.inj he
  rw [Node.built_iff]
  refine ⟨?_, rfl, hprops (fun p hp => nomatch hp), b₁, ?_, rfl, rfl⟩
  · unfold LazyName.new at hname
    unfold Node.Named
    split at hname
    · -- The root: the name is known from the start.
      rename_i hpath
      rw [if_pos hpath]
      obtain ⟨ord, hord, hname⟩ := bind_eq_ok.mp hname
      cases Except.ok.inj hname
      rcases hset with heq | ⟨hnone, -⟩
      case inr => cases hnone
      rw [heq] at hknown ⊢
      cases Option.some.inj hknown
      exact ⟨rfl, rfl, rfl, OrdMap.index_eq_ok hord⟩
    · rename_i hpath
      rw [if_neg hpath]
      cases hname
      rcases hset with he | ⟨-, nm, hne, hset⟩
      · rw [he] at hknown
        cases hknown
      · obtain ⟨-, ord, hord, heq⟩ := LazyName.set_eq_ok hset
        rw [heq] at hknown ⊢
        cases Option.some.inj hknown
        exact ⟨hne, rfl, hord, rfl⟩
  · rw [hcs]
    exact hbuilt info hknown

mutual

/-- `walk_node` meets its specification. -/
theorem walkNode_built : ∀ (p : Pair Rule) {path : String} {route : List String}
    {b b' : Builder} {n : Node}, Wf p → walkNode ords path route p b = .ok (n, b') →
    n.Built ords path route b b'
  | .mk r text inner, path, route, b, b', n, hwf, h => by
    cases hwf with
    | mk _ hinner =>
      rw [walkNode] at h
      obtain ⟨name, hname, h⟩ := bind_eq_ok.mp h
      obtain ⟨⟨parts, b₁⟩, hparts, hfin⟩ := bind_eq_ok.mp h
      exact finish_built hname (walkInner_adds inner hinner hparts) hfin

/-- The loop of `walk_node` meets its specification. -/
theorem walkInner_adds : ∀ (ps : List (Pair Rule)) {parts parts' : Parts} {b b' : Builder},
    (∀ p ∈ ps, Wf p) → walkInner ords ps parts b = .ok (parts', b') →
    Adds ords parts b parts' b'
  | [], parts, parts', b, b', _, h => by
    cases h
    exact ⟨Or.inl rfl, id, [], (List.append_nil _).symm, fun _ _ => rfl⟩
  | p :: ps, parts, parts', b, b', hwf, h => by
    have hps : ∀ q ∈ ps, Wf q := fun q hq => hwf q (List.mem_cons_of_mem p hq)
    have hp := hwf p List.mem_cons_self
    rw [walkInner] at h
    split at h
    · -- The name. It must not be known before, so the rest keeps it.
      rename_i hrule
      obtain ⟨name, hset, h⟩ := bind_eq_ok.mp h
      obtain ⟨hnone, ord, -, hname⟩ := LazyName.set_eq_ok hset
      have hrest := walkInner_adds ps hps h
      have hkeep : parts'.name = name := hrest.name_eq (by rw [hname])
      refine ⟨Or.inr ⟨hnone, String.ofList p.text, hp.isName hrule, ?_⟩, hrest.2⟩
      rw [hkeep]
      exact hset
    · obtain ⟨hname, hprops, hchildren⟩ := walkInner_adds ps hps h
      exact ⟨hname, hprops, hchildren⟩
    · obtain ⟨property, hdecode, h⟩ := bind_eq_ok.mp h
      obtain ⟨hname, hprops, hchildren⟩ := walkInner_adds ps hps h
      refine ⟨hname, fun hold => hprops fun q hq => ?_, hchildren⟩
      rcases List.mem_append.mp hq with hq | hq
      · exact hold q hq
      · rw [List.mem_singleton.mp hq]
        exact decodeProperty_decoded hp hdecode
    · obtain ⟨info, hknown, h⟩ := bind_eq_ok.mp h
      obtain ⟨⟨child, b₁⟩, hchild, h⟩ := bind_eq_ok.mp h
      have hinfo := LazyName.known_eq_ok hknown
      have hbuilt := walkNode_built p hp hchild
      have hrest := walkInner_adds ps hps h
      have hkeep : parts'.name = parts.name := hrest.name_eq hinfo
      obtain ⟨hname, hprops, cs, hcs, hall⟩ := hrest
      refine ⟨hname, hprops, child :: cs, ?_, fun info' hinfo' => ⟨b₁, ?_, hall info' hinfo'⟩⟩
      · rw [hcs, List.append_assoc, List.singleton_append]
      · rw [hkeep, hinfo] at hinfo'
        rw [hkeep, ← Option.some.inj hinfo']
        exact hbuilt
    · cases h

end

/-! ## What follows from the specification -/

/-- A fact about a whole tree, from what holds of no nodes, of nodes one after the other and of a
node over its children. The arguments of `Q` are the nodes and the builder before and after. -/
theorem Node.Built.accumulate {Q : List Node → Builder → Builder → Prop} (hnil : ∀ b, Q [] b b)
    (happend : ∀ {ns ms b b₁ b'}, Q ns b b₁ → Q ms b₁ b' → Q (ns ++ ms) b b')
    (hnode : ∀ {n : Node} {ns b b₁}, Q ns b b₁ → n.id = b₁.next →
      Q (n :: ns) b ⟨n.labels.foldl (fun m l => m.insert l n.id) b₁.labels, b₁.next + 1⟩)
    {path : String} {route : List String} {n : Node} {b b' : Builder}
    (h : n.Built ords path route b b') : Q n.nodes b b' := by
  induction n using Node.induct generalizing path route b b' with
  | h n ih =>
    obtain ⟨-, -, -, b₁, hall, hid, rfl⟩ := Node.built_iff.mp h
    -- The children, one after the other.
    have hchildren : ∀ cs, (∀ c ∈ cs, c ∈ n.children) → ∀ {b b₁},
        BuiltAll ords n.path n.route cs b b₁ → Q (cs.flatMap Node.nodes) b b₁ := by
      intro cs
      induction cs with
      | nil =>
        intro _ b b₁ hall
        cases hall
        exact hnil b
      | cons c cs ihcs =>
        intro hsub b b₁ hall
        obtain ⟨b₂, hc, hcs⟩ := hall
        rw [List.flatMap_cons]
        exact happend (ih c (hsub c List.mem_cons_self) hc)
          (ihcs (fun d hd => hsub d (List.mem_cons_of_mem c hd)) hcs)
    rw [Node.nodes_eq]
    exact hnode (hchildren n.children (fun c hc => hc) hall) hid

/-- The nodes have different addresses, which were free before. -/
def Fresh (ns : List Node) (b b' : Builder) : Prop :=
  b.next ≤ b'.next ∧ (∀ m ∈ ns, b.next ≤ m.id ∧ m.id < b'.next) ∧ (ns.map Node.id).Nodup

theorem Node.Built.fresh {path : String} {route : List String} {n : Node} {b b' : Builder}
    (h : n.Built ords path route b b') : Fresh n.nodes b b' := by
  refine Node.Built.accumulate (Q := Fresh) ?_ ?_ ?_ h
  · intro b
    exact ⟨Nat.le_refl _, List.forall_mem_nil _, List.nodup_nil⟩
  · intro ns ms b b₁ b' hns hms
    obtain ⟨hle, hin, hnd⟩ := hns
    obtain ⟨hle', hin', hnd'⟩ := hms
    refine ⟨by omega, fun m hm => ?_, ?_⟩
    · rcases List.mem_append.mp hm with hm | hm
      · have := hin m hm
        omega
      · have := hin' m hm
        omega
    · rw [List.map_append]
      refine List.Nodup.append hnd hnd' ?_
      intro a ha ha'
      obtain ⟨m, hm, rfl⟩ := List.mem_map.mp ha
      obtain ⟨m', hm', hid⟩ := List.mem_map.mp ha'
      have := hin m hm
      have := hin' m' hm'
      omega
  · intro n ns b b₁ hns hid
    obtain ⟨hle, hin, hnd⟩ := hns
    show b.next ≤ b₁.next + 1 ∧ _
    refine ⟨by omega, fun m hm => ?_, ?_⟩
    · show b.next ≤ m.id ∧ m.id < b₁.next + 1
      rcases List.mem_cons.mp hm with rfl | hm
      · omega
      · have := hin m hm
        omega
    · rw [List.map_cons]
      refine List.nodup_cons.mpr ⟨fun hmem => ?_, hnd⟩
      obtain ⟨m, hm, he⟩ := List.mem_map.mp hmem
      have := hin m hm
      omega

theorem Node.Built.distinctIds {path : String} {route : List String} {n : Node} {b b' : Builder}
    (h : n.Built ords path route b b') : DistinctIds n :=
  h.fresh.2.2

/-! ### Labels -/

theorem Labels.get_cons (m : Labels) (k l : String) (v : Addr) :
    Labels.get ((k, v) :: m) l = if l = k then some v else Labels.get m l := by
  show List.lookup l ((k, v) :: m) = _
  rw [List.lookup_cons]
  split
  · rename_i h
    rw [if_pos (eq_of_beq h)]
  · rename_i h
    rw [if_neg (ne_of_beq_false h)]
    rfl

theorem Labels.get_insert (m : Labels) (l l' : String) (a : Addr) :
    (m.insert l' a).get l = if l = l' then some a else m.get l := by
  induction m with
  | nil => exact Labels.get_cons [] l' l a
  | cons e m ih =>
    obtain ⟨k, v⟩ := e
    unfold Labels.insert
    split
    · exact Labels.get_cons _ l' l a
    · split
      · rename_i heq
        rw [Labels.get_cons, Labels.get_cons, heq]
        split <;> rfl
      · rename_i hne
        rw [Labels.get_cons, Labels.get_cons, ih]
        by_cases h : l = l'
        · rw [h, if_neg hne, if_pos rfl, if_pos rfl]
        · rw [if_neg h, if_neg h]

theorem Labels.get_foldl_insert (ls : List String) (m : Labels) (l : String) (a : Addr) :
    (ls.foldl (fun m l => m.insert l a) m).get l = if l ∈ ls then some a else m.get l := by
  induction ls generalizing m with
  | nil => simp
  | cons k ls ih =>
    rw [List.foldl_cons, ih, Labels.get_insert]
    by_cases hmem : l ∈ ls <;> by_cases heq : l = k <;> simp [hmem, heq]

/-- The map after the nodes: a label of them leads to one that declares it, and for all others the
map is as before. -/
def Collected (ns : List Node) (b b' : Builder) : Prop :=
  ∀ l, (∃ m ∈ ns, l ∈ m.labels ∧ b'.labels.get l = some m.id) ∨
    (∀ m ∈ ns, l ∉ m.labels) ∧ b'.labels.get l = b.labels.get l

theorem Node.Built.collected {path : String} {route : List String} {n : Node} {b b' : Builder}
    (h : n.Built ords path route b b') : Collected n.nodes b b' := by
  refine Node.Built.accumulate (Q := Collected) ?_ ?_ ?_ h
  · intro b l
    exact Or.inr ⟨List.forall_mem_nil _, rfl⟩
  · intro ns ms b b₁ b' hns hms l
    rcases hms l with ⟨m, hm, hl, hget⟩ | ⟨hno, hget⟩
    · exact Or.inl ⟨m, List.mem_append_right ns hm, hl, hget⟩
    · rw [hget]
      rcases hns l with ⟨m, hm, hl, hget⟩ | ⟨hno', hget⟩
      · exact Or.inl ⟨m, List.mem_append_left ms hm, hl, hget⟩
      · refine Or.inr ⟨fun m hm => ?_, hget⟩
        rcases List.mem_append.mp hm with hm | hm
        · exact hno' m hm
        · exact hno m hm
  · intro n ns b b₁ hns _ l
    rw [Labels.get_foldl_insert]
    by_cases hl : l ∈ n.labels
    · exact Or.inl ⟨n, List.mem_cons_self, hl, if_pos hl⟩
    · rw [if_neg hl]
      rcases hns l with ⟨m, hm, hml, hget⟩ | ⟨hno, hget⟩
      · exact Or.inl ⟨m, List.mem_cons_of_mem n hm, hml, hget⟩
      · exact Or.inr ⟨List.forall_mem_cons.mpr ⟨hl, hno⟩, hget⟩

theorem Labels.mem_of_get {m : Labels} {l : String} {a : Addr} (h : m.get l = some a) :
    (l, a) ∈ m := by
  induction m with
  | nil => cases h
  | cons e m ih =>
    obtain ⟨k, v⟩ := e
    rw [Labels.get_cons] at h
    split at h
    · rename_i hl
      rw [hl, Option.some.inj h]
      exact List.mem_cons_self
    · exact List.mem_cons_of_mem _ (ih h)

theorem Labels.mem_insert {m : Labels} {l : String} {a : Addr} {e : String × Addr}
    (h : e ∈ m.insert l a) : e = (l, a) ∨ e ∈ m := by
  induction m with
  | nil => exact Or.inl (List.mem_singleton.mp h)
  | cons k m ih =>
    unfold Labels.insert at h
    split at h
    · exact List.mem_cons.mp h
    · split at h
      · rcases List.mem_cons.mp h with h | h
        · exact Or.inl h
        · exact Or.inr (List.mem_cons_of_mem k h)
      · rcases List.mem_cons.mp h with h | h
        · rw [h]
          exact Or.inr List.mem_cons_self
        · rcases ih h with h | h
          · exact Or.inl h
          · exact Or.inr (List.mem_cons_of_mem k h)

theorem Labels.mem_foldl_insert {ls : List String} {m : Labels} {a : Addr} {e : String × Addr}
    (h : e ∈ ls.foldl (fun m l => m.insert l a) m) : e ∈ m ∨ e.1 ∈ ls ∧ e.2 = a := by
  induction ls generalizing m with
  | nil => exact Or.inl h
  | cons l ls ih =>
    rcases ih h with h | ⟨hl, ha⟩
    · rcases Labels.mem_insert h with rfl | h
      · exact Or.inr ⟨List.mem_cons_self, rfl⟩
      · exact Or.inl h
    · exact Or.inr ⟨List.mem_cons_of_mem l hl, ha⟩

/-- The entries of the map come from the nodes, or they were there before. -/
def EntriesFrom (ns : List Node) (b b' : Builder) : Prop :=
  ∀ e ∈ b'.labels, e ∈ b.labels ∨ ∃ m ∈ ns, e.1 ∈ m.labels ∧ m.id = e.2

theorem Node.Built.entriesFrom {path : String} {route : List String} {n : Node} {b b' : Builder}
    (h : n.Built ords path route b b') : EntriesFrom n.nodes b b' := by
  refine Node.Built.accumulate (Q := EntriesFrom) ?_ ?_ ?_ h
  · intro b e he
    exact Or.inl he
  · intro ns ms b b₁ b' hns hms e he
    rcases hms e he with he | ⟨m, hm, hrest⟩
    · rcases hns e he with he | ⟨m, hm, hrest⟩
      · exact Or.inl he
      · exact Or.inr ⟨m, List.mem_append_left ms hm, hrest⟩
    · exact Or.inr ⟨m, List.mem_append_right ns hm, hrest⟩
  · intro n ns b b₁ hns _ e he
    rcases Labels.mem_foldl_insert he with he | ⟨hl, ha⟩
    · rcases hns e he with he | ⟨m, hm, hrest⟩
      · exact Or.inl he
      · exact Or.inr ⟨m, List.mem_cons_of_mem n hm, hrest⟩
    · exact Or.inr ⟨n, List.mem_cons_self, hl, ha.symm⟩

/-! ### Paths -/

/-- `LazyName::set` extends the path of the parent by one name. -/
theorem joinPath_append {route : List String} (hne : ∀ x ∈ route, x ≠ "") (name : String) :
    joinPath (route ++ [name]) =
      if 1 < (joinPath route).length then joinPath route ++ "/" ++ name
      else joinPath route ++ name := by
  cases route with
  | nil => rfl
  | cons x route =>
    have hlen : 0 < x.length := by
      rcases Nat.eq_zero_or_pos x.length with h | h
      · exact absurd (String.length_eq_zero_iff.mp h) (hne x List.mem_cons_self)
      · exact h
    have hx : x.length ≤ ("/".intercalate (x :: route)).length := by
      cases route with
      | nil => simp
      | cons y route => simp; omega
    have hone : ("/" : String).length = 1 := rfl
    have hlong : 1 < (joinPath (x :: route)).length := by
      rw [joinPath, String.length_append]
      omega
    rw [if_pos hlong, joinPath, joinPath,
      String.intercalate_append_of_ne_nil (List.cons_ne_nil x route) (List.cons_ne_nil name []),
      String.intercalate_singleton]
    simp only [String.append_assoc]

/-- The path of a node agrees with its route, and its ordinal is the one of the path. -/
structure Node.Coherent (ords : OrdMap) (n : Node) : Prop where
  names : ∀ x ∈ n.route, IsName x
  path : n.path = joinPath n.route
  ord : ords n.path = some n.ord

theorem Node.Coherent.path_ne {n : Node} (h : n.Coherent ords) : n.path ≠ "" := by
  intro he
  have hlen : n.path.length = 0 := by rw [he]; rfl
  have hone : ("/" : String).length = 1 := rfl
  rw [h.path, joinPath, String.length_append] at hlen
  omega

/-- The children of a coherent node. -/
theorem BuiltAll.child {path : String} {route : List String} {cs : List Node} {c : Node}
    {b b' : Builder} (h : BuiltAll ords path route cs b b') (hc : c ∈ cs) :
    ∃ b₁ b₂, c.Built ords path route b₁ b₂ := by
  induction cs generalizing b with
  | nil => cases hc
  | cons d cs ih =>
    obtain ⟨b₁, hd, hcs⟩ := h
    rcases List.mem_cons.mp hc with rfl | hc
    · exact ⟨b, b₁, hd⟩
    · exact ih hcs hc

/-- One level: the route of a child is the one of its parent and the name. -/
theorem Node.Coherent.child {n c : Node} {b b' : Builder} (h : n.Coherent ords)
    (hc : c.Built ords n.path n.route b b') :
    c.Coherent ords ∧ c.route = n.route ++ [c.name] := by
  obtain ⟨hnamed, -⟩ := Node.built_iff.mp hc
  rw [Node.Named, if_neg h.path_ne] at hnamed
  obtain ⟨hname, hroute, hord, hpath⟩ := hnamed
  refine ⟨⟨fun x hx => ?_, ?_, hord⟩, hroute⟩
  · rw [hroute, List.mem_append, List.mem_singleton] at hx
    rcases hx with hx | rfl
    · exact h.names x hx
    · exact hname
  · rw [hpath, hroute, joinPath_append fun x hx => (h.names x hx).1, ← h.path]

/-- Every level: the route of a node continues the route of the node above with the names on the way
down. -/
theorem Node.Built.under {path : String} {route names : List String} {n m : Node}
    {b b' : Builder} (h : n.Built ords path route b b') (hn : n.Coherent ords)
    (hu : Under n names m) :
    m.Coherent ords ∧ m.route = n.route ++ names ∧ m.parent = none ∧
      ∀ p ∈ m.properties, p.Decoded := by
  induction hu generalizing path route b b' with
  | refl n =>
    obtain ⟨-, hparent, hprops, -⟩ := Node.built_iff.mp h
    exact ⟨hn, (List.append_nil _).symm, hparent, hprops⟩
  | @child n c m names hc _ ih =>
    obtain ⟨-, -, -, b₁, hall, -⟩ := Node.built_iff.mp h
    obtain ⟨b₂, b₃, hbuilt⟩ := hall.child hc
    obtain ⟨hcoh, hroute⟩ := hn.child hbuilt
    obtain ⟨hm, hr, hrest⟩ := ih hbuilt hcoh
    refine ⟨hm, ?_, hrest⟩
    rw [hr, hroute, List.append_assoc, List.singleton_append]

/-- The tree that `TreeBuilder::walk` makes. -/
structure Parsed (ords : OrdMap) (dt : DeviceTree) : Prop where
  ids : DistinctIds dt.root
  coherent : ∀ {names m}, Under dt.root names m → m.Coherent ords ∧ m.route = names
  rootName : dt.root.name = "/"
  parents : ∀ m ∈ dt.root.nodes, m.parent = none
  decoded : ∀ m ∈ dt.root.nodes, ∀ p ∈ m.properties, p.Decoded
  declared : ∀ m ∈ dt.root.nodes, ∀ l ∈ m.labels,
    ∃ m' ∈ dt.root.nodes, l ∈ m'.labels ∧ dt.labels.get l = some m'.id
  entries : ∀ e ∈ dt.labels, ∃ m ∈ dt.root.nodes, e.1 ∈ m.labels ∧ m.id = e.2

theorem walk_parsed {ps : List (Pair Rule)} {dt : DeviceTree} (hwf : ∀ p ∈ ps, Wf p)
    (h : walk ords ps = .ok dt) : Parsed ords dt := by
  cases ps with
  | nil => cases h
  | cons p ps =>
    rw [walk] at h
    split at h
    · obtain ⟨⟨root, b⟩, hroot, he⟩ := bind_eq_ok.mp h
      cases Except.ok.inj he
      have hbuilt := walkNode_built p (hwf p List.mem_cons_self) hroot
      obtain ⟨hnamed, -⟩ := Node.built_iff.mp hbuilt
      rw [Node.Named, if_pos rfl] at hnamed
      obtain ⟨hname, hpath, hroute, hord⟩ := hnamed
      have hcoh : root.Coherent ords := by
        refine ⟨fun x hx => ?_, ?_, ?_⟩
        · rw [hroute] at hx
          cases hx
        · rw [hpath, hroute]
          rfl
        · rw [hpath]
          exact hord
      have hall : ∀ m ∈ root.nodes, m.parent = none ∧ ∀ p ∈ m.properties, p.Decoded := by
        intro m hm
        obtain ⟨names, hu⟩ := exists_under_of_mem_nodes hm
        exact (hbuilt.under hcoh hu).2.2
      refine ⟨hbuilt.distinctIds, fun hu => ?_, hname, fun m hm => (hall m hm).1,
        fun m hm => (hall m hm).2, fun m hm l hl => ?_, fun e he => ?_⟩
      · obtain ⟨hm, hr, -⟩ := hbuilt.under hcoh hu
        rw [hroute] at hr
        exact ⟨hm, hr⟩
      · rcases hbuilt.collected l with ⟨m', hm', hl', hget⟩ | ⟨hno, -⟩
        · exact ⟨m', hm', hl', hget⟩
        · exact absurd hl (hno m hm)
      · rcases hbuilt.entriesFrom e he with he | hm
        · cases he
        · exact hm
    · cases h

end ZephyrRust.Devicetree
