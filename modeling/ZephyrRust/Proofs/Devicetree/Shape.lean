import ZephyrRust.Proofs.Devicetree.Tokens

/-!
# `ZephyrRust.Proofs.Devicetree.Shape`: what the grammar accepts

The parse tree of a file, rule by rule: which nodes are inside a node, in which order, and which
texts the tokens have. `LabelPair`, `NamePair`, `CellPair`, `BytePair` and `ValuePair` are the
tokens and the values, `PropertyPair` is a property, and `NodePair depth` is a node with at most
`depth` levels. `file_shape` says that every accepted text has such a tree.

The decoder cuts off the first characters of some tokens and the quotes of a string. The shapes say
that these characters are there.
-/

set_option autoImplicit false

namespace ZephyrRust.Devicetree

open ZephyrRust.Lib.Peg
open Grammar

/-- A `label`. -/
def LabelPair (p : Pair Rule) : Prop :=
  ∃ l, IsLabel l ∧ p = .mk .label l.toList []

/-- A `nodename`. -/
def NamePair (p : Pair Rule) : Prop :=
  ∃ name, IsName name ∧ p = .mk .nodename name.toList []

/-- A `phandle`. -/
def PhandlePair (p : Pair Rule) : Prop :=
  ∃ l, IsLabel l ∧ p = .mk .phandle ('&' :: l.toList) []

/-- A cell of `words`. -/
inductive CellPair : Pair Rule → Prop
  | decimal {t : List Char} (hne : t ≠ []) (ht : ∀ d ∈ t, isDigit d = true) :
      CellPair (.mk .decimalNumber t [])
  | hex {x : Char} {t : List Char} (hx : x = 'x' ∨ x = 'X') (hne : t ≠ [])
      (ht : ∀ d ∈ t, isHexDigit d = true) : CellPair (.mk .hexNumber ('0' :: x :: t) [])
  | phandle {p : Pair Rule} (h : PhandlePair p) : CellPair p

/-- A token of `bytes`. -/
def BytePair (p : Pair Rule) : Prop :=
  ∃ t, t ≠ [] ∧ (∀ d ∈ t, isHexDigit d = true) ∧ p = .mk .plainHexNumber t []

/-- A `value`. -/
inductive ValuePair : Pair Rule → Prop
  | string {body : List Char} : ValuePair (.mk .string ('"' :: body ++ ['"']) [])
  | words {t : List Char} {cells : List (Pair Rule)} (h : ∀ c ∈ cells, CellPair c) :
      ValuePair (.mk .words t cells)
  | bytes {t : List Char} {tokens : List (Pair Rule)} (h : ∀ b ∈ tokens, BytePair b) :
      ValuePair (.mk .bytes t tokens)
  | phandle {p : Pair Rule} (h : PhandlePair p) : ValuePair p

/-- A `property`: its name, then its values. -/
def PropertyPair (p : Pair Rule) : Prop :=
  ∃ t name values, NamePair name ∧ (∀ v ∈ values, ValuePair v) ∧
    p = .mk .property t (name :: values)

/-- A `node` with at most `depth` levels: its labels, then its name unless it is `/`, then its
properties and nodes. -/
def NodePair : Nat → Pair Rule → Prop
  | 0, _ => False
  | depth + 1, p =>
    ∃ t labels name entries, (∀ l ∈ labels, LabelPair l) ∧
      (name = [] ∨ ∃ q, NamePair q ∧ name = [q]) ∧
      (∀ e ∈ entries, PropertyPair e ∨ NodePair depth e) ∧
      p = .mk .node t (labels ++ name ++ entries)

/-! ## Tokens -/

/-- What a label has read. -/
theorem label_eq_some {s r : List Char} {x : List (Pair Rule)} (h : label s = some (x, r)) :
    ∃ l, IsLabel l ∧ s = l.toList ++ r ∧ x = [.mk .label l.toList []] := by
  obtain ⟨⟨w, hw⟩, rfl⟩ := atomic_eq_some h
  obtain ⟨y, z, r₁, hfirst, hrest, -⟩ := seq_eq_some hw
  obtain ⟨-, c, hc, rfl⟩ := sat_eq_some hfirst
  obtain ⟨t, ht, he⟩ := star_sat_eq_some hrest
  rw [id] at he
  refine ⟨String.ofList (c :: t), ⟨c, t, String.toList_ofList, hc, ht⟩, ?_, ?_⟩
  · rw [String.toList_ofList, he, List.cons_append]
  · rw [String.toList_ofList, he, ← List.cons_append, consumed_append]

theorem shape_label : Yields LabelPair label := by
  intro s x r h p hp
  obtain ⟨l, hl, -, rfl⟩ := label_eq_some h
  exact ⟨l, hl, List.mem_singleton.mp hp⟩

theorem shape_nodename : Yields NamePair nodename := by
  refine yields_atomic fun s x r h => ?_
  obtain ⟨t, hne, ht, rfl⟩ := plus_sat_eq_some h
  rw [consumed_append]
  refine ⟨String.ofList t, ⟨fun he => hne (String.ofList_eq_empty_iff.mp he), ?_⟩, ?_⟩
  · rw [String.toList_ofList]
    exact ht
  · rw [String.toList_ofList]

theorem shape_phandle : Yields PhandlePair phandle := by
  refine yields_atomic fun s x r h => ?_
  obtain ⟨y, z, r₁, hamp, hlabel, -⟩ := seq_eq_some h
  obtain ⟨-, rfl⟩ := lit_eq_some hamp
  obtain ⟨l, hl, he, -⟩ := label_eq_some hlabel
  rw [id] at he
  rw [he, ← List.append_assoc, consumed_append]
  exact ⟨l, hl, rfl⟩

theorem shape_number : Yields CellPair number := by
  refine Yields.alt (yields_atomic fun s x r h => ?_) (yields_atomic fun s x r h => ?_)
  · obtain ⟨y, z, r₁, hfirst, hrest, -⟩ := seq_eq_some h
    obtain ⟨-, c, hc, rfl⟩ := sat_eq_some hfirst
    obtain ⟨t, ht, he⟩ := star_sat_eq_some hrest
    rw [id] at he
    rw [he, ← List.cons_append, consumed_append]
    exact .decimal (List.cons_ne_nil c t)
      (List.forall_mem_cons.mpr ⟨digit_of_nonzeroDigit hc, ht⟩)
  · obtain ⟨y, z, r₁, hfirst, hrest, -⟩ := seq_eq_some h
    obtain ⟨t, hne, ht, he⟩ := plus_sat_eq_some hrest
    rw [id] at he
    have hmark : ∃ m, (m = 'x' ∨ m = 'X') ∧ s = ['0', m] ++ r₁ := by
      cases alt_eq_some hfirst with
      | inl hlow => exact ⟨'x', .inl rfl, (lit_eq_some hlow).2⟩
      | inr hup => exact ⟨'X', .inr rfl, (lit_eq_some hup.2).2⟩
    obtain ⟨m, hm, rfl⟩ := hmark
    rw [he, ← List.append_assoc, consumed_append]
    exact .hex hm hne ht

theorem shape_plainHexNumber : Yields BytePair plainHexNumber := by
  refine yields_atomic fun s x r h => ?_
  obtain ⟨t, hne, ht, rfl⟩ := plus_sat_eq_some h
  rw [consumed_append]
  exact ⟨t, hne, ht, rfl⟩

/-- The characters of a string are those of `isStringChar`. -/
theorem stringChar_eq_sat :
    seq id (not (alt (lit ['"']) (lit ['\n']))) any = sat (R := Rule) isStringChar := by
  funext s
  cases s with
  | nil => rfl
  | cons c s =>
    by_cases hc : isStringChar c = true
    · have hne := hc
      simp only [isStringChar, Bool.not_eq_true', Bool.or_eq_false_iff,
        decide_eq_false_iff_not] at hne
      have halt : alt (lit ['"']) (lit ['\n']) (c :: s) =
          (none : Option (List (Pair Rule) × List Char)) := by
        rw [alt_right (lit_none_of_ne [] s hne.1)]
        exact lit_none_of_ne [] s hne.2
      rw [sat_cons hc]
      exact seq_some (x := []) (y := []) (not_none halt) rfl
    · have hstop : sat (R := Rule) isStringChar (c :: s) = none := by
        rw [sat, if_neg hc]
      rw [hstop]
      simp only [isStringChar, Bool.not_eq_true, Bool.not_eq_false', Bool.or_eq_true,
        decide_eq_true_eq] at hc
      cases hc with
      | inl hq =>
        rw [hq]
        exact seq_none_left (not_some (alt_left (lit_char '"' s)))
      | inr hn =>
        rw [hn]
        refine seq_none_left (not_some (x := []) (r := s) ?_)
        rw [alt_right (lit_none_of_ne [] s (by decide))]
        exact lit_char '\n' s

theorem shape_string : Yields ValuePair string := by
  refine yields_atomic fun s x r h => ?_
  obtain ⟨y, z, r₁, hopen, hrest, -⟩ := seq_eq_some h
  obtain ⟨-, rfl⟩ := lit_eq_some hopen
  obtain ⟨y', z', r₂, hbody, hclose, -⟩ := seq_eq_some hrest
  rw [stringChar_eq_sat] at hbody
  obtain ⟨body, -, he⟩ := star_sat_eq_some hbody
  obtain ⟨-, hr₂⟩ := lit_eq_some hclose
  rw [id] at he hr₂
  rw [he, hr₂, ← List.append_assoc, ← List.append_assoc, consumed_append]
  exact .string

/-! ## Values, properties and nodes -/

theorem shape_value : Yields ValuePair value := by
  have hphandle : Yields ValuePair phandle := fun s x r h p hp =>
    .phandle (shape_phandle s x r h p hp)
  have hcell : Yields CellPair (alt number phandle) :=
    shape_number.alt fun s x r h p hp => .phandle (shape_phandle s x r h p hp)
  have hwords : Yields ValuePair words := by
    refine fun s x r h p hp => ?_
    obtain ⟨cells, hcells, rfl⟩ := rule_eq_some h
    rw [List.mem_singleton.mp hp]
    exact .words (((yields_lit _).seq (hcell.plus.seq (yields_lit _))) _ _ _ hcells)
  have hbytes : Yields ValuePair bytes := by
    refine fun s x r h p hp => ?_
    obtain ⟨tokens, htokens, rfl⟩ := rule_eq_some h
    rw [List.mem_singleton.mp hp]
    exact .bytes (((yields_lit _).seq (shape_plainHexNumber.plus.seq (yields_lit _))) _ _ _ htokens)
  exact shape_string.alt (hwords.alt (hbytes.alt hphandle))

theorem shape_values : Yields ValuePair values :=
  shape_value.seq ((yields_lit _).seq shape_value).star

/-- A name makes one node. -/
theorem nodename_eq_some {s r : List Char} {x : List (Pair Rule)} (h : nodename s = some (x, r)) :
    ∃ q, NamePair q ∧ x = [q] := by
  obtain ⟨-, hx⟩ := atomic_eq_some h
  exact ⟨_, shape_nodename s x r h _ (by rw [hx]; exact List.mem_singleton_self _), hx⟩

theorem shape_property : Yields PropertyPair property := by
  intro s x r h p hp
  obtain ⟨y, hy, rfl⟩ := rule_eq_some h
  rw [List.mem_singleton.mp hp]
  cases alt_eq_some hy with
  | inl hy =>
    obtain ⟨names, rest, r₁, hname, hrest, rfl⟩ := seq_eq_some hy
    obtain ⟨name, hn, rfl⟩ := nodename_eq_some hname
    exact ⟨_, name, rest, hn,
      ((yields_lit _).seq (shape_values.seq (yields_lit _))) _ _ _ hrest, rfl⟩
  | inr hy =>
    obtain ⟨names, rest, r₁, hname, hrest, rfl⟩ := seq_eq_some hy.2
    obtain ⟨name, hn, rfl⟩ := nodename_eq_some hname
    obtain ⟨rfl, -⟩ := lit_eq_some hrest
    exact ⟨_, name, [], hn, List.forall_mem_nil _, rfl⟩

/-- One more level of nodes. -/
theorem shape_node (depth : Nat) : Yields (NodePair depth) (node depth) := by
  induction depth with
  | zero =>
    intro s x r h
    cases h
  | succ depth ih =>
    intro s x r h p hp
    obtain ⟨y, hy, rfl⟩ := rule_eq_some h
    rw [List.mem_singleton.mp hp]
    obtain ⟨path, rest, r₁, hpath, hrest, rfl⟩ := seq_eq_some hy
    obtain ⟨labels, name, r₂, hlabels, hname, rfl⟩ := seq_eq_some hpath
    have hl : ∀ l ∈ labels, LabelPair l :=
      (shape_label.seq (yields_lit _)).star _ _ _ hlabels
    have hn : name = [] ∨ ∃ q, NamePair q ∧ name = [q] := by
      cases alt_eq_some hname with
      | inl hslash => exact .inl (lit_eq_some hslash).1
      | inr hnode => exact .inr (nodename_eq_some hnode.2)
    have hentry : Yields (fun e => PropertyPair e ∨ NodePair depth e) (entry (node depth)) :=
      Yields.alt (fun s x r h p hp => .inl (shape_property s x r h p hp))
        fun s x r h p hp => .inr (ih s x r h p hp)
    have he := ((yields_lit ['{']).seq
      (hentry.star.seq ((yields_lit ['}']).seq (yields_lit [';'])))) _ _ _ hrest
    exact ⟨_, labels, name, rest, hl, hn, he, rfl⟩

/-- The parse tree of a file: a node, and the end of the input. -/
theorem file_shape {depth : Nat} {text r : List Char} {pairs : List (Pair Rule)}
    (h : file depth text = some (pairs, r)) :
    ∃ top, pairs = [top, .mk .eoi [] []] ∧ NodePair depth top := by
  obtain ⟨header, rest, r₁, hheader, hrest, rfl⟩ := seq_eq_some h
  obtain ⟨x, y, r₂, hx, hy, rfl⟩ := seq_eq_some hheader
  obtain ⟨rfl, -⟩ := lit_eq_some hx
  obtain ⟨rfl, -⟩ := lit_eq_some hy
  obtain ⟨tops, eois, r₃, htop, heoi, rfl⟩ := seq_eq_some hrest
  have hone : ∃ top, tops = [top] := by
    cases depth with
    | zero => cases htop
    | succ depth =>
      obtain ⟨inner, -, rfl⟩ := rule_eq_some htop
      exact ⟨_, rfl⟩
  have hend : eois = [.mk .eoi [] []] := by
    cases hs : skip r₃ with
    | nil =>
      rw [hs] at heoi
      cases heoi
      rfl
    | cons c s =>
      rw [hs] at heoi
      cases heoi
  obtain ⟨top, rfl⟩ := hone
  rw [hend]
  exact ⟨top, rfl, shape_node depth _ _ _ htop top List.mem_cons_self⟩

end ZephyrRust.Devicetree
