import ZephyrRust.Proofs.Devicetree.Build

/-!
# `ZephyrRust.Proofs.Devicetree.Grammar`: names in the parse tree

Every `nodename` in the parse tree of a file is a text of name characters. The proof goes through
the grammar rule by rule, and by induction over the depth for the rule `node`. With it,
`parse_parsed` says what every tree from `parse` is like.
-/

set_option autoImplicit false

namespace ZephyrRust.Devicetree

open ZephyrRust.Lib.Peg
open Grammar

/-- A node of another rule. -/
theorem wf_of_ne {q : Rule} (hq : q ≠ .nodename) (t : List Char) (x : List (Pair Rule))
    (hx : ∀ p ∈ x, Wf p) : Wf (.mk q t x) :=
  .mk (fun h => absurd h hq) hx

theorem wf_atomic {q : Rule} (hq : q ≠ .nodename) (a : Parser Rule) : Yields Wf (atomic q a) :=
  yields_atomic fun _ _ _ _ => wf_of_ne hq _ [] (List.forall_mem_nil _)

theorem wf_nodename : Yields Wf nodename := by
  refine yields_atomic fun s x r h => ?_
  obtain ⟨t, hne, ht, rfl⟩ := plus_sat_eq_some h
  rw [consumed_append]
  refine .mk (fun _ => ⟨?_, ?_⟩) (List.forall_mem_nil _)
  · intro he
    exact hne (String.ofList_eq_empty_iff.mp he)
  · rw [String.toList_ofList]
    exact ht

theorem wf_label : Yields Wf label := wf_atomic (by decide) _

theorem wf_phandle : Yields Wf phandle := wf_atomic (by decide) _

theorem wf_words : Yields Wf words := by
  have hnumber : Yields Wf number := (wf_atomic (by decide) _).alt (wf_atomic (by decide) _)
  refine Yields.rule ?_ (wf_of_ne (by decide))
  exact (yields_lit _).seq ((hnumber.alt wf_phandle).plus.seq (yields_lit _))

theorem wf_bytes : Yields Wf bytes := by
  have hbyte : Yields Wf plainHexNumber := wf_atomic (by decide) _
  refine Yields.rule ?_ (wf_of_ne (by decide))
  exact (yields_lit _).seq (hbyte.plus.seq (yields_lit _))

theorem wf_values : Yields Wf values := by
  have hstring : Yields Wf string := wf_atomic (by decide) _
  have hvalue : Yields Wf value := hstring.alt (wf_words.alt (wf_bytes.alt wf_phandle))
  exact hvalue.seq ((yields_lit _).seq hvalue).star

theorem wf_property : Yields Wf property := by
  refine Yields.rule ?_ (wf_of_ne (by decide))
  exact (wf_nodename.seq ((yields_lit _).seq (wf_values.seq (yields_lit _)))).alt
    (wf_nodename.seq (yields_lit _))

theorem wf_nodePath : Yields Wf nodePath :=
  (wf_label.seq (yields_lit _)).star.seq ((yields_lit _).alt wf_nodename)

/-- One more level of nodes. -/
theorem wf_node (depth : Nat) : Yields Wf (node depth) := by
  induction depth with
  | zero =>
    intro s x r h
    cases h
  | succ depth ih =>
    refine Yields.rule ?_ (wf_of_ne (by decide))
    exact wf_nodePath.seq ((yields_lit _).seq
      ((wf_property.alt ih).star.seq ((yields_lit _).seq (yields_lit _))))

theorem wf_file (depth : Nat) : Yields Wf (file depth) := by
  have heoi : Yields Wf (eoi (R := Rule) .eoi) := by
    intro s x r h
    cases s with
    | nil =>
      cases h
      exact List.forall_mem_singleton.mpr (wf_of_ne (by decide) [] [] (List.forall_mem_nil _))
    | cons c s => cases h
  have hheader : Yields Wf header := (yields_lit _).seq (yields_lit _)
  have hseq : Yields Wf (seq skip header (seq skip (node depth) (eoi .eoi))) :=
    hheader.seq ((wf_node depth).seq heoi)
  exact fun s x r h => hseq (skip s) x r h

/-- Every tree from `parse`. -/
theorem parse_parsed {depth : Nat} {text : List Char} {ords : OrdMap} {dt : DeviceTree}
    (h : parse depth text ords = .ok dt) : Parsed ords dt := by
  unfold parse at h
  split at h
  · rename_i pairs r hfile
    exact walk_parsed (wf_file depth text pairs r hfile) h
  · cases h

end ZephyrRust.Devicetree
