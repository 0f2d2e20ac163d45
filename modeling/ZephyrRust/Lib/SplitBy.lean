import Mathlib.Data.List.SplitBy

/-!
# `ZephyrRust.Lib.SplitBy`: the runs of a list

`List.splitBy` cuts a list where a relation fails between neighbours. Two lists that are made
element by element from one list are cut at the same places when the relations agree there.
-/

set_option autoImplicit false

namespace ZephyrRust.Lib.SplitBy

variable {α β γ δ : Type}

/-- Relations that agree on the neighbours of a list cut it at the same places. -/
theorem splitBy_congr {r r' : α → α → Bool} {l : List α}
    (h : l.IsChain fun a b => r a b = r' a b) : l.splitBy r = l.splitBy r' := by
  cases l with
  | nil => rfl
  | cons a l =>
    -- The groups that the loop has are the same, so only the element before the rest counts.
    have loop : ∀ (l : List α) (a : α) (g : List α) (gs : List (List α)),
        (a :: l).IsChain (fun a b => r a b = r' a b) →
          List.splitBy.loop r l a g gs = List.splitBy.loop r' l a g gs := by
      intro l
      induction l with
      | nil =>
        intro a g gs _
        rfl
      | cons b l ih =>
        intro a g gs hchain
        obtain ⟨hab, hrest⟩ := List.isChain_cons_cons.mp hchain
        simp only [List.splitBy.loop, hab, ih _ _ _ hrest]
    exact loop l a [] [] h

/-- The runs of a list that is made element by element. -/
theorem splitBy_map (f : α → β) (r : β → β → Bool) (l : List α) :
    (l.map f).splitBy r = (l.splitBy fun a b => r (f a) (f b)).map (List.map f) := by
  rw [List.splitBy_eq_iff]
  refine ⟨?_, ?_, ?_, ?_⟩
  · rw [← List.map_flatten, List.flatten_splitBy]
  · intro hnil
    obtain ⟨m, hm, he⟩ := List.mem_map.mp hnil
    exact List.ne_nil_of_mem_splitBy hm (List.map_eq_nil_iff.mp he)
  · intro m hm
    obtain ⟨m', hm', rfl⟩ := List.mem_map.mp hm
    exact (List.isChain_map f).mpr (List.isChain_of_mem_splitBy hm')
  · rw [List.isChain_map]
    refine (List.isChain_getLast_head_splitBy _ l).imp ?_
    rintro a b ⟨ha, hb, h⟩
    refine ⟨by simpa using ha, by simpa using hb, ?_⟩
    rw [List.getLast_map, List.head_map]
    exact h

/-- Two lists that are made element by element from one list have the same runs when the relations
agree on its neighbours. -/
theorem map_splitBy_eq {f : α → β} {g : α → γ} {r : β → β → Bool} {r' : γ → γ → Bool} {l : List α}
    (h : l.IsChain fun a b => r (f a) (f b) = r' (g a) (g b)) {u : β → δ} {v : γ → δ}
    (huv : ∀ a ∈ l, u (f a) = v (g a)) :
    ((l.map f).splitBy r).map (List.map u) = ((l.map g).splitBy r').map (List.map v) := by
  rw [splitBy_map, splitBy_map, splitBy_congr h, List.map_map, List.map_map]
  refine List.map_congr_left fun m hm => ?_
  rw [Function.comp_apply, Function.comp_apply, List.map_map, List.map_map]
  refine List.map_congr_left fun a ha => huv a ?_
  rw [← List.flatten_splitBy (fun a b => r' (g a) (g b)) l]
  exact List.mem_flatten_of_mem hm ha

end ZephyrRust.Lib.SplitBy
