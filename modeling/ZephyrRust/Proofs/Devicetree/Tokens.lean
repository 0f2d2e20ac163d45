import Mathlib.Data.List.Infix
import ZephyrRust.Devicetree.Render

/-!
# `ZephyrRust.Proofs.Devicetree.Tokens`: the grammar reads gaps and tokens

What the parser does at a gap (`skip_gap`) and at each kind of token. A token is read to its end when
the next character cannot continue it (`Stops`), and a gap is read to its end when the text after it
does not begin another piece of a gap (`Solid`).
-/

set_option autoImplicit false

namespace ZephyrRust.Devicetree

open ZephyrRust.Lib.Peg
open Grammar

/-! ## Characters -/

theorem whitespace_cases {c : Char} (h : isWhitespace c = true) :
    c = ' ' ∨ c = '\r' ∨ c = '\n' ∨ c = '\t' := by
  simpa [isWhitespace, or_assoc] using h

theorem not_nodenameChar_of_whitespace {c : Char} (h : isWhitespace c = true) :
    isNodenameChar c = false := by
  rcases whitespace_cases h with rfl | rfl | rfl | rfl <;> decide

theorem nodenameChar_of_labelChar {c : Char} (h : isLabelChar c = true) :
    isNodenameChar c = true := by
  unfold isLabelChar at h
  unfold isNodenameChar
  rcases Bool.or_eq_true_iff.mp h with h | h <;> simp [h]

theorem labelChar_of_alpha {c : Char} (h : isAlpha c = true) : isLabelChar c = true := by
  simp [isLabelChar, isAlphanumeric, h]

theorem labelChar_of_digit {c : Char} (h : isDigit c = true) : isLabelChar c = true := by
  simp [isLabelChar, isAlphanumeric, h]

theorem labelChar_of_hexDigit {c : Char} (h : isHexDigit c = true) : isLabelChar c = true := by
  unfold isHexDigit at h
  rcases Bool.or_eq_true_iff.mp h with h | h
  · rcases Bool.or_eq_true_iff.mp h with h | h
    · exact labelChar_of_digit h
    · refine labelChar_of_alpha ?_
      simp only [Bool.and_eq_true, decide_eq_true_eq] at h
      have hz : c ≤ 'z' := Char.le_trans h.2 (by decide : 'f' ≤ 'z')
      simp [isAlpha, h.1, hz]
  · refine labelChar_of_alpha ?_
    simp only [Bool.and_eq_true, decide_eq_true_eq] at h
    have hz : c ≤ 'Z' := Char.le_trans h.2 (by decide : 'F' ≤ 'Z')
    simp [isAlpha, h.1, hz]

/-- A character that no label has is not the first one of a text of such characters. -/
theorem ne_of_class {p : Char → Bool} {c d : Char} (hc : p c = true) (hd : p d = false) :
    c ≠ d := by
  rintro rfl
  rw [hc] at hd
  cases hd

theorem not_labelChar_of_whitespace {c : Char} (h : isWhitespace c = true) :
    isLabelChar c = false := by
  rcases whitespace_cases h with rfl | rfl | rfl | rfl <;> decide

/-! ## Gaps -/

/-- The text does not begin with a part of a gap. -/
def Solid : List Char → Prop
  | [] => True
  | c :: s => isWhitespace c = false ∧ ¬ (c = '/' ∧ ['*'] <+: s)

theorem solid_cons {c : Char} (s : List Char) (hc : isWhitespace c = false) (hne : c ≠ '/') :
    Solid (c :: s) :=
  ⟨hc, fun h => hne h.1⟩

theorem solid_of_nodenameChar {c : Char} (s : List Char) (hc : isNodenameChar c = true) :
    Solid (c :: s) := by
  refine solid_cons s ?_ (ne_of_class hc (by decide))
  cases hw : isWhitespace c with
  | false => rfl
  | true =>
    rw [not_nodenameChar_of_whitespace hw] at hc
    cases hc

theorem Solid.stops {s : List Char} (h : Solid s) : Stops isWhitespace s := by
  cases s with
  | nil => trivial
  | cons c s => exact h.1

theorem Solid.comment_none {s : List Char} (h : Solid s) : comment s = none := by
  refine seq_none_left ?_
  cases s with
  | nil => rfl
  | cons c s =>
    by_cases hc : c = '/'
    · subst hc
      cases s with
      | nil => rfl
      | cons d s =>
        have hd : d ≠ '*' := by
          rintro rfl
          exact h.2 ⟨rfl, s, rfl⟩
        have hne : ('*' == d) = false := by simpa using Ne.symm hd
        simp [lit, List.isPrefixOf, hne]
    · exact lit_none_of_ne _ s hc

/-- A comment is read to its first end. -/
theorem commentBody_read {body : List Char} (s : List Char)
    (hbody : ¬ ['*', '/'] <:+: body) :
    commentBody (body ++ (['*', '/'] ++ s)) = some ([], ['*', '/'] ++ s) := by
  refine star_id_eq ?_
  induction body with
  | nil => exact .done (seq_none_left (not_some (lit_append _ s)))
  | cons c body ih =>
    have hlit : lit (R := Rule) ['*', '/'] (c :: (body ++ (['*', '/'] ++ s))) = none := by
      by_cases hc : c = '*'
      · subst hc
        cases body with
        | nil => rfl
        | cons d body =>
          have hd : d ≠ '/' := by
            rintro rfl
            exact hbody ⟨[], body, rfl⟩
          have hne : ('/' == d) = false := by simpa using Ne.symm hd
          simp [lit, List.isPrefixOf, hne]
      · exact lit_none_of_ne _ _ hc
    have hround : seq id (not (lit ['*', '/'])) any (id (c :: (body ++ (['*', '/'] ++ s)))) =
        some (([] : List (Pair Rule)) ++ [], body ++ (['*', '/'] ++ s)) :=
      seq_some (not_none hlit) rfl
    have hrest := ih fun hin => hbody (hin.trans (List.suffix_cons c body).isInfix)
    exact .round hround (Nat.lt_succ_self _) hrest

theorem comment_read {body : List Char} (s : List Char) (hbody : ¬ ['*', '/'] <:+: body) :
    comment (['/', '*'] ++ body ++ ['*', '/'] ++ s) = some ([], s) := by
  rw [List.append_assoc, List.append_assoc]
  refine seq_some (lit_append _ _) ?_
  exact seq_some (commentBody_read s hbody) (lit_append _ s)

/-- A gap is some whitespace, and then comments with whitespace after each. -/
theorem Gap.read {g s : List Char} (hg : Gap g) (hs : Solid s) :
    ∃ w rest, g = w ++ rest ∧ (∀ c ∈ w, isWhitespace c = true) ∧
      Stops isWhitespace (rest ++ s) ∧
      Repeats id (seq id Grammar.comment (star id whitespace)) (rest ++ s) [] s := by
  induction hg with
  | nil =>
    exact ⟨[], [], rfl, List.forall_mem_nil _, hs.stops, .done (seq_none_left hs.comment_none)⟩
  | @space c g hc _ ih =>
    obtain ⟨w, rest, rfl, hw, hstop, hrep⟩ := ih
    exact ⟨c :: w, rest, rfl, List.forall_mem_cons.mpr ⟨hc, hw⟩, hstop, hrep⟩
  | @comment body g hbody _ ih =>
    obtain ⟨w, rest, rfl, hw, hstop, hrep⟩ := ih
    refine ⟨[], _, rfl, List.forall_mem_nil _, rfl, ?_⟩
    have hround : seq id Grammar.comment (star id whitespace)
        (id (['/', '*'] ++ body ++ ['*', '/'] ++ (w ++ rest) ++ s)) =
        some (([] : List (Pair Rule)) ++ [], rest ++ s) := by
      have hcomment := comment_read (w ++ rest ++ s) hbody
      rw [← List.append_assoc] at hcomment
      refine seq_some hcomment ?_
      rw [id, List.append_assoc]
      exact star_sat hw hstop
    refine .round hround ?_ hrep
    simp only [List.length_append, List.length_cons]
    omega

/-- The parser drops a gap, all of it. -/
theorem skip_gap {g s : List Char} (hg : Gap g) (hs : Solid s) : skip (g ++ s) = s := by
  obtain ⟨w, rest, rfl, hw, hstop, hrep⟩ := hg.read hs
  have hgap : gap (w ++ rest ++ s) = some ([], s) := by
    rw [List.append_assoc]
    exact seq_some (star_sat hw hstop) (star_id_eq hrep)
  rw [skip, hgap]

/-- A gap before a character that begins no gap. -/
theorem Gap.skip_char {g : List Char} (hg : Gap g) (c : Char) (s : List Char)
    (hc : isWhitespace c = false ∧ c ≠ '/') : skip (g ++ c :: s) = c :: s :=
  skip_gap hg (solid_cons s hc.1 hc.2)

theorem skip_solid {s : List Char} (hs : Solid s) : skip s = s := skip_gap .nil hs

/-- A token ends at a gap, when it ends at what comes after the gap. -/
theorem Gap.stops {p : Char → Bool} {g s : List Char}
    (hspace : ∀ c, isWhitespace c = true → p c = false) (hslash : p '/' = false) (hg : Gap g)
    (hs : g = [] → Stops p s) : Stops p (g ++ s) := by
  cases hg with
  | nil => exact hs rfl
  | space hc _ => exact hspace _ hc
  | comment _ _ => exact hslash

theorem Gap.stops_label {g s : List Char} (hg : Gap g) (hs : g = [] → Stops isLabelChar s) :
    Stops isLabelChar (g ++ s) :=
  hg.stops (fun _ => not_labelChar_of_whitespace) rfl hs

theorem Gap.stops_nodename {g s : List Char} (hg : Gap g)
    (hs : g = [] → Stops isNodenameChar s) : Stops isNodenameChar (g ++ s) :=
  hg.stops (fun _ => not_nodenameChar_of_whitespace) rfl hs

/-! ## Names and labels -/

theorem IsLabel.forall_labelChar {l : String} (h : IsLabel l) :
    ∀ c ∈ l.toList, isLabelChar c = true := by
  obtain ⟨c, t, he, hc, ht⟩ := h
  rw [he]
  exact List.forall_mem_cons.mpr ⟨labelChar_of_alpha hc, ht⟩

theorem IsLabel.ne_nil {l : String} (h : IsLabel l) : l.toList ≠ [] := by
  obtain ⟨c, t, he, -⟩ := h
  rw [he]
  exact List.cons_ne_nil c t

theorem IsName.ne_nil {name : String} (h : IsName name) : name.toList ≠ [] := by
  intro he
  exact h.1 (String.toList_eq_nil_iff.mp he)

theorem label_seq_read {l : String} (hl : IsLabel l) {s : List Char} (hs : Stops isLabelChar s) :
    seq id (sat isAlpha) (star id (sat isLabelChar)) (l.toList ++ s) =
      some (([] : List (Pair Rule)), s) := by
  obtain ⟨c, t, he, hc, ht⟩ := hl
  rw [he]
  exact seq_some (sat_cons hc (t ++ s)) (star_sat ht hs)

theorem label_read {l : String} (hl : IsLabel l) {s : List Char} (hs : Stops isLabelChar s) :
    label (l.toList ++ s) = some ([.mk .label l.toList []], s) :=
  atomic_some (label_seq_read hl hs)

theorem phandle_read {l : String} (hl : IsLabel l) {s : List Char} (hs : Stops isLabelChar s) :
    phandle ('&' :: l.toList ++ s) = some ([.mk .phandle ('&' :: l.toList) []], s) :=
  atomic_some (seq_some (lit_append ['&'] (l.toList ++ s)) (label_read hl hs))

theorem phandle_none {c : Char} (s : List Char) (hc : c ≠ '&') : phandle (c :: s) = none :=
  atomic_none (seq_none_left (lit_none_of_ne [] s hc))

theorem nodename_read {t s : List Char} (hne : t ≠ []) (ht : ∀ c ∈ t, isNodenameChar c = true)
    (hs : Stops isNodenameChar s) : nodename (t ++ s) = some ([.mk .nodename t []], s) :=
  atomic_some (plus_sat hne ht hs)

/-- No name is read at another character. -/
theorem nodename_none {s : List Char} (hs : Stops isNodenameChar s) : nodename s = none :=
  atomic_none (seq_none_left (sat_none hs))

theorem label_none {s : List Char} (hs : Stops isAlpha s) : label s = none :=
  atomic_none (seq_none_left (sat_none hs))

/-- A label before a name that is no label, or before other text: the colon is missing. -/
theorem label_colon_none {t s : List Char} (ht : ∀ c ∈ t, isNodenameChar c = true)
    (hstop : Stops isLabelChar s) {d : Char} {s' : List Char} (hskip : skip s = d :: s')
    (hd : d ≠ ':') : seq skip label (lit [':']) (t ++ s) = none := by
  -- The label takes the first characters of the name, `p`, and stops before the others, `q`.
  obtain ⟨p, q, rfl, hp, hq⟩ : ∃ p q, t = p ++ q ∧ (∀ c ∈ p, isLabelChar c = true) ∧
      Stops isLabelChar (q ++ s) := by
    clear ht
    induction t with
    | nil => exact ⟨[], [], rfl, List.forall_mem_nil _, hstop⟩
    | cons c t ih =>
      by_cases hc : isLabelChar c = true
      · obtain ⟨p, q, rfl, hp, hq⟩ := ih
        exact ⟨c :: p, q, rfl, List.forall_mem_cons.mpr ⟨hc, hp⟩, hq⟩
      · exact ⟨[], c :: t, rfl, List.forall_mem_nil _, Bool.eq_false_iff.mpr hc⟩
  have hcolon : lit (R := Rule) [':'] (skip (q ++ s)) = none := by
    cases q with
    | nil =>
      rw [List.nil_append, hskip]
      exact lit_none_of_ne [] s' hd
    | cons c q =>
      have hc := ht c (List.mem_append_right p List.mem_cons_self)
      rw [List.cons_append, skip_solid (solid_of_nodenameChar (q ++ s) hc)]
      exact lit_none_of_ne [] (q ++ s) (ne_of_class hc (by decide))
  rw [List.append_assoc]
  cases p with
  | nil =>
    refine seq_none_left (label_none ?_)
    cases hqs : q ++ s with
    | nil => trivial
    | cons c r =>
      rw [hqs] at hq
      show isAlpha c = false
      cases ha : isAlpha c with
      | false => rfl
      | true =>
        have hc : isLabelChar c = false := hq
        rw [labelChar_of_alpha ha] at hc
        cases hc
  | cons c p =>
    by_cases hc : isAlpha c = true
    · have hread : label (c :: p ++ (q ++ s)) = some ([.mk .label (c :: p) []], q ++ s) := by
        have hl : IsLabel (String.ofList (c :: p)) :=
          ⟨c, p, String.toList_ofList, hc, fun d hd => hp d (List.mem_cons_of_mem c hd)⟩
        have h := label_read hl hq
        rwa [String.toList_ofList] at h
      exact seq_none_right hread hcolon
    · exact seq_none_left (label_none (Bool.eq_false_iff.mpr hc))

/-! ## Strings -/

theorem string_read {t : List Char} (ht : ∀ c ∈ t, isStringChar c = true) (s : List Char) :
    string ('"' :: t ++ ['"'] ++ s) = some ([.mk .string ('"' :: t ++ ['"']) []], s) := by
  refine atomic_some (x := []) ?_
  -- The characters one by one, up to the quote.
  have hbody : Repeats id (seq id (not (alt (lit ['"']) (lit ['\n']))) any) (t ++ (['"'] ++ s))
      ([] : List (Pair Rule)) (['"'] ++ s) := by
    induction t with
    | nil => exact .done (seq_none_left (not_some (alt_left (lit_append ['"'] s))))
    | cons c t ih =>
      have hc := ht c List.mem_cons_self
      simp only [isStringChar, Bool.not_eq_true', Bool.or_eq_false_iff,
        decide_eq_false_iff_not] at hc
      have halt : alt (lit ['"']) (lit ['\n']) (c :: (t ++ (['"'] ++ s))) =
          (none : Option (List (Pair Rule) × List Char)) := by
        rw [alt_right (lit_none_of_ne [] _ hc.1)]
        exact lit_none_of_ne [] _ hc.2
      have hround : seq id (not (alt (lit ['"']) (lit ['\n']))) any
          (id (c :: (t ++ (['"'] ++ s)))) =
          some (([] : List (Pair Rule)) ++ [], t ++ (['"'] ++ s)) :=
        seq_some (not_none halt) rfl
      exact .round hround (Nat.lt_succ_self _) (ih fun d hd => ht d (List.mem_cons_of_mem c hd))
  rw [List.append_assoc, List.cons_append]
  refine seq_some (x := []) (y := []) (lit_append ['"'] _) ?_
  exact seq_some (star_id_eq hbody) (lit_append ['"'] s)

theorem string_none {c : Char} (s : List Char) (hc : c ≠ '"') : string (c :: s) = none :=
  atomic_none (seq_none_left (lit_none_of_ne [] s hc))

/-! ## Numbers -/

theorem decimalNumber_read {c : Char} {t s : List Char} (hc : isNonzeroDigit c = true)
    (ht : ∀ d ∈ t, isDigit d = true) (hs : Stops isLabelChar s) :
    decimalNumber (c :: t ++ s) = some ([.mk .decimalNumber (c :: t) []], s) := by
  refine atomic_some (x := []) ?_
  exact seq_some (x := []) (y := []) (sat_cons hc (t ++ s))
    (star_sat ht (hs.mono fun _ => labelChar_of_digit))

theorem decimalNumber_none {c : Char} (s : List Char) (hc : isNonzeroDigit c = false) :
    decimalNumber (c :: s) = none :=
  atomic_none (seq_none_left (sat_none hc))

theorem hexNumber_read {x : Char} {t s : List Char} (hx : x = 'x' ∨ x = 'X') (hne : t ≠ [])
    (ht : ∀ d ∈ t, isHexDigit d = true) (hs : Stops isLabelChar s) :
    hexNumber ('0' :: x :: t ++ s) = some ([.mk .hexNumber ('0' :: x :: t) []], s) := by
  refine atomic_some (x := []) ?_
  refine seq_some (x := []) (y := []) (r := t ++ s) ?_
    (plus_sat hne ht (hs.mono fun _ => labelChar_of_hexDigit))
  rcases hx with rfl | rfl
  · exact alt_left (lit_append ['0', 'x'] (t ++ s))
  · exact lit_append ['0', 'X'] (t ++ s)

theorem hexNumber_none {c : Char} (s : List Char) (hc : c ≠ '0') : hexNumber (c :: s) = none := by
  refine atomic_none (seq_none_left ?_)
  rw [alt_right (lit_none_of_ne ['x'] s hc)]
  exact lit_none_of_ne ['X'] s hc

theorem plainHexNumber_read {t s : List Char} (hne : t ≠ []) (ht : ∀ d ∈ t, isHexDigit d = true)
    (hs : Stops isLabelChar s) :
    plainHexNumber (t ++ s) = some ([.mk .plainHexNumber t []], s) :=
  atomic_some (plus_sat hne ht (hs.mono fun _ => labelChar_of_hexDigit))

theorem plainHexNumber_none {c : Char} (s : List Char) (hc : isHexDigit c = false) :
    plainHexNumber (c :: s) = none :=
  atomic_none (seq_none_left (sat_none hc))

theorem char_le_iff {c d : Char} : c ≤ d ↔ c.toNat ≤ d.toNat := Iff.rfl

/-- `char::to_digit` of a digit. -/
theorem toDigit_hexDigit {c : Char} (h : isHexDigit c = true) :
    toDigit 16 c = some (digitValue c) := by
  simp only [isHexDigit, isDigit, Bool.or_eq_true, Bool.and_eq_true, decide_eq_true_eq,
    char_le_iff, Char.reduceToNat] at h
  simp only [toDigit, digitValue, isDigit, Bool.and_eq_true, decide_eq_true_eq, char_le_iff,
    Char.reduceToNat]
  split_ifs <;> simp [Option.filter] <;> omega

theorem toDigit_digit {c : Char} (h : isDigit c = true) :
    toDigit 10 c = some (digitValue c) := by
  simp only [isDigit, Bool.and_eq_true, decide_eq_true_eq, char_le_iff, Char.reduceToNat] at h
  simp only [toDigit, digitValue, isDigit, Bool.and_eq_true, decide_eq_true_eq, char_le_iff,
    Char.reduceToNat, if_pos h]
  simp [Option.filter]
  omega

theorem digit_of_nonzeroDigit {c : Char} (h : isNonzeroDigit c = true) : isDigit c = true := by
  simp only [isNonzeroDigit, isDigit, Bool.and_eq_true, decide_eq_true_eq, char_le_iff,
    Char.reduceToNat] at h ⊢
  omega

theorem le_foldl_numeral {radix : Nat} (hradix : 0 < radix) (acc : Nat) (t : List Char) :
    acc ≤ t.foldl (fun acc c => acc * radix + digitValue c) acc := by
  induction t generalizing acc with
  | nil => exact Nat.le_refl acc
  | cons c t ih =>
    have hmul : acc ≤ acc * radix := Nat.le_mul_of_pos_right acc hradix
    exact Nat.le_trans (by omega) (ih (acc * radix + digitValue c))

/-- `from_str_radix` returns the number when it is in range. Every prefix then is in range too. -/
theorem fromStrRadix_numeral {radix size : Nat} {t : List Char} (hradix : 0 < radix)
    (hne : t ≠ []) (ht : ∀ c ∈ t, toDigit radix c = some (digitValue c))
    (hsize : numeral radix t < size) : fromStrRadix radix size t = .ok (numeral radix t) := by
  have hdigits : ∀ acc, t.foldl (fun acc c => acc * radix + digitValue c) acc < size →
      digitsFrom radix size acc t =
        some (t.foldl (fun acc c => acc * radix + digitValue c) acc) := by
    clear hne hsize
    induction t with
    | nil =>
      intro acc _
      rfl
    | cons c t ih =>
      intro acc hlt
      have hle := le_foldl_numeral hradix (acc * radix + digitValue c) t
      rw [List.foldl_cons] at hlt ⊢
      rw [digitsFrom, ht c List.mem_cons_self]
      simp only
      rw [if_pos (by omega)]
      exact ih (fun d hd => ht d (List.mem_cons_of_mem c hd)) _ hlt
  rw [fromStrRadix, if_neg hne, hdigits 0 hsize]
  rfl

end ZephyrRust.Devicetree
