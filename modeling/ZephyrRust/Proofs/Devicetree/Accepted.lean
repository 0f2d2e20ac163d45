import ZephyrRust.Proofs.Devicetree.Decoding

/-!
# `ZephyrRust.Proofs.Devicetree.Accepted`: from accepted to decoded

`DecodesFile` is what a reader of `dts.pest` expects of the decoder: it makes a tree, it never cuts a
token in the wrong place, and the numbers and the byte strings have the values that a devicetree
gives them. `Decodable` is the condition on the text. `file_decodes_iff` says that the condition is
exact for all texts that the grammar accepts, and `unspaced_bytes_not_decoded` is a text without it.
-/

set_option autoImplicit false

namespace ZephyrRust.Devicetree

open ZephyrRust.Lib.Peg (Pair)
open ZephyrRust.Lib.Fallible
open Grammar

/-! ## What a text stands for -/

/-- Two hexadecimal digits are a byte. A text with an odd number of digits has no bytes. -/
def digitPairs : List Char → Option (List UInt8)
  | [] => some []
  | [_] => none
  | c :: d :: t => (digitPairs t).map fun bs => UInt8.ofNat (numeral 16 [c, d]) :: bs

/-- The bytes of the tokens of a byte string. The spaces between the tokens mean nothing. -/
def byteString : List (Pair Rule) → Option (List UInt8)
  | [] => some []
  | b :: tokens =>
    match digitPairs b.text, byteString tokens with
    | some bs, some rest => some (bs ++ rest)
    | _, _ => none

/-- The characters that the decoder cuts off a token are there, and each of them has one byte. -/
structure SliceSafe (p : Pair Rule) : Prop where
  hex : p.rule = .hexNumber → ∃ x t, (x = 'x' ∨ x = 'X') ∧ p.text = '0' :: x :: t
  phandle : p.rule = .phandle → ∃ t, p.text = '&' :: t
  string : p.rule = .string → ∃ body, p.text = '"' :: body ++ ['"']

/-- `q` is somewhere in the parse tree of a file. -/
def Inside (pairs : List (Pair Rule)) (q : Pair Rule) : Prop := ∃ p ∈ pairs, Has p q

/-- The decoder makes a tree, and every number and every byte string has its devicetree value. -/
structure DecodesFile (ords : OrdMap) (pairs : List (Pair Rule)) : Prop where
  tree : ∃ dt, walk ords pairs = .ok dt
  slices : ∀ q, Inside pairs q → SliceSafe q
  numbers : ∀ q, Inside pairs q → ∀ n, numberValue q = some n →
    ∃ k, decodeWord q = .ok (.number k) ∧ k.toNat = n
  octets : ∀ q, Inside pairs q → q.rule = .bytes → ∀ bs, byteString q.inner = some bs →
    decodeBytes q = .ok bs

/-- The root is `/` and no other node is, the numbers have 32 bits, and the tokens of a byte string
have two digits each. When one of them has an odd number of digits, the byte string has no value, and
then it is enough that each token has 8 bits. -/
structure Decodable (pairs : List (Pair Rule)) : Prop where
  root : ∀ p ∈ pairs, ∀ c ∈ p.inner, c.rule ≠ .nodename
  names : ∀ p ∈ pairs, ∀ c ∈ p.inner, ∀ q, Has c q → q.rule = .node →
    ∃ n ∈ q.inner, n.rule = .nodename
  numbers : ∀ q, Inside pairs q → ∀ n, numberValue q = some n → n < UInt32.size
  octets : ∀ q, Inside pairs q → q.rule = .bytes →
    (∀ b ∈ q.inner, b.text.length = 2) ∨
      (∃ b ∈ q.inner, b.text.length % 2 = 1) ∧ ∀ b ∈ q.inner, numeral 16 b.text < UInt8.size

/-! ## Byte strings -/

theorem digitPairs_length {t : List Char} {bs : List UInt8} (h : digitPairs t = some bs) :
    t.length = 2 * bs.length := by
  induction t using digitPairs.induct generalizing bs with
  | case1 =>
    cases h
    rfl
  | case2 c => cases h
  | case3 c d t ih =>
    obtain ⟨rest, hrest, rfl⟩ := Option.map_eq_some_iff.mp h
    have hlen := ih hrest
    rw [List.length_cons, List.length_cons, List.length_cons]
    omega

theorem digitPairs_of_even {t : List Char} (h : t.length % 2 = 0) :
    ∃ bs, digitPairs t = some bs := by
  induction t using digitPairs.induct with
  | case1 => exact ⟨[], rfl⟩
  | case2 c => cases h
  | case3 c d t ih =>
    rw [List.length_cons, List.length_cons] at h
    obtain ⟨bs, hbs⟩ := ih (by omega)
    exact ⟨UInt8.ofNat (numeral 16 [c, d]) :: bs, by rw [digitPairs, hbs]; rfl⟩

theorem byteString_cons_eq_some {b : Pair Rule} {tokens : List (Pair Rule)} {bs : List UInt8}
    (h : byteString (b :: tokens) = some bs) :
    ∃ first rest, digitPairs b.text = some first ∧ byteString tokens = some rest ∧
      bs = first ++ rest := by
  rw [byteString] at h
  split at h
  · rename_i first rest hfirst hrest
    cases h
    exact ⟨first, rest, hfirst, hrest, rfl⟩
  · cases h

/-- A token with an odd number of digits is in no byte string with a value. -/
theorem byteString_even {tokens : List (Pair Rule)} {bs : List UInt8}
    (h : byteString tokens = some bs) : ∀ b ∈ tokens, b.text.length % 2 = 0 := by
  induction tokens generalizing bs with
  | nil => exact List.forall_mem_nil _
  | cons b tokens ih =>
    obtain ⟨first, rest, hfirst, hrest, -⟩ := byteString_cons_eq_some h
    have hlen := digitPairs_length hfirst
    exact List.forall_mem_cons.mpr ⟨by omega, ih hrest⟩

theorem byteString_of_even {tokens : List (Pair Rule)}
    (h : ∀ b ∈ tokens, b.text.length % 2 = 0) : ∃ bs, byteString tokens = some bs := by
  induction tokens with
  | nil => exact ⟨[], rfl⟩
  | cons b tokens ih =>
    obtain ⟨hb, htokens⟩ := List.forall_mem_cons.mp h
    obtain ⟨first, hfirst⟩ := digitPairs_of_even hb
    obtain ⟨rest, hrest⟩ := ih htokens
    exact ⟨first ++ rest, by rw [byteString, hfirst, hrest]⟩

/-- A byte string has a byte at least for each token, and more when a token has more than one. -/
theorem byteString_length {tokens : List (Pair Rule)} {bs : List UInt8}
    (hne : ∀ b ∈ tokens, b.text ≠ []) (h : byteString tokens = some bs) :
    tokens.length ≤ bs.length ∧ (bs.length = tokens.length → ∀ b ∈ tokens, b.text.length = 2) := by
  induction tokens generalizing bs with
  | nil => exact ⟨Nat.zero_le _, fun _ => List.forall_mem_nil _⟩
  | cons b tokens ih =>
    obtain ⟨hb, htokens⟩ := List.forall_mem_cons.mp hne
    obtain ⟨first, rest, hfirst, hrest, rfl⟩ := byteString_cons_eq_some h
    obtain ⟨hle, htwo⟩ := ih htokens hrest
    have hpos : 0 < b.text.length := List.length_pos_of_ne_nil hb
    have hlen := digitPairs_length hfirst
    rw [List.length_append, List.length_cons]
    refine ⟨by omega, fun he => ?_⟩
    exact List.forall_mem_cons.mpr ⟨by omega, htwo (by omega)⟩

/-- Tokens of two digits are the bytes. -/
theorem byteString_of_two {tokens : List (Pair Rule)} (h : ∀ b ∈ tokens, b.text.length = 2) :
    byteString tokens = some (tokens.map fun b => UInt8.ofNat (numeral 16 b.text)) := by
  induction tokens with
  | nil => rfl
  | cons b tokens ih =>
    obtain ⟨hb, htokens⟩ := List.forall_mem_cons.mp h
    obtain ⟨c, d, hcd⟩ := List.length_eq_two.mp hb
    rw [byteString, ih htokens, List.map_cons, hcd]
    rfl

/-- A hexadecimal digit is less than 16. -/
theorem digitValue_lt {c : Char} (h : isHexDigit c = true) : digitValue c < 16 := by
  have hdigit := toDigit_hexDigit h
  unfold toDigit at hdigit
  exact of_decide_eq_true (Option.filter_eq_some_iff.mp hdigit).2

theorem numeral_two_lt {t : List Char} (ht : ∀ c ∈ t, isHexDigit c = true) (hlen : t.length = 2) :
    numeral 16 t < UInt8.size := by
  obtain ⟨c, d, rfl⟩ := List.length_eq_two.mp hlen
  have hc := digitValue_lt (ht c List.mem_cons_self)
  have hd := digitValue_lt (ht d (List.mem_cons_of_mem c List.mem_cons_self))
  show (0 * 16 + digitValue c) * 16 + digitValue d < 256
  omega

/-- A byte string gets its value exactly when no token has more than one byte. -/
theorem octets_iff {t : List Char} {tokens : List (Pair Rule)} (h : ∀ b ∈ tokens, BytePair b) :
    ((∀ b ∈ tokens, numeral 16 b.text < UInt8.size) ∧
      ∀ bs, byteString tokens = some bs → decodeBytes (.mk .bytes t tokens) = .ok bs) ↔
    (∀ b ∈ tokens, b.text.length = 2) ∨
      (∃ b ∈ tokens, b.text.length % 2 = 1) ∧ ∀ b ∈ tokens, numeral 16 b.text < UInt8.size := by
  constructor
  · intro ⟨hsmall, hvalue⟩
    by_cases hodd : ∃ b ∈ tokens, b.text.length % 2 = 1
    · exact .inr ⟨hodd, hsmall⟩
    · -- There is a value. The decoder returns a byte for each token, so the value has no more.
      have heven : ∀ b ∈ tokens, b.text.length % 2 = 0 := by
        intro b hb
        by_contra hne
        exact hodd ⟨b, hb, by omega⟩
      obtain ⟨bs, hbs⟩ := byteString_of_even heven
      obtain ⟨-, rfl⟩ := (decodeBytes_eq_ok h bs).mp (hvalue bs hbs)
      have hne : ∀ b ∈ tokens, b.text ≠ [] := by
        intro b hb
        obtain ⟨text, htext, -, rfl⟩ := h b hb
        exact htext
      exact .inl ((byteString_length hne hbs).2 (List.length_map _))
  · intro hcases
    cases hcases with
    | inl htwo =>
      have hsmall : ∀ b ∈ tokens, numeral 16 b.text < UInt8.size := by
        intro b hb
        have hlen := htwo b hb
        obtain ⟨text, -, htext, rfl⟩ := h b hb
        exact numeral_two_lt htext hlen
      refine ⟨hsmall, fun bs hbs => (decodeBytes_eq_ok h bs).mpr ⟨hsmall, ?_⟩⟩
      rw [byteString_of_two htwo] at hbs
      exact (Option.some.inj hbs).symm
    | inr hrest =>
      -- There is no value that the bytes could differ from.
      obtain ⟨⟨b, hb, hodd⟩, hsmall⟩ := hrest
      refine ⟨hsmall, fun bs hbs => ?_⟩
      have heven := byteString_even hbs b hb
      omega

/-! ## The shape of everything in a parse tree -/

/-- A token or a value in a parse tree has the shape of its rule. -/
structure Shaped (p : Pair Rule) : Prop where
  label : p.rule = .label → LabelPair p
  cell : p.rule = .decimalNumber ∨ p.rule = .hexNumber ∨ p.rule = .phandle → CellPair p
  value : p.rule = .string ∨ p.rule = .bytes → ValuePair p

/-- The rules whose nodes have no shape of their own here. -/
theorem shaped_of_rule {r : Rule} {t : List Char} {inner : List (Pair Rule)}
    (hr : r ∉ [Rule.label, .decimalNumber, .hexNumber, .phandle, .string, .bytes]) :
    Shaped (.mk r t inner) := by
  simp only [List.mem_cons, List.not_mem_nil, or_false, not_or] at hr
  obtain ⟨hlabel, hdecimal, hhex, hphandle, hstring, hbytes⟩ := hr
  exact ⟨fun h => absurd h hlabel,
    fun h => absurd h (not_or.mpr ⟨hdecimal, not_or.mpr ⟨hhex, hphandle⟩⟩),
    fun h => absurd h (not_or.mpr ⟨hstring, hbytes⟩)⟩

theorem CellPair.shaped {p : Pair Rule} (h : CellPair p) : ∀ q, Has p q → Shaped q := by
  have hself : Shaped p := by
    refine ⟨fun hrule => ?_, fun _ => h, fun hrule => ?_⟩
    · cases h with
      | decimal => cases hrule
      | hex => cases hrule
      | phandle hp =>
        obtain ⟨l, -, rfl⟩ := hp
        cases hrule
    · cases h with
      | decimal => simp [Pair.rule] at hrule
      | hex => simp [Pair.rule] at hrule
      | phandle hp => exact .phandle hp
  cases h with
  | decimal => exact forall_has_token.mpr hself
  | hex => exact forall_has_token.mpr hself
  | phandle hp =>
    obtain ⟨l, -, rfl⟩ := hp
    exact forall_has_token.mpr hself

theorem BytePair.shaped {p : Pair Rule} (h : BytePair p) : ∀ q, Has p q → Shaped q := by
  obtain ⟨t, -, -, rfl⟩ := h
  exact forall_has_token.mpr (shaped_of_rule (by decide))

theorem NamePair.shaped {p : Pair Rule} (h : NamePair p) : ∀ q, Has p q → Shaped q := by
  obtain ⟨name, -, rfl⟩ := h
  exact forall_has_token.mpr (shaped_of_rule (by decide))

theorem LabelPair.shaped {p : Pair Rule} (h : LabelPair p) : ∀ q, Has p q → Shaped q := by
  have hlabel := h
  obtain ⟨l, -, rfl⟩ := h
  refine forall_has_token.mpr ⟨fun _ => hlabel, fun hrule => ?_, fun hrule => ?_⟩
  · simp [Pair.rule] at hrule
  · simp [Pair.rule] at hrule

theorem ValuePair.shaped {p : Pair Rule} (h : ValuePair p) : ∀ q, Has p q → Shaped q := by
  cases h with
  | string =>
    refine forall_has_token.mpr ⟨fun hrule => ?_, fun hrule => ?_, fun _ => .string⟩
    · cases hrule
    · simp [Pair.rule] at hrule
  | words hcells =>
    exact forall_has_iff.mpr ⟨shaped_of_rule (by decide), fun c hc => (hcells c hc).shaped⟩
  | bytes htokens =>
    refine forall_has_iff.mpr ⟨⟨fun hrule => ?_, fun hrule => ?_, fun _ => .bytes htokens⟩,
      fun b hb => (htokens b hb).shaped⟩
    · cases hrule
    · simp [Pair.rule] at hrule
  | phandle hp => exact (CellPair.phandle hp).shaped

theorem PropertyPair.shaped {p : Pair Rule} (h : PropertyPair p) : ∀ q, Has p q → Shaped q := by
  obtain ⟨t, name, values, hname, hvalues, rfl⟩ := h
  refine forall_has_iff.mpr ⟨shaped_of_rule (by decide), fun c hc => ?_⟩
  cases List.mem_cons.mp hc with
  | inl he =>
    rw [he]
    exact hname.shaped
  | inr hv => exact (hvalues c hv).shaped

theorem NodePair.shaped {depth : Nat} {p : Pair Rule} (h : NodePair depth p) :
    ∀ q, Has p q → Shaped q := by
  induction depth generalizing p with
  | zero => cases h
  | succ depth ih =>
    obtain ⟨t, labels, name, entries, hlabels, hname, hentries, rfl⟩ := h
    refine forall_has_iff.mpr ⟨shaped_of_rule (by decide), fun c hc => ?_⟩
    cases List.mem_append.mp hc with
    | inl hc =>
      cases List.mem_append.mp hc with
      | inl hl => exact (hlabels c hl).shaped
      | inr hn =>
        cases hname with
        | inl hnone =>
          rw [hnone] at hn
          cases hn
        | inr hsome =>
          obtain ⟨q, hq, rfl⟩ := hsome
          rw [List.mem_singleton.mp hn]
          exact hq.shaped
    | inr he =>
      cases hentries c he with
      | inl hp => exact hp.shaped
      | inr hn => exact ih hn

/-- No slice of the decoder is out of range or inside of a character. -/
theorem Shaped.sliceSafe {p : Pair Rule} (h : Shaped p) : SliceSafe p where
  hex hrule := by
    cases h.cell (.inr (.inl hrule)) with
    | decimal => cases hrule
    | hex hx => exact ⟨_, _, hx, rfl⟩
    | phandle hp =>
      obtain ⟨l, -, rfl⟩ := hp
      cases hrule
  phandle hrule := by
    cases h.cell (.inr (.inr hrule)) with
    | decimal => cases hrule
    | hex => cases hrule
    | phandle hp =>
      obtain ⟨l, -, rfl⟩ := hp
      exact ⟨_, rfl⟩
  string hrule := by
    cases h.value (.inl hrule) with
    | string => exact ⟨_, rfl⟩
    | words => cases hrule
    | bytes => cases hrule
    | phandle hp =>
      obtain ⟨l, -, rfl⟩ := hp
      cases hrule

/-- The tokens of a byte string. -/
theorem Shaped.tokens {p : Pair Rule} (h : Shaped p) (hrule : p.rule = .bytes) :
    ∃ t tokens, p = .mk .bytes t tokens ∧ ∀ b ∈ tokens, BytePair b := by
  cases h.value (.inr hrule) with
  | string => cases hrule
  | words => cases hrule
  | bytes htokens => exact ⟨_, _, rfl, htokens⟩
  | phandle hp =>
    obtain ⟨l, -, rfl⟩ := hp
    cases hrule

/-- A number is a cell. -/
theorem Shaped.number {p : Pair Rule} (h : Shaped p) {n : Nat} (hn : numberValue p = some n) :
    CellPair p := by
  unfold numberValue at hn
  split at hn
  · rename_i hrule
    exact h.cell (.inl hrule)
  · rename_i hrule
    exact h.cell (.inr (.inl hrule))
  · cases hn

/-- A number of 32 bits is decoded to its value. -/
theorem decodeWord_number {p : Pair Rule} (h : CellPair p) {n : Nat} (hn : numberValue p = some n)
    (hlt : n < UInt32.size) : ∃ k, decodeWord p = .ok (.number k) ∧ k.toNat = n := by
  refine ⟨UInt32.ofNat n, (decodeWord_eq_ok h _).mpr ⟨fun m hm => ?_, ?_⟩, ?_⟩
  · rw [hn] at hm
    cases hm
    exact hlt
  · rw [cellValue, hn]
  · exact UInt32.toNat_ofNat_of_lt' hlt

/-! ## The theorem -/

section

variable {ords : OrdMap} {depth : Nat} {text r : List Char} {pairs : List (Pair Rule)}

/-- What is inside of a file is inside of its root, or it is the end of the input. -/
theorem forall_inside_iff {F : Pair Rule → Prop} {top : Pair Rule} :
    (∀ q, Inside [top, .mk .eoi [] []] q → F q) ↔ (∀ q, Has top q → F q) ∧ F (.mk .eoi [] []) := by
  have hboth : (∀ q, Inside [top, .mk .eoi [] []] q → F q) ↔
      ∀ p ∈ [top, .mk .eoi [] []], ∀ q, Has p q → F q := by
    constructor
    · intro h p hp q hq
      exact h q ⟨p, hp, hq⟩
    · intro h q hq
      obtain ⟨p, hp, hq⟩ := hq
      exact h p hp q hq
  rw [hboth, List.forall_mem_cons, List.forall_mem_singleton, forall_has_token]

/-- The nodes inside of the root are fine when the names, the numbers and the byte strings are. -/
theorem fine_inner_iff {top : Pair Rule} (htop : top.rule = .node) :
    (∀ c ∈ top.inner, ∀ q, Has c q → Fine q) ↔
      (∀ c ∈ top.inner, ∀ q, Has c q → q.rule = .node → ∃ n ∈ q.inner, n.rule = .nodename) ∧
      ∀ q, Inside [top, .mk .eoi [] []] q → (∀ n, numberValue q = some n → n < UInt32.size) ∧
        (q.rule = .bytes → ∀ b ∈ q.inner, numeral 16 b.text < UInt8.size) := by
  rw [forall_inside_iff, forall_has_iff]
  constructor
  · intro h
    refine ⟨fun c hc q hq => (h c hc q hq).name, ⟨⟨fun n hn => ?_, fun hrule => ?_⟩,
      fun c hc q hq => ⟨(h c hc q hq).number, (h c hc q hq).octets⟩⟩,
      fun n hn => ?_, fun hrule => ?_⟩
    · rw [numberValue, htop] at hn
      cases hn
    · rw [htop] at hrule
      cases hrule
    · cases hn
    · cases hrule
  · rintro ⟨hnames, ⟨_, hrest⟩, _⟩ c hc q hq
    exact ⟨hnames c hc q hq, (hrest c hc q hq).1, (hrest c hc q hq).2⟩

/-- A text that the grammar accepts is decoded exactly when it has what the decoder wants. -/
theorem file_decodes_iff (h : Grammar.file depth text = some (pairs, r))
    (hords : ∀ p ∈ pairs, p.rule = .node → Complete ords "" p) :
    DecodesFile ords pairs ↔ Decodable pairs := by
  obtain ⟨top, rfl, hnode⟩ := file_shape h
  have hshaped : ∀ q, Inside [top, .mk .eoi [] []] q → Shaped q :=
    forall_inside_iff.mpr ⟨hnode.shaped, shaped_of_rule (by decide)⟩
  have hwalk : (∃ dt, walk ords [top, .mk .eoi [] []] = .ok dt) ↔ _ :=
    walk_ok_iff hnode (hords top List.mem_cons_self hnode.rule_eq)
  rw [fine_inner_iff hnode.rule_eq] at hwalk
  constructor
  · -- The tree gives the names and the sizes, and the values give the lengths of the tokens.
    intro hd
    obtain ⟨hroot, hnames, hrest⟩ := hwalk.mp hd.tree
    refine ⟨fun p hp => ?_, fun p hp => ?_, fun q hq => (hrest q hq).1, fun q hq hrule => ?_⟩
    · cases List.mem_cons.mp hp with
      | inl he =>
        rw [he]
        exact hroot
      | inr he =>
        rw [List.mem_singleton.mp he]
        exact List.forall_mem_nil _
    · cases List.mem_cons.mp hp with
      | inl he =>
        rw [he]
        exact hnames
      | inr he =>
        rw [List.mem_singleton.mp he]
        exact List.forall_mem_nil _
    · have hsmall := (hrest q hq).2 hrule
      have hvalue := hd.octets q hq hrule
      obtain ⟨t, tokens, rfl, htokens⟩ := (hshaped q hq).tokens hrule
      exact (octets_iff htokens).mp ⟨hsmall, hvalue⟩
  · intro hd
    have hoctets : ∀ q, Inside [top, .mk .eoi [] []] q → q.rule = .bytes →
        (∀ b ∈ q.inner, numeral 16 b.text < UInt8.size) ∧
          ∀ bs, byteString q.inner = some bs → decodeBytes q = .ok bs := by
      intro q hq hrule
      have hcases := hd.octets q hq hrule
      obtain ⟨t, tokens, rfl, htokens⟩ := (hshaped q hq).tokens hrule
      exact (octets_iff htokens).mpr hcases
    refine ⟨hwalk.mpr ⟨hd.root top List.mem_cons_self, hd.names top List.mem_cons_self,
      fun q hq => ⟨hd.numbers q hq, fun hrule => (hoctets q hq hrule).1⟩⟩,
      fun q hq => (hshaped q hq).sliceSafe, fun q hq n hn => ?_,
      fun q hq hrule => (hoctets q hq hrule).2⟩
    exact decodeWord_number ((hshaped q hq).number hn) hn (hd.numbers q hq n hn)

end

/-- A byte string with a space between its bytes. -/
def spacedBytes : List Char := "/dts-v1/; / \x7b p = [12 34]; \x7d;".toList

/-- The same byte string without the space. -/
def unspacedBytes : List Char := "/dts-v1/; / \x7b p = [1234]; \x7d;".toList

theorem file_decodes_iff_spaced : ∃ pairs r, Grammar.file 1 spacedBytes = some (pairs, r) ∧
    (DecodesFile (fun _ => some 0) pairs ↔ Decodable pairs) := by
  have hread : (Grammar.file 1 spacedBytes).isSome = true := by
    decide +kernel
  obtain ⟨⟨pairs, r⟩, h⟩ := Option.isSome_iff_exists.mp hread
  exact ⟨pairs, r, h, file_decodes_iff h fun _ _ _ _ _ => ⟨0, rfl⟩⟩

/-- Without the space, the grammar reads one token, and the decoder panics. -/
theorem unspaced_bytes_not_decoded : ∃ pairs r, Grammar.file 1 unspacedBytes = some (pairs, r) ∧
    (∀ p ∈ pairs, p.rule = .node → Complete (fun _ => some 0) "" p) ∧
    ¬DecodesFile (fun _ => some 0) pairs := by
  have hread : (Grammar.file 1 unspacedBytes).any (fun x =>
      (walk (fun _ => some 0) x.1).toOption.isNone) = true := by
    decide +kernel
  obtain ⟨⟨pairs, r⟩, h, hwalk⟩ := (Option.any_eq_true _ _).mp hread
  refine ⟨pairs, r, h, fun _ _ _ _ _ => ⟨0, rfl⟩, fun hd => ?_⟩
  obtain ⟨dt, hdt⟩ := hd.tree
  simp only at hwalk
  rw [hdt] at hwalk
  cases hwalk

end ZephyrRust.Devicetree
