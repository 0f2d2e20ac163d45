import ZephyrRust.Proofs.Devicetree.Build
import ZephyrRust.Proofs.Devicetree.Tokens

/-!
# `ZephyrRust.Proofs.Devicetree.RoundTrip`: parsing undoes writing

`parse_render`: for every tree and every way to write it, the parser returns that tree.

The proof goes up the grammar. For each piece of text, the grammar reads exactly this piece, and the
nodes of the parse tree decode to what was written. The two halves are stated together. `Decodes`
and `Builds` say what the nodes decode to without a word about the text. The entries of a node are by
induction over `EntriesText`, with the depth of the grammar bounded by the length of the text.
-/

set_option autoImplicit false

namespace ZephyrRust.Devicetree

open ZephyrRust.Lib.Peg
open ZephyrRust.Lib.Fallible
open Grammar

/-! ## Cells and bytes -/

theorem WordText.solid {w : Word} {t : List Char} (h : WordText w t) (s : List Char) :
    Solid (t ++ s) := by
  cases h with
  | hex _ _ _ _ => exact solid_cons _ (by decide) (by decide)
  | decimal hc _ _ =>
    exact solid_of_nodenameChar _
      (nodenameChar_of_labelChar (labelChar_of_digit (digit_of_nonzeroDigit hc)))
  | phandle _ => exact solid_cons _ (by decide) (by decide)

theorem ByteText.solid {b : UInt8} {t : List Char} (h : ByteText b t) (s : List Char) :
    Solid (t ++ s) := by
  cases h with
  | mk hc _ _ =>
    exact solid_of_nodenameChar _ (nodenameChar_of_labelChar (labelChar_of_hexDigit hc))

/-- A cell is read and decodes. -/
theorem word_read {w : Word} {t s : List Char} (h : WordText w t) (hs : Stops isLabelChar s) :
    ∃ p, alt number phandle (t ++ s) = some ([p], s) ∧ decodeWord p = .ok w := by
  cases h with
  | @hex n x t hx hne ht hn =>
    refine ⟨.mk .hexNumber ('0' :: x :: t) [], alt_left ?_, ?_⟩
    · exact (alt_right (decimalNumber_none _ rfl)).trans (hexNumber_read hx hne ht hs)
    · have hlt := n.toNat_lt
      show (fromStrRadix 16 UInt32.size t).map _ = _
      rw [fromStrRadix_numeral (by decide) hne (fun c hc => toDigit_hexDigit (ht c hc))
        (by rw [hn]; exact hlt), hn]
      simp [Except.map]
  | @decimal n c t hc ht hn =>
    refine ⟨_, alt_left (alt_left (decimalNumber_read hc ht hs)), ?_⟩
    have hlt := n.toNat_lt
    have hdigits : ∀ d ∈ c :: t, isDigit d = true :=
      List.forall_mem_cons.mpr ⟨digit_of_nonzeroDigit hc, ht⟩
    show (fromStrRadix 10 UInt32.size (c :: t)).map _ = _
    rw [fromStrRadix_numeral (by decide) (List.cons_ne_nil c t)
      (fun d hd => toDigit_digit (hdigits d hd)) (by rw [hn]; exact hlt), hn]
    simp [Except.map]
  | @phandle label hl =>
    refine ⟨_, (alt_right ?_).trans (phandle_read hl hs), ?_⟩
    · exact (alt_right (decimalNumber_none _ rfl)).trans (hexNumber_none _ (by decide))
    · show Except.ok (Word.phandle (Phandle.new (String.ofList label.toList))) = _
      rw [String.ofList_toList]

theorem byte_read {b : UInt8} {t s : List Char} (h : ByteText b t) (hs : Stops isLabelChar s) :
    ∃ p, plainHexNumber (t ++ s) = some ([p], s) ∧ decodeByte p = .ok b := by
  cases h with
  | @mk c d hc hd hb =>
    have ht : ∀ e ∈ [c, d], isHexDigit e = true := by simp [hc, hd]
    refine ⟨_, plainHexNumber_read (List.cons_ne_nil c [d]) ht hs, ?_⟩
    have hlt := b.toNat_lt
    show (fromStrRadix 16 UInt8.size [c, d]).map _ = _
    rw [fromStrRadix_numeral (by decide) (List.cons_ne_nil c [d])
      (fun e he => toDigit_hexDigit (ht e he)) (by rw [hb]; exact hlt), hb]
    simp [Except.map]

section Spaced

variable {α : Type} {item : α → List Char → Prop} {a : Parser Rule}
variable {decode : Pair Rule → Except Panic α}

theorem Spaced.stops {xs : List α} {text s : List Char} (h : Spaced item xs text)
    (hs : Stops isLabelChar s) : Stops isLabelChar (text ++ s) := by
  cases h with
  | nil => exact hs
  | @cons x xs g t rest hg hne hx h =>
    rw [List.append_assoc, List.append_assoc]
    exact hg.stops_label fun he => absurd he hne

/-- The items after the first one, up to where no further item is read. -/
theorem Spaced.read {xs : List α} {text s : List Char} (h : Spaced item xs text)
    (hsolid : ∀ {x t}, item x t → ∀ s, Solid (t ++ s))
    (hitem : ∀ {x t s}, item x t → Stops isLabelChar s →
      ∃ p, a (t ++ s) = some ([p], s) ∧ decode p = .ok x)
    (hs : Stops isLabelChar s) (hend : a (skip s) = none) :
    ∃ ps, Repeats skip a (text ++ s) ps s ∧ ps.mapM decode = .ok xs := by
  induction h with
  | nil => exact ⟨[], .done hend, rfl⟩
  | @cons x xs g t rest hg hne hx hrest ih =>
    obtain ⟨ps, hps, hdec⟩ := ih
    obtain ⟨p, hp, hpdec⟩ := hitem hx (hrest.stops hs)
    have hround : a (skip (g ++ t ++ rest ++ s)) = some ([p], rest ++ s) := by
      rw [List.append_assoc, List.append_assoc, skip_gap hg (hsolid hx _)]
      exact hp
    refine ⟨[p] ++ ps, .round hround ?_ hps, ?_⟩
    · have hpos := List.length_pos_of_ne_nil hne
      simp only [List.length_append]
      omega
    · rw [List.singleton_append, List.mapM_cons]
      exact bind_eq_ok.mpr ⟨x, hpdec, bind_eq_ok.mpr ⟨xs, hdec, rfl⟩⟩

/-- A whole list of items between two brackets. -/
theorem brackets_read (opening closing : Char) {x : α} {xs : List α} {g t rest g' : List Char}
    (hg : Gap g) (hx : item x t) (h : Spaced item xs rest) (hg' : Gap g')
    (hclosing : isWhitespace closing = false ∧ closing ≠ '/' ∧ isLabelChar closing = false)
    (hsolid : ∀ {x t}, item x t → ∀ s, Solid (t ++ s))
    (hitem : ∀ {x t s}, item x t → Stops isLabelChar s →
      ∃ p, a (t ++ s) = some ([p], s) ∧ decode p = .ok x)
    (hend : ∀ s, a (closing :: s) = none) (s : List Char) :
    ∃ ps, seq skip (lit [opening]) (seq skip (plus skip a) (lit [closing]))
        (opening :: (g ++ t ++ rest ++ g' ++ [closing]) ++ s) = some (ps, s) ∧
      ps.mapM decode = .ok (x :: xs) := by
  have htail : skip (g' ++ closing :: s) = closing :: s :=
    hg'.skip_char closing s ⟨hclosing.1, hclosing.2.1⟩
  have hstop : Stops isLabelChar (g' ++ closing :: s) := hg'.stops_label fun _ => hclosing.2.2
  have hagain : skip (skip (g' ++ closing :: s)) = skip (g' ++ closing :: s) := by
    rw [htail]
    exact skip_solid (solid_cons s hclosing.1 hclosing.2.1)
  obtain ⟨p, hp, hpdec⟩ := hitem hx (h.stops hstop)
  obtain ⟨ps, hps, hdec⟩ := h.read hsolid hitem hstop (by rw [htail]; exact hend s)
  obtain ⟨t', hstar, ht'⟩ := hps.star_gap hagain
  refine ⟨[] ++ (([p] ++ ps) ++ []), ?_, ?_⟩
  · have htext : opening :: (g ++ t ++ rest ++ g' ++ [closing]) ++ s =
        [opening] ++ (g ++ (t ++ (rest ++ (g' ++ closing :: s)))) := by simp
    rw [htext]
    refine seq_some (lit_append [opening] _) ?_
    rw [skip_gap hg (hsolid hx _)]
    refine seq_some (seq_some hp hstar) ?_
    rw [ht', htail]
    exact lit_char closing s
  · rw [List.nil_append, List.append_nil, List.singleton_append, List.mapM_cons]
    exact bind_eq_ok.mpr ⟨x, hpdec, bind_eq_ok.mpr ⟨xs, hdec, rfl⟩⟩

end Spaced

/-! ## Values -/

/-- The node of the parse tree decodes to this value of a property. -/
def Decodes (v : Value) (p : Pair Rule) : Prop :=
  ∀ name vs ps, decodePropertyLoop name vs (p :: ps) = decodePropertyLoop name (vs ++ [v]) ps

theorem ValueText.solid {v : Value} {t : List Char} (h : ValueText v t) (s : List Char) :
    Solid (t ++ s) := by
  cases h <;> exact solid_cons _ (by decide) (by decide)

theorem words_none {c : Char} (s : List Char) (hc : c ≠ '<') : words (c :: s) = none :=
  rule_none (seq_none_left (lit_none_of_ne [] s hc))

theorem bytes_none {c : Char} (s : List Char) (hc : c ≠ '[') : bytes (c :: s) = none :=
  rule_none (seq_none_left (lit_none_of_ne [] s hc))

/-- A value is read by its alternative of the rule, and it decodes. -/
theorem value_read {v : Value} {t s : List Char} (h : ValueText v t)
    (hs : Stops isLabelChar s) : ∃ p, value (t ++ s) = some ([p], s) ∧ Decodes v p := by
  cases h with
  | @string text ht =>
    refine ⟨_, alt_left (string_read ht s), fun name vs ps => ?_⟩
    have htext : ((('"' :: text.toList ++ ['"']).drop 1).dropLast) = text.toList := by simp
    rw [decodePropertyLoop]
    simp only [Pair.rule, Pair.text, htext, String.ofList_toList]
  | @cells w ws g t rest g' hg hw hws hg' =>
    have hend : ∀ s, alt number phandle ('>' :: s) = none := by
      intro s
      have hnumber : number ('>' :: s) = none :=
        (alt_right (decimalNumber_none s rfl)).trans (hexNumber_none s (by decide))
      exact (alt_right hnumber).trans (phandle_none s (by decide))
    obtain ⟨ps, hps, hdec⟩ := brackets_read '<' '>' hg hw hws hg' (by decide)
      (fun h => h.solid) (fun h hs => word_read h hs) hend s
    refine ⟨.mk .words ('<' :: (g ++ t ++ rest ++ g' ++ ['>'])) ps, ?_, fun name vs qs => ?_⟩
    · exact (alt_right (string_none _ (by decide))).trans (alt_left (rule_some hps))
    · rw [decodePropertyLoop]
      simp only [Pair.rule]
      rw [decodeWords, Pair.inner, hdec]
      rfl
  | @octets b bs g t rest g' hg hb hbs hg' =>
    obtain ⟨ps, hps, hdec⟩ := brackets_read '[' ']' hg hb hbs hg' (by decide)
      (fun h => h.solid) (fun h hs => byte_read h hs)
      (fun s => plainHexNumber_none s (by decide)) s
    refine ⟨.mk .bytes ('[' :: (g ++ t ++ rest ++ g' ++ [']'])) ps, ?_, fun name vs qs => ?_⟩
    · exact (alt_right (string_none _ (by decide))).trans
        ((alt_right (words_none _ (by decide))).trans (alt_left (rule_some hps)))
    · rw [decodePropertyLoop]
      simp only [Pair.rule]
      rw [decodeBytes, Pair.inner, hdec]
      rfl
  | @reference label hl =>
    refine ⟨.mk .phandle ('&' :: label.toList) [], ?_, fun name vs qs => ?_⟩
    · exact (alt_right (string_none _ (by decide))).trans
        ((alt_right (words_none _ (by decide))).trans
          ((alt_right (bytes_none _ (by decide))).trans (phandle_read hl hs)))
    · rw [decodePropertyLoop]
      simp only [Pair.rule, Pair.text, List.drop_succ_cons, List.drop_zero, String.ofList_toList]

theorem MoreValuesText.stops {vs : List Value} {text s : List Char} (h : MoreValuesText vs text)
    (hs : Stops isLabelChar s) : Stops isLabelChar (text ++ s) := by
  cases h with
  | nil => exact hs
  | cons hg _ _ _ =>
    simp only [List.append_assoc]
    exact hg.stops_label fun _ => rfl

/-- The values after the first one. -/
theorem MoreValuesText.read {vs : List Value} {text s : List Char} (h : MoreValuesText vs text)
    (hs : Stops isLabelChar s) (hend : seq skip (lit [',']) value (skip s) = none) :
    ∃ ps, Repeats skip (seq skip (lit [',']) value) (text ++ s) ps s ∧
      List.Forall₂ Decodes vs ps := by
  induction h with
  | nil => exact ⟨[], .done hend, .nil⟩
  | @cons v vs g g' t rest hg hg' hv hrest ih =>
    obtain ⟨ps, hps, hdec⟩ := ih
    obtain ⟨p, hp, hpdec⟩ := value_read hv (hrest.stops hs)
    have hround : seq skip (lit [',']) value (skip (g ++ [','] ++ g' ++ t ++ rest ++ s)) =
        some ([] ++ [p], rest ++ s) := by
      have htext : g ++ [','] ++ g' ++ t ++ rest ++ s =
          g ++ ',' :: (g' ++ (t ++ (rest ++ s))) := by simp
      rw [htext, hg.skip_char ',' _ (by decide)]
      refine seq_some (lit_char ',' _) ?_
      rw [skip_gap hg' (hv.solid _)]
      exact hp
    refine ⟨([] ++ [p]) ++ ps, .round hround ?_ hps, .cons hpdec hdec⟩
    simp only [List.length_append, List.length_cons]
    omega

/-! ## Properties -/

theorem decodePropertyLoop_decodes {name : String} {vs : List Value} {ps : List (Pair Rule)}
    (h : List.Forall₂ Decodes vs ps) (vs₀ : List Value) :
    decodePropertyLoop (some name) vs₀ ps = .ok ⟨name, vs₀ ++ vs⟩ := by
  induction h generalizing vs₀ with
  | nil => rw [List.append_nil]; rfl
  | @cons v p vs ps hp _ ih =>
    rw [hp, ih, List.append_assoc, List.singleton_append]

/-- A property is read, and it decodes. -/
theorem property_read {p : Property} {t : List Char} (h : PropertyText p t) (s : List Char) :
    ∃ q, property (t ++ s) = some ([q], s) ∧ q.rule = .property ∧ decodeProperty q = .ok p := by
  cases h with
  | @flag name g hname hg =>
    have hskip : skip (g ++ [';'] ++ s) = ';' :: s := by
      rw [List.append_assoc]
      exact hg.skip_char ';' s (by decide)
    have hread : nodename (name.toList ++ g ++ [';'] ++ s) =
        some ([.mk .nodename name.toList []], g ++ [';'] ++ s) := by
      rw [List.append_assoc, List.append_assoc, ← List.append_assoc g]
      refine nodename_read hname.ne_nil hname.2 ?_
      rw [List.append_assoc]
      exact hg.stops_nodename fun _ => rfl
    refine ⟨_, rule_some (x := [.mk .nodename name.toList []]) ?_, rfl, ?_⟩
    · rw [alt_right (seq_none_right hread ?_)]
      · refine seq_some (y := []) hread ?_
        rw [hskip]
        exact lit_char ';' s
      · rw [hskip]
        exact seq_none_left (lit_none_of_ne [] s (by decide))
    · show decodePropertyLoop _ _ _ = _
      rw [Pair.inner, decodePropertyLoop]
      simp only [Pair.rule, Pair.text, String.ofList_toList]
      rfl
  | @values name v vs g g₁ t rest g₂ hname hg hg₁ hv hvs hg₂ =>
    have htail : skip (g₂ ++ ';' :: s) = ';' :: s := hg₂.skip_char ';' s (by decide)
    have hagain : skip (skip (g₂ ++ ';' :: s)) = skip (g₂ ++ ';' :: s) := by
      rw [htail]
      exact skip_solid (solid_cons s (by decide) (by decide))
    have hstop : Stops isLabelChar (g₂ ++ ';' :: s) := hg₂.stops_label fun _ => rfl
    obtain ⟨p, hp, hpdec⟩ := value_read hv (hvs.stops hstop)
    obtain ⟨ps, hps, hdec⟩ := hvs.read hstop (by
      rw [htail]
      exact seq_none_left (lit_none_of_ne [] s (by decide)))
    obtain ⟨t', hstar, ht'⟩ := hps.star_gap hagain
    have htext : name.toList ++ g ++ ['='] ++ g₁ ++ t ++ rest ++ g₂ ++ [';'] ++ s =
        name.toList ++ (g ++ '=' :: (g₁ ++ (t ++ (rest ++ (g₂ ++ ';' :: s))))) := by simp
    refine ⟨_, rule_some (x := [.mk .nodename name.toList []] ++ ([] ++ (([p] ++ ps) ++ [])))
      (alt_left ?_), rfl, ?_⟩
    · rw [htext]
      refine seq_some (nodename_read hname.ne_nil hname.2 (hg.stops_nodename fun _ => rfl)) ?_
      rw [hg.skip_char '=' _ (by decide)]
      refine seq_some (lit_char '=' _) ?_
      rw [skip_gap hg₁ (hv.solid _)]
      refine seq_some (seq_some hp hstar) ?_
      rw [ht', htail]
      exact lit_char ';' s
    · show decodePropertyLoop _ _ _ = _
      rw [Pair.inner, List.singleton_append, decodePropertyLoop]
      simp only [Pair.rule, Pair.text, String.ofList_toList, List.nil_append, List.append_nil,
        List.singleton_append]
      exact decodePropertyLoop_decodes (.cons hpdec hdec) []

theorem IsName.solid {name : String} (hname : IsName name) (s : List Char) :
    Solid (name.toList ++ s) := by
  cases hn : name.toList with
  | nil => exact absurd hn hname.ne_nil
  | cons c t => exact solid_of_nodenameChar _ (hname.2 c (by rw [hn]; exact List.mem_cons_self))

theorem PropertyText.solid {p : Property} {t : List Char} (h : PropertyText p t)
    (s : List Char) : Solid (t ++ s) := by
  cases h with
  | flag hname _ | values hname _ _ _ _ _ =>
    simp only [List.append_assoc]
    exact hname.solid _

theorem PropertyText.length_pos {p : Property} {t : List Char} (h : PropertyText p t) :
    0 < t.length := by
  cases h with
  | flag _ _ | values _ _ _ _ _ _ =>
    simp only [List.length_append, List.length_cons]
    omega

/-! ## The head of a node -/

/-- The node of the parse tree for a label. -/
def labelPair (l : String) : Pair Rule := .mk .label l.toList []

/-- The labels of a node, up to its name. -/
theorem LabelsText.read {ls : List String} {head s : List Char} (h : LabelsText ls head)
    (hend : seq skip label (lit [':']) (skip s) = none) :
    Repeats skip (seq skip label (lit [':'])) (head ++ s) (ls.map labelPair) s := by
  induction h with
  | nil => exact .done hend
  | @cons l ls g g' rest hg hl hg' _ ih =>
    have hround : seq skip label (lit [':']) (skip (g ++ l.toList ++ g' ++ [':'] ++ rest ++ s)) =
        some ([labelPair l] ++ [], rest ++ s) := by
      have htext : g ++ l.toList ++ g' ++ [':'] ++ rest ++ s =
          g ++ (l.toList ++ (g' ++ ':' :: (rest ++ s))) := by simp
      obtain ⟨c, t, hc, halpha, -⟩ := id hl
      have hsolid : Solid (l.toList ++ (g' ++ ':' :: (rest ++ s))) := by
        rw [hc]
        exact solid_of_nodenameChar _ (nodenameChar_of_labelChar (labelChar_of_alpha halpha))
      rw [htext, skip_gap hg hsolid]
      refine seq_some (label_read hl (hg'.stops_label fun _ => rfl)) ?_
      rw [hg'.skip_char ':' _ (by decide)]
      exact lit_char ':' (rest ++ s)
    refine .round hround ?_ ih
    simp only [List.length_append, List.length_cons]
    omega

/-- The head of a node: its labels and its name, or the `/` of the root. -/
theorem nodePath_read (nm : List Char) {ls : List String} {head g s : List Char}
    {x : List (Pair Rule)}
    (h : LabelsText ls head) (hg : Gap g) (hsolid : Solid (nm ++ s))
    (hcolon : seq skip label (lit [':']) (nm ++ s) = none)
    (hname : alt (lit ['/']) nodename (nm ++ s) = some (x, s)) :
    nodePath (skip (head ++ (g ++ (nm ++ s)))) = some (ls.map labelPair ++ x, s) := by
  have hskip : skip (g ++ (nm ++ s)) = nm ++ s := skip_gap hg hsolid
  have hlabels := h.read (s := g ++ (nm ++ s)) (by rw [hskip]; exact hcolon)
  obtain ⟨t', hstar, ht'⟩ := hlabels.star_gap (by rw [hskip]; exact skip_solid hsolid)
  refine seq_some hstar ?_
  rw [ht', hskip]
  exact hname

theorem nodename_alt_read {name : String} (hname : IsName name) {s : List Char}
    (hs : Stops isNodenameChar s) :
    alt (lit ['/']) nodename (name.toList ++ s) =
      some ([.mk .nodename name.toList []], s) := by
  have hslash : lit (R := Rule) ['/'] (name.toList ++ s) = none := by
    cases hn : name.toList with
    | nil => exact absurd hn hname.ne_nil
    | cons c t =>
      have hc := hname.2 c (by rw [hn]; exact List.mem_cons_self)
      exact lit_none_of_ne [] (t ++ s) (ne_of_class hc (by decide))
  rw [alt_right hslash]
  exact nodename_read hname.ne_nil hname.2 hs

/-! ## Entries -/

/-- A name that neither `=` nor `;` follows is no property. -/
theorem property_none {t s s' : List Char} {d : Char} (hne : t ≠ [])
    (ht : ∀ c ∈ t, isNodenameChar c = true) (hs : Stops isNodenameChar s)
    (hskip : skip s = d :: s') (hd : d ≠ '=' ∧ d ≠ ';') : property (t ++ s) = none := by
  have hname := nodename_read hne ht hs
  refine rule_none ?_
  rw [alt_right (seq_none_right hname (by
    rw [hskip]
    exact seq_none_left (lit_none_of_ne [] s' hd.1)))]
  refine seq_none_right hname ?_
  rw [hskip]
  exact lit_none_of_ne [] s' hd.2

/-- A node is no property. -/
theorem property_none_of_head {ls : List String} {name : String} {head g g₁ s : List Char}
    (h : LabelsText ls head) (hg : Gap g) (hname : IsName name) (hg₁ : Gap g₁) :
    property (skip (head ++ (g ++ (name.toList ++ (g₁ ++ '{' :: s))))) = none := by
  cases h with
  | nil =>
    rw [List.nil_append, skip_gap hg (hname.solid _)]
    exact property_none hname.ne_nil hname.2 (hg₁.stops_nodename fun _ => rfl)
      (hg₁.skip_char '{' s (by decide)) (by decide)
  | @cons l ls g' g₂ rest hg' hl hg₂ _ =>
    have htext : g' ++ l.toList ++ g₂ ++ [':'] ++ rest ++
        (g ++ (name.toList ++ (g₁ ++ '{' :: s))) =
        g' ++ (l.toList ++ (g₂ ++ ':' :: (rest ++ (g ++ (name.toList ++ (g₁ ++ '{' :: s)))))) := by
      simp
    have hchars : ∀ c ∈ l.toList, isNodenameChar c = true :=
      fun c hc => nodenameChar_of_labelChar (hl.forall_labelChar c hc)
    have hlabel : IsName l := by
      refine ⟨fun he => hl.ne_nil ?_, hchars⟩
      rw [he]
      rfl
    rw [htext, skip_gap hg' (hlabel.solid _)]
    exact property_none hl.ne_nil hchars (hg₂.stops_nodename fun _ => rfl)
      (hg₂.skip_char ':' _ (by decide)) (by decide)

/-- The entries end at the closing brace. -/
theorem entry_none (depth : Nat) (s : List Char) : entry (node depth) ('}' :: s) = none := by
  have hname : nodename ('}' :: s) = none := nodename_none rfl
  have hproperty : property ('}' :: s) = none := by
    refine rule_none ?_
    rw [alt_right (seq_none_left hname)]
    exact seq_none_left hname
  rw [entry, alt_right hproperty]
  cases depth with
  | zero => rfl
  | succ depth =>
    refine rule_none (seq_none_left ?_)
    have hstar : star skip (seq skip label (lit [':'])) ('}' :: s) = some ([], '}' :: s) :=
      star_none (seq_none_left (label_none rfl))
    refine seq_none_right hstar ?_
    rw [skip_solid (solid_cons s (by decide) (by decide)),
      alt_right (lit_none_of_ne [] s (by decide))]
    exact hname

/-! ## The builder -/

/-- The name of a tree. -/
def Tree.name : Tree → String
  | .mk _ name _ _ => name

/-- The ordinals of all these routes are known. -/
def OrdMap.DefinedOn (ords : OrdMap) (routes : List (List String)) : Prop :=
  ∀ route ∈ routes, ∃ ord, ords (joinPath route) = some ord

/-- The node of the parse tree makes this tree, below any parent. -/
def Builds (t : Tree) (q : Pair Rule) : Prop :=
  q.rule = .node ∧ ∀ (ords : OrdMap) (route : List String) (b : Builder),
    (∀ x ∈ route, x ≠ "") → ords.DefinedOn (t.routes (route ++ [t.name])) →
    ∃ n b', walkNode ords (joinPath route) route q b = .ok (n, b') ∧ n.tree = t

/-- The nodes of the parse tree for the entries of a node. -/
inductive EntryPairs : List Property → List Tree → List (Pair Rule) → Prop
  | nil : EntryPairs [] [] []
  | property {p : Property} {ps : List Property} {ts : List Tree} {q : Pair Rule}
      {qs : List (Pair Rule)} (hrule : q.rule = .property) (hp : decodeProperty q = .ok p)
      (h : EntryPairs ps ts qs) : EntryPairs (p :: ps) ts (q :: qs)
  | node {t : Tree} {ps : List Property} {ts : List Tree} {q : Pair Rule} {qs : List (Pair Rule)}
      (ht : Builds t q) (h : EntryPairs ps ts qs) : EntryPairs ps (t :: ts) (q :: qs)

/-- The loop of `walk_node` over the labels. -/
theorem walkInner_labels (ords : OrdMap) (ls : List String) (qs : List (Pair Rule)) (parts : Parts)
    (b : Builder) :
    walkInner ords (ls.map labelPair ++ qs) parts b =
      walkInner ords qs { parts with labels := parts.labels ++ ls } b := by
  induction ls generalizing parts with
  | nil => rw [List.append_nil]; rfl
  | cons l ls ih =>
    rw [List.map_cons, List.cons_append, walkInner]
    simp only [labelPair, Pair.rule, Pair.text, String.ofList_toList]
    rw [ih, List.append_assoc, List.singleton_append]

/-- The loop of `walk_node` over the entries, when the name is known. -/
theorem walkInner_entries {ps : List Property} {ts : List Tree} {qs : List (Pair Rule)}
    (h : EntryPairs ps ts qs) (ords : OrdMap) (parts : Parts) {info : Info}
    (hinfo : parts.name.info = some info) (hpath : info.path = joinPath parts.name.route)
    (hnames : ∀ x ∈ parts.name.route, x ≠ "")
    (hords : ords.DefinedOn (childRoutes parts.name.route ts)) (b : Builder) :
    ∃ cs b', walkInner ords qs parts b = .ok ({ parts with
        properties := parts.properties ++ ps
        children := parts.children ++ cs }, b') ∧ trees cs = ts := by
  induction h generalizing parts b with
  | nil =>
    refine ⟨[], b, ?_, rfl⟩
    rw [List.append_nil, List.append_nil]
    rfl
  | @property p ps ts q qs hrule hp _ ih =>
    obtain ⟨cs, b', hwalk, htrees⟩ :=
      ih { parts with properties := parts.properties ++ [p] } hinfo hpath hnames hords b
    refine ⟨cs, b', ?_, htrees⟩
    rw [walkInner, hrule]
    simp only
    rw [hp]
    show walkInner ords qs { parts with properties := parts.properties ++ [p] } b = _
    rw [hwalk, List.append_assoc, List.singleton_append]
  | @node t ps ts q qs ht _ ih =>
    obtain ⟨hrule, hbuilds⟩ := ht
    have hroutes : childRoutes parts.name.route (t :: ts) =
        t.routes (parts.name.route ++ [t.name]) ++ childRoutes parts.name.route ts := by
      obtain ⟨labels, name, properties, children⟩ := t
      rfl
    rw [hroutes] at hords
    obtain ⟨n, b₁, hn, htree⟩ := hbuilds ords parts.name.route b hnames
      fun r hr => hords r (List.mem_append_left _ hr)
    obtain ⟨cs, b', hwalk, htrees⟩ :=
      ih { parts with children := parts.children ++ [n] } hinfo hpath hnames
        (fun r hr => hords r (List.mem_append_right _ hr)) b₁
    refine ⟨n :: cs, b', ?_, by rw [trees, htree, htrees]⟩
    have hknown : parts.name.known = .ok info := by rw [LazyName.known, hinfo]
    rw [walkInner, hrule]
    simp only
    rw [hknown]
    show (walkNode ords info.path parts.name.route q b >>= _) = _
    rw [hpath, hn]
    show walkInner ords qs { parts with children := parts.children ++ [n] } b₁ = _
    rw [hwalk, List.append_assoc, List.singleton_append]

/-- The end of `walk_node`. -/
theorem finish_tree (parts : Parts) {info : Info} (hinfo : parts.name.info = some info)
    (b : Builder) :
    ∃ n b', parts.finish b = .ok (n, b') ∧
      n.tree = .mk parts.labels info.name parts.properties (trees parts.children) := by
  have hknown : parts.name.known = .ok info := by rw [LazyName.known, hinfo]
  unfold Parts.finish
  rw [hknown]
  exact ⟨_, _, rfl, rfl⟩

/-- A node with a name, from its parts. -/
theorem builds_node {ls : List String} {name : String} {ps : List Property} {ts : List Tree}
    {qs : List (Pair Rule)} (hname : IsName name) (h : EntryPairs ps ts qs) (text : List Char) :
    Builds (.mk ls name ps ts)
      (.mk .node text (ls.map labelPair ++ .mk .nodename name.toList [] :: qs)) := by
  refine ⟨rfl, fun ords route b hnames hords => ?_⟩
  have hne : joinPath route ≠ "" := by
    intro he
    have hlen := congrArg String.length he
    rw [joinPath, String.length_append] at hlen
    have hone : ("/" : String).length = 1 := rfl
    have hzero : ("" : String).length = 0 := rfl
    omega
  obtain ⟨ord, hord⟩ := hords (route ++ [name]) List.mem_cons_self
  -- The name is known after the labels and the name.
  have hset : LazyName.set ords ⟨joinPath route, route, none⟩ name = .ok
      ⟨joinPath route, route ++ [name],
        some ⟨name, joinPath (route ++ [name]), ord⟩⟩ := by
    unfold LazyName.set
    simp only [← joinPath_append hnames name]
    rw [OrdMap.index, hord]
    rfl
  have hnames' : ∀ x ∈ route ++ [name], x ≠ "" := by
    intro x hx
    rcases List.mem_append.mp hx with hx | hx
    · exact hnames x hx
    · rw [List.mem_singleton.mp hx]
      exact hname.1
  obtain ⟨cs, b₁, hwalk, htrees⟩ := walkInner_entries h ords
    ⟨⟨joinPath route, route ++ [name],
      some ⟨name, joinPath (route ++ [name]), ord⟩⟩, ls, [], []⟩ rfl rfl hnames'
    (fun r hr => hords r (List.mem_cons_of_mem _ hr)) b
  obtain ⟨n, b', hfinish, htree⟩ := finish_tree ⟨⟨joinPath route, route ++ [name],
    some ⟨name, joinPath (route ++ [name]), ord⟩⟩, ls, [] ++ ps, [] ++ cs⟩ rfl b₁
  refine ⟨n, b', ?_, ?_⟩
  · rw [walkNode, LazyName.new, if_neg hne]
    show (walkInner ords _ ⟨⟨joinPath route, route, none⟩, [], [], []⟩ b >>= _) = _
    rw [walkInner_labels, walkInner]
    simp only [Pair.rule, Pair.text, String.ofList_toList]
    rw [hset]
    show (walkInner ords qs _ b >>= _) = _
    rw [List.nil_append, hwalk]
    exact hfinish
  · rw [htree, List.nil_append, List.nil_append, htrees]

/-! ## Nodes -/

/-- A node, from its head and its entries. -/
theorem node_read {depth : Nat} {start g₁ body g₂ g₃ s : List Char}
    {hd inner : List (Pair Rule)} (hg₁ : Gap g₁) (hg₂ : Gap g₂) (hg₃ : Gap g₃)
    (hhead : nodePath start =
      some (hd, g₁ ++ '{' :: (body ++ (g₂ ++ '}' :: (g₃ ++ ';' :: s)))))
    (hbody : Repeats skip (entry (node depth)) (body ++ (g₂ ++ '}' :: (g₃ ++ ';' :: s))) inner
      (g₂ ++ '}' :: (g₃ ++ ';' :: s))) :
    ∃ text, node (depth + 1) start = some ([.mk .node text (hd ++ inner)], s) := by
  have hclose := hg₂.skip_char '}' (g₃ ++ ';' :: s) (by decide)
  obtain ⟨t', hstar, ht'⟩ := hbody.star_gap (by
    rw [hclose]
    exact skip_solid (solid_cons _ (by decide) (by decide)))
  refine ⟨_, rule_of_some (x := hd ++ inner) ?_⟩
  have hrest : seq skip (lit ['{']) (seq skip (star skip (entry (node depth)))
      (seq skip (lit ['}']) (lit [';'])))
      (skip (g₁ ++ '{' :: (body ++ (g₂ ++ '}' :: (g₃ ++ ';' :: s))))) =
      some ([] ++ (inner ++ ([] ++ [])), s) := by
    rw [hg₁.skip_char '{' _ (by decide)]
    refine seq_some (lit_char '{' _) (seq_some hstar ?_)
    rw [ht', hclose]
    refine seq_some (lit_char '}' _) ?_
    rw [hg₃.skip_char ';' _ (by decide)]
    exact lit_char ';' s
  rw [List.nil_append, List.append_nil, List.append_nil] at hrest
  exact seq_some hhead hrest

/-- The entries of a node, up to the closing brace. -/
theorem entries_read {ps : List Property} {ts : List Tree} {text : List Char}
    (h : EntriesText ps ts text) (depth : Nat) (hdepth : text.length ≤ depth) {g : List Char}
    (hg : Gap g) (s : List Char) :
    ∃ qs, Repeats skip (entry (node depth)) (text ++ (g ++ '}' :: s)) qs (g ++ '}' :: s) ∧
      EntryPairs ps ts qs := by
  have hend : ∀ {depth : Nat} {g s : List Char}, Gap g →
      entry (node depth) (skip (g ++ '}' :: s)) = none := by
    intro depth g s hg
    rw [hg.skip_char '}' s (by decide)]
    exact entry_none depth s
  induction h generalizing depth g s with
  | nil => exact ⟨[], .done (hend hg), .nil⟩
  | @property p ps ts g' t rest hg' hp _ ih =>
    obtain ⟨qs, hqs, hpairs⟩ := ih depth
      (by simp only [List.length_append] at hdepth; omega) hg s
    obtain ⟨q, hq, hrule, hdec⟩ := property_read hp (rest ++ (g ++ '}' :: s))
    have hround : entry (node depth) (skip (g' ++ t ++ rest ++ (g ++ '}' :: s))) =
        some ([q], rest ++ (g ++ '}' :: s)) := by
      rw [List.append_assoc, List.append_assoc, skip_gap hg' (hp.solid _)]
      exact alt_left hq
    refine ⟨[q] ++ qs, .round hround ?_ hqs, .property hrule hdec hpairs⟩
    have hpos := hp.length_pos
    simp only [List.length_append]
    omega
  | @node ls name properties children ps ts head g' g₁ body g₂ g₃ rest hlabels hg' hname hg₁ _ hg₂
      hg₃ _ ihbody ih =>
    simp only [List.length_append, List.length_cons, List.length_nil] at hdepth
    obtain ⟨qs, hqs, hpairs⟩ := ih depth (by omega) hg s
    -- The node takes one level of the depth, and its braces are more than one character.
    obtain ⟨d, rfl⟩ : ∃ d, depth = d + 1 := ⟨depth - 1, by omega⟩
    obtain ⟨inner, hinner, hentries⟩ := ihbody d (by omega) hg₂
      (g₃ ++ ';' :: (rest ++ (g ++ '}' :: s)))
    have htext : head ++ g' ++ name.toList ++ g₁ ++ ['{'] ++ body ++ g₂ ++ ['}'] ++ g₃ ++ [';'] ++
        rest ++ (g ++ '}' :: s) = head ++ (g' ++ (name.toList ++ (g₁ ++ '{' ::
          (body ++ (g₂ ++ '}' :: (g₃ ++ ';' :: (rest ++ (g ++ '}' :: s)))))))) := by simp
    have hstop : ∀ r, Stops isNodenameChar (g₁ ++ '{' :: r) :=
      fun r => hg₁.stops_nodename fun _ => rfl
    have hhead := nodePath_read name.toList hlabels hg' (hname.solid _)
      (label_colon_none hname.2 ((hstop _).mono fun _ => nodenameChar_of_labelChar)
        (hg₁.skip_char '{' _ (by decide)) (by decide))
      (nodename_alt_read hname (hstop
        (body ++ (g₂ ++ '}' :: (g₃ ++ ';' :: (rest ++ (g ++ '}' :: s)))))))
    obtain ⟨text, hnode⟩ := node_read hg₁ hg₂ hg₃ hhead hinner
    have hround : entry (node (d + 1)) (skip (head ++ g' ++ name.toList ++ g₁ ++ ['{'] ++ body ++
        g₂ ++ ['}'] ++ g₃ ++ [';'] ++ rest ++ (g ++ '}' :: s))) =
        some ([.mk .node text ((ls.map labelPair ++ [.mk .nodename name.toList []]) ++ inner)],
          rest ++ (g ++ '}' :: s)) := by
      rw [htext, entry, alt_right (property_none_of_head hlabels hg' hname hg₁)]
      exact hnode
    refine ⟨[_] ++ qs, .round hround ?_ hqs, .node ?_ hpairs⟩
    · simp only [List.length_append, List.length_cons]
      omega
    · rw [List.append_assoc]
      exact builds_node hname hentries text

/-! ## Files -/

/-- The name of the root does not begin a comment. -/
theorem solid_slash {g : List Char} (hg : Gap g) (s : List Char) :
    Solid (['/'] ++ (g ++ '{' :: s)) := by
  refine ⟨rfl, fun hstar => ?_⟩
  obtain ⟨r, hr⟩ : ['*'] <+: g ++ '{' :: s := hstar.2
  have hstop : Stops (fun c => c = '*') (g ++ '{' :: s) := by
    refine hg.stops (fun c hc => ?_) rfl fun _ => rfl
    rcases whitespace_cases hc with rfl | rfl | rfl | rfl <;> decide
  rw [← hr] at hstop
  cases hstop

/-- The root, which has no name in the text. -/
theorem walkNode_root (ls : List String) {ps : List Property} {ts : List Tree}
    {qs : List (Pair Rule)} (h : EntryPairs ps ts qs) {ords : OrdMap}
    (hords : ords.DefinedOn (Tree.routes [] (.mk ls "/" ps ts))) (text : List Char) (b : Builder) :
    ∃ n b', walkNode ords "" [] (.mk .node text (ls.map labelPair ++ qs)) b = .ok (n, b') ∧
      n.tree = .mk ls "/" ps ts := by
  obtain ⟨ord, hord⟩ := hords [] List.mem_cons_self
  have hindex : ords.index "/" = .ok ord := by
    have hroot : joinPath [] = "/" := rfl
    rw [hroot] at hord
    rw [OrdMap.index, hord]
  obtain ⟨cs, b₁, hwalk, htrees⟩ := walkInner_entries h ords
    ⟨⟨"", [], some ⟨"/", "/", ord⟩⟩, ls, [], []⟩ rfl rfl (List.forall_mem_nil _)
    (fun r hr => hords r (List.mem_cons_of_mem _ hr)) b
  obtain ⟨n, b', hfinish, htree⟩ := finish_tree
    ⟨⟨"", [], some ⟨"/", "/", ord⟩⟩, ls, [] ++ ps, [] ++ cs⟩ rfl b₁
  refine ⟨n, b', ?_, ?_⟩
  · rw [walkNode, LazyName.new, if_pos rfl, hindex]
    show (walkInner ords _ ⟨⟨"", [], some ⟨"/", "/", ord⟩⟩, [], [], []⟩ b >>= _) = _
    rw [walkInner_labels, List.nil_append, hwalk]
    exact hfinish
  · rw [htree, List.nil_append, List.nil_append, htrees]

/-- Parsing undoes writing: for every tree, every text for it and every `OrdMap` with its paths,
`parse` returns the tree. The text has at most as many levels as characters. -/
theorem parse_render {t : Tree} {text : List Char} {ords : OrdMap} {depth : Nat}
    (h : FileText t text) (hords : ords.DefinedOn (t.routes [])) (hdepth : text.length ≤ depth) :
    ∃ dt, parse depth text ords = .ok dt ∧ dt.root.tree = t := by
  cases h with
  | @mk ls ps ts g₀ g₁ head g₂ g₃ body g₄ g₅ g₆ hg₀ hg₁ hlabels hg₂ hg₃ hbody hg₄ hg₅ hg₆ =>
    simp only [List.length_append, List.length_cons, List.length_nil] at hdepth
    obtain ⟨d, rfl⟩ : ∃ d, depth = d + 1 := ⟨depth - 1, by omega⟩
    obtain ⟨inner, hinner, hentries⟩ := entries_read hbody d (by omega) hg₄
      (g₅ ++ ';' :: g₆)
    -- From the inside to the outside: the root node, the header and the gap before it.
    have hslash := solid_slash hg₃ (body ++ (g₄ ++ '}' :: (g₅ ++ ';' :: g₆)))
    have hhead := nodePath_read ['/'] (x := []) hlabels hg₂ hslash
      (seq_none_left (label_none rfl)) (alt_left (lit_char '/' _))
    rw [List.append_nil] at hhead
    obtain ⟨ntext, hnode⟩ := node_read hg₃ hg₄ hg₅ hhead hinner
    have hend : eoi (R := Rule) .eoi (skip g₆) = some ([.mk .eoi [] []], []) := by
      have hskip := skip_gap hg₆ (s := []) trivial
      rw [List.append_nil] at hskip
      rw [hskip]
      rfl
    have hfile : file (d + 1) (g₀ ++ ['/', 'd', 't', 's', '-', 'v', '1', '/'] ++ g₁ ++ [';'] ++
        head ++ g₂ ++ ['/'] ++ g₃ ++ ['{'] ++ body ++ g₄ ++ ['}'] ++ g₅ ++ [';'] ++ g₆) =
        some (([] ++ []) ++ ([.mk .node ntext (ls.map labelPair ++ inner)] ++ [.mk .eoi [] []]),
          []) := by
      have htext : g₀ ++ ['/', 'd', 't', 's', '-', 'v', '1', '/'] ++ g₁ ++ [';'] ++ head ++ g₂ ++
          ['/'] ++ g₃ ++ ['{'] ++ body ++ g₄ ++ ['}'] ++ g₅ ++ [';'] ++ g₆ =
          g₀ ++ (['/', 'd', 't', 's', '-', 'v', '1', '/'] ++ (g₁ ++ ';' :: (head ++ (g₂ ++
            (['/'] ++ (g₃ ++ '{' :: (body ++ (g₄ ++ '}' :: (g₅ ++ ';' :: g₆))))))))) := by
        simp
      have hsolid : ∀ r, Solid (['/', 'd', 't', 's', '-', 'v', '1', '/'] ++ r) := by
        intro r
        refine ⟨rfl, fun hstar => ?_⟩
        obtain ⟨r', hr'⟩ := hstar.2
        cases hr'
      rw [file, htext, skip_gap hg₀ (hsolid _)]
      refine seq_some (seq_some (lit_append _ _) ?_) (seq_some hnode hend)
      rw [hg₁.skip_char ';' _ (by decide)]
      exact lit_char ';' _
    obtain ⟨n, b, hwalk, htree⟩ := walkNode_root ls hentries hords ntext ⟨[], 0⟩
    refine ⟨⟨n, b.labels⟩, ?_, htree⟩
    rw [parse, hfile]
    simp only [List.nil_append, List.singleton_append, walk, Pair.rule, if_pos, hwalk]
    rfl

theorem parse_render_small :
    ∃ dt, parse 80 ("/dts-v1/; / \x7b f; p = <0x1F &l>, [0a 1B]; " ++
        "/* c */ l: n@1 \x7b s = \"/*\"; \x7d; \x7d;").toList (fun _ => some 0) = .ok dt ∧
      dt.root.tree = .mk [] "/"
        [⟨"f", []⟩, ⟨"p", [.words [.number 31, .phandle (Phandle.new "l")], .bytes [10, 27]]⟩]
        [.mk ["l"] "n@1" [⟨"s", [.string "/*"]⟩] []] := by
  have hspace : Gap [' '] := .space rfl .nil
  have hcomment : Gap (' ' :: (['/', '*'] ++ [' ', 'c', ' '] ++ ['*', '/'] ++ [' '])) :=
    .space rfl (.comment (by decide) hspace)
  have hl : IsLabel "l" := ⟨'l', [], by decide +kernel, by decide, List.forall_mem_nil _⟩
  have hname : ∀ c, isNodenameChar c = true → IsName (String.ofList [c]) := by
    intro c hc
    refine ⟨fun he => ?_, ?_⟩
    · cases String.ofList_eq_empty_iff.mp he
    · rw [String.toList_ofList]
      exact List.forall_mem_singleton.mpr hc
  have hcells : ValueText (.words [.number 31, .phandle (Phandle.new "l")]) _ :=
    .cells .nil (.hex (x := 'x') (t := ['1', 'F']) (Or.inl rfl) (by decide)
      (List.all_eq_true.mp (by decide)) (by decide)) (.cons hspace (by decide) (.phandle hl) .nil) .nil
  have hbytes : ValueText (.bytes [10, 27]) _ :=
    .octets .nil (.mk (c := '0') (d := 'a') rfl rfl rfl)
      (.cons hspace (by decide) (.mk (c := '1') (d := 'B') rfl rfl rfl) .nil) .nil
  have hstring : ValueText (.string "/*") _ :=
    .string (List.all_eq_true.mp (by decide +kernel))
  have hchild : EntriesText [⟨"s", [.string "/*"]⟩] [] _ :=
    .property hspace (.values (hname 's' rfl) hspace hspace hstring .nil .nil) .nil
  have hbody : EntriesText
      [⟨"f", []⟩, ⟨"p", [.words [.number 31, .phandle (Phandle.new "l")], .bytes [10, 27]]⟩]
      [.mk ["l"] "n@1" [⟨"s", [.string "/*"]⟩] []] _ :=
    .property hspace (.flag (hname 'f' rfl) .nil)
      (.property hspace (.values (hname 'p' rfl) hspace hspace hcells
        (.cons .nil hspace hbytes .nil) .nil)
        (.node (.cons hcomment hl .nil .nil) hspace ⟨by decide, List.all_eq_true.mp (by decide +kernel)⟩
          hspace hchild hspace .nil .nil))
  refine parse_render ?_ (fun route _ => ⟨0, rfl⟩) (by decide +kernel)
  have hfile := FileText.mk .nil .nil .nil hspace hspace hbody hspace .nil .nil
  convert hfile using 1
  decide +kernel

end ZephyrRust.Devicetree
