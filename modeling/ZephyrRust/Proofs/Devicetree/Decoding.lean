import ZephyrRust.Proofs.Devicetree.RoundTrip
import ZephyrRust.Proofs.Devicetree.Shape

/-!
# `ZephyrRust.Proofs.Devicetree.Decoding`: which accepted texts are decoded

The grammar bounds neither a number nor the length of a byte token, and `/` can stand for the name
of any node. The decoder wants 32 bits for a number and 8 for a token, and it knows `/` for the root
only.

`Fine` is what the decoder wants of one node of the parse tree, and `Has p q` says that `q` is in
`p`. For each rule, the decoder returns exactly when all nodes inside are fine:
`decodeProperty_ok_iff` for a property, and `walkNode_ok_iff` for a node, by induction over the
levels of the tree.
-/

set_option autoImplicit false

namespace ZephyrRust.Devicetree

open ZephyrRust.Lib.Peg (Pair)
open ZephyrRust.Lib.Fallible
open Grammar

/-! ## Numbers -/

/-- `from_str_radix` on digits: it returns the number exactly when it is in range. -/
theorem fromStrRadix_eq_ok {radix size n : Nat} {t : List Char} (hradix : 0 < radix)
    (hsize : 0 < size) (hne : t ≠ []) (ht : ∀ c ∈ t, toDigit radix c = some (digitValue c)) :
    fromStrRadix radix size t = .ok n ↔ numeral radix t < size ∧ n = numeral radix t := by
  -- The checks of the loop are on the numbers read so far, and the last of them is the result.
  have hdigits : ∀ acc, acc < size → ∀ n, digitsFrom radix size acc t = some n →
      n = t.foldl (fun acc c => acc * radix + digitValue c) acc ∧ n < size := by
    clear hne
    induction t with
    | nil =>
      intro acc hacc n hn
      cases hn
      exact ⟨rfl, hacc⟩
    | cons c t ih =>
      intro acc _ n hn
      rw [digitsFrom, ht c List.mem_cons_self] at hn
      simp only at hn
      split at hn
      · rename_i hlt
        exact ih (fun d hd => ht d (List.mem_cons_of_mem c hd)) _ hlt n hn
      · cases hn
  constructor
  · intro h
    rw [fromStrRadix, if_neg hne] at h
    split at h
    · rename_i n' hn
      cases h
      obtain ⟨heq, hlt⟩ := hdigits 0 hsize n hn
      exact ⟨by rw [numeral, ← heq]; exact hlt, heq⟩
    · cases h
  · rintro ⟨hlt, heq⟩
    rw [heq]
    exact fromStrRadix_numeral hradix hne ht hlt

/-- The number of a `decimal_number` or a `hex_number`. -/
def numberValue (p : Pair Rule) : Option Nat :=
  match p.rule with
  | .decimalNumber => some (numeral 10 p.text)
  | .hexNumber => some (numeral 16 (p.text.drop 2))
  | _ => none

/-- The cell that a token stands for. -/
def cellValue (p : Pair Rule) : Word :=
  match numberValue p with
  | some n => .number (UInt32.ofNat n)
  | none => .phandle (Phandle.new (String.ofList (p.text.drop 1)))

/-- A cell is decoded exactly when its number has 32 bits. -/
theorem decodeWord_eq_ok {p : Pair Rule} (h : CellPair p) (w : Word) :
    decodeWord p = .ok w ↔ (∀ n, numberValue p = some n → n < UInt32.size) ∧ w = cellValue p := by
  have hnumber : ∀ {radix : Nat} {t : List Char}, 0 < radix → t ≠ [] →
      (∀ c ∈ t, toDigit radix c = some (digitValue c)) →
      ((fromStrRadix radix UInt32.size t).map (fun n => Word.number (UInt32.ofNat n)) = .ok w ↔
        numeral radix t < UInt32.size ∧ w = .number (UInt32.ofNat (numeral radix t))) := by
    intro radix t hradix hne ht
    rw [map_eq_ok]
    constructor
    · intro ⟨n, hn, hw⟩
      obtain ⟨hlt, rfl⟩ := (fromStrRadix_eq_ok hradix (by decide) hne ht).mp hn
      exact ⟨hlt, hw.symm⟩
    · intro ⟨hlt, hw⟩
      exact ⟨_, (fromStrRadix_eq_ok hradix (by decide) hne ht).mpr ⟨hlt, rfl⟩, hw.symm⟩
  cases h with
  | @decimal t hne ht =>
    refine (hnumber (by decide) hne fun c hc => toDigit_digit (ht c hc)).trans ?_
    simp [numberValue, cellValue, Pair.rule, Pair.text]
  | @hex x t hx hne ht =>
    refine (hnumber (by decide) hne fun c hc => toDigit_hexDigit (ht c hc)).trans ?_
    simp [numberValue, cellValue, Pair.rule, Pair.text]
  | phandle h =>
    obtain ⟨l, -, rfl⟩ := h
    simp [decodeWord, numberValue, cellValue, Pair.rule, Pair.text, eq_comm]

/-- A byte token is decoded exactly when its number has 8 bits. -/
theorem decodeByte_eq_ok {p : Pair Rule} (h : BytePair p) (b : UInt8) :
    decodeByte p = .ok b ↔
      numeral 16 p.text < UInt8.size ∧ b = UInt8.ofNat (numeral 16 p.text) := by
  obtain ⟨t, hne, ht, rfl⟩ := h
  have hdigits : ∀ c ∈ t, toDigit 16 c = some (digitValue c) := fun c hc =>
    toDigit_hexDigit (ht c hc)
  show (fromStrRadix 16 UInt8.size t).map UInt8.ofNat = .ok b ↔ _
  rw [map_eq_ok]
  constructor
  · intro ⟨n, hn, hb⟩
    obtain ⟨hlt, rfl⟩ := (fromStrRadix_eq_ok (by decide) (by decide) hne hdigits).mp hn
    exact ⟨hlt, hb.symm⟩
  · intro ⟨hlt, hb⟩
    exact ⟨_, (fromStrRadix_eq_ok (by decide) (by decide) hne hdigits).mpr ⟨hlt, rfl⟩, hb.symm⟩

/-! ## Everywhere in the parse tree -/

/-- `q` is `p` or inside it. -/
inductive Has : Pair Rule → Pair Rule → Prop
  | self (p : Pair Rule) : Has p p
  | inner {p c q : Pair Rule} (hc : c ∈ p.inner) (h : Has c q) : Has p q

/-- What holds everywhere in a node holds of the node and everywhere in the nodes inside. -/
theorem forall_has_iff {F : Pair Rule → Prop} {p : Pair Rule} :
    (∀ q, Has p q → F q) ↔ F p ∧ ∀ c ∈ p.inner, ∀ q, Has c q → F q := by
  constructor
  · intro h
    exact ⟨h p (.self p), fun c hc q hq => h q (.inner hc hq)⟩
  · intro ⟨hp, hinner⟩ q hq
    cases hq with
    | self => exact hp
    | inner hc hq => exact hinner _ hc q hq

/-- A token has nothing inside. -/
theorem forall_has_token {F : Pair Rule → Prop} {r : Rule} {t : List Char} :
    (∀ q, Has (.mk r t []) q → F q) ↔ F (.mk r t []) := by
  rw [forall_has_iff]
  exact and_iff_left fun c hc => by cases hc

/-- What the decoder wants of a node of the parse tree: a node has a name, a number has 32 bits, and
all tokens of a byte string have 8. -/
structure Fine (p : Pair Rule) : Prop where
  name : p.rule = .node → ∃ c ∈ p.inner, c.rule = .nodename
  number : ∀ n, numberValue p = some n → n < UInt32.size
  octets : p.rule = .bytes → ∀ b ∈ p.inner, numeral 16 b.text < UInt8.size

/-- A node of another rule is fine when its number is. -/
theorem fine_iff_number {r : Rule} {t : List Char} {inner : List (Pair Rule)} (hnode : r ≠ .node)
    (hbytes : r ≠ .bytes) :
    Fine (.mk r t inner) ↔ ∀ n, numberValue (.mk r t inner) = some n → n < UInt32.size := by
  constructor
  · intro h
    exact h.number
  · intro h
    exact ⟨fun he => absurd he hnode, h, fun he => absurd he hbytes⟩

/-- The rules whose nodes are always fine. -/
theorem fine_of_rule {r : Rule} {t : List Char} {inner : List (Pair Rule)}
    (hr : r ∉ [Rule.node, .bytes, .decimalNumber, .hexNumber]) : Fine (.mk r t inner) := by
  simp only [List.mem_cons, List.not_mem_nil, or_false, not_or] at hr
  obtain ⟨hnode, hbytes, hdecimal, hhex⟩ := hr
  rw [fine_iff_number hnode hbytes]
  intro n hn
  unfold numberValue at hn
  split at hn
  · rename_i he
    exact absurd he hdecimal
  · rename_i he
    exact absurd he hhex
  · cases hn

/-- What the decoder wants of a cell. -/
theorem fine_cell {p : Pair Rule} (h : CellPair p) :
    (∀ q, Has p q → Fine q) ↔ ∀ n, numberValue p = some n → n < UInt32.size := by
  cases h with
  | decimal hne ht =>
    rw [forall_has_token]
    exact fine_iff_number (by decide) (by decide)
  | hex hx hne ht =>
    rw [forall_has_token]
    exact fine_iff_number (by decide) (by decide)
  | phandle h =>
    obtain ⟨l, -, rfl⟩ := h
    rw [forall_has_token]
    exact fine_iff_number (by decide) (by decide)

theorem fine_name {p : Pair Rule} (h : NamePair p) : ∀ q, Has p q → Fine q := by
  obtain ⟨name, -, rfl⟩ := h
  rw [forall_has_token]
  exact fine_of_rule (by decide)

theorem fine_label {p : Pair Rule} (h : LabelPair p) : ∀ q, Has p q → Fine q := by
  obtain ⟨l, -, rfl⟩ := h
  rw [forall_has_token]
  exact fine_of_rule (by decide)

theorem fine_byte {p : Pair Rule} (h : BytePair p) : ∀ q, Has p q → Fine q := by
  obtain ⟨t, -, -, rfl⟩ := h
  rw [forall_has_token]
  exact fine_of_rule (by decide)

/-! ## Values and properties -/

/-- `decode_words` returns exactly when all cells are fine. -/
theorem decodeWords_ok_iff {t : List Char} {cells : List (Pair Rule)}
    (h : ∀ c ∈ cells, CellPair c) :
    (∃ ws, decodeWords (.mk .words t cells) = .ok ws) ↔
      ∀ q, Has (.mk .words t cells) q → Fine q := by
  have hloop : ∀ ws, cells.mapM decodeWord = .ok ws ↔ _ :=
    computes_mapM fun c hc => decodeWord_eq_ok (h c hc)
  rw [forall_has_iff]
  constructor
  · intro ⟨ws, hws⟩
    refine ⟨fine_of_rule (by decide), fun c hc => ?_⟩
    rw [fine_cell (h c hc)]
    exact ((hloop ws).mp hws).1 c hc
  · intro ⟨_, hcells⟩
    exact ⟨_, (hloop _).mpr ⟨fun c hc => (fine_cell (h c hc)).mp (hcells c hc), rfl⟩⟩

/-- `decode_bytes` returns the numbers of the tokens, when all of them have 8 bits. -/
theorem decodeBytes_eq_ok {t : List Char} {tokens : List (Pair Rule)}
    (h : ∀ b ∈ tokens, BytePair b) (bs : List UInt8) :
    decodeBytes (.mk .bytes t tokens) = .ok bs ↔
      (∀ b ∈ tokens, numeral 16 b.text < UInt8.size) ∧
        bs = tokens.map fun b => UInt8.ofNat (numeral 16 b.text) :=
  computes_mapM (fun b hb => decodeByte_eq_ok (h b hb)) bs

theorem decodeBytes_ok_iff {t : List Char} {tokens : List (Pair Rule)}
    (h : ∀ b ∈ tokens, BytePair b) :
    (∃ bs, decodeBytes (.mk .bytes t tokens) = .ok bs) ↔
      ∀ q, Has (.mk .bytes t tokens) q → Fine q := by
  rw [forall_has_iff]
  constructor
  · intro ⟨bs, hbs⟩
    have hsmall := ((decodeBytes_eq_ok h bs).mp hbs).1
    refine ⟨⟨fun he => ?_, fun n hn => ?_, fun _ => hsmall⟩, fun b hb => fine_byte (h b hb)⟩
    · cases he
    · cases hn
  · intro ⟨hfine, _⟩
    exact ⟨_, (decodeBytes_eq_ok h _).mpr ⟨hfine.octets rfl, rfl⟩⟩

/-- The loop of `decode_property` over the values returns exactly when they are fine. -/
theorem decodePropertyLoop_ok_iff {name : String} {value : List Value} {values : List (Pair Rule)}
    (h : ∀ v ∈ values, ValuePair v) :
    (∃ p, decodePropertyLoop (some name) value values = .ok p) ↔
      ∀ v ∈ values, ∀ q, Has v q → Fine q := by
  induction values generalizing value with
  | nil =>
    constructor
    · intro _ v hv
      cases hv
    · intro _
      exact ⟨_, rfl⟩
  | cons v values ih =>
    have hvalues : ∀ u ∈ values, ValuePair u := fun u hu => h u (List.mem_cons_of_mem v hu)
    have hrest : ∀ value, (∃ p, decodePropertyLoop (some name) value values = .ok p) ↔ _ :=
      fun value => ih hvalues
    rw [List.forall_mem_cons]
    -- A value that is decoded in any case.
    have hplain : ∀ {r : Rule} {t : List Char} (u : Value), v = .mk r t [] →
        r ∉ [Rule.node, .bytes, .decimalNumber, .hexNumber] →
        decodePropertyLoop (some name) value (v :: values) =
          decodePropertyLoop (some name) (value ++ [u]) values →
        ((∃ p, decodePropertyLoop (some name) value (v :: values) = .ok p) ↔
          (∀ q, Has v q → Fine q) ∧ ∀ v ∈ values, ∀ q, Has v q → Fine q) := by
      intro r t u hv hr hstep
      rw [hstep, hrest, hv, forall_has_token]
      exact (and_iff_right (fine_of_rule hr)).symm
    cases h v List.mem_cons_self with
    | @string body =>
      exact hplain (.string (String.ofList body)) rfl (by decide) (by
        simp [decodePropertyLoop, Pair.rule, Pair.text])
    | phandle hp =>
      obtain ⟨l, -, rfl⟩ := hp
      exact hplain (.phandle (Phandle.new l)) rfl (by decide) (by
        simp [decodePropertyLoop, Pair.rule, Pair.text])
    | words hcells =>
      rw [← decodeWords_ok_iff hcells]
      constructor
      · rintro ⟨p, hp⟩
        obtain ⟨ws, hws, hp⟩ := bind_eq_ok.mp hp
        exact ⟨⟨ws, hws⟩, (hrest _).mp ⟨p, hp⟩⟩
      · rintro ⟨⟨ws, hws⟩, hvalues⟩
        obtain ⟨p, hp⟩ := (hrest (value ++ [.words ws])).mpr hvalues
        exact ⟨p, bind_eq_ok.mpr ⟨ws, hws, hp⟩⟩
    | bytes htokens =>
      rw [← decodeBytes_ok_iff htokens]
      constructor
      · rintro ⟨p, hp⟩
        obtain ⟨bs, hbs, hp⟩ := bind_eq_ok.mp hp
        exact ⟨⟨bs, hbs⟩, (hrest _).mp ⟨p, hp⟩⟩
      · rintro ⟨⟨bs, hbs⟩, hvalues⟩
        obtain ⟨p, hp⟩ := (hrest (value ++ [.bytes bs])).mpr hvalues
        exact ⟨p, bind_eq_ok.mpr ⟨bs, hbs, hp⟩⟩

/-- A property is decoded exactly when everything in it is fine. -/
theorem decodeProperty_ok_iff {p : Pair Rule} (h : PropertyPair p) :
    (∃ property, decodeProperty p = .ok property) ↔ ∀ q, Has p q → Fine q := by
  obtain ⟨t, name, values, hname, hvalues, rfl⟩ := h
  have hfine := fine_name hname
  obtain ⟨n, -, rfl⟩ := hname
  show (∃ property, decodePropertyLoop (some (String.ofList n.toList)) [] values = .ok property) ↔ _
  rw [decodePropertyLoop_ok_iff hvalues, forall_has_iff]
  show _ ↔ _ ∧ ∀ c ∈ _ :: values, _
  rw [List.forall_mem_cons]
  constructor
  · intro hall
    exact ⟨fine_of_rule (by decide), hfine, hall⟩
  · intro ⟨_, _, hall⟩
    exact hall

/-! ## Nodes -/

/-- The path of a child, as `LazyName::set` makes it. -/
def childPath (path name : String) : String :=
  if 1 < path.length then path ++ "/" ++ name else path ++ name

theorem childPath_ne {path : String} (h : path ≠ "") (name : String) :
    childPath path name ≠ "" := by
  unfold childPath
  split <;> simp [h]

/-- `s` is the path of the node `p`, which is below `path`. The root is below the empty path. -/
inductive OwnPath : String → Pair Rule → String → Prop
  | root {p : Pair Rule} : OwnPath "" p "/"
  | child {path : String} {p q : Pair Rule} (hpath : path ≠ "") (hq : q ∈ p.inner)
      (hrule : q.rule = .nodename) : OwnPath path p (childPath path (String.ofList q.text))

/-- `s` is the path of a node of `p`, and `p` is below `path`. -/
inductive PathIn : String → Pair Rule → String → Prop
  | self {path : String} {p : Pair Rule} {s : String} (h : OwnPath path p s) : PathIn path p s
  | inside {path : String} {p c : Pair Rule} {s t : String} (h : OwnPath path p s)
      (hc : c ∈ p.inner) (hrule : c.rule = .node) (ht : PathIn s c t) : PathIn path p t

/-- The map has an entry for the path of every node. -/
def Complete (ords : OrdMap) (path : String) (p : Pair Rule) : Prop :=
  ∀ s, PathIn path p s → ∃ ord, ords s = some ord

variable {ords : OrdMap}

theorem Complete.of_inner {path s : String} {p c : Pair Rule} (h : Complete ords path p)
    (hs : OwnPath path p s) (hc : c ∈ p.inner) (hrule : c.rule = .node) : Complete ords s c :=
  fun t ht => h t (.inside hs hc hrule ht)

theorem OrdMap.index_of_some {path : String} {ord : Nat} (h : ords path = some ord) :
    ords.index path = .ok ord := by
  rw [OrdMap.index, h]

/-- The labels come first, and they are only collected. -/
theorem walkInner_labelPairs {labels : List (Pair Rule)} (h : ∀ l ∈ labels, LabelPair l)
    (ps : List (Pair Rule)) (parts : Parts) (b : Builder) :
    ∃ ls, walkInner ords (labels ++ ps) parts b =
      walkInner ords ps { parts with labels := ls } b := by
  have hlabels : ∃ ls : List String, labels = ls.map labelPair := by
    induction labels with
    | nil => exact ⟨[], rfl⟩
    | cons p labels ih =>
      obtain ⟨⟨l, -, hp⟩, hrest⟩ := List.forall_mem_cons.mp h
      obtain ⟨ls, hls⟩ := ih hrest
      exact ⟨l :: ls, by rw [hp, hls]; rfl⟩
  obtain ⟨ls, rfl⟩ := hlabels
  exact ⟨parts.labels ++ ls, walkInner_labels ords ls ps parts b⟩

/-- Without a name in the parse tree, nothing is learned about the name. -/
theorem walkInner_name {ps : List (Pair Rule)} {parts parts' : Parts} {b b' : Builder}
    (hps : ∀ p ∈ ps, p.rule ≠ .nodename) (h : walkInner ords ps parts b = .ok (parts', b')) :
    parts'.name = parts.name := by
  induction ps generalizing parts b with
  | nil =>
    cases h
    rfl
  | cons p ps ih =>
    have hrest := fun q hq => hps q (List.mem_cons_of_mem p hq)
    rw [walkInner] at h
    split at h
    · rename_i hrule
      exact absurd hrule (hps p List.mem_cons_self)
    · have hkeep := ih hrest h
      exact hkeep
    · obtain ⟨property, -, h⟩ := bind_eq_ok.mp h
      have hkeep := ih hrest h
      exact hkeep
    · obtain ⟨info, -, h⟩ := bind_eq_ok.mp h
      obtain ⟨⟨child, b₁⟩, -, h⟩ := bind_eq_ok.mp h
      have hkeep := ih hrest h
      exact hkeep
    · cases h

/-- The entries of a node whose name is known are walked over exactly when they are fine. -/
theorem walkInner_ok_iff {entries : List (Pair Rule)} {parts : Parts} {info : Info} {b : Builder}
    (hinfo : parts.name.info = some info)
    (h : ∀ e ∈ entries, PropertyPair e ∨ e.rule = .node ∧ ∀ b,
      (∃ x, walkNode ords info.path parts.name.route e b = .ok x) ↔ ∀ q, Has e q → Fine q) :
    (∃ x, walkInner ords entries parts b = .ok x) ↔ ∀ e ∈ entries, ∀ q, Has e q → Fine q := by
  induction entries generalizing parts b with
  | nil =>
    constructor
    · intro _ e he
      cases he
    · intro _
      exact ⟨_, rfl⟩
  | cons e entries ih =>
    have hentries := fun e' he' => h e' (List.mem_cons_of_mem e he')
    have hknown : parts.name.known = .ok info := by
      rw [LazyName.known, hinfo]
    rw [List.forall_mem_cons]
    cases h e List.mem_cons_self with
    | inl hproperty =>
      rw [← decodeProperty_ok_iff hproperty]
      obtain ⟨t, name, values, -, -, rfl⟩ := hproperty
      constructor
      · rintro ⟨x, hx⟩
        rw [walkInner] at hx
        obtain ⟨property, hp, hx⟩ := bind_eq_ok.mp hx
        exact ⟨⟨property, hp⟩, (@ih { parts with properties := parts.properties ++ [property] } b
          hinfo hentries).mp ⟨x, hx⟩⟩
      · rintro ⟨⟨property, hp⟩, hrest⟩
        obtain ⟨x, hx⟩ := (@ih { parts with properties := parts.properties ++ [property] } b
          hinfo hentries).mpr hrest
        exact ⟨x, bind_eq_ok.mpr ⟨property, hp, hx⟩⟩
    | inr hnode =>
      -- The labels of the child go into the builder, so the rest starts from another one.
      obtain ⟨hrule, hwalk⟩ := hnode
      rw [← hwalk b, walkInner, hrule]
      simp only
      constructor
      · rintro ⟨x, hx⟩
        obtain ⟨info', hinfo', hrest⟩ := bind_eq_ok.mp hx
        rw [hknown] at hinfo'
        cases hinfo'
        obtain ⟨⟨child, b'⟩, hchild, hx⟩ := bind_eq_ok.mp hrest
        exact ⟨⟨_, hchild⟩, (@ih { parts with children := parts.children ++ [child] } b'
          hinfo hentries).mp ⟨x, hx⟩⟩
      · rintro ⟨⟨⟨child, b'⟩, hchild⟩, hrest⟩
        obtain ⟨x, hx⟩ := (@ih { parts with children := parts.children ++ [child] } b'
          hinfo hentries).mpr hrest
        exact ⟨x, bind_eq_ok.mpr ⟨info, hknown, bind_eq_ok.mpr ⟨_, hchild, hx⟩⟩⟩

/-- The end of `walk_node` returns when the name is known. -/
theorem finish_of_info {parts : Parts} {info : Info} (h : parts.name.info = some info)
    (b : Builder) : ∃ x, parts.finish b = .ok x := by
  have hknown : parts.name.known = .ok info := by
    rw [LazyName.known, h]
  exact ⟨_, bind_eq_ok.mpr ⟨info, hknown, rfl⟩⟩

theorem PropertyPair.rule_eq {p : Pair Rule} (h : PropertyPair p) : p.rule = .property := by
  obtain ⟨t, name, values, -, -, rfl⟩ := h
  rfl

theorem NodePair.rule_eq {depth : Nat} {p : Pair Rule} (h : NodePair depth p) : p.rule = .node := by
  cases depth with
  | zero => cases h
  | succ depth =>
    obtain ⟨t, labels, name, entries, -, -, -, rfl⟩ := h
    rfl

/-- An entry is no name. -/
theorem entry_rule_ne {depth : Nat} {e : Pair Rule} (h : PropertyPair e ∨ NodePair depth e) :
    e.rule ≠ .nodename := by
  intro he
  cases h with
  | inl hp =>
    rw [hp.rule_eq] at he
    cases he
  | inr hn =>
    rw [hn.rule_eq] at he
    cases he

theorem label_rule_ne {l : Pair Rule} (h : LabelPair l) : l.rule ≠ .nodename := by
  obtain ⟨text, -, rfl⟩ := h
  intro he
  cases he

/-- A node with a name is fine, and then everything in it is when its entries are. -/
theorem fine_node_iff {t : List Char} {labels name entries : List (Pair Rule)}
    (hlabels : ∀ l ∈ labels, LabelPair l) (hname : ∀ q ∈ name, NamePair q) (hne : name ≠ []) :
    (∀ q, Has (.mk .node t (labels ++ name ++ entries)) q → Fine q) ↔
      ∀ e ∈ entries, ∀ q, Has e q → Fine q := by
  rw [forall_has_iff]
  show _ ∧ (∀ c ∈ labels ++ name ++ entries, _) ↔ _
  constructor
  · intro ⟨_, hall⟩ e he
    exact hall e (List.mem_append_right _ he)
  · intro hall
    refine ⟨⟨fun _ => ?_, fun n hn => ?_, fun he => ?_⟩, fun c hc => ?_⟩
    · obtain ⟨q, hq⟩ := List.exists_mem_of_ne_nil name hne
      obtain ⟨text, -, hrule⟩ := hname q hq
      refine ⟨q, List.mem_append_left _ (List.mem_append_right _ hq), ?_⟩
      rw [hrule]
      rfl
    · cases hn
    · cases he
    · cases List.mem_append.mp hc with
      | inl hc =>
        cases List.mem_append.mp hc with
        | inl hl => exact fine_label (hlabels c hl)
        | inr hn => exact fine_name (hname c hn)
      | inr he => exact hall c he

/-- The name of a node whose path has an entry is taken, and the loop goes on. -/
theorem walkInner_nodename {path : String} {route ls : List String} {name : String} {ord : Nat}
    (hord : ords (childPath path name) = some ord) (ps : List (Pair Rule)) (b : Builder) :
    walkInner ords (.mk .nodename name.toList [] :: ps) ⟨⟨path, route, none⟩, ls, [], []⟩ b =
      walkInner ords ps
        ⟨⟨path, route ++ [name], some ⟨name, childPath path name, ord⟩⟩, ls, [], []⟩ b := by
  have hset : LazyName.set ords ⟨path, route, none⟩ name =
      .ok ⟨path, route ++ [name], some ⟨name, childPath path name, ord⟩⟩ := by
    show (OrdMap.index ords (childPath path name) >>= _) = _
    rw [OrdMap.index_of_some hord]
    rfl
  rw [walkInner]
  simp only [Pair.rule, Pair.text, String.ofList_toList]
  rw [hset]
  rfl

/-- The end of `walk_node`, from the entries on. -/
def walkRest (ords : OrdMap) (entries : List (Pair Rule)) (parts : Parts) (b : Builder) :
    Except Panic (Node × Builder) := do
  let (parts, b) ← walkInner ords entries parts b
  parts.finish b

/-- With a name, only the entries can fail. -/
theorem walkRest_ok_iff {entries : List (Pair Rule)} {parts : Parts} {info : Info} {b : Builder}
    (hinfo : parts.name.info = some info) (hname : ∀ e ∈ entries, e.rule ≠ .nodename)
    (h : ∀ e ∈ entries, PropertyPair e ∨ e.rule = .node ∧ ∀ b,
      (∃ x, walkNode ords info.path parts.name.route e b = .ok x) ↔ ∀ q, Has e q → Fine q) :
    (∃ x, walkRest ords entries parts b = .ok x) ↔ ∀ e ∈ entries, ∀ q, Has e q → Fine q := by
  rw [← walkInner_ok_iff (b := b) hinfo h]
  constructor
  · intro ⟨x, hx⟩
    obtain ⟨y, hy, -⟩ := bind_eq_ok.mp hx
    exact ⟨y, hy⟩
  · intro ⟨⟨parts', b'⟩, hy⟩
    have hinfo' : parts'.name.info = some info := by
      rw [walkInner_name hname hy, hinfo]
    obtain ⟨x, hx⟩ := finish_of_info hinfo' b'
    exact ⟨x, bind_eq_ok.mpr ⟨_, hy, hx⟩⟩

/-- Without a name, the node is not made. -/
theorem walkRest_unnamed {entries : List (Pair Rule)} {parts : Parts} {b : Builder}
    (hinfo : parts.name.info = none) (hname : ∀ e ∈ entries, e.rule ≠ .nodename) :
    ¬ ∃ x, walkRest ords entries parts b = .ok x := by
  intro ⟨x, hx⟩
  obtain ⟨⟨parts', b'⟩, hy, hfinish⟩ := bind_eq_ok.mp hx
  obtain ⟨info, hknown, -⟩ := bind_eq_ok.mp hfinish
  have hsome := LazyName.known_eq_ok hknown
  rw [walkInner_name hname hy, hinfo] at hsome
  cases hsome

/-- A node below the root is walked over exactly when everything in it is fine. -/
theorem walkNode_ok_iff {depth : Nat} {p : Pair Rule} {path : String} (h : NodePair depth p)
    (hpath : path ≠ "") (hords : Complete ords path p) (route : List String) (b : Builder) :
    (∃ x, walkNode ords path route p b = .ok x) ↔ ∀ q, Has p q → Fine q := by
  induction depth generalizing p path route b with
  | zero => cases h
  | succ depth ih =>
    obtain ⟨t, labels, name, entries, hlabels, hname, hentries, rfl⟩ := h
    have hno : ∀ e ∈ entries, e.rule ≠ .nodename := fun e he => entry_rule_ne (hentries e he)
    rw [walkNode, LazyName.new, if_neg hpath]
    show (∃ x, (walkInner ords (labels ++ name ++ entries)
      ⟨⟨path, route, none⟩, [], [], []⟩ b >>= _) = _) ↔ _
    obtain ⟨ls, hls⟩ := walkInner_labelPairs hlabels (name ++ entries)
      ⟨⟨path, route, none⟩, [], [], []⟩ b
    rw [List.append_assoc, hls]
    cases hname with
    | inl hnone =>
      -- The node is `/`, and it is not the root.
      subst hnone
      constructor
      · intro hx
        exact absurd hx (walkRest_unnamed rfl hno)
      · intro hfine
        obtain ⟨c, hc, hrule⟩ := (hfine _ (.self _)).name rfl
        cases List.mem_append.mp hc with
        | inl hl => exact absurd hrule (label_rule_ne (hlabels c hl))
        | inr he => exact absurd hrule (hno c he)
    | inr hsome =>
      -- The name makes the path of the node, and the map is asked for this path.
      obtain ⟨q, hq, rfl⟩ := hsome
      rw [← List.append_assoc, fine_node_iff hlabels (List.forall_mem_singleton.mpr hq)
        (List.cons_ne_nil q [])]
      obtain ⟨text, -, rfl⟩ := hq
      have hown : OwnPath path (.mk .node t (labels ++ [.mk .nodename text.toList []] ++ entries))
          (childPath path text) := by
        have hmem : Pair.mk .nodename text.toList [] ∈
            labels ++ [.mk Rule.nodename text.toList []] ++ entries :=
          List.mem_append_left _ (List.mem_append_right _ (List.mem_singleton_self _))
        have hchild := OwnPath.child hpath (p := .mk .node t _) hmem rfl
        rw [Pair.text, String.ofList_toList] at hchild
        exact hchild
      obtain ⟨ord, hord⟩ := hords _ (.self hown)
      rw [List.singleton_append, walkInner_nodename hord]
      refine walkRest_ok_iff rfl hno fun e he => ?_
      cases hentries e he with
      | inl hp => exact .inl hp
      | inr hn =>
        have hin : e ∈ labels ++ [.mk .nodename text.toList []] ++ entries :=
          List.mem_append_right _ he
        refine .inr ⟨hn.rule_eq, fun b => ih hn (childPath_ne hpath text) ?_ _ b⟩
        exact hords.of_inner hown hin hn.rule_eq

/-- The root is walked over exactly when it is `/` and everything inside is fine. -/
theorem walk_ok_iff {depth : Nat} {top eoi : Pair Rule} (h : NodePair depth top)
    (hords : Complete ords "" top) :
    (∃ dt, walk ords [top, eoi] = .ok dt) ↔
      (∀ c ∈ top.inner, c.rule ≠ .nodename) ∧ ∀ c ∈ top.inner, ∀ q, Has c q → Fine q := by
  have hwalk : (∃ dt, walk ords [top, eoi] = .ok dt) ↔
      ∃ x, walkNode ords "" [] top ⟨[], 0⟩ = .ok x := by
    rw [walk, if_pos h.rule_eq]
    constructor
    · rintro ⟨dt, hdt⟩
      obtain ⟨x, hx, -⟩ := bind_eq_ok.mp hdt
      exact ⟨x, hx⟩
    · rintro ⟨x, hx⟩
      exact ⟨_, bind_eq_ok.mpr ⟨x, hx, rfl⟩⟩
  rw [hwalk]
  cases depth with
  | zero => cases h
  | succ depth =>
    obtain ⟨t, labels, name, entries, hlabels, hname, hentries, rfl⟩ := h
    have hno : ∀ e ∈ entries, e.rule ≠ .nodename := fun e he => entry_rule_ne (hentries e he)
    obtain ⟨ord, hord⟩ := hords "/" (.self .root)
    rw [walkNode, LazyName.new, if_pos rfl, OrdMap.index_of_some hord]
    show (∃ x, (walkInner ords (labels ++ name ++ entries)
      ⟨⟨"", [], some ⟨"/", "/", ord⟩⟩, [], [], []⟩ ⟨[], 0⟩ >>= _) = _) ↔ _
    obtain ⟨ls, hls⟩ := walkInner_labelPairs hlabels (name ++ entries)
      ⟨⟨"", [], some ⟨"/", "/", ord⟩⟩, [], [], []⟩ ⟨[], 0⟩
    rw [List.append_assoc, hls]
    cases hname with
    | inl hnone =>
      -- There is no name in the parse tree, and the root has got its own.
      subst hnone
      show (∃ x, walkRest ords entries
          ⟨⟨"", [], some ⟨"/", "/", ord⟩⟩, ls, [], []⟩ ⟨[], 0⟩ = .ok x) ↔
        (∀ c ∈ labels ++ entries, _) ∧ ∀ c ∈ labels ++ entries, _
      have hslash : "/" ≠ "" := by decide
      have hnames : ∀ c ∈ labels ++ entries, c.rule ≠ .nodename := fun c hc =>
        (List.mem_append.mp hc).elim (fun hl => label_rule_ne (hlabels c hl)) (hno c)
      rw [and_iff_right hnames, List.forall_mem_append,
        and_iff_right fun l hl => fine_label (hlabels l hl)]
      refine walkRest_ok_iff rfl hno fun e he => ?_
      cases hentries e he with
      | inl hp => exact .inl hp
      | inr hn =>
        refine .inr ⟨hn.rule_eq, fun b => walkNode_ok_iff hn hslash ?_ _ b⟩
        exact hords.of_inner .root (List.mem_append_right _ he) hn.rule_eq
    | inr hsome =>
      -- The name is known already.
      obtain ⟨q, ⟨text, -, rfl⟩, rfl⟩ := hsome
      constructor
      · rintro ⟨x, hx⟩
        cases hx
      · rintro ⟨hnames, _⟩
        refine absurd rfl (hnames (.mk .nodename text.toList []) ?_)
        exact List.mem_append_right _ (List.mem_append_left _ (List.mem_singleton_self _))

end ZephyrRust.Devicetree
