import ZephyrRust.Proofs.Devicetree.Accepted
import ZephyrRust.Proofs.Devicetree.Output

/-!
# `ZephyrRust.Proofs.Devicetree.Identifiers`: which names become identifiers

`fix_id` replaces some of the characters that a name can have and an identifier cannot. `.` and `?`
stay as they are, and so does a digit at the start. `Clean` is what is left as a condition on the
name. `NameUse.ident_ok_iff` says that it is exact, for each of the ways in which the generator
makes an identifier from a name.

A tree is clean when its names are. Then the generator never stops at a name
(`toTokens_ne_ident`), and a tree for which it returns is clean (`clean_of_toTokens`). The labels
need no condition, because the rule `label` has identifiers only.
-/

set_option autoImplicit false

namespace ZephyrRust.Devicetree

open ZephyrRust.Lib.Peg (Pair plus_sat_eq_some)
open ZephyrRust.Lib.Fallible
open Grammar

/-! ## Characters -/

/-- The names are ASCII. -/
theorem lt_of_isNodenameChar {c : Char} (h : isNodenameChar c = true) : c.toNat < 128 := by
  by_contra hge
  -- Every character that the rule names is below 128.
  have hlarge : ∀ d : Char, d.toNat < 128 → c ≠ d ∧ ¬ c ≤ d := by
    intro d hd
    constructor
    · intro he
      rw [he] at hge
      exact hge hd
    · intro hle
      have hnat : c.toNat ≤ d.toNat := hle
      omega
  simp [isNodenameChar, isAlphanumeric, isAlpha, isDigit, hlarge] at h

/-- A fact about the characters of a name, checked for all of them. -/
theorem forall_nodenameChar {P : Char → Bool}
    (h : ∀ n : Fin 128, isNodenameChar (Char.ofNat n) = true → P (Char.ofNat n) = true) {c : Char}
    (hc : isNodenameChar c = true) : P c = true := by
  have hn := h ⟨c.toNat, lt_of_isNodenameChar hc⟩
  rw [Char.ofNat_toNat] at hn
  exact hn hc

/-- The characters that stay what they are, and that no identifier has. -/
def isDot (c : Char) : Bool := c = '.' || c = '?'

/-- The first character of an identifier. -/
def isIdentStart (c : Char) : Bool := isAlpha c || c = '_'

theorem fixChar_rest {c : Char} (hc : isNodenameChar c = true) :
    isLabelChar (fixChar c) = !isDot c := by
  refine eq_of_beq (forall_nodenameChar (P := fun c => isLabelChar (fixChar c) == !isDot c) ?_ hc)
  decide +kernel

theorem fixChar_start {c : Char} (hc : isNodenameChar c = true) :
    isIdentStart (fixChar c) = !(isDot c || isDigit c) := by
  refine eq_of_beq
    (forall_nodenameChar (P := fun c => isIdentStart (fixChar c) == !(isDot c || isDigit c)) ?_ hc)
  decide +kernel

theorem fixChar_toUpper_rest {c : Char} (hc : isNodenameChar c = true) :
    isLabelChar (fixChar c.toUpper) = !isDot c := by
  refine eq_of_beq
    (forall_nodenameChar (P := fun c => isLabelChar (fixChar c.toUpper) == !isDot c) ?_ hc)
  decide +kernel

theorem fixChar_toUpper_start {c : Char} (hc : isNodenameChar c = true) :
    isIdentStart (fixChar c.toUpper) = !(isDot c || isDigit c) := by
  refine eq_of_beq (forall_nodenameChar
    (P := fun c => isIdentStart (fixChar c.toUpper) == !(isDot c || isDigit c)) ?_ hc)
  decide +kernel

/-! ## Names -/

/-- The name has no `.` and no `?`, and it does not begin with a digit. -/
structure Clean (name : String) : Prop where
  dots : ∀ c ∈ name.toList, isDot c = false
  start : ∀ c ∈ name.toList.head?, isDigit c = false

/-- The texts that the rule `nodename` reads. -/
theorem isName_of_nodename {name : String} {x : List (Pair Rule)}
    (h : Grammar.nodename name.toList = some (x, [])) : IsName name := by
  obtain ⟨⟨y, hy⟩, -⟩ := Lib.Peg.atomic_eq_some h
  obtain ⟨t, hne, ht, he⟩ := plus_sat_eq_some hy
  rw [List.append_nil] at he
  refine ⟨fun hempty => hne ?_, fun c hc => ht c (he ▸ hc)⟩
  rw [← he, hempty]
  rfl

/-- A name whose characters go through `f`, with more characters of an identifier after it. -/
theorem isIdent_map_iff {f : Char → Char} {name : String} (hname : IsName name)
    (hrest : ∀ c, isNodenameChar c = true → isLabelChar (f c) = !isDot c)
    (hstart : ∀ c, isNodenameChar c = true → isIdentStart (f c) = !(isDot c || isDigit c))
    (more : List Char) (hmore : ∀ c ∈ more, isLabelChar c = true) :
    isIdent (String.ofList (name.toList.map f ++ more)) = true ↔ Clean name := by
  obtain ⟨hne, hchars⟩ := hname
  cases ht : name.toList with
  | nil => exact absurd (String.toList_eq_nil_iff.mp ht) hne
  | cons c t =>
    rw [ht] at hchars
    obtain ⟨hc, htail⟩ := List.forall_mem_cons.mp hchars
    have hhead : (isAlpha (f c) || decide (f c = '_')) = !(isDot c || isDigit c) := hstart c hc
    have hall : (t.map f ++ more).all isLabelChar = true ↔ ∀ d ∈ t, isDot d = false := by
      rw [List.all_append, Bool.and_eq_true, and_iff_left (List.all_eq_true.mpr hmore),
        List.all_map, List.all_eq_true]
      constructor
      · intro h d hd
        have hd' := h d hd
        rw [Function.comp_apply, hrest d (htail d hd), Bool.not_eq_true'] at hd'
        exact hd'
      · intro h d hd
        rw [Function.comp_apply, hrest d (htail d hd), h d hd]
        rfl
    -- The first character counts for both conditions, the others for the dots only.
    rw [isIdent, String.toList_ofList, List.map_cons, List.cons_append]
    simp only
    rw [hhead, Bool.and_eq_true, hall, Bool.not_eq_true', Bool.or_eq_false_iff]
    constructor
    · intro ⟨⟨hdot, hdigit⟩, hdots⟩
      refine ⟨?_, ?_⟩
      · rw [ht]
        exact List.forall_mem_cons.mpr ⟨hdot, hdots⟩
      · rw [ht]
        intro d hd
        cases hd
        exact hdigit
    · intro ⟨hdots, hdigit⟩
      rw [ht] at hdots hdigit
      obtain ⟨hdot, hrestdots⟩ := List.forall_mem_cons.mp hdots
      exact ⟨⟨hdot, hdigit c rfl⟩, hrestdots⟩

/-- The ways to make an identifier from a name. -/
inductive NameUse
  /-- The module of a node, an alias, or a part of a route. -/
  | lower
  /-- A constant with a number. -/
  | upper
  /-- A constant with the text of a value. -/
  | debug
  /-- A constant of `Action::RawProperties`. -/
  | raw

/-- The call that makes the identifier. -/
def NameUse.ident (name : String) : NameUse → Except Panic String
  | .lower => dtToLowerId name
  | .upper => dtToUpperId name
  | .debug => dtToUpperId (name ++ "_DEBUG")
  | .raw => Augment.rawName name

theorem formatIdent_ok_iff {text : String} :
    (∃ id, formatIdent text = .ok id) ↔ isIdent text = true := by
  unfold formatIdent
  split
  · rename_i h
    exact ⟨fun _ => h, fun _ => ⟨text, rfl⟩⟩
  · rename_i h
    constructor
    · intro ⟨id, hid⟩
      cases hid
    · intro hid
      exact absurd hid h

theorem lower_ok_iff {name : String} (h : IsName name) :
    (∃ id, dtToLowerId name = .ok id) ↔ Clean name := by
  have hident := isIdent_map_iff h (fun c hc => fixChar_rest hc)
    (fun c hc => fixChar_start hc) [] (List.forall_mem_nil _)
  rw [List.append_nil] at hident
  rw [dtToLowerId, formatIdent_ok_iff]
  exact hident

/-- With upper-case letters, and with a suffix that is upper case already. -/
theorem upper_ok_iff {name : String} (h : IsName name) (suffix : String)
    (hsuffix : ∀ c ∈ suffix.toList, isLabelChar (fixChar c.toUpper) = true) :
    (∃ id, dtToUpperId (name ++ suffix) = .ok id) ↔ Clean name := by
  have hmore : ∀ c ∈ suffix.toList.map (fun c => fixChar c.toUpper), isLabelChar c = true := by
    intro c hc
    obtain ⟨d, hd, rfl⟩ := List.mem_map.mp hc
    exact hsuffix d hd
  have hident := isIdent_map_iff (f := fun c => fixChar c.toUpper) h
    (fun c hc => fixChar_toUpper_rest hc) (fun c hc => fixChar_toUpper_start hc) _ hmore
  rw [dtToUpperId, formatIdent_ok_iff, fixId, String.toUpper, String.toList_map,
    String.toList_append, List.map_append, List.map_append, List.map_map, List.map_map]
  exact hident

theorem debug_ok_iff {name : String} (h : IsName name) :
    (∃ id, dtToUpperId (name ++ "_DEBUG") = .ok id) ↔ Clean name :=
  upper_ok_iff h "_DEBUG" (List.all_eq_true.mp (by decide))

theorem plain_ok_iff {name : String} (h : IsName name) :
    (∃ id, dtToUpperId name = .ok id) ↔ Clean name := by
  have hident := upper_ok_iff h "" (List.forall_mem_nil _)
  rw [String.append_empty] at hident
  exact hident

/-- An identifier stays one with `RAW_` in front. -/
theorem isIdent_raw {id : String} (h : isIdent id = true) : isIdent ("RAW_" ++ id) = true := by
  unfold isIdent at h
  split at h
  · cases h
  · rename_i c t ht
    obtain ⟨hc, hrest⟩ := (Bool.and_eq_true _ _).mp h
    have hlabel : isLabelChar c = true := by
      cases (Bool.or_eq_true _ _).mp hc with
      | inl halpha => simp [isLabelChar, isAlphanumeric, halpha]
      | inr hline => simp [isLabelChar, hline]
    -- The old first character is now one of the rest.
    rw [isIdent, String.toList_append, ht]
    show (_ && (isLabelChar 'A' && (isLabelChar 'W' && (isLabelChar '_' &&
      (isLabelChar c && t.all isLabelChar))))) = true
    rw [hlabel, hrest]
    decide

/-- The name is made upper case first, so a digit at the start is no better with the prefix. -/
theorem raw_ok_iff {name : String} (h : IsName name) :
    (∃ id, Augment.rawName name = .ok id) ↔ Clean name := by
  rw [← plain_ok_iff h]
  constructor
  · intro ⟨id, hid⟩
    obtain ⟨upper, hupper, -⟩ := bind_eq_ok.mp hid
    exact ⟨upper, hupper⟩
  · intro ⟨upper, hupper⟩
    have hident : isIdent upper = true := by
      rw [formatIdent_eq_ok hupper]
      exact formatIdent_ok_iff.mp ⟨upper, hupper⟩
    obtain ⟨id, hid⟩ := formatIdent_ok_iff.mpr (isIdent_raw hident)
    exact ⟨id, bind_eq_ok.mpr ⟨upper, hupper, hid⟩⟩

/-- A name becomes an identifier exactly when it is clean, whatever it is used for. -/
theorem NameUse.ident_ok_iff {name : String} (h : IsName name) (use : NameUse) :
    (∃ id, use.ident name = .ok id) ↔ Clean name := by
  cases use with
  | lower => exact lower_ok_iff h
  | upper => exact plain_ok_iff h
  | debug => exact debug_ok_iff h
  | raw => exact raw_ok_iff h

/-- The result is an identifier. -/
theorem NameUse.isIdent_of_ident {name id : String} (use : NameUse) (h : use.ident name = .ok id) :
    isIdent id = true := by
  have hformat : ∀ {text : String}, formatIdent text = .ok id → isIdent id = true := by
    intro text hid
    rw [formatIdent_eq_ok hid]
    exact formatIdent_ok_iff.mp ⟨id, hid⟩
  cases use with
  | lower => exact hformat h
  | upper => exact hformat h
  | debug => exact hformat h
  | raw =>
    obtain ⟨upper, -, hid⟩ := bind_eq_ok.mp h
    exact hformat hid

/-! ## Labels -/

/-- The labels in the map are texts that the rule `label` reads. -/
def LabelKeys (b : Builder) : Prop := ∀ e ∈ b.labels, IsLabel e.1

/-- The labels in a parse tree are. -/
def LabelTokens (p : Pair Rule) : Prop := ∀ q, Has p q → q.rule = .label → LabelPair q

theorem LabelTokens.of_inner {p c : Pair Rule} (h : LabelTokens p) (hc : c ∈ p.inner) :
    LabelTokens c :=
  fun q hq => h q (.inner hc hq)

mutual

/-- `walk_node` puts only labels of the parse tree into the map. -/
theorem walkNode_labelKeys {ords : OrdMap} : ∀ (p : Pair Rule) {path : String}
    {route : List String} {b b' : Builder} {n : Node}, LabelTokens p → LabelKeys b →
    walkNode ords path route p b = .ok (n, b') → LabelKeys b'
  | .mk r text inner, path, route, b, b', n, hp, hb, h => by
    rw [walkNode] at h
    obtain ⟨name, -, h⟩ := bind_eq_ok.mp h
    obtain ⟨⟨parts, b₁⟩, hparts, hfin⟩ := bind_eq_ok.mp h
    obtain ⟨hlabels, hb₁⟩ := walkInner_labelKeys inner (fun q hq => hp.of_inner hq) hparts
      (List.forall_mem_nil _) hb
    obtain ⟨info, -, he⟩ := bind_eq_ok.mp hfin
    cases Except.ok.inj he
    intro e hmem
    cases Labels.mem_foldl_insert hmem with
    | inl hold => exact hb₁ e hold
    | inr hnew => exact hlabels e.1 hnew.1

/-- The loop of `walk_node` collects only labels of the parse tree. -/
theorem walkInner_labelKeys {ords : OrdMap} : ∀ (ps : List (Pair Rule)) {parts parts' : Parts}
    {b b' : Builder}, (∀ p ∈ ps, LabelTokens p) → walkInner ords ps parts b = .ok (parts', b') →
    (∀ l ∈ parts.labels, IsLabel l) → LabelKeys b →
    (∀ l ∈ parts'.labels, IsLabel l) ∧ LabelKeys b'
  | [], parts, parts', b, b', _, h, hparts, hb => by
    cases h
    exact ⟨hparts, hb⟩
  | p :: ps, parts, parts', b, b', hps, h, hparts, hb => by
    obtain ⟨hp, hrest⟩ := List.forall_mem_cons.mp hps
    rw [walkInner] at h
    split at h
    · obtain ⟨name, -, h⟩ := bind_eq_ok.mp h
      exact walkInner_labelKeys ps hrest h hparts hb
    · rename_i hrule
      obtain ⟨l, hl, rfl⟩ := hp p (.self p) hrule
      have hmore : ∀ k ∈ parts.labels ++ [l], IsLabel k := by
        rw [List.forall_mem_append, List.forall_mem_singleton]
        exact ⟨hparts, hl⟩
      rw [Pair.text, String.ofList_toList] at h
      exact walkInner_labelKeys ps hrest h hmore hb
    · obtain ⟨property, -, h⟩ := bind_eq_ok.mp h
      exact walkInner_labelKeys ps hrest h hparts hb
    · obtain ⟨info, -, h⟩ := bind_eq_ok.mp h
      obtain ⟨⟨child, b₁⟩, hchild, h⟩ := bind_eq_ok.mp h
      have hb₁ := walkNode_labelKeys p hp hb hchild
      exact walkInner_labelKeys ps hrest h hparts hb₁
    · cases h

end

/-- An identifier that `fix_id` leaves as it is. -/
theorem dtToLowerId_label {l : String} (h : IsLabel l) : dtToLowerId l = .ok l := by
  obtain ⟨c, t, hl, hc, ht⟩ := h
  have hkeep : ∀ d, isLabelChar d = true → fixChar d = d := by
    intro d hd
    have hne : d ≠ '#' ∧ d ≠ '-' ∧ d ≠ '@' ∧ d ≠ ',' := by
      refine ⟨?_, ?_, ?_, ?_⟩
      all_goals
        intro he
        rw [he] at hd
        cases hd
    simp [fixChar, hne]
  have hall : ∀ d ∈ l.toList, isLabelChar d = true := by
    rw [hl]
    refine List.forall_mem_cons.mpr ⟨?_, ht⟩
    simp [isLabelChar, isAlphanumeric, hc]
  have hfix : fixId l = l := by
    rw [fixId, List.map_congr_left fun d hd => hkeep d (hall d hd), List.map_id']
    exact String.ofList_toList
  have hident : isIdent l = true := by
    rw [isIdent, hl]
    simp only
    rw [hc, List.all_eq_true.mpr ht]
    rfl
  rw [dtToLowerId, hfix, formatIdent, if_pos hident]

/-- The labels of a tree from `DeviceTree::new`. -/
theorem new_labels {depth : Nat} {text : List Char} {ords : OrdMap} {dt : DeviceTree}
    (h : DeviceTree.new depth text ords = .ok dt) : ∀ e ∈ dt.labels, IsLabel e.1 := by
  obtain ⟨dt₀, hparse, hlink⟩ := bind_eq_ok.mp h
  obtain ⟨root, -, hdt⟩ := bind_eq_ok.mp hlink
  cases Except.ok.inj hdt
  show ∀ e ∈ dt₀.labels, IsLabel e.1
  unfold parse at hparse
  split at hparse
  · rename_i pairs r hfile
    obtain ⟨top, rfl, hnode⟩ := file_shape hfile
    rw [walk, if_pos hnode.rule_eq] at hparse
    obtain ⟨⟨n, b⟩, hwalk, hdt₀⟩ := bind_eq_ok.mp hparse
    cases Except.ok.inj hdt₀
    have hempty : LabelKeys ⟨[], 0⟩ := List.forall_mem_nil _
    exact walkNode_labelKeys top (fun q hq => (hnode.shaped q hq).label) hempty hwalk
  · cases hparse

/-! ## The generator -/

/-- All names of the tree are clean. The root has no name in the generated code. -/
structure CleanTree (dt : DeviceTree) : Prop where
  nodes : ∀ n ∈ dt.root.nodes, ∀ c ∈ n.children, Clean c.name
  properties : ∀ n ∈ dt.root.nodes, ∀ p ∈ n.properties, Clean p.name

/-- Not a panic of `format_ident!`. -/
def Panic.NotIdent (e : Panic) : Prop := ∀ text, e ≠ .ident text

/-- The panics of a computation are not from `format_ident!`. -/
def Avoids {α : Type} (x : Except Panic α) : Prop := ∀ e, x = .error e → e.NotIdent

theorem Avoids.of_ok {α : Type} {x : Except Panic α} (h : ∃ a, x = .ok a) : Avoids x := by
  intro e he
  obtain ⟨a, ha⟩ := h
  rw [ha] at he
  cases he

theorem Avoids.pure {α : Type} (a : α) : Avoids (pure a : Except Panic α) := .of_ok ⟨a, rfl⟩

theorem Avoids.error {α : Type} {e : Panic} (h : e.NotIdent) :
    Avoids (.error e : Except Panic α) := by
  intro e' he
  cases he
  exact h

theorem Avoids.bind {α β : Type} {x : Except Panic α} {f : α → Except Panic β} (hx : Avoids x)
    (hf : ∀ a, x = .ok a → Avoids (f a)) : Avoids (x >>= f) := by
  intro e he
  cases bind_eq_error.mp he with
  | inl h => exact hx e h
  | inr h =>
    obtain ⟨a, ha, h⟩ := h
    exact hf a ha e h

theorem Avoids.mapM {α β : Type} {f : α → Except Panic β} {xs : List α}
    (h : ∀ x ∈ xs, Avoids (f x)) : Avoids (xs.mapM f) :=
  fun _ he => failsWith_mapM h he

section

variable {ords : OrdMap} {dt : DeviceTree}

/-- The names on the way down to a node. -/
theorem forall_names_of_under {P : String → Prop} {n m : Node} {names : List String}
    (h : ∀ a ∈ n.nodes, ∀ c ∈ a.children, P c.name) (hu : Under n names m) :
    ∀ name ∈ names, P name := by
  induction hu with
  | refl n => exact List.forall_mem_nil _
  | @child n c m names hc _ ih =>
    refine List.forall_mem_cons.mpr ⟨h n n.mem_nodes_self c hc, ih fun a ha => ?_⟩
    exact h a (Node.mem_nodes_of_child hc ha)

/-- The name of a node below the root is a text that `nodename` reads. -/
theorem isName_child (hvalid : dt.Valid ords) {n c : Node} (hn : n ∈ dt.root.nodes)
    (hc : c ∈ n.children) : IsName c.name := by
  obtain ⟨names, hu⟩ := exists_under_of_mem_nodes hn
  have hcu := hu.trans (.child hc (.refl c))
  obtain ⟨hcoh, hroute⟩ := hvalid.coherent hcu
  refine hcoh.names c.name ?_
  rw [hroute]
  exact List.mem_append_right _ (List.mem_singleton_self _)

/-- The route of a node in a clean tree. -/
theorem routeToRust_avoids (hvalid : dt.Valid ords) (hclean : CleanTree dt) {t : Node}
    (ht : t ∈ dt.root.nodes) : Avoids t.routeToRust := by
  obtain ⟨names, hu⟩ := exists_under_of_mem_nodes ht
  have hroute : t.route = names := (hvalid.coherent hu).2
  rw [Node.routeToRust, hroute]
  refine Avoids.mapM (forall_names_of_under (P := fun name => Avoids (dtToLowerId name)) ?_ hu)
  intro a ha c hc
  exact .of_ok ((lower_ok_iff (isName_child hvalid ha hc)).mpr (hclean.nodes a ha c hc))

/-- A node behind an address. -/
theorem node_avoids (a : Addr) : Avoids (dt.node a) := by
  unfold DeviceTree.node
  split
  · exact .pure _
  · exact .error fun text h => by cases h

theorem nodeRef_avoids (ph : Phandle) : Avoids ph.nodeRef := by
  unfold Phandle.nodeRef
  split
  · exact .pure _
  · exact .error fun text h => by cases h

theorem propertyWalk_avoids (hvalid : dt.Valid ords) (hclean : CleanTree dt) {n : Node}
    {p : Property} (hn : n ∈ dt.root.nodes) (hp : p ∈ n.properties) :
    Avoids (dt.propertyWalk p) := by
  have hname := hvalid.propertyNames n hn p hp
  have hp' := hclean.properties n hn p hp
  unfold DeviceTree.propertyWalk
  split
  · exact (Avoids.of_ok ((plain_ok_iff hname).mpr hp')).bind fun tag _ => .pure _
  · rename_i ph _
    refine (nodeRef_avoids ph).bind fun a _ => (node_avoids a).bind fun t ht => ?_
    refine (routeToRust_avoids hvalid hclean (mem_of_node ht)).bind fun route _ => ?_
    exact (Avoids.of_ok ((lower_ok_iff hname).mpr hp')).bind fun tag _ => .pure _
  · exact (Avoids.of_ok ((debug_ok_iff hname).mpr hp')).bind fun tag _ => .pure _

namespace Augment

/-- The names of an augmentation itself are identifiers and paths of them. -/
def Augmentation.wellNamed (aug : Augmentation) : Bool :=
  (dtToLowerId aug.name).isOk && (cfgAttr aug.cfg).isOk && aug.actions.all fun action =>
    match action with
    | .inst _ device staticType =>
      (strToPath device).isOk && (strToPath (staticType.getD "crate::device::NoStatic")).isOk
    | .labels => true
    | .rawProperties => true

theorem avoids_of_isOk {α : Type} {x : Except Panic α} (h : x.isOk = true) : Avoids x := by
  cases x with
  | ok a => exact .of_ok ⟨a, rfl⟩
  | error e => cases h

theorem args_avoids (n : Node) (arg : ArgInfo) : Avoids (arg.args dt n) := by
  cases arg with
  | reg =>
    unfold ArgInfo.args
    simp only
    split
    · exact .pure _
    · exact .error fun text h => by cases h
  | childIdx =>
    have hindex : Avoids (n.childIndex dt) := by
      unfold Node.childIndex
      split
      · exact .error fun text h => by cases h
      · split
        · exact .error fun text h => by cases h
        · exact .pure _
    exact hindex.bind fun index _ => .pure _

theorem phandleTarget_avoids (n : Node) (pname : String) : Avoids (phandleTarget dt n pname) := by
  unfold phandleTarget
  split
  · exact .error fun text h => by cases h
  · exact .error fun text h => by cases h
  · exact .error fun text h => by cases h
  · rename_i ph words _
    refine (nodeRef_avoids ph).bind fun a _ => (node_avoids a).bind fun t _ => ?_
    refine (Avoids.mapM fun w _ => ?_).bind fun args _ => .pure _
    split
    · exact .pure _
    · exact .error fun text h => by cases h

theorem raw_avoids (hvalid : dt.Valid ords) (hclean : CleanTree dt) {n : Node} {device : String}
    {staticType cfg : Option String} {raw : RawInfo} (hdevice : Avoids (strToPath device))
    (hstatic : Avoids (strToPath (staticType.getD "crate::device::NoStatic"))) :
    Avoids (raw.generate dt n device staticType cfg) := by
  refine hdevice.bind fun deviceId _ => hstatic.bind fun static _ => ?_
  cases raw with
  | myself =>
    simp only
    split
    · exact .pure _
    · exact .pure _
  | phandle pname =>
    refine (phandleTarget_avoids n pname).bind fun x hx => ?_
    obtain ⟨target, args⟩ := x
    obtain ⟨a, ha⟩ := phandleTarget_node hx
    exact (routeToRust_avoids hvalid hclean (mem_of_node ha)).bind fun route _ => .pure _
  | parent level args =>
    simp only
    -- The path is made of `super`, so it needs no name.
    have hargs : Avoids (args.mapM (ArgInfo.args dt n)) := .mapM fun arg _ => args_avoids n arg
    split
    · exact .error fun text h => by cases h
    · split
      · split
        · exact hargs.bind fun args _ => .pure _
        · exact .pure _
      · exact hargs.bind fun args _ => .pure _

/-- A label and the route to its node. -/
theorem labelModule_avoids (hvalid : dt.Valid ords) (hclean : CleanTree dt) {e : String × Addr}
    (he : IsLabel e.1) : Avoids (labelModule dt e) := by
  refine (Avoids.of_ok ⟨e.1, dtToLowerId_label he⟩).bind fun name _ => ?_
  refine (node_avoids e.2).bind fun target htarget => ?_
  exact (routeToRust_avoids hvalid hclean (mem_of_node htarget)).bind fun path _ => .pure _

theorem augment_avoids (hvalid : dt.Valid ords) (hclean : CleanTree dt)
    (hlabels : ∀ e ∈ dt.labels, IsLabel e.1) {aug : Augmentation} (haug : aug.wellNamed = true)
    {n : Node} (hn : n ∈ dt.root.nodes) : Avoids (aug.toAugment.augment dt n) := by
  simp only [Augmentation.wellNamed, Bool.and_eq_true, List.all_eq_true] at haug
  obtain ⟨⟨hname, hcfg⟩, hactions⟩ := haug
  unfold Augment.augment
  split
  · refine (avoids_of_isOk hname).bind fun _ _ => (avoids_of_isOk hcfg).bind fun cfg _ => ?_
    refine (Avoids.mapM fun action haction => ?_).bind fun actions _ => .pure _
    have hnamed := hactions action haction
    cases action with
    | inst raw device staticType =>
      simp only [Bool.and_eq_true] at hnamed
      exact raw_avoids hvalid hclean (avoids_of_isOk hnamed.1) (avoids_of_isOk hnamed.2)
    | rawProperties =>
      refine Avoids.mapM fun p hp => ?_
      have hraw := (raw_ok_iff (hvalid.propertyNames n hn p hp)).mpr (hclean.properties n hn p hp)
      exact (Avoids.of_ok hraw).bind fun name _ => .pure _
    | labels =>
      refine (Avoids.mapM fun e he => ?_).bind fun nodes _ => .pure _
      exact labelModule_avoids hvalid hclean (hlabels e he)
  · exact .pure _

theorem dtRust_wellNamed : ∀ aug ∈ dtRust, aug.wellNamed = true := by
  decide +kernel

end Augment

/-- `node_walk` below the root, and at the root. -/
theorem nodeItems_avoids (hvalid : dt.Valid ords) (hclean : CleanTree dt)
    (hlabels : ∀ e ∈ dt.labels, IsLabel e.1) {augs : List Augment.Augmentation}
    (haugs : ∀ aug ∈ augs, aug.wellNamed = true) {n : Node} (hn : n ∈ dt.root.nodes) :
    Avoids (dt.nodeItems (augs.map Augment.Augmentation.toAugment) n) := by
  induction n using Node.induct with
  | h n ih =>
    obtain ⟨id, name, path, route, ord, labels, properties, children, parent⟩ := n
    rw [DeviceTree.nodeItems, childModules_eq_mapM]
    refine (Avoids.mapM fun p hp => propertyWalk_avoids hvalid hclean hn hp).bind fun props _ => ?_
    refine (Avoids.mapM fun c hc => ?_).bind fun mods _ => ?_
    · have hname := (lower_ok_iff (isName_child hvalid hn hc)).mpr (hclean.nodes _ hn c hc)
      refine (Avoids.of_ok hname).bind fun nameId _ => ?_
      exact (ih c hc (Node.child_mem_nodes hn hc)).bind fun items _ => .pure _
    · refine (Avoids.mapM fun a ha => ?_).bind fun added _ => .pure _
      obtain ⟨aug, haug, rfl⟩ := List.mem_map.mp ha
      exact Augment.augment_avoids hvalid hclean hlabels (haugs aug haug) hn

/-- When the generator returns, the names are clean, because every node has `RAW_` constants. -/
theorem clean_of_toTokens (hvalid : dt.Valid ords) {items : List Item}
    (h : dt.toTokens (Augment.dtRust.map Augment.Augmentation.toAugment) = .ok items) :
    CleanTree dt where
  nodes n hn c hc := by
    obtain ⟨names, hu⟩ := exists_under_of_mem_nodes hn
    have hroute := mapM_dtToLowerId_of_under h (hu.trans (.child hc (.refl c)))
    obtain ⟨id, -, hid⟩ := mapM_of_mem hroute
      (List.mem_append_right names (List.mem_singleton_self c.name))
    exact (lower_ok_iff (isName_child hvalid hn hc)).mp ⟨id, hid⟩
  properties n hn p hp := by
    obtain ⟨names, hu⟩ := exists_under_of_mem_nodes hn
    obtain ⟨body, hbody, -⟩ := isModuleOf_node h hu
    -- This augmentation has no rule, so it makes constants for every node.
    have hmem : Augment.rawProperties.toAugment ∈
        Augment.dtRust.map Augment.Augmentation.toAugment :=
      List.mem_map_of_mem (by simp [Augment.dtRust])
    obtain ⟨added, hadded, -⟩ := added_subset_nodeItems hbody hmem
    have hcompat : Augment.rawProperties.toAugment.isCompatible dt n = true := rfl
    unfold Augment.augment at hadded
    rw [if_pos hcompat] at hadded
    obtain ⟨-, -, hadded⟩ := bind_eq_ok.mp hadded
    obtain ⟨cfg, -, hadded⟩ := bind_eq_ok.mp hadded
    obtain ⟨actions, hactions, -⟩ := bind_eq_ok.mp hadded
    obtain ⟨constants, -, hconstants⟩ := mapM_of_mem hactions (List.mem_singleton_self _)
    obtain ⟨item, -, hitem⟩ := mapM_of_mem hconstants hp
    obtain ⟨name, hname, -⟩ := bind_eq_ok.mp hitem
    exact (raw_ok_iff (hvalid.propertyNames n hn p hp)).mp ⟨name, hname⟩

end

/-- A name that the grammar reads becomes an identifier exactly when it is clean, in every use. The
generator does not stop at a name of a clean tree, and it does not return for another one. -/
theorem names_become_identifiers_iff (use : NameUse) (name : String) (depth : Nat)
    (text : List Char) (ords : OrdMap) :
    (∀ x, Grammar.nodename name.toList = some (x, []) →
      ((∃ id, use.ident name = .ok id ∧ isIdent id = true) ↔ Clean name)) ∧
    ∀ dt, DeviceTree.new depth text ords = .ok dt →
      (CleanTree dt → ∀ id,
        dt.toTokens (Augment.dtRust.map Augment.Augmentation.toAugment) ≠ .error (.ident id)) ∧
      (¬CleanTree dt → ∃ e,
        dt.toTokens (Augment.dtRust.map Augment.Augmentation.toAugment) = .error e) := by
  constructor
  · intro x hread
    rw [← use.ident_ok_iff (isName_of_nodename hread)]
    constructor
    · intro ⟨id, hid, _⟩
      exact ⟨id, hid⟩
    · intro ⟨id, hid⟩
      exact ⟨id, hid, use.isIdent_of_ident hid⟩
  · intro dt hnew
    have hvalid := new_valid hnew
    constructor
    · intro hclean id he
      exact nodeItems_avoids hvalid hclean (new_labels hnew) Augment.dtRust_wellNamed
        dt.root.mem_nodes_self _ he id rfl
    · intro hclean
      cases h : dt.toTokens (Augment.dtRust.map Augment.Augmentation.toAugment) with
      | error e => exact ⟨e, rfl⟩
      | ok items => exact absurd (clean_of_toTokens hvalid h) hclean

/-- A node with the characters that `fix_id` replaces. -/
def dashedName : List Char := "/dts-v1/; / \x7b a-b@1 \x7b #c; \x7d; \x7d;".toList

/-- A property with a dot in its name. -/
def dottedName : List Char := "/dts-v1/; / \x7b a.b; \x7d;".toList

theorem names_become_identifiers_dashed :
    ((∃ id, NameUse.raw.ident "a-b@1" = .ok id ∧ isIdent id = true) ↔ Clean "a-b@1") ∧
    ∃ dt, DeviceTree.new 2 dashedName (fun _ => some 0) = .ok dt ∧
      (CleanTree dt → ∀ id,
        dt.toTokens (Augment.dtRust.map Augment.Augmentation.toAugment) ≠ .error (.ident id)) := by
  have hread : Grammar.nodename "a-b@1".toList = some ([.mk .nodename "a-b@1".toList []], []) := rfl
  have hcheck : (DeviceTree.new 2 dashedName (fun _ => some 0)).toOption.any (fun _ => true) =
      true := by
    decide +kernel
  obtain ⟨dt, hnew, -⟩ := exists_ok_of_any hcheck
  have hall := names_become_identifiers_iff .raw "a-b@1" 2 dashedName (fun _ => some 0)
  exact ⟨hall.1 _ hread, dt, hnew, (hall.2 dt hnew).1⟩

/-- The dot is still there, so the name is an identifier in no use, and the generator panics. -/
theorem dotted_name_panics :
    (∃ x, Grammar.nodename "a.b".toList = some (x, [])) ∧
    (∀ use : NameUse, ¬∃ id, use.ident "a.b" = .ok id) ∧
    ∃ dt, DeviceTree.new 1 dottedName (fun _ => some 0) = .ok dt ∧
      dt.toTokens (Augment.dtRust.map Augment.Augmentation.toAugment) =
        .error (.ident "A.B_DEBUG") := by
  refine ⟨⟨_, rfl⟩, fun use => ?_, ?_⟩
  · have hcheck : (use.ident "a.b").toOption = none := by
      cases use
      all_goals decide +kernel
    intro ⟨id, hid⟩
    rw [hid] at hcheck
    cases hcheck
  · have hcheck : (DeviceTree.new 1 dottedName (fun _ => some 0)).toOption.any (fun dt =>
        failure (dt.toTokens (Augment.dtRust.map Augment.Augmentation.toAugment)) =
          some (.ident "A.B_DEBUG")) = true := by
      decide +kernel
    obtain ⟨dt, hnew, hdt⟩ := exists_ok_of_any hcheck
    exact ⟨dt, hnew, failure_eq_some.mp (of_decide_eq_true hdt)⟩

end ZephyrRust.Devicetree
