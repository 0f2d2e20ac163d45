import ZephyrRust.Devicetree.Parse

/-!
# `ZephyrRust.Devicetree.Render`: how a device tree is written

`Tree` is a device tree as a text has it: names, labels, properties and children. It has no
addresses, paths or ordinals. `FileText t text` says that `text` is a way to write `t` down as
`dts.pest` has it. Between any two tokens there may be whitespace and comments. Between two cells, and
between two bytes, there must be some. The properties of a node and its children may be mixed.

The relations here are about texts only and do not mention the parser. A text with a gap in front
has the gap as its first part, so that the pieces can be put together as they are.
-/

set_option autoImplicit false

namespace ZephyrRust.Devicetree

open Grammar

/-! ## Trees -/

/-- A node as it is written. -/
inductive Tree
  | mk (labels : List String) (name : String) (properties : List Property) (children : List Tree)

mutual

/-- What was written for a node. -/
def Node.tree : Node → Tree
  | ⟨_, name, _, _, _, labels, properties, children, _⟩ =>
    .mk labels name properties (trees children)

/-- What was written for the nodes. -/
def trees : List Node → List Tree
  | [] => []
  | n :: ns => n.tree :: trees ns

end

mutual

/-- The routes of a node and of all nodes below it, when its own route is `route`. -/
def Tree.routes (route : List String) : Tree → List (List String)
  | .mk _ _ _ children => route :: childRoutes route children

/-- The routes of the children, and of all nodes below them. -/
def childRoutes (route : List String) : List Tree → List (List String)
  | [] => []
  | .mk labels name properties children :: ts =>
    Tree.routes (route ++ [name]) (.mk labels name properties children) ++ childRoutes route ts

end

/-- The path with these names. -/
def joinPath (route : List String) : String := "/" ++ "/".intercalate route

/-! ## Tokens -/

/-- A text that the rule `nodename` reads. -/
def IsName (name : String) : Prop :=
  name ≠ "" ∧ ∀ c ∈ name.toList, isNodenameChar c = true

/-- A text that the rule `label` reads. -/
def IsLabel (label : String) : Prop :=
  ∃ c t, label.toList = c :: t ∧ isAlpha c = true ∧ ∀ d ∈ t, isLabelChar d = true

/-- The value of a digit. -/
def digitValue (c : Char) : Nat :=
  if isDigit c then c.toNat - '0'.toNat
  else if 'a' ≤ c then 10 + (c.toNat - 'a'.toNat)
  else 10 + (c.toNat - 'A'.toNat)

/-- The number that the digits stand for. -/
def numeral (radix : Nat) (t : List Char) : Nat :=
  t.foldl (fun acc c => acc * radix + digitValue c) 0

/-- Whitespace and comments. -/
inductive Gap : List Char → Prop
  | nil : Gap []
  | space {c : Char} {g : List Char} (hc : isWhitespace c = true) (h : Gap g) : Gap (c :: g)
  | comment {body g : List Char} (hbody : ¬ ['*', '/'] <:+: body) (h : Gap g) :
      Gap (['/', '*'] ++ body ++ ['*', '/'] ++ g)

/-- Items with gaps in front, none of them empty. -/
inductive Spaced {α : Type} (item : α → List Char → Prop) : List α → List Char → Prop
  | nil : Spaced item [] []
  | cons {x : α} {xs : List α} {g t rest : List Char} (hg : Gap g) (hne : g ≠ [])
      (hx : item x t) (h : Spaced item xs rest) : Spaced item (x :: xs) (g ++ t ++ rest)

/-! ## Values -/

/-- A cell: a number in hexadecimal or in decimal, or a reference. -/
inductive WordText : Word → List Char → Prop
  | hex {n : UInt32} {x : Char} {t : List Char} (hx : x = 'x' ∨ x = 'X') (hne : t ≠ [])
      (ht : ∀ c ∈ t, isHexDigit c = true) (hn : numeral 16 t = n.toNat) :
      WordText (.number n) ('0' :: x :: t)
  | decimal {n : UInt32} {c : Char} {t : List Char} (hc : isNonzeroDigit c = true)
      (ht : ∀ d ∈ t, isDigit d = true) (hn : numeral 10 (c :: t) = n.toNat) :
      WordText (.number n) (c :: t)
  | phandle {label : String} (hl : IsLabel label) :
      WordText (.phandle (Phandle.new label)) ('&' :: label.toList)

/-- A byte: two hexadecimal digits. -/
inductive ByteText : UInt8 → List Char → Prop
  | mk {b : UInt8} {c d : Char} (hc : isHexDigit c = true) (hd : isHexDigit d = true)
      (hb : numeral 16 [c, d] = b.toNat) : ByteText b [c, d]

/-- A value. -/
inductive ValueText : Value → List Char → Prop
  | string {text : String} (h : ∀ c ∈ text.toList, isStringChar c = true) :
      ValueText (.string text) ('"' :: text.toList ++ ['"'])
  | cells {w : Word} {ws : List Word} {g t rest g' : List Char} (hg : Gap g) (hw : WordText w t)
      (hws : Spaced WordText ws rest) (hg' : Gap g') :
      ValueText (.words (w :: ws)) ('<' :: (g ++ t ++ rest ++ g' ++ ['>']))
  | octets {b : UInt8} {bs : List UInt8} {g t rest g' : List Char} (hg : Gap g)
      (hb : ByteText b t) (hbs : Spaced ByteText bs rest) (hg' : Gap g') :
      ValueText (.bytes (b :: bs)) ('[' :: (g ++ t ++ rest ++ g' ++ [']']))
  | reference {label : String} (hl : IsLabel label) :
      ValueText (.phandle (Phandle.new label)) ('&' :: label.toList)

/-- The values after the first one, each after a comma. -/
inductive MoreValuesText : List Value → List Char → Prop
  | nil : MoreValuesText [] []
  | cons {v : Value} {vs : List Value} {g g' t rest : List Char} (hg : Gap g) (hg' : Gap g')
      (hv : ValueText v t) (h : MoreValuesText vs rest) :
      MoreValuesText (v :: vs) (g ++ [','] ++ g' ++ t ++ rest)

/-- A property, without values or with some. -/
inductive PropertyText : Property → List Char → Prop
  | flag {name : String} {g : List Char} (hname : IsName name) (hg : Gap g) :
      PropertyText ⟨name, []⟩ (name.toList ++ g ++ [';'])
  | values {name : String} {v : Value} {vs : List Value} {g g₁ t rest g₂ : List Char}
      (hname : IsName name) (hg : Gap g) (hg₁ : Gap g₁) (hv : ValueText v t)
      (hvs : MoreValuesText vs rest) (hg₂ : Gap g₂) :
      PropertyText ⟨name, v :: vs⟩
        (name.toList ++ g ++ ['='] ++ g₁ ++ t ++ rest ++ g₂ ++ [';'])

/-! ## Nodes -/

/-- The labels of a node, with gaps in front and a colon after each. -/
inductive LabelsText : List String → List Char → Prop
  | nil : LabelsText [] []
  | cons {l : String} {ls : List String} {g g' rest : List Char} (hg : Gap g) (hl : IsLabel l)
      (hg' : Gap g') (h : LabelsText ls rest) :
      LabelsText (l :: ls) (g ++ l.toList ++ g' ++ [':'] ++ rest)

/-- The entries of a node, with gaps in front. The properties and the children are in the order of
the text, and they may be mixed. -/
inductive EntriesText : List Property → List Tree → List Char → Prop
  | nil : EntriesText [] [] []
  | property {p : Property} {ps : List Property} {ts : List Tree} {g t rest : List Char}
      (hg : Gap g) (hp : PropertyText p t) (h : EntriesText ps ts rest) :
      EntriesText (p :: ps) ts (g ++ t ++ rest)
  | node {labels : List String} {name : String} {properties : List Property}
      {children : List Tree} {ps : List Property} {ts : List Tree}
      {head g g₁ body g₂ g₃ rest : List Char}
      (hlabels : LabelsText labels head) (hg : Gap g) (hname : IsName name) (hg₁ : Gap g₁)
      (hbody : EntriesText properties children body) (hg₂ : Gap g₂) (hg₃ : Gap g₃)
      (h : EntriesText ps ts rest) :
      EntriesText ps (.mk labels name properties children :: ts)
        (head ++ g ++ name.toList ++ g₁ ++ ['{'] ++ body ++ g₂ ++ ['}'] ++ g₃ ++ [';'] ++ rest)

/-- A whole file. The root has the name `/`. -/
inductive FileText : Tree → List Char → Prop
  | mk {labels : List String} {properties : List Property} {children : List Tree}
      {g₀ g₁ head g₂ g₃ body g₄ g₅ g₆ : List Char} (hg₀ : Gap g₀) (hg₁ : Gap g₁)
      (hlabels : LabelsText labels head) (hg₂ : Gap g₂) (hg₃ : Gap g₃)
      (hbody : EntriesText properties children body) (hg₄ : Gap g₄) (hg₅ : Gap g₅)
      (hg₆ : Gap g₆) :
      FileText (.mk labels "/" properties children)
        (g₀ ++ ['/', 'd', 't', 's', '-', 'v', '1', '/'] ++ g₁ ++ [';'] ++ head ++ g₂ ++ ['/'] ++
          g₃ ++ ['{'] ++ body ++ g₄ ++ ['}'] ++ g₅ ++ [';'] ++ g₆)

end ZephyrRust.Devicetree
