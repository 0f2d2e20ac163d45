import Mathlib.Logic.Function.Basic
import ZephyrRust.Kconfig

/-!
# `ZephyrRust.Devicetree.OrdMap`: the ordinals of the nodes

`OrdMap::new` of `zephyr-build/src/devicetree/ordmap.rs`. It reads `devicetree_generated.h`, the
header that Zephyr generates for the C code. A macro with the path of a node comes before the
macro with the ordinal of that node, and the reader remembers the last path that it has seen.

The second half of the file is not from there. `HeaderLines` says what Zephyr writes into the
header, as far as the reader looks at it.
-/

set_option autoImplicit false

namespace ZephyrRust.Devicetree

open ZephyrRust.Lib
open Kconfig (Line dot)

namespace OrdMap

/-! ## The reader -/

/-- `^#define DT_(.*)_PATH "(.*)"$` -/
def pathRe : Regex :=
  .seq (.lit "#define DT_".toList) (.seq (.group (.star dot))
    (.seq (.lit "_PATH \"".toList) (.seq (.group (.star dot)) (.lit ['"']))))

/-- `^#define DT_(.*)_ORD (.*)$` -/
def ordRe : Regex :=
  .seq (.lit "#define DT_".toList) (.seq (.group (.star dot))
    (.seq (.lit "_ORD ".toList) (.group (.star dot))))

/-- Where the reader panics. -/
inductive Panic
  /-- "Reading from devicetree_generated.h", for a line that is not UTF-8. -/
  | reading
  /-- The `unwrap` of `usize::from_str`. -/
  | number
  /-- The `assert_eq` of the C names. -/
  | name

/-- `usize::from_str`, where `usize` has `size` values. A plus in front is accepted. -/
def usizeFromStr (size : Nat) (t : List Char) : Except Panic Nat :=
  let digits := if t.head? = some '+' then t.tail else t
  match fromStrRadix 10 size digits with
  | .ok n => .ok n
  | .error _ => .error .number

/-- The variables of the loop. -/
structure Scan where
  /-- The last C name seen, and its path. -/
  cName : List Char
  dtPath : List Char
  result : OrdMap

/-- The loop, for one line. -/
def Scan.line (size : Nat) (s : Scan) : Line → Except Panic Scan
  | none => .error .reading
  | some line =>
    match pathRe.captures line with
    | some [name, path] => .ok { s with cName := name, dtPath := path }
    | _ =>
      match ordRe.captures line with
      | some [name, text] => do
        let ord ← usizeFromStr size text
        if name = s.cName then
          .ok { s with result := Function.update s.result (String.ofList s.dtPath) (some ord) }
        else .error .name
      | _ => .ok s

/-- `OrdMap::new`, for the lines of the header. -/
def new (size : Nat) (input : List Line) : Except Panic OrdMap := do
  let s ← input.foldlM (Scan.line size) ⟨[], [], fun _ => none⟩
  return s.result

/-! ## The header -/

/-- The macro with the path of a node. -/
def pathLine (name path : List Char) : List Char :=
  "#define DT_".toList ++ name ++ "_PATH \"".toList ++ path ++ ['"']

/-- The macro with the ordinal of a node. -/
def ordLine (name digits : List Char) : List Char :=
  "#define DT_".toList ++ name ++ "_ORD ".toList ++ digits

/-- A line without a path and without an ordinal: it is not the definition of a devicetree macro,
or it has neither of the two texts in it. -/
def Other (line : List Char) : Prop :=
  "#define DT_".toList <+: line →
    ¬"_PATH \"".toList <:+: line ∧ ¬"_ORD ".toList <:+: line

/-- A character of the name of a macro. -/
def isNameChar (c : Char) : Bool := Grammar.isAlpha c || Grammar.isDigit c || c == '_'

/-- The lines of the header for some nodes, each with its path and its ordinal: the path of the node
and later its ordinal, and other lines before, between and after. -/
inductive HeaderLines : List (String × Nat) → List (List Char) → Prop
  | nil : HeaderLines [] []
  | other {nodes : List (String × Nat)} {line : List Char} {rest : List (List Char)}
      (hline : Other line) (h : HeaderLines nodes rest) : HeaderLines nodes (line :: rest)
  | node {nodes : List (String × Nat)} {name path digits : List Char}
      {between rest : List (List Char)} (hname : ∀ c ∈ name, isNameChar c = true)
      (hpath : ∀ c ∈ path, c ≠ '"' ∧ c ≠ '\n') (hbetween : ∀ l ∈ between, Other l)
      (hne : digits ≠ []) (hdigits : ∀ c ∈ digits, Grammar.isDigit c = true)
      (h : HeaderLines nodes rest) :
      HeaderLines ((String.ofList path, numeral 10 digits) :: nodes)
        (pathLine name path :: (between ++ ordLine name digits :: rest))

/-- The text of a header for these nodes. -/
def HeaderText (nodes : List (String × Nat)) (text : List Char) : Prop :=
  ∃ ls, HeaderLines nodes ls ∧ (∀ l ∈ ls, '\n' ∉ l ∧ l.getLast? ≠ some '\r') ∧
    text = ls.flatMap fun l => l ++ ['\n']

/-- The ordinal of a path: that of its last node. -/
def ordinal (nodes : List (String × Nat)) : OrdMap := fun path =>
  ((nodes.filter fun n => n.1 = path).getLast?).map Prod.snd

end OrdMap

end ZephyrRust.Devicetree
