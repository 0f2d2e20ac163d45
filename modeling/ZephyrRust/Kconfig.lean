import Mathlib.Algebra.Group.Int.Defs
import ZephyrRust.Lib.Regex
import ZephyrRust.Devicetree.Render

/-!
# `ZephyrRust.Kconfig`: the settings of `.config`

`extract_kconfig_bool_options` and `build_kconfig_mod` of `zephyr-build/src/lib.rs`. The first one
collects the options that are `y`. The second one writes a Rust constant for each line whose value
looks like a number or a string.

The second half of the file is not from there. `Setting` has the values that Kconfig writes, with
the text of each, and `Const.value` is the value of a constant for the Rust compiler.
-/

set_option autoImplicit false

namespace ZephyrRust.Kconfig

open ZephyrRust.Lib
open Devicetree (numeral)
open Devicetree.Grammar (isDigit isHexDigit isNonzeroDigit)

/-! ## Lines -/

/-- A line without the `\r` of its ending. -/
def chomp (line : List Char) : List Char :=
  if line.getLast? = some '\r' then line.dropLast else line

/-- The lines of a text, with the part of the first one that is read already. -/
def linesFrom (part : List Char) : List Char → List (List Char)
  -- The end of the file ends a line too, but it has no `\r`.
  | [] => if part = [] then [] else [part]
  | c :: s => if c = '\n' then chomp part :: linesFrom [] s else linesFrom (part ++ [c]) s

/-- `BufRead::lines`. -/
def lines (text : List Char) : List (List Char) := linesFrom [] text

/-- An item of `BufRead::lines`: a line, or an `Err`, for a line that is not UTF-8. -/
abbrev Line := Option (List Char)

/-- The items of `BufRead::lines` for a text. -/
def readLines (text : List Char) : List Line := (lines text).map some

/-! ## Patterns -/

/-- `.` -/
def dot (c : Char) : Bool := c ≠ '\n'

/-- `(CONFIG_.*)` -/
def configName : Regex := .group (.seq (.lit "CONFIG_".toList) (.star dot))

/-- `^(CONFIG_.*)=y$` -/
def configY : Regex := .seq configName (.lit "=y".toList)

/-- `^(CONFIG_.*)=(value)$` -/
def configValue (value : Regex) : Regex := .seq configName (.seq (.lit ['=']) (.group value))

/-- `0x[0-9a-fA-F]+` -/
def hexValue : Regex := .seq (.lit ['0', 'x']) (.seq (.sat isHexDigit) (.star isHexDigit))

/-- `-?[1-9][0-9]*|0` -/
def intValue : Regex :=
  .alt (.seq (.alt (.lit ['-']) (.lit [])) (.seq (.sat isNonzeroDigit) (.star isDigit)))
    (.lit ['0'])

/-- `".*"` -/
def strValue : Regex := .seq (.lit ['"']) (.seq (.star dot) (.lit ['"']))

def configHex : Regex := configValue hexValue

def configInt : Regex := configValue intValue

def configStr : Regex := configValue strValue

/-! ## The options that are `y` -/

/-- A line of `extract_kconfig_bool_options`. A line that is an `Err` is as good as empty. -/
def boolOption (line : Line) : Option (List Char) :=
  match configY.captures (line.getD []) with
  | some [name] => some name
  | _ => none

/-- `extract_kconfig_bool_options`. The order of the `HashSet` means nothing. -/
def extractKconfigBoolOptions (input : List Line) : List (List Char) := input.filterMap boolOption

/-! ## The constants -/

/-- The type of a constant. -/
inductive ConstType
  | usize
  | isize
  | str
  deriving DecidableEq

/-- The type in the source. -/
def ConstType.text : ConstType → List Char
  | .usize => "usize".toList
  | .isize => "isize".toList
  | .str => "&str".toList

/-- A constant of `kconfig.rs`. -/
structure Const where
  name : List Char
  type : ConstType
  literal : List Char
  deriving DecidableEq

/-- The two lines that are written for a constant. -/
def Const.written (c : Const) : List Char :=
  "#[allow(dead_code)]\n".toList ++ "pub const ".toList ++ c.name ++ ": ".toList ++ c.type.text ++
    " = ".toList ++ c.literal ++ ";\n".toList

/-- A branch of `build_kconfig_mod`: the pattern and the type. -/
def capture (pattern : Regex) (type : ConstType) (line : List Char) : Option Const :=
  match pattern.captures line with
  | some [name, literal] => some ⟨name, type, literal⟩
  | _ => none

/-- The constant for a line. -/
def lineConst (line : List Char) : Option Const :=
  match capture configHex .usize line with
  | some c => some c
  | none =>
    match capture configInt .isize line with
    | some c => some c
    | none => capture configStr .str line

/-- Where the build script panics: "reading line from dotconfig". -/
inductive Panic
  | reading

/-- What is written for a line. -/
def lineWritten : Line → Except Panic (List Char)
  | some line =>
    match lineConst line with
    | some c => .ok c.written
    | none => .ok []
  | none => .error .reading

/-- `build_kconfig_mod`: the text of `kconfig.rs`. -/
def buildKconfigMod (input : List Line) : Except Panic (List Char) := do
  let written ← input.mapM lineWritten
  return written.flatten

/-! ## What Kconfig writes -/

/-- The names of the options. -/
def IsOption (name : List Char) : Prop :=
  ∃ t, name = "CONFIG_".toList ++ t ∧
    ∀ c ∈ t, ('A' ≤ c ∧ c ≤ 'Z') ∨ isDigit c = true ∨ c = '_'

/-- The value of an option that is a number or a string. A `hex` option keeps its digits. -/
inductive Setting
  | int (n : Int)
  | hex (digits : List Char)
  | string (text : List Char)

/-- A number in decimal. -/
def decimal : Int → List Char
  | .ofNat n => Nat.toDigits 10 n
  | .negSucc n => '-' :: Nat.toDigits 10 (n + 1)

/-- A string in which the quotes and the backslashes are escaped. -/
def escape (text : List Char) : List Char :=
  text.flatMap fun c => if c = '"' ∨ c = '\\' then ['\\', c] else [c]

namespace Setting

/-- The text after the `=`. -/
def text : Setting → List Char
  | int n => decimal n
  | hex digits => ['0', 'x'] ++ digits
  | string text => ['"'] ++ escape text ++ ['"']

/-- The line of an option. -/
def line (name : List Char) (s : Setting) : List Char := name ++ ['='] ++ s.text

/-- A hexadecimal number has digits, and a string has no newline. -/
def WellFormed : Setting → Prop
  | int _ => True
  | hex digits => digits ≠ [] ∧ ∀ c ∈ digits, isHexDigit c = true
  | string text => '\n' ∉ text

/-- The type of the constant. -/
def type : Setting → ConstType
  | int _ => .isize
  | hex _ => .usize
  | string _ => .str

end Setting

/-! ## What the compiler reads -/

/-- The value of a constant. -/
inductive Value
  | int (n : Int)
  | string (text : List Char)
  deriving DecidableEq

/-- The value of a setting. -/
def Setting.value : Setting → Value
  | .int n => .int n
  | .hex digits => .int (numeral 16 digits)
  | .string text => .string text

/-- The value of an integer literal without a suffix and without `_`. -/
def natLiteral : List Char → Option Nat
  | '0' :: 'x' :: t => if t ≠ [] ∧ t.all isHexDigit then some (numeral 16 t) else none
  | t => if t ≠ [] ∧ t.all isDigit then some (Nat.ofDigitChars 10 t 0) else none

/-- The value of an integer literal, maybe with a minus in front. -/
def intLiteral : List Char → Option Int
  | '-' :: t => (natLiteral t).map fun n : Nat => -(n : Int)
  | t => (natLiteral t).map fun n : Nat => (n : Int)

/-- The character of an escape with one letter. -/
def escaped : Char → Option Char
  | 'n' => some '\n'
  | 'r' => some '\r'
  | 't' => some '\t'
  | '0' => some '\x00'
  | c => if c = '"' ∨ c = '\\' ∨ c = '\'' then some c else none

/-- The rest of a string literal, with the quote at its end. A `\r` without a newline after it must
be escaped. -/
def stringLiteral : List Char → Option (List Char)
  | [] => none
  | '\\' :: c :: s =>
    match escaped c, stringLiteral s with
    | some d, some text => some (d :: text)
    | _, _ => none
  | c :: s =>
    if c = '"' then
      if s = [] then some [] else none
    else if c = '\\' ∨ c = '\r' then none
    else (stringLiteral s).map fun text => c :: text

/-- The number has a value in an integer type with `bits` bits. -/
def InRange (bits : Nat) : ConstType → Int → Prop
  | .usize, n => 0 ≤ n ∧ n < 2 ^ bits
  | .isize, n => -2 ^ (bits - 1) ≤ n ∧ n < 2 ^ (bits - 1)
  | .str, _ => False

instance decidableInRange (bits : Nat) (type : ConstType) (n : Int) :
    Decidable (InRange bits type n) :=
  match type with
  | .usize => inferInstanceAs (Decidable (0 ≤ n ∧ n < 2 ^ bits))
  | .isize => inferInstanceAs (Decidable (-2 ^ (bits - 1) ≤ n ∧ n < 2 ^ (bits - 1)))
  | .str => inferInstanceAs (Decidable False)

/-- The value of a constant on a target whose `isize` and `usize` have `bits` bits. A number out of
range is an error. -/
def Const.value (bits : Nat) (c : Const) : Option Value :=
  match c.type with
  | .str =>
    match c.literal with
    | '"' :: s => (stringLiteral s).map .string
    | _ => none
  | type =>
    match intLiteral c.literal with
    | some n => if InRange bits type n then some (.int n) else none
    | none => none

end ZephyrRust.Kconfig
