import ZephyrRust.Lib.Peg

/-!
# `ZephyrRust.Devicetree.Grammar`: the grammar of `zephyr.dts`

`zephyr-build/src/devicetree/dts.pest`, rule by rule. The rules with `_` are silent and make no
node. The rules with `@` are atomic. In all others, `~`, `*` and `+` have implicit gaps, which are
the `WHITESPACE` and `COMMENT` of the grammar.

The rule `node` is recursive. Its first argument bounds the depth of the nesting, and a text has at
most as many levels as characters.
-/

set_option autoImplicit false

namespace ZephyrRust.Devicetree

open ZephyrRust.Lib.Peg

/-- The rules that make a node. -/
inductive Rule
  | node
  | property
  | words
  | bytes
  | decimalNumber
  | hexNumber
  | plainHexNumber
  | string
  | phandle
  | label
  | nodename
  | eoi
  deriving DecidableEq

namespace Grammar

/-- `ASCII_DIGIT`. -/
def isDigit (c : Char) : Bool := '0' ≤ c && c ≤ '9'

/-- `ASCII_HEX_DIGIT`. -/
def isHexDigit (c : Char) : Bool :=
  isDigit c || ('a' ≤ c && c ≤ 'f') || ('A' ≤ c && c ≤ 'F')

/-- `ASCII_ALPHA`. -/
def isAlpha (c : Char) : Bool := ('a' ≤ c && c ≤ 'z') || ('A' ≤ c && c ≤ 'Z')

/-- `ASCII_ALPHANUMERIC`. -/
def isAlphanumeric (c : Char) : Bool := isAlpha c || isDigit c

/-- The first digit of `decimal_number`: `'1'..'9'`. -/
def isNonzeroDigit (c : Char) : Bool := '1' ≤ c && c ≤ '9'

/-- The characters of `WHITESPACE`. -/
def isWhitespace (c : Char) : Bool := c = ' ' || c = '\r' || c = '\n' || c = '\t'

/-- The characters of a `label` after the first one. -/
def isLabelChar (c : Char) : Bool := isAlphanumeric c || c = '_'

/-- The characters of a `nodename`. -/
def isNodenameChar (c : Char) : Bool :=
  isAlphanumeric c || c = '_' || c = ',' || c = '.' || c = '?' || c = '-' || c = '@' || c = '#'

/-- The characters of a `string` between its quotes. -/
def isStringChar (c : Char) : Bool := !(c = '"' || c = '\n')

/-- `WHITESPACE`. -/
def whitespace : Parser Rule := sat isWhitespace

/-- `(!"*/" ~ ANY)*`, inside a `COMMENT`. -/
def commentBody : Parser Rule := star id (seq id (not (lit ['*', '/'])) any)

/-- `COMMENT`. -/
def comment : Parser Rule := seq id (lit ['/', '*']) (seq id commentBody (lit ['*', '/']))

/-- What `pest` does for a gap: `WHITESPACE* ~ (COMMENT ~ WHITESPACE*)*`. -/
def gap : Parser Rule :=
  seq id (star id whitespace) (star id (seq id comment (star id whitespace)))

/-- The input after a gap. -/
def skip (s : List Char) : List Char :=
  match gap s with
  | some (_, r) => r
  | none => s

/-- `label`. -/
def label : Parser Rule := atomic .label (seq id (sat isAlpha) (star id (sat isLabelChar)))

/-- `nodename`. -/
def nodename : Parser Rule := atomic .nodename (plus id (sat isNodenameChar))

/-- `phandle`. -/
def phandle : Parser Rule := atomic .phandle (seq id (lit ['&']) label)

/-- `string`. -/
def string : Parser Rule :=
  atomic .string (seq id (lit ['"']) (seq id
    (star id (seq id (not (alt (lit ['"']) (lit ['\n']))) any)) (lit ['"'])))

/-- `decimal_number`. -/
def decimalNumber : Parser Rule :=
  atomic .decimalNumber (seq id (sat isNonzeroDigit) (star id (sat isDigit)))

/-- `hex_number`. -/
def hexNumber : Parser Rule :=
  atomic .hexNumber
    (seq id (alt (lit ['0', 'x']) (lit ['0', 'X'])) (plus id (sat isHexDigit)))

/-- `plain_hex_number`. -/
def plainHexNumber : Parser Rule := atomic .plainHexNumber (plus id (sat isHexDigit))

/-- `number`. -/
def number : Parser Rule := alt decimalNumber hexNumber

/-- `words`. -/
def words : Parser Rule :=
  rule .words (seq skip (lit ['<']) (seq skip (plus skip (alt number phandle)) (lit ['>'])))

/-- `bytes`. -/
def bytes : Parser Rule :=
  rule .bytes (seq skip (lit ['[']) (seq skip (plus skip plainHexNumber) (lit [']'])))

/-- `value`. -/
def value : Parser Rule := alt string (alt words (alt bytes phandle))

/-- `values`. -/
def values : Parser Rule := seq skip value (star skip (seq skip (lit [',']) value))

/-- `property`. -/
def property : Parser Rule :=
  rule .property (alt
    (seq skip nodename (seq skip (lit ['=']) (seq skip values (lit [';']))))
    (seq skip nodename (lit [';'])))

/-- `node_path`. -/
def nodePath : Parser Rule :=
  seq skip (star skip (seq skip label (lit [':']))) (alt (lit ['/']) nodename)

/-- `entry`, with the rule `node`. -/
def entry (node : Parser Rule) : Parser Rule := alt property node

/-- `node`. -/
def node : Nat → Parser Rule
  | 0 => fun _ => none
  | depth + 1 =>
    rule .node (seq skip nodePath (seq skip (lit ['{'])
      (seq skip (star skip (entry (node depth)))
        (seq skip (lit ['}']) (lit [';'])))))

/-- `header`. -/
def header : Parser Rule :=
  seq skip (lit ['/', 'd', 't', 's', '-', 'v', '1', '/']) (lit [';'])

/-- `file`, from the start of the input, where `SOI` matches. -/
def file (depth : Nat) : Parser Rule := fun s =>
  seq skip header (seq skip (node depth) (eoi .eoi)) (skip s)

end Grammar

end ZephyrRust.Devicetree
