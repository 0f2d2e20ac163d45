import ZephyrRust.Devicetree
import ZephyrRust.Devicetree.Grammar

/-!
# `ZephyrRust.Devicetree.Items`: the generated code

What the build script writes to `devicetree.rs`, as data. `Item` has one constructor for each kind of
item that the `quote!` blocks of `zephyr-build/src/devicetree/output.rs` and `augment.rs` make. The
names in it are the texts of the identifiers.

`format_ident!` panics when its text is not an identifier. `isIdent` is its check on ASCII texts, and
the names from `dts.pest` are such texts.
-/

set_option autoImplicit false

namespace ZephyrRust.Devicetree

/-! ## Identifiers -/

/-- A character of `fix_id`. -/
def fixChar (c : Char) : Char :=
  if c = '#' then 'N'
  else if c = '-' ∨ c = '@' ∨ c = ',' then '_'
  else c

/-- `fix_id`. -/
def fixId (text : String) : String := String.ofList (text.toList.map fixChar)

/-- The check of `Ident::new`, on ASCII texts. -/
def isIdent (text : String) : Bool :=
  match text.toList with
  | [] => false
  | c :: t => (Grammar.isAlpha c || c = '_') && t.all Grammar.isLabelChar

/-- `format_ident!` with one text. -/
def formatIdent (text : String) : Except Panic String :=
  if isIdent text then .ok text else .error (.ident text)

/-- `dt_to_lower_id`. -/
def dtToLowerId (text : String) : Except Panic String := formatIdent (fixId text)

/-- `dt_to_upper_id`. -/
def dtToUpperId (text : String) : Except Panic String := formatIdent (fixId text.toUpper)

/-- The parts of a text between the `::`, with the part so far in front. -/
def splitPathLoop (part : List Char) : List Char → List (List Char)
  | ':' :: ':' :: t => part :: splitPathLoop [] t
  | c :: t => splitPathLoop (part ++ [c]) t
  | [] => [part]

/-- `path.split("::")`. -/
def splitPath (path : String) : List String := (splitPathLoop [] path.toList).map String.ofList

/-- `str_to_path`. -/
def strToPath (path : String) : Except Panic (List String) := (splitPath path).mapM formatIdent

/-- `Node::route_to_rust`, without the `crate::devicetree` in front. -/
def Node.routeToRust (n : Node) : Except Panic (List String) := n.route.mapM dtToLowerId

/-! ## Items -/

/-- A module in the generated code, as a path names it. -/
inductive ModPath
  /-- The module that the path is in. -/
  | here
  /-- `crate::devicetree` and the names of the route. -/
  | crate (route : List String)
  /-- `super`, `level` times. -/
  | super (level : Nat)
  deriving DecidableEq

/-- A `Word` of the generated code. -/
inductive RawWord
  | number (n : UInt32)
  | gpio (name : String) (args : List UInt32)
  | phandle (name : String)
  deriving DecidableEq

/-- A `Value` of the generated code. -/
inductive RawValue
  | bytes (bytes : List UInt8)
  | string (text : String)
  | phandle (name : String)
  | words (words : List RawWord)
  deriving DecidableEq

/-- The body of a generated function. -/
inductive Body
  /-- `&crate::raw::__device_dts_ord_{ord}` -/
  | device (ord : Nat)
  /-- `&STATIC` -/
  | static
  /-- `let device = raw::get_instance_raw()`, maybe `let device_static = raw::get_static_raw()`, and
  then `device::new(&UNIQUE, &STATIC, device, device_static, args)`. -/
  | new (device : List String) (raw : ModPath) (withStatic : Bool) (args : List UInt32)
  deriving DecidableEq

/-- An item of the generated code. -/
inductive Item
  /-- `pub const ORD: usize = n;` -/
  | ord (n : Nat)
  /-- `pub const tag: u32 = n;` -/
  | number (tag : String) (n : UInt32)
  /-- `pub const tag: &str`, with the text of `{:?}` for the value. -/
  | debug (tag : String) (value : List Value)
  /-- `pub use crate::devicetree::route::*;` -/
  | reexport (route : List String)
  /-- `pub mod name { items }` -/
  | mod (name : String) (items : List Item)
  /-- `pub static name: &'static [crate::devicetree::Value]` -/
  | rawProperty (name : String) (value : List RawValue)
  /-- `static name: type`, maybe under a `#[cfg(..)]`. -/
  | static (cfg : Option String) (name : String) (type : List String)
  /-- `pub fn name()`, maybe under a `#[cfg(..)]`. -/
  | fn (cfg : Option String) (name : String) (body : Body)

end ZephyrRust.Devicetree
