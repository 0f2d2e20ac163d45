import Mathlib.Data.List.Basic

/-!
# `ZephyrRust.Devicetree`: the device tree and its links

`zephyr-build/src/devicetree.rs`. The build script reads `zephyr.dts` into a tree of nodes. Two
walks over the finished tree then fill in the links that the parser cannot make. `phandle_walk`
resolves every reference to a label, and `parent_walk` sets the parent of every node.

A node lives in an `Rc`. Its address is the field `id`, which `Rc::new` gives to it. A link is the
address of its target, and `DeviceTree.deref` is the node at an address. The cells `parent` and
`Phandle::node` hold their present contents, so a walk that writes to the cells of a tree is a
function from the tree before to the tree after.
-/

set_option autoImplicit false

namespace ZephyrRust.Devicetree

/-- The address of a node. -/
abbrev Addr := Nat

/-- Where the build script panics. -/
inductive Panic
  /-- "Parsing zephyr.dts" -/
  | parsing
  /-- The `unwrap` and the `assert_eq!` in `TreeBuilder::walk`. -/
  | noNode
  /-- The match in `walk_node`, "node: {:?}", in `decode_property`, "rule: {:?}", or an
  `unreachable!` of the other decoders. -/
  | rule
  /-- "Grammar error, node has multiple names" -/
  | multipleNames
  /-- A node, or a property, without a name. -/
  | noName
  /-- The index into the `OrdMap` with this path. -/
  | noOrd (path : String)
  /-- The `unwrap` of a number that is not in range. -/
  | number
  /-- "Missing phandle" -/
  | missingPhandle (name : String)
  /-- The `unwrap` in `node_ref`. -/
  | unresolved (name : String)
  /-- "child node missing parent" -/
  | missingParent
  /-- "child node missing from parent" -/
  | missingChild
  /-- The `unwrap` of a property with this name. -/
  | noProperty (name : String)
  /-- "phandle property {:?} in node is empty" -/
  | emptyPhandle (name : String)
  /-- `assert!(*level > 0)` -/
  | level
  /-- The index into an empty list of cells. -/
  | noCell
  /-- The `unwrap` of a cell that is not a number. -/
  | notNumber
  /-- `format_ident!` of a text that is not an identifier. -/
  | ident (text : String)
  /-- No node has this address. In the source, an `Rc` always has its node. -/
  | address (a : Nat)
  deriving DecidableEq

/-- `Phandle`. -/
structure Phandle where
  name : String
  node : Option Addr
  deriving DecidableEq

/-- `Word`. -/
inductive Word
  | number (n : UInt32)
  | phandle (ph : Phandle)
  deriving DecidableEq

/-- `Value`. -/
inductive Value
  | words (words : List Word)
  | bytes (bytes : List UInt8)
  | phandle (ph : Phandle)
  | string (text : String)
  deriving DecidableEq

/-- `Property`. -/
structure Property where
  name : String
  value : List Value
  deriving DecidableEq

/-- `Node`. -/
structure Node where
  /-- The address. -/
  id : Nat
  name : String
  path : String
  route : List String
  ord : Nat
  labels : List String
  properties : List Property
  children : List Node
  parent : Option Addr

/-- The labels, in the order of the `BTreeMap`. -/
abbrev Labels := List (String × Addr)

/-- `BTreeMap::insert`. -/
def Labels.insert (label : String) (a : Addr) : Labels → Labels
  | [] => [(label, a)]
  | (l, b) :: rest =>
    if label < l then (label, a) :: (l, b) :: rest
    else if label = l then (label, a) :: rest
    else (l, b) :: Labels.insert label a rest

/-- `BTreeMap::get`. -/
def Labels.get (labels : Labels) (label : String) : Option Addr := List.lookup label labels

/-- `DeviceTree`. -/
structure DeviceTree where
  root : Node
  labels : Labels

/-! ## The nodes of a tree -/

mutual

/-- A node and all nodes below it, parents first. -/
def Node.nodes : Node → List Node
  | ⟨id, name, path, route, ord, labels, properties, children, parent⟩ =>
    ⟨id, name, path, route, ord, labels, properties, children, parent⟩ :: nodesOf children

/-- The nodes of a list of trees. -/
def nodesOf : List Node → List Node
  | [] => []
  | n :: ns => n.nodes ++ nodesOf ns

end

/-- The node at an address. -/
def DeviceTree.deref (dt : DeviceTree) (a : Addr) : Option Node :=
  dt.root.nodes.find? fun n => n.id = a

/-- The node in an `Rc`. -/
def DeviceTree.node (dt : DeviceTree) (a : Addr) : Except Panic Node :=
  match dt.deref a with
  | some n => .ok n
  | none => .error (.address a)

/-! ## The links -/

/-- `Phandle::new`. -/
def Phandle.new (name : String) : Phandle where
  name := name
  node := none

/-- `Phandle::phandle_resolve`. -/
def Phandle.phandleResolve (labels : Labels) (ph : Phandle) : Except Panic Phandle :=
  match ph.node with
  -- Already resolved.
  | some _ => .ok ph
  | none =>
    match labels.get ph.name with
    | some a => .ok { ph with node := some a }
    | none => .error (.missingPhandle ph.name)

/-- `Phandle::node_ref`. -/
def Phandle.nodeRef (ph : Phandle) : Except Panic Addr :=
  match ph.node with
  | some a => .ok a
  | none => .error (.unresolved ph.name)

/-- `Value::phandle_walk`, for one cell. -/
def Word.phandleWalk (labels : Labels) : Word → Except Panic Word
  | .number n => .ok (.number n)
  | .phandle ph => (ph.phandleResolve labels).map .phandle

/-- `Value::phandle_walk`. -/
def Value.phandleWalk (labels : Labels) : Value → Except Panic Value
  | .phandle ph => (ph.phandleResolve labels).map .phandle
  | .words ws => (ws.mapM (Word.phandleWalk labels)).map .words
  | .bytes bs => .ok (.bytes bs)
  | .string text => .ok (.string text)

/-- `Node::phandle_walk`, for one property. -/
def Property.phandleWalk (labels : Labels) (p : Property) : Except Panic Property :=
  (p.value.mapM (Value.phandleWalk labels)).map fun value => { p with value := value }

mutual

/-- `Node::phandle_walk`. -/
def Node.phandleWalk (labels : Labels) : Node → Except Panic Node
  | ⟨id, name, path, route, ord, ls, properties, children, parent⟩ => do
    let properties ← properties.mapM (Property.phandleWalk labels)
    let children ← phandleWalkAll labels children
    return ⟨id, name, path, route, ord, ls, properties, children, parent⟩

/-- `Node::phandle_walk`, for the children. -/
def phandleWalkAll (labels : Labels) : List Node → Except Panic (List Node)
  | [] => .ok []
  | n :: ns => do
    let n ← n.phandleWalk labels
    let ns ← phandleWalkAll labels ns
    return n :: ns

end

mutual

/-- `Node::parent_walk`. -/
def Node.parentWalk : Node → Node
  | ⟨id, name, path, route, ord, labels, properties, children, parent⟩ =>
    ⟨id, name, path, route, ord, labels, properties, parentWalkAll id children, parent⟩

/-- `Node::parent_walk`, for the children of the node at `a`. -/
def parentWalkAll (a : Addr) : List Node → List Node
  | [] => []
  | n :: ns => { n.parentWalk with parent := some a } :: parentWalkAll a ns

end

/-- `DeviceTree::new`, after the parser. -/
def DeviceTree.link (dt : DeviceTree) : Except Panic DeviceTree := do
  let root ← dt.root.phandleWalk dt.labels
  return { dt with root := root.parentWalk }

/-! ## Queries on a node -/

/-- `Word::as_number`. -/
def Word.asNumber : Word → Option UInt32
  | .number n => some n
  | .phandle _ => none

namespace Node

/-- `Node::is_compatible`. -/
def isCompatible (n : Node) (name : String) : Bool :=
  ((n.properties.filter fun p => p.name = "compatible").flatMap fun p => p.value).any fun v =>
    match v with
    | .string vn => name = vn
    | _ => false

/-- `Node::has_prop`. -/
def hasProp (n : Node) (name : String) : Bool :=
  n.properties.any fun p => p.name = name

/-- `Node::get_property`. -/
def getProperty (n : Node) (name : String) : Option (List Value) :=
  (n.properties.find? fun p => p.name = name).map fun p => p.value

/-- `Node::get_words`. -/
def getWords (n : Node) (name : String) : Option (List Word) :=
  match n.getProperty name with
  | some [.words w] => some w
  | _ => none

/-- `Node::get_number`. -/
def getNumber (n : Node) (name : String) : Option UInt32 :=
  match n.getWords name with
  | some [.number k] => some k
  | _ => none

/-- `Node::get_numbers`. -/
def getNumbers (n : Node) (name : String) : Option (List UInt32) :=
  (n.getWords name).bind fun words => words.mapM Word.asNumber

/-- `Node::get_single_string`. -/
def getSingleString (n : Node) (name : String) : Option String :=
  match n.getProperty name with
  | some [.string text] => some text
  | _ => none

/-- The parent, when the cell is set. -/
def parentIn (dt : DeviceTree) (n : Node) : Option Node := n.parent.bind dt.deref

/-- `Node::compatible_path`. -/
def compatiblePath (dt : DeviceTree) : List (Option String) → Node → Bool
  -- The empty path always matches.
  | [], _ => true
  | first :: path, n =>
    if !(match first with
      | some name => !n.isCompatible name
      | none => false) then false
    else
      match n.parentIn dt with
      | some child => compatiblePath dt path child
      | none => false

/-- `Node::child_index`. -/
def childIndex (dt : DeviceTree) (n : Node) : Except Panic Nat :=
  match n.parentIn dt with
  | none => .error .missingParent
  | some p =>
    match p.children.findIdx? fun c => c.id = n.id with
    | none => .error .missingChild
    | some i => .ok i

end Node

end ZephyrRust.Devicetree
