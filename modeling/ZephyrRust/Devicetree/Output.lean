import ZephyrRust.Devicetree.Augment

/-!
# `ZephyrRust.Devicetree.Output`: the modules and the cfg lines

`zephyr-build/src/devicetree/output.rs`. `to_tokens` turns the device tree into a tree of modules, and
`output_node_paths` writes the lines that tell `cargo` which modules there are. They are two walks of
their own.
-/

set_option autoImplicit false

namespace ZephyrRust.Devicetree

/-! ## Modules -/

/-- `Property::get_single_value`. -/
def Property.getSingleValue (p : Property) : Option Value :=
  match p.value with
  | [v] => some v
  | _ => none

/-- `general_property`. -/
def generalProperty (p : Property) : Except Panic Item := do
  let tag ← dtToUpperId (p.name ++ "_DEBUG")
  return .debug tag p.value

/-- `DeviceTree::property_walk`. -/
def DeviceTree.propertyWalk (dt : DeviceTree) (p : Property) : Except Panic Item :=
  match p.getSingleValue with
  | some (.words [.number n]) => do
    let tag ← dtToUpperId p.name
    return .number tag n
  | some (.phandle ph) => do
    let target ← ph.nodeRef
    let target ← dt.node target
    let route ← target.routeToRust
    let tag ← dtToLowerId p.name
    return .mod tag [.reexport route]
  | _ => generalProperty p

mutual

/-- `DeviceTree::node_walk` without the module around it: the properties, the children and what the
augmentations add. -/
def DeviceTree.nodeItems (dt : DeviceTree) (augs : List Augment) :
    Node → Except Panic (List Item)
  | ⟨id, name, path, route, ord, labels, properties, children, parent⟩ => do
    let props ← properties.mapM dt.propertyWalk
    let mods ← DeviceTree.childModules dt augs children
    let added ← augs.mapM fun aug =>
      aug.augment dt ⟨id, name, path, route, ord, labels, properties, children, parent⟩
    return props ++ mods ++ added.flatten

/-- `DeviceTree::node_walk` for the children, with a name: one module each. -/
def DeviceTree.childModules (dt : DeviceTree) (augs : List Augment) :
    List Node → Except Panic (List Item)
  | [] => .ok []
  | n :: ns => do
    let nameId ← dtToLowerId n.name
    let items ← DeviceTree.nodeItems dt augs n
    let mods ← DeviceTree.childModules dt augs ns
    return .mod nameId (.ord n.ord :: items) :: mods

end

/-- `DeviceTree::to_tokens`. -/
def DeviceTree.toTokens (dt : DeviceTree) (augs : List Augment) : Except Panic (List Item) :=
  dt.nodeItems augs dt.root

/-! ## Lines -/

/-- A line for a module. -/
def cfgLine (path : String) : String := "cargo:rustc-cfg=dt=\"" ++ path ++ "\""

/-- `Property::output_path`. -/
def Property.outputPath (p : Property) (name : String) : List String :=
  match p.getSingleValue with
  | some (.phandle _) => [cfgLine (name ++ "::" ++ fixId p.name)]
  | _ => []

/-- The name of a child in `output_path_walk`. -/
def childName (name : Option String) (child : String) : String :=
  match name with
  | some name => name ++ "::" ++ fixId child
  | none => fixId child

mutual

/-- `Node::output_path_walk`. -/
def Node.outputPathWalk (name : Option String) : Node → List String
  | ⟨_, _, _, _, _, _, _, children, _⟩ => outputPathWalkAll name children

/-- `Node::output_path_walk`, for the children. -/
def outputPathWalkAll (name : Option String) : List Node → List String
  | [] => []
  | c :: cs =>
    [cfgLine (childName name c.name)] ++
      c.properties.flatMap (fun p => p.outputPath (childName name c.name)) ++
      c.outputPathWalk (some (childName name c.name)) ++ outputPathWalkAll name cs

end

/-- `DeviceTree::output_node_paths`. -/
def DeviceTree.outputNodePaths (dt : DeviceTree) : List String :=
  dt.root.outputPathWalk none ++ [cfgLine "labels"] ++
    dt.labels.map fun e => cfgLine ("labels::" ++ fixId e.1)

end ZephyrRust.Devicetree
