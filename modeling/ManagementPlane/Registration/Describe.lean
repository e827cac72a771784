import ManagementPlane.Registration.Lookup

/-!
# Registration/Describe — a registration shown as a value

A description holds the attributes of a node, its capabilities if it has any, its operations if they
are asked for, and its children: as descriptions of their own when it is recursive, and in name only
when it is not or when a proxy answers for them.
-/

namespace ManagementPlane

def AttributeEntry.describe (entry : AttributeEntry) : Value :=
  entry.definition.describe.set "access-type" entry.access.name

namespace Registration

/-- The part of a description that does not show children. -/
def describeSelf (r : Registration) (operations : Bool) : List (String × Value) :=
  [("description", .string r.description),
    ("attributes", .object (Dict.mapValues AttributeEntry.describe r.attributes))]
    ++ (if r.capabilities.isEmpty then []
      else [("capabilities", .ofStrings r.capabilities)])
    ++ (if operations then
        [("operations", .object (Dict.mapValues (·.definition.describe) r.operations))]
      else [])

mutual

/-- A node with its attributes, and as asked with its operations and the nodes below it. -/
def describe (recursive operations : Bool) (r : Registration) : Value :=
  match r with
  | ⟨address, description, ops, attributes, capabilities, children, proxy⟩ =>
    let self := describeSelf ⟨address, description, ops, attributes, capabilities, [], proxy⟩
      operations
    .object (self ++ [("children", .object (describeGroups recursive operations children))])

def describeGroups (recursive operations : Bool) :
    List (String × List (String × Registration)) → List (String × Value)
  | [] => []
  | (type, group) :: rest =>
    (type, .object [("description", .string ("Children of type " ++ type)),
        ("model-description", .object (describePatterns recursive operations group))])
      :: describeGroups recursive operations rest

def describePatterns (recursive operations : Bool) :
    List (String × Registration) → List (String × Value)
  | [] => []
  | (pattern, child) :: rest =>
    (pattern, if recursive && !child.isProxied then describe recursive operations child
        else .object [("description", .string child.description)])
      :: describePatterns recursive operations rest

end

end Registration

end ManagementPlane
