import ManagementPlane.Definition.Operation
import ManagementPlane.Resource.Basic

/-!
# Resource/Populate — a new resource from the parameters of an operation

The operation `add` takes every attribute of a resource as a parameter.  `populate` checks each of
them and stores those that are set.
-/

namespace ManagementPlane

/-- The definition of an `add` that takes the given attributes. -/
def addDefinition (attributes : List AttributeDefinition) : OperationDefinition :=
  .of "add" "Adds the resource" attributes .undefined false

def removeDefinition : OperationDefinition :=
  .of "remove" "Removes the resource" [] .undefined false

namespace Resource

/-- The set attributes, each checked in order. -/
def populatedAttributes (operation : Value) :
    List AttributeDefinition → Except OperationError (List (String × Value))
  | [] => .ok []
  | d :: ds => do
    let v := operation.get d.name
    d.check v
    let rest ← populatedAttributes operation ds
    return if v.isDefined then (d.name, v) :: rest else rest

/-- The resource that an `add` creates. -/
def populate (attributes : List AttributeDefinition) (operation : Value) :
    Except OperationError Resource :=
  (populatedAttributes operation attributes).map fun pairs => ofAttributes (Dict.ofList pairs)

end Resource

end ManagementPlane
