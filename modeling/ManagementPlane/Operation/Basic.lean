import ManagementPlane.Address.Codec

/-!
# Operation/Basic — operations as values

An operation is an object: its name under `operation`, the resource it addresses under `address`,
and its parameters under their own names.  `parse` reads name and address, `booleanParam` and
`stringParam` a parameter.
-/

namespace ManagementPlane

namespace Key

def operation : String := "operation"
def address : String := "address"
def operationHeaders : String := "operation-headers"
def outcome : String := "outcome"
def success : String := "success"
def failed : String := "failed"
def result : String := "result"
def failureDescription : String := "failure-description"
def rolledBack : String := "rolled-back"
def responseHeaders : String := "response-headers"
def processState : String := "process-state"
def name : String := "name"
def value : String := "value"
def recursive : String := "recursive"
def proxies : String := "proxies"
def includeDefaults : String := "include-defaults"
def operations : String := "operations"
def childType : String := "child-type"
def steps : String := "steps"

end Key

namespace Operation

/-- Keys of an operation that are no parameters. -/
def isReserved (key : String) : Bool :=
  key = Key.operation || key = Key.address || key = Key.operationHeaders

/-- An operation without parameters. -/
def build (name : String) (address : Address) : Value :=
  .object [(Key.operation, .string name), (Key.address, address.toValue)]

/-- The address an operation carries. -/
def addressOf (operation : Value) : Except OperationError Address :=
  Address.ofValue (operation.get Key.address)

/-- The name and the address of an operation.  The name must not be empty, and only registrations
may address with wildcards. -/
def parse (operation : Value) : Except OperationError (String × Address) :=
  match operation.get? Key.operation with
  | some (.string name) =>
    if name.isEmpty then .error (.missingParameter Key.operation)
    else do
      let address ← addressOf operation
      if address.isConcrete then return (name, address)
      else throw (.invalidAddress (address.text ++ " contains a wildcard"))
  | _ => .error (.missingParameter Key.operation)

/-- An optional boolean parameter. -/
def booleanParam (operation : Value) (name : String) (default : Bool) :
    Except OperationError Bool :=
  let v := operation.get name
  if !v.isDefined then .ok default
  else match v.asBoolean? with
    | some b => .ok b
    | none => .error (.invalidParameter name "expected a boolean")

/-- A required string parameter. -/
def stringParam (operation : Value) (name : String) : Except OperationError String :=
  let v := operation.get name
  if !v.isDefined then .error (.missingParameter name)
  else match v.asString? with
    | some s => .ok s
    | none => .error (.invalidParameter name "expected a string")

end Operation

end ManagementPlane
