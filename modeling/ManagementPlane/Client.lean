import ManagementPlane.Plane.Basic
import ManagementPlane.Registration.Global
import ManagementPlane.Value.Printer

/-!
# Client — operations for callers who want results

Each request below is the operation of a common task, and `Client.result` reads the result off the
answer: a failed response is an error with the description of the failure.
-/

namespace ManagementPlane

/-- Why a caller got no result. -/
inductive ClientError
  | controller (e : ExecutionError)
  | operationFailed (description : String)
  deriving DecidableEq, Repr, Inhabited

def ClientError.message : ClientError → String
  | controller e => e.message
  | operationFailed description => "Operation failed: " ++ description

namespace Client

/-- The result of a response that succeeded. -/
def resultOf (response : Value) : Except ClientError Value :=
  if Response.isSuccess response then .ok (Response.result response)
  else .error (.operationFailed
    ((Response.failureText? response).getD "no failure description"))

/-- The result that an answer carries. -/
def result : Answer → Except ClientError Value
  | .ok (response, _) => resultOf response
  | .error e => .error (.controller e)

/-- Reads a resource; a recursive read follows the proxies. -/
def readResource (a : Address) (recursive : Bool) : Value :=
  ((Operation.build GlobalOperation.readResource.name a).set Key.recursive recursive).set
    Key.proxies recursive

def readAttribute (a : Address) (name : String) : Value :=
  (Operation.build GlobalOperation.readAttribute.name a).set Key.name name

def writeAttribute (a : Address) (name : String) (v : Value) : Value :=
  ((Operation.build GlobalOperation.writeAttribute.name a).set Key.name name).set Key.value v

def readChildrenNames (a : Address) (type : String) : Value :=
  (Operation.build GlobalOperation.readChildrenNames.name a).set Key.childType type

/-- Adds a resource with the fields of an object as its attributes. -/
def add (a : Address) (attributes : Value) : Value :=
  attributes.fields.foldl (fun operation (name, v) => operation.set name v)
    (Operation.build "add" a)

def remove (a : Address) : Value := Operation.build "remove" a

/-- The names in a list. -/
def names (v : Value) : List String := ((v.asList?).getD []).map Value.plain

end Client

end ManagementPlane
