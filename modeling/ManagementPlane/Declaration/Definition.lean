import ManagementPlane.Address.Codec
import ManagementPlane.Declaration.Fields
import ManagementPlane.Definition.Operation
import ManagementPlane.Resource.Basic

/-!
# Declaration/Definition — definitions, resources and errors declared as values

Each reader below takes a declaration apart.  Declarations that contain others of their kind are
read to the depth of the value, which is as deep as they can go.
-/

namespace ManagementPlane

/-- The type named under a key; an unknown one is undefined. -/
def ValueType.declared (v : Value) (key : String) : ValueType :=
  (ValueType.ofName? (v.textAt key)).getD .undefined

namespace AttributeDefinition

/-- A definition without the fields of its values. -/
def declaredFlat (v : Value) : AttributeDefinition where
  name := v.textAt "name"
  type := ValueType.declared v "type"
  description := v.textAt "description"
  nillable := !v.flagAt "required"
  minLength := v.countAt? "min_length"
  default := v.get? "default"
  allowed := v.itemsAt "allowed"

def declaredTo : Nat → Value → AttributeDefinition
  | 0, v => declaredFlat v
  | n + 1, v =>
    (v.itemsAt "fields").foldl (fun d f => d.withField (declaredTo n f)) (declaredFlat v)

def declared (v : Value) : AttributeDefinition := declaredTo v.depth v

end AttributeDefinition

def OperationDefinition.declared (v : Value) : OperationDefinition :=
  .of (v.textAt "name") (v.textAt "description")
    ((v.itemsAt "parameters").map AttributeDefinition.declared)
    (ValueType.declared v "reply_type") (v.flagAt "read_only")

namespace Resource

def declaredTo : Nat → Value → Resource
  | 0, v => .ofAttributes (v.get "attributes").fields
  | n + 1, v =>
    (v.itemsAt "children").foldl
      (fun r c => r.putChild ⟨c.textAt "type", c.textAt "name"⟩ (declaredTo n (c.get "resource")))
      (.ofAttributes (v.get "attributes").fields)

def declared (v : Value) : Resource := declaredTo v.depth v

end Resource

/-- An error of the named kind; an unknown kind is a plain failure. -/
def OperationError.declared (v : Value) : OperationError :=
  let text := v.textAt "text"
  let name := v.textAt "name"
  let address : Address := match Address.ofValue (v.get "address") with
    | .ok a => a
    | .error _ => Address.root
  match v.textAt "kind" with
  | "InvalidAddress" => .invalidAddress text
  | "UnknownAddress" => .unknownAddress address
  | "UnknownOperation" => .unknownOperation name address
  | "ResourceNotFound" => .resourceNotFound address
  | "DuplicateResource" => .duplicateResource address
  | "ConcurrentModification" => .concurrentModification address
  | "MissingParameter" => .missingParameter text
  | "InvalidParameter" => .invalidParameter name text
  | "Timeout" => .timeout (v.countAt "ms") text
  | "Cancelled" => .cancelled
  | "Proxy" => .proxy text
  | "ContractViolation" => .contractViolation text
  | _ => .failed text

end ManagementPlane
