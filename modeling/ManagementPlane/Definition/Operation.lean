import ManagementPlane.Definition.Attribute
import ManagementPlane.Operation.Basic

/-!
# Definition/Operation — the schema of an operation

Its parameters, the type of its reply, and whether it leaves the model alone.
-/

namespace ManagementPlane

/-- What is known of one operation. -/
structure OperationDefinition where
  name : String
  description : String := ""
  parameters : Dict AttributeDefinition := []
  replyType : ValueType := .undefined
  /-- A read-only operation runs without the write lock. -/
  readOnly : Bool := false
  deriving Inhabited, Repr

namespace OperationDefinition

/-- Declares a parameter. -/
def withParameter (d : OperationDefinition) (p : AttributeDefinition) : OperationDefinition :=
  { d with parameters := Dict.put d.parameters p.name p }

/-- An operation of the given parameters. -/
def of (name description : String) (parameters : List AttributeDefinition)
    (replyType : ValueType) (readOnly : Bool) : OperationDefinition :=
  parameters.foldl withParameter { name, description, replyType, readOnly }

/-- The first key of an operation that is neither reserved nor a parameter. -/
def unknownParameter? (d : OperationDefinition) (operation : Value) : Option String :=
  operation.keys.find? fun key => !Operation.isReserved key && !Dict.has d.parameters key

/-- Checks the parameters of an operation: no unknown ones, and each declared one in order. -/
def check (d : OperationDefinition) (operation : Value) : Except OperationError Unit :=
  match d.unknownParameter? operation with
  | some key =>
    .error (.invalidParameter key ("'" ++ d.name ++ "' does not accept this parameter"))
  | none => AttributeDefinition.checkFields d.parameters operation

/-- What an operation description shows. -/
def describe (d : OperationDefinition) : Value :=
  .object
    [("operation-name", .string d.name), ("description", .string d.description),
      ("request-properties", .object (AttributeDefinition.describeFields d.parameters)),
      ("reply-properties",
        .object (if d.replyType = .undefined then [] else [("type", .string d.replyType.name)])),
      ("read-only", .boolean d.readOnly)]

end OperationDefinition

end ManagementPlane
