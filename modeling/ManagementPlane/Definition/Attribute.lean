import ManagementPlane.Error
import ManagementPlane.Value.Printer

/-!
# Definition/Attribute — the schema of an attribute or a parameter

A definition says which values an attribute may hold.  `check` reports the first thing wrong with
a value, in this order: missing, wrong type, too short, not among the allowed ones, a bad field,
an unknown field.
-/

namespace ManagementPlane

/-- What is known of one attribute or parameter. -/
structure AttributeDefinition where
  name : String
  type : ValueType
  description : String := ""
  /-- Whether the attribute may be left out. -/
  nillable : Bool := true
  minLength : Option Nat := none
  default : Option Value := none
  /-- The values to choose from; empty means any. -/
  allowed : List Value := []
  /-- The fields of an object, by name; empty means any. -/
  fields : List (String × AttributeDefinition) := []
  deriving Inhabited, Repr

namespace AttributeDefinition

/-- Whether a value is of the given type.  Numbers and booleans written as strings count, and an
undefined type takes everything. -/
def accepts (type : ValueType) (v : Value) : Bool :=
  match type with
  | .undefined => true
  | .integer => v.asInteger?.isSome
  | .double => v.asDouble?.isSome
  | .boolean => v.asBoolean?.isSome
  | type => type = v.type

/-- The length that a minimum applies to. -/
def lengthOf? : Value → Option Nat
  | .string s => some s.length
  | .list items => some items.length
  | _ => none

/-- Checks all but the fields of an object. -/
def checkScalar (d : AttributeDefinition) (v : Value) : Except OperationError Unit := do
  unless accepts d.type v do
    throw (.invalidParameter d.name
      ("expected " ++ d.type.name ++ " but found " ++ v.type.name))
  match d.minLength, lengthOf? v with
  | some least, some n =>
    if n < least then
      throw (.invalidParameter d.name
        ("length " ++ toString n ++ " is shorter than the minimum " ++ toString least))
  | _, _ => pure ()
  unless d.allowed.isEmpty || d.allowed.any (· == v) do
    throw (.invalidParameter d.name (v.render ++ " is not one of the allowed values"))

/-- The first key of an object that no field declares. -/
def unknownField? (declared : List (String × AttributeDefinition)) (v : Value) : Option String :=
  if declared.isEmpty then none else v.keys.find? (!Dict.has declared ·)

mutual

/-- Checks a value against a definition. -/
def check (d : AttributeDefinition) (v : Value) : Except OperationError Unit :=
  if !v.isDefined then
    if d.nillable || d.default.isSome then .ok () else .error (.missingParameter d.name)
  else do
    d.checkScalar v
    match d with
    | ⟨name, _, _, _, _, _, _, fields⟩ =>
      if v.type = .object then
        checkFields fields v
        match unknownField? fields v with
        | some key => throw (.invalidParameter name ("unknown field '" ++ key ++ "'"))
        | none => pure ()

/-- Checks the declared fields of an object in order. -/
def checkFields (declared : List (String × AttributeDefinition)) (v : Value) :
    Except OperationError Unit :=
  match declared with
  | [] => .ok ()
  | (key, d) :: rest => do
    check d (v.get key)
    checkFields rest v

end

mutual

/-- What a resource description shows of an attribute. -/
def describe (d : AttributeDefinition) : Value :=
  match d with
  | ⟨_, type, description, nillable, minLength, default, allowed, fields⟩ =>
    let shown : List (String × Value) :=
      [("type", .string type.name), ("description", .string description),
        ("nillable", .boolean nillable)]
    let length := (minLength.map fun n => ("min-length", Value.ofNat n)).toList
    let default := (default.map fun v => ("default", v)).toList
    let choices := if allowed.isEmpty then [] else [("allowed", Value.list allowed)]
    let inner := match fields with
      | [] => []
      | fields => [("value-type", Value.object (describeFields fields))]
    .object (shown ++ length ++ default ++ choices ++ inner)

def describeFields (declared : List (String × AttributeDefinition)) : List (String × Value) :=
  match declared with
  | [] => []
  | (key, d) :: rest => (key, describe d) :: describeFields rest

end

/-- Declares a field. -/
def withField (d field : AttributeDefinition) : AttributeDefinition :=
  { d with fields := Dict.put d.fields field.name field }

end AttributeDefinition

end ManagementPlane
