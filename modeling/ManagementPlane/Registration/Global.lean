import ManagementPlane.Registration.Basic

/-!
# Registration/Global — the operations that every resource has

The global operations are registered at the root and inherited by everything below it.  A resource
may register one of their names for itself.
-/

namespace ManagementPlane

namespace GlobalOperation

/-- In the order of their registration. -/
def all : List GlobalOperation :=
  [readResource, readAttribute, writeAttribute, undefineAttribute, readChildrenNames,
    readChildrenTypes, readOperationNames, readOperationDescription, readResourceDescription,
    composite, validate]

def name : GlobalOperation → String
  | readResource => "read-resource"
  | readAttribute => "read-attribute"
  | writeAttribute => "write-attribute"
  | undefineAttribute => "undefine-attribute"
  | readChildrenNames => "read-children-names"
  | readChildrenTypes => "read-children-types"
  | readOperationNames => "read-operation-names"
  | readOperationDescription => "read-operation-description"
  | readResourceDescription => "read-resource-description"
  | composite => "composite"
  | validate => "validate-operation"

/-- An optional parameter that turns something on or off. -/
def flag (name : String) (default : Bool) (description : String) : AttributeDefinition :=
  { name, type := .boolean, description, default := some default }

/-- A required text. -/
def text (name description : String) : AttributeDefinition :=
  { name, type := .string, description, nillable := false, minLength := some 1 }

def recursiveFlag : AttributeDefinition :=
  flag Key.recursive false "Include the children of the resource"

def proxiesFlag : AttributeDefinition :=
  flag Key.proxies false "Follow proxied controllers when recursing"

def definition (g : GlobalOperation) : OperationDefinition :=
  match g with
  | readResource =>
    .of g.name "Reads the attributes and children of a resource"
      [recursiveFlag, proxiesFlag,
        flag Key.includeDefaults true "Report default values of unset attributes"] .object true
  | readAttribute =>
    .of g.name "Reads the value of one attribute"
      [text Key.name "The attribute name",
        flag Key.includeDefaults true "Report the default if the attribute is unset"]
      .undefined true
  | writeAttribute =>
    .of g.name "Writes the value of one read-write attribute"
      [text Key.name "The attribute name",
        { name := Key.value, type := .undefined, description := "The new value" }]
      .undefined false
  | undefineAttribute =>
    .of g.name "Clears one read-write attribute" [text Key.name "The attribute name"]
      .undefined false
  | readChildrenNames =>
    .of g.name "Lists the names of the children of one type"
      [text Key.childType "The child type"] .list true
  | readChildrenTypes => .of g.name "Lists the child types registered for a resource" [] .list true
  | readOperationNames => .of g.name "Lists the operations valid at a resource" [] .list true
  | readOperationDescription =>
    .of g.name "Describes one operation valid at a resource"
      [text Key.name "The operation name"] .object true
  | readResourceDescription =>
    .of g.name "Describes the attributes, children and operations of a resource"
      [recursiveFlag, flag Key.operations false "Include operation descriptions", proxiesFlag]
      .object true
  | composite =>
    .of g.name "Runs several operations as one transaction"
      [{ name := Key.steps, type := .list, nillable := false,
         description := "The operations to run, in order" }] .object false
  | validate =>
    .of g.name "Checks an operation against its definition without running it"
      [{ name := Key.value, type := .object, nillable := false,
         description := "The operation to validate" }] .undefined true

def entry (g : GlobalOperation) : OperationEntry :=
  { definition := g.definition, handler := .global g, inherited := true }

end GlobalOperation

namespace Registration

/-- Registers operations one after another, up to the first that is refused; those before it
stay. -/
def addOperations : List OperationEntry → Registration →
    Option RegistrationError × Registration
  | [], r => (none, r)
  | entry :: rest, r =>
    match addOperation entry r with
    | .ok next => addOperations rest next
    | .error e => (some e, r)

/-- Registers the global operations at the root. -/
def addGlobals (r : Registration) : Option RegistrationError × Registration :=
  addOperations (GlobalOperation.all.map GlobalOperation.entry) r

end Registration

end ManagementPlane
