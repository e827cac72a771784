import ManagementPlane.Definition.Operation
import ManagementPlane.Pipeline.Handler

/-!
# Registration/Basic — the schema of a management model

A `Registration` is a tree of address patterns.  Each node says which operations and attributes the
resources of its pattern have, and a node with a proxy hands everything below it to another
controller.  A registration is either accepted as a whole or refused with a `RegistrationError`
that leaves the tree alone.
-/

namespace ManagementPlane

/-- How an attribute may be used. -/
inductive Access
  | readOnly
  | readWrite
  /-- Computed on every read. -/
  | metric
  deriving DecidableEq, Repr, Inhabited

def Access.name : Access → String
  | readOnly => "read-only"
  | readWrite => "read-write"
  | metric => "metric"

structure AttributeEntry where
  definition : AttributeDefinition
  access : Access
  /-- Reads in place of the model. -/
  reader : Option Handler := none
  /-- Writes in place of the model. -/
  writer : Option Handler := none
  deriving Inhabited, Repr

structure OperationEntry where
  definition : OperationDefinition
  handler : Handler
  /-- Whether all resources below have the operation too. -/
  inherited : Bool := false
  deriving Inhabited, Repr

structure Registration where
  address : Address
  description : String
  operations : List (String × OperationEntry) := []
  attributes : List (String × AttributeEntry) := []
  capabilities : List String := []
  /-- The patterns of each child type. -/
  children : List (String × List (String × Registration)) := []
  proxy : Option Proxy := none
  deriving Inhabited, Repr

namespace Registration

/-- A tree of the root alone. -/
def root (description : String) : Registration := { address := Address.root, description }

def isProxied (r : Registration) : Bool := r.proxy.isSome

/-! ## Nodes by pattern -/

/-- The patterns of one child type. -/
def group (r : Registration) (type : String) : Dict Registration :=
  (Dict.get? r.children type).getD []

/-- The child registered under exactly this element. -/
def node? (r : Registration) (e : Element) : Option Registration :=
  Dict.get? (r.group e.key) e.value

/-- The node of a pattern. -/
def nodeAt? (r : Registration) : Address → Option Registration
  | [] => some r
  | e :: es => (r.node? e).bind (nodeAt? · es)

def putNode (r : Registration) (e : Element) (child : Registration) : Registration :=
  { r with children := Dict.put r.children e.key (Dict.put (r.group e.key) e.value child) }

/-- Replaces the node of a pattern. -/
def replaceAt (new : Registration) : Address → Registration → Registration
  | [], _ => new
  | e :: es, r =>
    match r.node? e with
    | some c => r.putNode e (replaceAt new es c)
    | none => r

/-- Changes the node of a pattern, which must be registered. -/
def changeAt (r : Registration) (pattern : Address)
    (change : Registration → Except RegistrationError Registration) :
    Except RegistrationError Registration :=
  match r.nodeAt? pattern with
  | none => .error (.noSuchParent pattern)
  | some node => (change node).map fun new => replaceAt new pattern r

/-! ## Registering at a node -/

def addOperation (entry : OperationEntry) (r : Registration) :
    Except RegistrationError Registration :=
  let name := entry.definition.name
  if Dict.has r.operations name then .error (.duplicateOperation name r.address)
  else .ok { r with operations := Dict.put r.operations name entry }

def addAttribute (entry : AttributeEntry) (r : Registration) :
    Except RegistrationError Registration :=
  let name := entry.definition.name
  if Dict.has r.attributes name then .error (.duplicateAttribute name r.address)
  else .ok { r with attributes := Dict.put r.attributes name entry }

/-- Capabilities form a set. -/
def addCapability (name : String) (r : Registration) : Registration :=
  if name ∈ r.capabilities then r else { r with capabilities := r.capabilities ++ [name] }

/-- Adds a child.  Nothing can be added below a proxy. -/
def addNode (e : Element) (description : String) (proxy : Option Proxy) (r : Registration) :
    Except RegistrationError Registration :=
  if r.isProxied then .error (.proxyConflict r.address)
  else
    let address := r.address ++ [e]
    if (r.node? e).isSome then .error (.duplicateSubModel address)
    else .ok (r.putNode e { address, description, proxy })

/-! ## Registering at a pattern -/

def addOperationAt (r : Registration) (pattern : Address) (entry : OperationEntry) :
    Except RegistrationError Registration :=
  r.changeAt pattern (addOperation entry)

def addAttributeAt (r : Registration) (pattern : Address) (entry : AttributeEntry) :
    Except RegistrationError Registration :=
  r.changeAt pattern (addAttribute entry)

def addCapabilityAt (r : Registration) (pattern : Address) (name : String) :
    Except RegistrationError Registration :=
  r.changeAt pattern fun node => .ok (addCapability name node)

/-- Adds a node below the parent of its pattern. -/
def addSubModelAt (r : Registration) (pattern : Address) (description : String) :
    Except RegistrationError Registration :=
  match pattern.getLast? with
  | none => .error .rootPattern
  | some e => r.changeAt pattern.parent (addNode e description none)

/-- Adds a node that a proxy answers for. -/
def addProxyAt (r : Registration) (pattern : Address) (proxy : Proxy) :
    Except RegistrationError Registration :=
  match pattern.getLast? with
  | none => .error .rootPattern
  | some e => r.changeAt pattern.parent (addNode e ("Remote controller at " ++ e.text) (some proxy))

end Registration

end ManagementPlane
