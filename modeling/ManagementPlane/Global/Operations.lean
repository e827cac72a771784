import ManagementPlane.Global.Composite
import ManagementPlane.Global.Rendering

/-!
# Global/Operations — what the global operations do

`GlobalOperation.run` is the work of each of them, on the context of the step that runs it.  Reads
answer from the model and the registration; a read that reaches into proxied controllers queues a
forwarded step per proxy and a last one that splices their answers in.
-/

namespace ManagementPlane

namespace Delegation

/-- Allots a slot to the answer of each delegation. -/
def allot : List Delegation → Context → List (Delegation × Nat) × Context
  | [], x => ([], x)
  | d :: ds, x =>
    let (i, x) := x.newSlot
    let (rest, x) := allot ds x
    ((d, i) :: rest, x)

/-- Queues the questions in front of the other steps, the first of the list foremost. -/
def queueFront : List (Delegation × Nat) → Act Unit
  | [] => return
  | (d, i) :: rest => do
    queueFront rest
    Act.queue (.forward d.proxy) d.operation .model i true

/-- Asks every proxy in turn, then splices the answers into the result. -/
def queueAll (delegations : List Delegation) : Act Unit := do
  if delegations.isEmpty then return
  let allotted ← modifyGet (allot delegations)
  let address := (← get).currentAddress
  Act.addStepFirst (.splice (allotted.map fun (d, i) => (d.path, i)))
    (Operation.build "splice-proxied-results" address) .model
  queueFront allotted

/-- Puts the results of slots into the current result. -/
def splice (parts : List (List String × Nat)) (x : Context) : Context :=
  parts.foldl (fun x (path, i) => x.setResult (x.result.setPath path (x.slot i).result)) x

end Delegation

namespace GlobalOperation

/-- Turns a failure into the failure of an act. -/
def orThrow {α : Type} : Except OperationError α → Act α
  | .ok a => return a
  | .error e => throw e

/-- The attribute of a name at the current address. -/
def attributeNamed (r : Registration) (name : String) : Act AttributeEntry := do
  let address := (← get).currentAddress
  let node ← orThrow (r.findLocal address)
  match Dict.get? node.attributes name with
  | some entry => return entry
  | none =>
    throw (.invalidParameter Key.name ("no attribute '" ++ name ++ "' at " ++ address.text))

def readResourceAct (r : Registration) (operation : Value) : Act Unit := do
  let recursive ← orThrow (Operation.booleanParam operation Key.recursive false)
  let proxies ← orThrow (Operation.booleanParam operation Key.proxies false)
  let includeDefaults ← orThrow (Operation.booleanParam operation Key.includeDefaults true)
  let address := (← get).currentAddress
  let node ← orThrow (r.findLocal address)
  let resource ← Act.read
  let (v, delegations) :=
    Rendering.renderResource { recursive, proxies, includeDefaults } node address [] resource
  Act.setResult v
  Delegation.queueAll delegations

def readAttributeAct (r : Registration) (operation : Value) : Act Unit := do
  let name ← orThrow (Operation.stringParam operation Key.name)
  let includeDefaults ← orThrow (Operation.booleanParam operation Key.includeDefaults true)
  let entry ← attributeNamed r name
  match entry.reader with
  | some reader => Act.addStepFirst reader operation (← get).stage
  | none =>
    let resource ← Act.read
    Act.setResult (entry.shown (resource.attribute? name) includeDefaults)

def writeAttributeAct (r : Registration) (operation : Value) : Act Unit := do
  let name ← orThrow (Operation.stringParam operation Key.name)
  let v := operation.get Key.value
  let address := (← get).currentAddress
  let entry ← attributeNamed r name
  let subject := "Attribute '" ++ name ++ "' at " ++ address.text
  unless entry.access = .readWrite do
    throw (.failed (subject ++ " is not writable"))
  if !v.isDefined && !entry.definition.nillable && entry.definition.default.isNone then
    throw (.failed (subject ++ " is not nillable"))
  orThrow (entry.definition.check v)
  match entry.writer with
  | some writer => Act.addStepFirst writer operation .model
  | none =>
    Act.updateAt address fun node =>
      if v.isDefined then node.setAttribute name v else node.removeAttribute name

/-- Writes an undefined value. -/
def undefineAttributeAct (r : Registration) (operation : Value) : Act Unit :=
  writeAttributeAct r
    ((operation.set Key.operation writeAttribute.name).set Key.value .undefined)

def readChildrenNamesAct (r : Registration) (operation : Value) : Act Unit := do
  let type ← orThrow (Operation.stringParam operation Key.childType)
  let address := (← get).currentAddress
  let node ← orThrow (r.findLocal address)
  unless type ∈ node.childTypes do
    throw (.invalidParameter Key.childType
      ("no child type '" ++ type ++ "' at " ++ address.text))
  let resource ← Act.read
  Act.setResult (.ofStrings (resource.childNames type))

def readChildrenTypesAct (r : Registration) : Act Unit := do
  let node ← orThrow (r.findLocal (← get).currentAddress)
  Act.setResult (.ofStrings node.childTypes)

def readOperationNamesAct (r : Registration) : Act Unit := do
  Act.setResult (.ofStrings (r.operationNames (← get).currentAddress))

def readOperationDescriptionAct (r : Registration) (operation : Value) : Act Unit := do
  let name ← orThrow (Operation.stringParam operation Key.name)
  let address := (← get).currentAddress
  match r.operation? address name with
  | some entry => Act.setResult entry.definition.describe
  | none => throw (.unknownOperation name address)

def readResourceDescriptionAct (r : Registration) (operation : Value) : Act Unit := do
  let recursive ← orThrow (Operation.booleanParam operation Key.recursive false)
  let operations ← orThrow (Operation.booleanParam operation Key.operations false)
  let proxies ← orThrow (Operation.booleanParam operation Key.proxies false)
  let address := (← get).currentAddress
  let node ← orThrow (r.findLocal address)
  Act.setResult (Rendering.describeWithInherited r node address recursive operations)
  Delegation.queueAll
    (if recursive && proxies then Rendering.describedProxies operations [] node else [])

/-- Checks an operation where it would run. -/
def validateAct (r : Registration) (operation : Value) : Act Unit := do
  match (operation.get? Key.value).filter Value.isDefined with
  | none => throw (.missingParameter Key.value)
  | some target =>
    let (name, address) ← orThrow (Operation.parse target)
    match ← orThrow (r.resolve address name) with
    | .here _ entry => orThrow (entry.definition.check target)
    | .proxied proxy =>
      let inner := target.set Key.address (Address.toValue (address.drop proxy.node.length))
      let forwarded := (Operation.build validate.name proxy.node).set Key.value inner
      Act.addStepFirst (.forward proxy) forwarded (← get).stage

/-- The work of a global operation. -/
def run (g : GlobalOperation) (r : Registration) (operation : Value) : Act Unit :=
  match g with
  | readResource => readResourceAct r operation
  | readAttribute => readAttributeAct r operation
  | writeAttribute => writeAttributeAct r operation
  | undefineAttribute => undefineAttributeAct r operation
  | readChildrenNames => readChildrenNamesAct r operation
  | readChildrenTypes => readChildrenTypesAct r
  | readOperationNames => readOperationNamesAct r
  | readOperationDescription => readOperationDescriptionAct r operation
  | readResourceDescription => readResourceDescriptionAct r operation
  | composite => Composite.run r operation
  | validate => validateAct r operation

end GlobalOperation

end ManagementPlane
