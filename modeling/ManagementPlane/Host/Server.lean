import ManagementPlane.Machine.Session

/-!
# Host/Server — the model of the server

    server
    ├─ serverchild=*   {name}
    │   └─ child=*     {name, value, metric}
    └─ worker=*        {keepalive-time}

Children live in the model alone.  Behind every worker resource there is a worker, and the
operations on the resource keep the two in line.
-/

namespace ManagementPlane

namespace Server

def childName : String := "child"

def serverchildName : String := "serverchild"

def workerName : String := "worker"

def metricName : String := "metric"

/-! ## Addresses -/

/-- The address of a child of a child of the server. -/
def childAddress (serverchild child : String) : Address :=
  [⟨serverchildName, serverchild⟩, ⟨childName, child⟩]

def workerAddress (name : String) : Address := [⟨workerName, name⟩]

def serverchildPattern : Address := [⟨serverchildName, Element.anyValue⟩]

def childPattern : Address := childAddress Element.anyValue Element.anyValue

/-- Where the operations on workers are registered. -/
def workerPattern : Address := workerAddress Element.anyValue

/-! ## Definitions -/

/-- An optional text. -/
def text (name : String) : AttributeDefinition := { name, type := .string }

def time : AttributeDefinition :=
  { name := "time", type := .integer, nillable := false, description := "Amount of time" }

def unit : AttributeDefinition :=
  { name := "unit", type := .string, nillable := false, description := "Unit of the amount"
    allowed := TimeUnit.all.map fun u => .string u.name }

/-- How long the worker of a resource is kept; the standard holds where nothing is set. -/
def keepAlive : AttributeDefinition :=
  { name := WorkerSteps.keepAliveKey
    type := .object
    description := "How long idle worker threads are kept alive"
    default := some KeepAlive.standard.toValue
    fields := [("time", time), ("unit", unit)] }

def metric : AttributeDefinition :=
  { name := metricName, type := .integer, description := "Number of times this metric was read" }

/-- What the model starts out with. -/
def initial : Resource :=
  (Resource.ofAttributes [(Key.name, .string "serverA")]).putChild ⟨childName, "childA"⟩
    (.ofAttributes [(Key.name, .string "childName"), (Key.value, .string "childValue")])

/-- Seeds what the model starts out with. -/
def setup : OperationEntry :=
  { definition := .of "setup" "Creates the initial server resources" [] .undefined false
    handler := .seed [([⟨serverchildName, "svrA"⟩], initial)] }

/-! ## Registration -/

/-- An `add` of the given attributes at a pattern. -/
def addAt (pattern : Address) (attributes : List AttributeDefinition) (r : Registration) :
    Except RegistrationError Registration :=
  r.addOperationAt pattern { definition := addDefinition attributes, handler := .add attributes }

def removeAt (pattern : Address) (r : Registration) : Except RegistrationError Registration :=
  r.addOperationAt pattern { definition := removeDefinition, handler := .remove }

/-- The children; `counter` counts the readings of the metric. -/
def withChildren (counter : Nat) (r : Registration) : Except RegistrationError Registration := do
  let r ← r.addSubModelAt serverchildPattern "A server child"
  let r ← r.addAttributeAt serverchildPattern { definition := text Key.name, access := .readOnly }
  let r ← addAt serverchildPattern [text Key.name] r
  let r ← removeAt serverchildPattern r
  let r ← r.addSubModelAt childPattern "A nested child"
  let r ← r.addAttributeAt childPattern { definition := text Key.name, access := .readOnly }
  let r ← r.addAttributeAt childPattern { definition := text Key.value, access := .readWrite }
  let r ← r.addAttributeAt childPattern
    { definition := metric, access := .metric, reader := some (.countRuns counter) }
  let r ← addAt childPattern [text Key.name, text Key.value] r
  let r ← removeAt childPattern r
  r.addOperationAt childPattern
    { definition := .of "test-op" "Does nothing" [] .undefined true, handler := .script [] }

/-- The workers, with their keep-alive and the operations that add and remove them. -/
def withWorkers (r : Registration) : Except RegistrationError Registration := do
  let r ← r.addSubModelAt workerPattern "A worker service"
  let r ← r.addAttributeAt workerPattern
    { definition := keepAlive, access := .readWrite, writer := some .writeKeepAlive }
  let r ← r.addOperationAt workerPattern
    { definition := addDefinition [keepAlive], handler := .addWorker [keepAlive] }
  r.addOperationAt workerPattern { definition := removeDefinition, handler := .removeWorker }

/-- The model of the server, without the global operations. -/
def registration (counter : Nat) : Except RegistrationError Registration := do
  let r ← (Controller.rootRegistration "server").addOperationAt Address.root setup
  withWorkers (← withChildren counter r)

end Server

end ManagementPlane
