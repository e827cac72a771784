import ManagementPlane.Host.System

/-!
# Host/Client — operations for callers of a host

For each task of a caller there is an operation below, and where the result means something of its
own a function that reads it.
-/

namespace ManagementPlane

/-! ## The server -/

namespace Server

/-- Reads the value of a child of a server child. -/
def readChildValue (serverchild child : String) : Value :=
  Client.readAttribute (childAddress serverchild child) Key.value

def writeChildValue (serverchild child value : String) : Value :=
  Client.writeAttribute (childAddress serverchild child) Key.value (.string value)

def readChildMetric (serverchild child : String) : Value :=
  Client.readAttribute (childAddress serverchild child) metricName

/-- The number in a metric, or why there is none. -/
def metricOf (v : Value) : Except HostError Int64 :=
  match v.asInteger? with
  | some i => .ok i
  | none => .error (.unexpectedResult ("metric is not an integer: " ++ v.render))

/-- Adds a worker, with the standard keep-alive unless another one is given. -/
def addWorker (name : String) (k : Option KeepAlive) : Value :=
  Client.add (workerAddress name) (match k with
    | some k => Value.emptyObject.set WorkerSteps.keepAliveKey k.toValue
    | none => .emptyObject)

/-- Gives a worker another keep-alive. -/
def writeKeepAlive (name : String) (k : KeepAlive) : Value :=
  Client.writeAttribute (workerAddress name) WorkerSteps.keepAliveKey k.toValue

def readKeepAlive (name : String) : Value :=
  Client.readAttribute (workerAddress name) WorkerSteps.keepAliveKey

/-- The keep-alive in a response, or why there is none. -/
def keepAliveOf (v : Value) : Except HostError KeepAlive :=
  match KeepAlive.ofValue v with
  | .ok k => .ok k
  | .error e => .error (.unexpectedResult e.message)

def removeWorker (name : String) : Value := Client.remove (workerAddress name)

def readWorkerNames : Value := Client.readChildrenNames Address.root workerName

end Server

/-! ## The domain -/

namespace Domain

/-- Adds a profile with its display name. -/
def addProfile (profile displayName : String) : Value :=
  Client.add (profileAddress profile) (Value.emptyObject.set Key.name (.string displayName))

def readProfileName (profile : String) : Value :=
  Client.readAttribute (profileAddress profile) Key.name

def readProfiles : Value := Client.readChildrenNames Address.root profileName

def removeProfile (profile : String) : Value := Client.remove (profileAddress profile)

/-- Reads all of the domain, the server included. -/
def readEverything : Value := Client.readResource Address.root true

end Domain

end ManagementPlane
