import ManagementPlane.Pipeline.Scene
import ManagementPlane.Resource.Populate

/-!
# Workers/Steps — the steps that keep the workers in line with the model

Every worker has a resource.  Adding, removing and reconfiguring one changes the resource in the
first stage and queues a step that changes the worker afterwards; that step leaves a completion that
takes the change back if the operation rolls back.
-/

namespace ManagementPlane

namespace WorkerSteps

/-- The attribute of a worker resource that holds its keep-alive. -/
def keepAliveKey : String := "keepalive-time"

/-- A keep-alive that may be left out; `name` is what a bad one is reported under. -/
def keepAliveIn (name : String) (v : Value) : Except OperationError KeepAlive :=
  if v.isDefined then
    match KeepAlive.ofValue v with
    | .ok k => .ok k
    | .error e => .error (.invalidParameter name e.message)
  else .ok KeepAlive.standard

/-- A change of the workers; its refusal fails the step. -/
def onWorkers {α : Type} (f : WorkerContainer → Except WorkerError (α × WorkerContainer)) :
    Deed α := do
  match f (← get).plane.workers with
  | .ok (a, workers) =>
    Deed.onPlane ({ · with workers })
    return a
  | .error e => throw (.failed e.message)

/-- Queues a step on the current address. -/
def queueHere (name : String) (handler : Handler) (stage : Stage) : Deed Unit := do
  let address := (← Deed.context).currentAddress
  Deed.act (Act.addStep handler (Operation.build name address) stage)

/-- Creates the resource; its worker is started and confirmed later. -/
def add (attributes : List AttributeDefinition) (operation : Value) : Deed Unit := do
  let name ← Deed.resourceName
  let k ← Deed.orThrow (keepAliveIn keepAliveKey (operation.get keepAliveKey))
  let resource ← Deed.orThrow (Resource.populate attributes operation)
  Deed.act (Act.createAt (← Deed.context).currentAddress resource)
  queueHere "start-worker" (.startWorker name k) .runtime
  queueHere "verify-worker" (.confirmWorker name) .verify

def start (name : String) (k : KeepAlive) : Deed Unit := do
  onWorkers fun c => (c.start name k).map ((), ·)
  Deed.act (Act.complete (.stopWorker name))

def confirm (name : String) : Deed Unit :=
  onWorkers fun c => (c.confirm name).map ((), ·)

/-- Removes the resource; its worker is stopped later. -/
def remove : Deed Unit := do
  let name ← Deed.resourceName
  let _ ← Deed.act (Act.removeAt (← Deed.context).currentAddress)
  queueHere "stop-worker" (.stopWorker name) .runtime

/-- Stops a worker; there is nothing to do when it does not run. -/
def stop (name : String) : Deed Unit := do
  match (← get).plane.workers.get? name with
  | some w =>
    Deed.onPlane fun p => { p with workers := p.workers.stop name }
    Deed.act (Act.complete (.restoreWorker name w))
  | none => return

/-- Writes the keep-alive of the resource; it is applied to the worker later. -/
def writeKeepAlive (operation : Value) : Deed Unit := do
  let name ← Deed.resourceName
  let v := operation.get Key.value
  let k ← Deed.orThrow (keepAliveIn Key.value v)
  Deed.act (Act.updateAt (← Deed.context).currentAddress fun r =>
    if v.isDefined then r.setAttribute keepAliveKey v else r.removeAttribute keepAliveKey)
  queueHere "reconfigure-worker" (.applyKeepAlive name k) .runtime

def applyKeepAlive (name : String) (k : KeepAlive) : Deed Unit := do
  let previous ← onWorkers (·.reconfigure name k)
  Deed.act (Act.complete (.reconfigureWorker name previous))

end WorkerSteps

end ManagementPlane
