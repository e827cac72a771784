import ManagementPlane.Global.Operations
import ManagementPlane.Pipeline.Perform
import ManagementPlane.Workers.Steps

/-!
# Pipeline/Work — handlers that finish at once, and completions

`Handler.deed?` is the work of every handler but scripts and forwarded steps, which may have to
wait.  `Completion.run` is what a completed step does with the outcome of its operation; it neither
waits nor fails.
-/

namespace ManagementPlane

namespace Handler

/-- Creates a resource unless there is one already. -/
def seedOne (a : Address) (r : Resource) : Deed Unit := do
  if ((← Deed.context).snapshot.navigate? a).isSome then return
  Deed.act (Act.createAt a r)

/-- Answers how often it was done, this time included. -/
def count (counter : Nat) : Deed Unit := do
  let n := (((← get).plane.counters[counter]?).getD 0) + 1
  Deed.onPlane fun p => { p with counters := p.counters.set counter n }
  Deed.onContext (·.setResult (.ofNat n))

/-- The work of a handler that does not wait. -/
def deed? (h : Handler) (operation : Value) : Option (Deed Unit) :=
  match h with
  | script _ => none
  | forward _ => none
  | add attributes => some do
    let resource ← Deed.orThrow (Resource.populate attributes operation)
    Deed.act (Act.createAt (← Deed.context).currentAddress resource)
  | remove => some do
    let _ ← Deed.act (Act.removeAt (← Deed.context).currentAddress)
  | global g => some do
    let s ← get
    Deed.act (g.run (s.plane.registration s.controller) operation)
  | splice parts => some (Deed.onContext (Delegation.splice parts))
  | collect slots => some (Deed.onContext fun x => x.setResult (Composite.results x slots))
  | seed resources => some (resources.forM fun (a, r) => seedOne a r)
  | countRuns counter => some (count counter)
  | addWorker attributes => some (WorkerSteps.add attributes operation)
  | startWorker name k => some (WorkerSteps.start name k)
  | confirmWorker name => some (WorkerSteps.confirm name)
  | removeWorker => some WorkerSteps.remove
  | stopWorker name => some (WorkerSteps.stop name)
  | writeKeepAlive => some (WorkerSteps.writeKeepAlive operation)
  | applyKeepAlive name k => some (WorkerSteps.applyKeepAlive name k)

end Handler

namespace Completion

/-- Does instructions one after another; a failure is logged and the next one is done. -/
def runScript : Script → Scene → Scene
  | [], s => s
  | i :: rest, s =>
    let (out, s) := ((i.perform .undefined).run).run s
    match out with
    | .ok _ => runScript rest s
    | .error e =>
      runScript rest
        { s with plane := s.plane.writeLog ("handler caught " ++ e.kind ++ ": " ++ e.message) }

/-- What a completed step does once the outcome of its operation is `d`. -/
def run (c : Completion) (d : Decision) (s : Scene) : Scene :=
  match c with
  | script label false body =>
    runScript body { s with plane := s.plane.writeLog (d.name ++ ":" ++ label) }
  | script label true body =>
    if d = .keep then s
    else runScript body { s with plane := s.plane.writeLog ("undo:" ++ label) }
  | decide handle => { s with plane := s.plane.decideAndDrop handle d }
  | reportSteps own slots =>
    if d = .keep then s else { s with context := Composite.report own slots s.context }
  | stopWorker name =>
    if d = .keep then s
    else { s with plane := { s.plane with workers := s.plane.workers.stop name } }
  | restoreWorker name worker =>
    if d = .keep then s
    else { s with plane := { s.plane with workers := s.plane.workers.restore name worker } }
  | reconfigureWorker name k =>
    if d = .keep then s
    else
      match s.plane.workers.reconfigure name k with
      | .ok (_, workers) => { s with plane := { s.plane with workers } }
      | .error _ => s

/-- What is let go of when nobody runs the completion. -/
def handle? : Completion → Option Nat
  | decide handle => some handle
  | _ => none

end Completion

end ManagementPlane
