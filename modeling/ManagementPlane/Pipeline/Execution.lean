import ManagementPlane.Pipeline.Work

/-!
# Pipeline/Execution — an operation and how far it has come

An `Execution` passes through the phases below: it is resolved, takes the write lock if it writes,
runs its steps, waits for the decision, undoes or confirms what its steps completed, and waits for
its participants.  The pure rules of that course are here: `Context.endStep` says what a step's end
means for the operation, `Ending.answer` what the caller is told.
-/

namespace ManagementPlane

/-- Who decides once an operation has prepared. -/
inductive Control
  | decide (d : Decision)
  /-- Logs the tentative response, then decides several times or not at all. -/
  | announce (decisions : List Decision)
  /-- Leaves the handle to whoever waits for the ticket. -/
  | hold (ticket : Nat)
  /-- Offers the handle to a forwarded step. -/
  | relay (link : Nat)
  /-- Enrolls the handle with an actor. -/
  | exchange (exchange actor : Nat)
  /-- Stops a worker behind the back of the model, then decides. -/
  | stopWorker (name : String) (d : Decision)
  deriving DecidableEq, Inhabited, Repr

/-- How the pipeline of an operation ended. -/
inductive Ending
  /-- It prepared and was committed. -/
  | kept
  /-- It prepared and was rolled back. -/
  | rolledBack (failure : String)
  /-- A step failed. -/
  | failed
  /-- A step broke its contract. -/
  | fatal (reason : String)
  deriving DecidableEq, Inhabited, Repr

namespace Ending

/-- What the completed steps are told. -/
def decision : Ending → Decision
  | kept => .keep
  | _ => .rollback

/-- The response that an operation ends with. -/
def response? (e : Ending) (x : Context) : Except ExecutionError Value :=
  let root := x.slot Context.rootSlot
  match e with
  | kept => .ok (root.toValue false)
  | rolledBack failure => .ok ({ root with failure := some (.string failure) }.toValue true)
  | failed =>
    let failure :=
      (root.failure.or x.firstFailure).getD (.string "Operation was marked rollback-only")
    .ok ({ root with failure := some failure }.toValue true)
  | fatal reason => .error (.fatal reason)

end Ending

namespace Context

/-- Takes the next step of the current stage. -/
def nextStep? (x : Context) : Option (Step × Context) :=
  match x.queues.get x.stage with
  | [] => none
  | step :: rest => some (step, { x with queues := x.queues.set rest x.stage })

/-- Makes a step the running one. -/
def beginStep (x : Context) (step : Step) : Context :=
  { x with active := some { address := step.address, slot := step.slot } }

/-- A cancelled operation fails in the slot of the step that would have run next. -/
def interrupt (x : Context) (slot : Nat) : Context :=
  { x.recordFailure slot (.string OperationError.cancelled.message) with rollbackOnly := true }

/-- The end of a step: none when the operation goes on, or how the pipeline ended.  A violation and
a failure after completion are fatal. -/
def endStep (x : Context) (step : Step) (out : Except OperationError Unit) :
    Option Ending × Context :=
  let completed := (x.active.map (·.completed)).getD false
  let x := { x with active := none }
  match x.violation with
  | some violation => (some (.fatal violation), { x with violation := none })
  | none =>
    match out with
    | .ok () => (if x.rollbackOnly then some .failed else none, x)
    | .error e =>
      if e.isFatal then (some (.fatal e.message), x)
      else if completed then
        (some (.fatal ("step at " ++ step.address.text ++ " failed after completing: "
          ++ e.message)), x)
      else
        (some .failed,
          { x.recordFailure step.slot (.string e.message) with rollbackOnly := true })

end Context

/-! ## Phases -/

/-- What is left of a script; a caught one goes on after a failure. -/
structure Frame where
  caught : Bool
  rest : Script
  deriving Inhabited, Repr

/-- How a forwarded operation reaches its participant. -/
inductive Delivery
  /-- It waits for room at an actor. -/
  | sending (actor ticket exchange : Nat)
  | linked (link : Nat)
  | following (actor exchange : Nat)
  /-- The participant has all it needs. -/
  | delivered
  deriving Inhabited, Repr

/-- How far a step has come. -/
inductive Work
  | begin
  | running (frames : List Frame)
  | acquiring (deadline : Nat) (frames : List Frame)
  | pausing (wake deadline : Nat) (what : String) (frames : List Frame)
  /-- An operation of its own runs on top. -/
  | nesting (frames : List Frame)
  | forwarding (forward deadline : Nat) (delivery : Delivery)
  deriving Inhabited, Repr

inductive Phase
  | opening
  | locking (deadline : Nat)
  | stepping
  | handling (step : Step) (work : Work)
  | deciding (handle : Nat) (deadline : Option Nat)
  | unwinding (ending : Ending)
  | draining (deadline : Option Nat) (ending : Ending)
  | ended (answer : Answer)
  deriving Inhabited

structure Execution where
  controller : Nat
  operation : Value
  control : Control
  context : Context
  phase : Phase := .opening
  deriving Inhabited

namespace Execution

/-- An operation that has not begun. -/
def new (controller : Nat) (operation : Value) (control : Control) (input : Input) (sink : Sink) :
    Execution where
  controller := controller
  operation := operation
  control := control
  context := { input, sink }

/-- The operation after the end of a step. -/
def afterStep (x : Execution) (step : Step) (out : Except OperationError Unit) : Execution :=
  match x.context.endStep step out with
  | (none, context) => { x with context, phase := .stepping }
  | (some ending, context) => { x with context, phase := .unwinding ending }

end Execution

end ManagementPlane
