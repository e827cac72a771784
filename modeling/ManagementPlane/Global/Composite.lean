import ManagementPlane.Pipeline.Context
import ManagementPlane.Registration.Global
import ManagementPlane.Registration.Lookup
import ManagementPlane.Value.Printer

/-!
# Global/Composite — several operations as one transaction

All steps of a composite are planned before any of them runs: `plan` resolves and checks each step
at its address below the composite.  Every step answers in a slot of its own; `collect` makes the
result out of the slots, and `report` amends the response after a rollback so that it names the
steps that failed.
-/

namespace ManagementPlane

namespace Composite

/-- A step that is ready to be queued. -/
structure Planned where
  label : String
  operation : Value
  handler : Handler
  deriving Inhabited, Repr

/-- The label of the step at a position that counts from zero. -/
def label (i : Nat) : String := "step-" ++ toString (i + 1)

/-- Resolves and checks one step; a failure names the step. -/
def planStep (r : Registration) (base : Address) (i : Nat) (step : Value) :
    Except OperationError Planned :=
  let plan : Except OperationError Planned := do
    let (name, relative) ← Operation.parse step
    let address := base ++ relative
    let resolved ← r.resolve address name
    resolved.check step
    return { label := label i, operation := step.set Key.address address.toValue,
             handler := resolved.handler }
  match plan with
  | .ok p => .ok p
  | .error e => .error (.invalidParameter Key.steps (label i ++ ": " ++ e.message))

/-- Plans steps in order, the first of them at position `i`. -/
def planFrom (r : Registration) (base : Address) (i : Nat) :
    List Value → Except OperationError (List Planned)
  | [] => .ok []
  | step :: steps => do
    let p ← planStep r base i step
    let ps ← planFrom r base (i + 1) steps
    return p :: ps

/-- The steps of a composite at `base`. -/
def plan (r : Registration) (base : Address) (operation : Value) :
    Except OperationError (List Planned) :=
  match (operation.get? Key.steps).bind Value.asList? with
  | some steps => planFrom r base 0 steps
  | none => .error (.invalidParameter Key.steps "expected a list of operations")

/-- The result of a composite: the response of each slot under its label. -/
def results (x : Context) (slots : List (String × Nat)) : Value :=
  .object (slots.map fun (label, i) => (label, (x.slot i).toValue false))

/-- A step as it appears after a rollback. -/
def rolledBackStep (s : ResponseSlot) : Value :=
  .object ([(Key.outcome, Value.string Key.failed), (Key.rolledBack, Value.boolean true)]
    ++ (s.failure.map fun f => (Key.failureDescription, f)).toList)

/-- The failures of the slots that have one. -/
def failures (x : Context) (slots : List (String × Nat)) : List (String × Value) :=
  slots.filterMap fun (label, i) => ((x.slot i).failure).map fun f => (label, f)

/-- Amends the response of slot `own` after a rollback. -/
def report (own : Nat) (slots : List (String × Nat)) (x : Context) : Context :=
  let result := Value.object (slots.map fun (label, i) => (label, rolledBackStep (x.slot i)))
  let failed := failures x slots
  x.modifySlot own fun s =>
    { s with
      result
      failure := if failed.isEmpty then s.failure
        else some (.string ("Composite operation failed and was rolled back. Steps that failed: "
          ++ (Value.object failed).render)) }

/-- Gives every planned step a slot of its own. -/
def allot : List Planned → Context → List (Planned × Nat) × Context
  | [], x => ([], x)
  | p :: ps, x =>
    let (i, x) := x.newSlot
    let (rest, x) := allot ps x
    ((p, i) :: rest, x)

/-- Queues steps in front of the others, the first of the list foremost. -/
def queueFront : List (Planned × Nat) → Act Unit
  | [] => return
  | (p, i) :: rest => do
    queueFront rest
    Act.queue p.handler p.operation .model i true

/-- Runs a composite: its steps run next, then its result is collected. -/
def run (r : Registration) (operation : Value) : Act Unit := do
  let base := (← get).currentAddress
  match plan r base operation with
  | .error e => throw e
  | .ok planned =>
    let own := (← get).currentSlot
    let allotted ← modifyGet (allot planned)
    let slots := allotted.map fun (p, i) => (p.label, i)
    Act.addStepFirst (.collect slots) (Operation.build "collect-composite-results" base) .model
    queueFront allotted
    Act.complete (.reportSteps own slots)

end Composite

end ManagementPlane
