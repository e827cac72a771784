/-!
# Pipeline/Stage — the phases that the steps of an operation run in

All steps of a stage run before any step of the next one.
-/

namespace ManagementPlane

/-- The stages of an operation, in the order in which they run. -/
inductive Stage
  /-- Reads the model and stages its changes. -/
  | model
  /-- Applies the staged changes to running services. -/
  | runtime
  /-- Confirms that the services got there. -/
  | verify
  /-- Puts the response together. -/
  | done
  deriving DecidableEq, Repr, Inhabited

namespace Stage

def all : List Stage := [model, runtime, verify, done]

/-- The position of a stage in the order of execution. -/
def index : Stage → Nat
  | model => 0
  | runtime => 1
  | verify => 2
  | done => 3

/-- The stage that follows; the last one has none. -/
def next? : Stage → Option Stage
  | model => some runtime
  | runtime => some verify
  | verify => some done
  | done => none

/-- The name of a stage in messages and logs. -/
def name : Stage → String
  | model => "MODEL"
  | runtime => "RUNTIME"
  | verify => "VERIFY"
  | done => "DONE"

def ofName? (s : String) : Option Stage := all.find? (·.name = s)

instance : LT Stage := ⟨fun a b => a.index < b.index⟩

instance (a b : Stage) : Decidable (a < b) := inferInstanceAs (Decidable (a.index < b.index))

end Stage

end ManagementPlane
