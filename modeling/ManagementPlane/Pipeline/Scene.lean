import ManagementPlane.Plane.Basic
import ManagementPlane.Value.Printer

/-!
# Pipeline/Scene — what a step can reach

A step works on the context of its operation and, through it, on the plane around it.  A `Deed` is
such work; an `Act`, which stays within the context, is a deed by `Deed.act`.
-/

namespace ManagementPlane

/-- A running operation in its surroundings. -/
structure Scene where
  plane : Plane
  /-- The controller that the operation runs on. -/
  controller : Nat
  context : Context
  deriving Inhabited

/-- A program over a scene, which may fail; what it has changed until then stays. -/
abbrev Deed := ExceptT OperationError (StateM Scene)

namespace Deed

variable {α : Type}

/-- A program over the context, as one over the scene. -/
def act (f : Act α) : Deed α := do
  let s ← get
  let (out, context) := f.run.run s.context
  set { s with context }
  match out with
  | .ok a => return a
  | .error e => throw e

def orThrow : Except OperationError α → Deed α
  | .ok a => return a
  | .error e => throw e

def context : Deed Context := do return (← get).context

/-- A change of the context. -/
def onContext (f : Context → Context) : Deed Unit :=
  modify fun s => { s with context := f s.context }

/-- A change of the plane. -/
def onPlane (f : Plane → Plane) : Deed Unit :=
  modify fun s => { s with plane := f s.plane }

def log (line : String) : Deed Unit := onPlane (·.writeLog line)

/-- The address that an instruction names, or else the current one. -/
def target (named : Option Value) : Deed Address := do
  match named with
  | some v => orThrow (Address.ofValue v)
  | none => return (← context).currentAddress

/-- The name of the addressed resource. -/
def resourceName : Deed String := do
  match (← context).currentAddress.getLast? with
  | some e => return e.value
  | none => throw (.invalidAddress "expected a named resource")

end Deed

end ManagementPlane
