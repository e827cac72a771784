/-!
# ProcessState — does the running process still match its model

The state only degrades, from running over reload-required to restart-required, until it is reset.
-/

namespace ManagementPlane

/-- What a process needs before its services are as the model says. -/
inductive ProcessState
  | running
  | reloadRequired
  | restartRequired
  deriving DecidableEq, Repr, Inhabited

namespace ProcessState

def name : ProcessState → String
  | running => "running"
  | reloadRequired => "reload-required"
  | restartRequired => "restart-required"

/-- Whether the process needs anything. -/
def isDegraded (s : ProcessState) : Bool := s ≠ running

/-- A reload is required, unless something is required already. -/
def requireReload : ProcessState → ProcessState
  | running => reloadRequired
  | s => s

def requireRestart (_ : ProcessState) : ProcessState := restartRequired

def reset (_ : ProcessState) : ProcessState := running

/-- Something that happens to the state of a process. -/
inductive Change
  | reload
  | restart
  | reset
  deriving DecidableEq, Repr, Inhabited

/-- What a change makes of the state; a restart that is required outlasts a reload. -/
def apply (s : ProcessState) : Change → ProcessState
  | .reload => s.requireReload
  | .restart => s.requireRestart
  | .reset => s.reset

@[simp] theorem isDegraded_requireReload (s : ProcessState) :
    s.requireReload.isDegraded = true := by
  cases s <;> rfl

end ProcessState

end ManagementPlane
