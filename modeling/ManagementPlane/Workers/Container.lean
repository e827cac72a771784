import ManagementPlane.Workers.KeepAlive

/-!
# Workers/Container — the workers that run at the moment

A container holds workers by name.  `start` refuses a taken name and a full container; `restore`
puts a stopped worker back without asking whether there is room.
-/

namespace ManagementPlane

inductive WorkerState
  /-- Started and not yet confirmed. -/
  | starting
  | running
  deriving DecidableEq, Repr, Inhabited

def WorkerState.name : WorkerState → String
  | starting => "Starting"
  | running => "Running"

structure Worker where
  keepAlive : KeepAlive
  state : WorkerState := .starting
  deriving DecidableEq, Repr, Inhabited

/-- Time, unit and state in one line. -/
def Worker.text (w : Worker) : String :=
  toString w.keepAlive.time.toNat ++ " " ++ w.keepAlive.unit.name ++ " " ++ w.state.name

structure WorkerContainer where
  capacity : Nat
  workers : Dict Worker := []
  deriving DecidableEq, Repr, Inhabited

namespace WorkerContainer

def get? (c : WorkerContainer) (name : String) : Option Worker := Dict.get? c.workers name

def size (c : WorkerContainer) : Nat := c.workers.length

/-- Starts a worker under a free name, while there is room. -/
def start (c : WorkerContainer) (name : String) (k : KeepAlive) :
    Except WorkerError WorkerContainer :=
  if Dict.has c.workers name then .error (.alreadyRunning name)
  else if c.capacity ≤ c.size then .error (.capacityReached c.capacity)
  else .ok { c with workers := Dict.put c.workers name { keepAlive := k } }

/-- Notes that a started worker is up. -/
def confirm (c : WorkerContainer) (name : String) : Except WorkerError WorkerContainer :=
  match c.get? name with
  | some w => .ok { c with workers := Dict.put c.workers name { w with state := .running } }
  | none => .error (.notRunning name)

/-- Stops a worker; what was stopped is `c.get? name`. -/
def stop (c : WorkerContainer) (name : String) : WorkerContainer :=
  { c with workers := Dict.erase c.workers name }

/-- Puts a worker back as it was. -/
def restore (c : WorkerContainer) (name : String) (w : Worker) : WorkerContainer :=
  { c with workers := Dict.put c.workers name w }

/-- Gives a worker another keep-alive, and answers the one it had. -/
def reconfigure (c : WorkerContainer) (name : String) (k : KeepAlive) :
    Except WorkerError (KeepAlive × WorkerContainer) :=
  match c.get? name with
  | some w =>
    .ok (w.keepAlive, { c with workers := Dict.put c.workers name { w with keepAlive := k } })
  | none => .error (.notRunning name)

end WorkerContainer

end ManagementPlane
