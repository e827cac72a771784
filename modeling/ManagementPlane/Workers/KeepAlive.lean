import ManagementPlane.Value.Printer

/-!
# Workers/KeepAlive — how long an idle worker is kept

A `KeepAlive` is an amount of a `TimeUnit`.  Values spell it as an object of a `time` and a `unit`;
`ofValue` reads that form with the unit in any letter case, and `toValue` writes it.
-/

namespace ManagementPlane

inductive TimeUnit
  | nanoseconds
  | microseconds
  | milliseconds
  | seconds
  | minutes
  | hours
  | days
  deriving DecidableEq, Repr, Inhabited

/-- Why the workers refused a request. -/
inductive WorkerError
  | capacityReached (capacity : Nat)
  | alreadyRunning (name : String)
  | notRunning (name : String)
  | invalidKeepAlive (reason : String)
  deriving DecidableEq, Repr, Inhabited

def WorkerError.message : WorkerError → String
  | capacityReached n => "Worker container is full (" ++ toString n ++ " workers)"
  | alreadyRunning name => "Worker '" ++ name ++ "' is already running"
  | notRunning name => "Worker '" ++ name ++ "' is not running"
  | invalidKeepAlive reason => "Invalid keepalive-time: " ++ reason

namespace TimeUnit

def all : List TimeUnit :=
  [nanoseconds, microseconds, milliseconds, seconds, minutes, hours, days]

def name : TimeUnit → String
  | nanoseconds => "NANOSECONDS"
  | microseconds => "MICROSECONDS"
  | milliseconds => "MILLISECONDS"
  | seconds => "SECONDS"
  | minutes => "MINUTES"
  | hours => "HOURS"
  | days => "DAYS"

/-- The unit of a name in any letter case. -/
def ofName (s : String) : Except WorkerError TimeUnit :=
  match all.find? fun u => sameIgnoringCase u.name s with
  | some u => .ok u
  | none => .error (.invalidKeepAlive ("unknown time unit '" ++ s ++ "'"))

/-- The most seconds that a span can have. -/
def maxSeconds : Nat := UInt64.size - 1

/-- An amount of a unit in nanoseconds; a span longer than the longest one is cut to it. -/
def inNanoseconds (unit : TimeUnit) (amount : Nat) : Nat :=
  match unit with
  | nanoseconds => amount
  | microseconds => amount * tenPow 3
  | milliseconds => amount * tenPow 6
  | seconds => amount * tenPow 9
  | minutes => min (amount * 60) maxSeconds * tenPow 9
  | hours => min (amount * 3600) maxSeconds * tenPow 9
  | days => min (amount * 86400) maxSeconds * tenPow 9

end TimeUnit

structure KeepAlive where
  time : UInt64
  unit : TimeUnit
  deriving DecidableEq, Repr, Inhabited

namespace KeepAlive

/-- What holds where nothing is set. -/
def standard : KeepAlive := ⟨60, .seconds⟩

def nanoseconds (k : KeepAlive) : Nat := k.unit.inNanoseconds k.time.toNat

/-- Reads a non-negative time and the name of a unit; the time is looked at first. -/
def ofValue (v : Value) : Except WorkerError KeepAlive :=
  match (v.get? "time").bind Value.asInteger? with
  | some time =>
    if time < 0 then .error (.invalidKeepAlive ("bad time in " ++ v.render))
    else match (v.get? "unit").bind Value.asString? with
      | some unit => (TimeUnit.ofName unit).map fun u => ⟨time.toUInt64, u⟩
      | none => .error (.invalidKeepAlive ("missing unit in " ++ v.render))
  | none => .error (.invalidKeepAlive ("bad time in " ++ v.render))

/-- The time is written as the signed integer of the same bits. -/
def toValue (k : KeepAlive) : Value :=
  .object [("time", .integer k.time.toInt64), ("unit", .string k.unit.name)]

end KeepAlive

end ManagementPlane
