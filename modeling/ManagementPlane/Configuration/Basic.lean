import ManagementPlane.Configuration.Scalar
import ManagementPlane.Plane.Basic
import ManagementPlane.Value.Printer

/-!
# Configuration/Basic — the configuration of a controller and of a host

A configuration is read from a file, when there is one, and the environment laid over it.  What is
not set has a default; what is set and has the wrong kind makes the whole configuration fail.
Settings that are not known are ignored.
-/

namespace ManagementPlane

/-- Why a configuration could not be loaded. -/
inductive ConfigurationError
  /-- The file is not an object. -/
  | unreadable
  /-- The setting has a value that it cannot have. -/
  | unfit (setting : String)
  deriving DecidableEq, Repr, Inhabited

structure LoggingConfiguration where
  level : String := "info"
  deriving DecidableEq, Repr, Inhabited

/-- Times are in milliseconds. -/
structure ControllerConfiguration where
  blockingTimeout : Nat := 300000
  preparedTimeout : Option Nat := none
  writeLockTimeout : Nat := 300000
  actorBuffer : Nat := 32
  logging : LoggingConfiguration := {}
  deriving DecidableEq, Repr, Inhabited

/-- How one controller reaches another. -/
inductive ProxyTransport
  | direct
  /-- Through an actor. -/
  | remote
  deriving DecidableEq, Repr, Inhabited

structure HostConfiguration where
  controller : ControllerConfiguration := {}
  workerCapacity : Nat := 4
  proxyTransport : ProxyTransport := .direct
  deriving DecidableEq, Repr, Inhabited

def ProxyTransport.name : ProxyTransport → String
  | direct => "local"
  | remote => "remote"

/-- The time limits of a controller with this configuration. -/
def ControllerConfiguration.settings (c : ControllerConfiguration) : Settings where
  blocking := c.blockingTimeout
  prepared := c.preparedTimeout
  lock := c.writeLockTimeout

/-! ## Reading -/

namespace Configuration

/-- The setting of a section, read when it is there. -/
def read {α : Type} (part : Value) (place : Nat) (name : String) (default : α)
    (reader : Value → Except ConfigurationError α) : Except ConfigurationError α :=
  match setting? part place name with
  | some v => reader v
  | none => .ok default

def fit {α : Type} (name : String) : Option α → Except ConfigurationError α
  | some a => .ok a
  | none => .error (.unfit name)

def readCount (part : Value) (place : Nat) (name : String) (default : Nat) :
    Except ConfigurationError Nat :=
  read part place name default fun v => fit name (count? v)

/-- A count that may be left undefined. -/
def readLimit (part : Value) (place : Nat) (name : String) :
    Except ConfigurationError (Option Nat) :=
  read part place name none fun v =>
    if v.isDefined then (fit name (count? v)).map some else .ok none

/-- The section on logging. -/
def logging (v : Value) : Except ConfigurationError LoggingConfiguration :=
  if isSection v then do
    return { level := ← read v 0 "level" "info" fun t => fit "level" (text? t) }
  else .error (.unfit "logging")

/-- The section of a controller. -/
def controller (v : Value) : Except ConfigurationError ControllerConfiguration :=
  if isSection v then do
    return {
      blockingTimeout := ← readCount v 0 "blocking_timeout_ms" 300000
      preparedTimeout := ← readLimit v 1 "prepared_timeout_ms"
      writeLockTimeout := ← readCount v 2 "write_lock_timeout_ms" 300000
      actorBuffer := ← readCount v 3 "actor_buffer" 32
      logging := ← read v 4 "logging" {} logging }
  else .error (.unfit "controller")

/-- A transport is named by a text, or by the one key of an object. -/
def transport (v : Value) : Except ConfigurationError ProxyTransport :=
  let named (name : String) : Except ConfigurationError ProxyTransport :=
    fit "proxy_transport" ([.direct, .remote].find? fun t => t.name = lower name)
  match v with
  | .string name => named name
  | .object [(name, _)] => named name
  | _ => .error (.unfit "proxy_transport")

/-- The whole configuration, its defaults filled in. -/
def host (v : Value) : Except ConfigurationError HostConfiguration := do
  return {
    controller := ← read v 0 "controller" {} controller
    workerCapacity := ← readCount v 1 "worker_capacity" 4
    proxyTransport := ← read v 2 "proxy_transport" .direct transport }

/-- The table of all settings: those of the file with those of the environment over them. -/
def table (file : Option String) (word : String) (vars : List (String × String)) :
    Except ConfigurationError Value :=
  match file.map ofFile? with
  | some none => .error .unreadable
  | some (some layer) => .ok (overlay (overlay .emptyObject layer) (ofEnvironment word vars))
  | none => .ok (overlay .emptyObject (ofEnvironment word vars))

end Configuration

/-- Loads the configuration of a controller whose variables begin with `word`. -/
def ControllerConfiguration.load (word : String) (file : Option String)
    (vars : List (String × String)) : Except ConfigurationError ControllerConfiguration := do
  Configuration.controller (← Configuration.table file word vars)

/-- The word that the variables of a host begin with. -/
def HostConfiguration.word : String := "MGMT_HOST"

/-- Reads the file, and lets the variables of the environment override it. -/
def HostConfiguration.load (file : Option String) (vars : List (String × String)) :
    Except ConfigurationError HostConfiguration := do
  Configuration.host (← Configuration.table file HostConfiguration.word vars)

/-! ## Writing -/

namespace Configuration

/-- An object of rendered values. -/
def renderFields (fields : List (String × String)) : String :=
  "\x7b" ++ ",".intercalate (fields.map fun (name, text) =>
    (Value.string name).render ++ ":" ++ text) ++ "\x7d"

end Configuration

def LoggingConfiguration.render (c : LoggingConfiguration) : String :=
  Configuration.renderFields [("level", (Value.string c.level).render)]

def ControllerConfiguration.render (c : ControllerConfiguration) : String :=
  Configuration.renderFields [
    ("blocking_timeout_ms", toString c.blockingTimeout),
    ("prepared_timeout_ms", (c.preparedTimeout.map toString).getD Value.undefined.render),
    ("write_lock_timeout_ms", toString c.writeLockTimeout),
    ("actor_buffer", toString c.actorBuffer),
    ("logging", c.logging.render)]

def HostConfiguration.render (c : HostConfiguration) : String :=
  Configuration.renderFields [
    ("controller", c.controller.render),
    ("worker_capacity", toString c.workerCapacity),
    ("proxy_transport", (Value.string c.proxyTransport.name).render)]

end ManagementPlane
