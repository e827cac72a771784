import ManagementPlane.Declaration.Script
import ManagementPlane.Machine.Session

/-!
# Declaration/Controller — controllers declared as values

A controller is declared by its name, its registrations in order, its model and its settings.  A
registration of a proxy declares the participant behind it, which may be a controller of its own, so
building one controller builds all below it: the children come first.
-/

namespace ManagementPlane

/-- Why a declaration was refused. -/
inductive DeclarationError
  | registration (e : RegistrationError)
  | address (e : OperationError)
  deriving Inhabited

/-- A machine under construction. -/
structure Construction where
  machine : Machine := {}
  /-- The process state of the controllers that share one. -/
  shared : Option Nat := none
  deriving Inhabited

abbrev Building := StateM Construction

namespace Declaration

def onPlane {α : Type} (f : Plane → α × Plane) : Building α := modifyGet fun b =>
  let (a, plane) := f b.machine.plane
  (a, { b with machine := { b.machine with plane } })

def settings (v : Value) : Settings where
  blocking := v.countAt "blocking_ms" 300000
  prepared := v.countAt? "prepared_ms"
  lock := v.countAt "lock_ms" 300000

def expectation (v : Value) : Expectation :=
  match v.get? "prepared", v.get? "failed" with
  | some result, _ => .prepare result
  | none, some description => .fail description.plain
  | none, none => .ignore

def misconduct (v : Value) : Misconduct :=
  match v.textAt "mode" with
  | "twice" => .preparesTwice
  | "fail_after" => .failsAfterPreparing
  | "prepare_after_fail" => .preparesAfterFailing
  | "late" => .preparesLate (v.countAt "ms")
  | "hang" => .neverCompletes
  | "complete" => .completesTwice
  | "deaf" => .preparesDeaf
  | "bare" => .failsBare
  | "structured" => .failsStructured
  | _ => .staysSilent

def operationEntry (v : Value) : OperationEntry where
  definition := OperationDefinition.declared (v.get "def")
  handler := .script (Script.declared v "script")
  inherited := v.flagAt "inherited"

def attributeEntry (v : Value) : AttributeEntry :=
  let definition := AttributeDefinition.declared (v.get "def")
  let handler (key : String) : Handler := .script (Script.declared v key)
  match v.textAt "access" with
  | "metric" => { definition, access := .metric, reader := some (handler "read") }
  | "read-write" =>
    { definition, access := .readWrite, writer := (v.get? "write").map fun _ => handler "write" }
  | _ => { definition, access := .readOnly }

/-- The outcome of a registration that is accepted or refused as a whole. -/
def whole (r : Registration) (out : Except RegistrationError Registration) :
    Option DeclarationError × Registration :=
  match out with
  | .ok new => (none, new)
  | .error e => (some (.registration e), r)

/-- One registration, given how participants are built.  A refused one leaves the tree alone, but
global operations that were registered before a refused one stay. -/
def register (delegate : Value → Building (Except DeclarationError Delegate)) (r : Registration)
    (v : Value) : Building (Option DeclarationError × Registration) := do
  match Address.ofValue (v.get "at") with
  | .error e => return (some (.address e), r)
  | .ok pattern =>
    match v.textAt "reg" with
    | "sub_model" => return whole r (r.addSubModelAt pattern (v.textAt "description"))
    | "operation" => return whole r (r.addOperationAt pattern (operationEntry v))
    | "add" =>
      let attributes := (v.itemsAt "attributes").map AttributeDefinition.declared
      return whole r (r.addOperationAt pattern
        { definition := addDefinition attributes, handler := .add attributes })
    | "remove" =>
      return whole r (r.addOperationAt pattern
        { definition := removeDefinition, handler := .remove })
    | "attribute" => return whole r (r.addAttributeAt pattern (attributeEntry v))
    | "capability" => return whole r (r.addCapabilityAt pattern (v.textAt "name"))
    | "globals" =>
      let (refused, r) := r.addGlobals
      return (refused.map .registration, r)
    | "proxy" =>
      let declared := v.get "proxy"
      match ((declared.get? "node").map Address.ofValue).getD (.ok pattern) with
      | .error e => return (some (.address e), r)
      | .ok node =>
        match ← delegate declared with
        | .error e => return (some e, r)
        | .ok delegate => return whole r (r.addProxyAt pattern { node, delegate })
    | _ => return (none, r)

/-- Registrations in order, up to the first that is refused. -/
def registerAll (delegate : Value → Building (Except DeclarationError Delegate)) :
    List Value → Registration → Building (Except DeclarationError Registration)
  | [], r => return .ok r
  | v :: vs, r => do
    match ← register delegate r v with
    | (none, r) => registerAll delegate vs r
    | (some e, _) => return .error e

/-- The number of the process state of a new controller. -/
def processFor (v : Value) : Building Nat := do
  if v.flagAt "share_process" then
    match (← get).shared with
    | some i => return i
    | none =>
      let i ← onPlane Plane.newProcess
      modify ({ · with shared := some i })
      return i
  else onPlane Plane.newProcess

/-- Builds a controller, given how participants are built; answers its number. -/
def build (delegate : Value → Building (Except DeclarationError Delegate)) (v : Value) :
    Building (Except DeclarationError Nat) := do
  let name := v.textAt "name"
  match ← registerAll delegate (v.itemsAt "registrations") (Controller.rootRegistration name) with
  | .error e => return .error e
  | .ok r =>
    let process ← processFor v
    match Controller.build name r (Resource.declared (v.get "model")) (settings (v.get "settings"))
        process with
    | .ok c => return .ok (← onPlane (·.newController c))
    | .error e => return .error (.registration e)

/-- Builds the participant behind a proxy; controllers nest at most `n` deep. -/
def delegateTo : Nat → Value → Building (Except DeclarationError Delegate)
  | 0, v => return .ok (.unruly (v.textAt "mode") (misconduct v))
  | n + 1, v => do
    match v.textAt "kind" with
    | "mock" =>
      return .ok (.mock (← onPlane (·.newMock ((v.itemsAt "expect").map expectation))))
    | "local" =>
      match ← build (delegateTo n) (v.get "controller") with
      | .ok c => return .ok (.controller c)
      | .error e => return .error e
    | "remote" =>
      match ← build (delegateTo n) (v.get "controller") with
      | .ok controller =>
        let a ← onPlane (·.newActor
          { controller, capacity := v.countAt "buffer" 8, isOpen := !v.flagAt "dead" })
        modify fun b => { b with machine := b.machine.spawn (.serve a) }
        return .ok (.actor a)
      | .error e => return .error e
    | _ => return .ok (.unruly (v.textAt "mode") (misconduct v))

def delegate (v : Value) : Building (Except DeclarationError Delegate) :=
  delegateTo (v.depth + 1) v

end Declaration

/-- Builds a declared controller and everything below it.  Nested operations run on it. -/
def Machine.declared (v : Value) : Except DeclarationError (Nat × Machine) :=
  let (out, b) := (Declaration.build Declaration.delegate v).run {}
  match out with
  | .ok top => .ok (top, b.machine.onPlane ({ · with top }))
  | .error e => .error e

end ManagementPlane
