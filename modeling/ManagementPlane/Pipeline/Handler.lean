import ManagementPlane.Definition.Attribute
import ManagementPlane.Pipeline.Stage
import ManagementPlane.ProcessState
import ManagementPlane.Resource.Basic
import ManagementPlane.Workers.Container

/-!
# Pipeline/Handler — what a step of an operation does

A `Handler` is the work of one step, and a `Completion` what a completed step does once the outcome
of its operation is known.  Both are data, so that an operation is an ordinary value.  A `Script` is
a handler written down instruction by instruction.
-/

namespace ManagementPlane

/-- How urgent a report is. -/
inductive Severity
  | info
  | warn
  | error
  deriving DecidableEq, Repr, Inhabited

def Severity.name : Severity → String
  | info => "Info"
  | warn => "Warn"
  | error => "Error"

/-- What reports during an operation say. -/
structure Message where
  severity : Severity
  text : String
  deriving DecidableEq, Repr, Inhabited

def Message.line (m : Message) : String := m.severity.name ++ ":" ++ m.text

/-! ## Proxies -/

/-- How a participant behaves that does not keep to the rules. -/
inductive Misconduct
  /-- Prepares with two handles in turn. -/
  | preparesTwice
  /-- Prepares and then reports failure. -/
  | failsAfterPreparing
  /-- Reports failure and then prepares. -/
  | preparesAfterFailing
  /-- Prepares after so many milliseconds in the background. -/
  | preparesLate (ms : Nat)
  /-- Prepares and never completes. -/
  | neverCompletes
  /-- Prepares, and completes twice after the decision. -/
  | completesTwice
  /-- Prepares without waiting for the decision. -/
  | preparesDeaf
  /-- Fails with an empty response. -/
  | failsBare
  /-- Fails with a description that is no text. -/
  | failsStructured
  /-- Returns without an outcome. -/
  | staysSilent
  deriving DecidableEq, Repr, Inhabited

/-- Who answers for a proxied part of the model. -/
inductive Delegate
  /-- A controller next to this one. -/
  | controller (id : Nat)
  /-- A controller served by an actor. -/
  | actor (id : Nat)
  /-- A participant that answers from a list of expectations. -/
  | mock (id : Nat)
  | unruly (name : String) (conduct : Misconduct)
  deriving DecidableEq, Repr, Inhabited

/-- The owner of everything below a node of the model. -/
structure Proxy where
  node : Address
  delegate : Delegate
  deriving DecidableEq, Repr, Inhabited

/-! ## Scripts

An instruction that names no address acts on the resource of its step. -/

inductive Instruction
  | set (target : Option Value) (name : String) (value : Value)
  | unset (target : Option Value) (name : String)
  | touch (target : Option Value)
  | create (target : Option Value) (resource : Resource)
  | remove (target : Option Value)
  | read (target : Option Value) (recursive : Bool)
  | snapshot
  | acquire
  | result (value : Value)
  | resultOperation
  /-- Answers whether the operation is cancelled. -/
  | resultCancelled
  | resultPath (path : List String) (value : Value)
  | showResult
  | header (name : String) (value : Value)
  | report (message : Message)
  | slot (label : String)
  | showSlot (label : String)
  | failSlot (label : String) (failure : Value)
  /-- Queues a step of the given operation, or else of the same one. -/
  | step (stage : Stage) (body : List Instruction) (operation : Option Value) (first : Bool)
      (slot : Option String)
  | complete (label : String) (afterwards : List Instruction)
  | onRollback (label : String) (afterwards : List Instruction)
  | rollbackOnly
  | fail (error : OperationError)
  /-- Goes on after the first failure of its body. -/
  | attempt (body : List Instruction)
  | wait (ms : Nat) (what : String)
  /-- Runs an operation of its own, which commits when it prepares. -/
  | nested (operation : Value)
  | log (text : String)
  | info
  | settings
  | operations
  | input (index : Nat)
  | stream (mime text : String) (asResult : Bool)
  | cancel
  | process (change : Option ProcessState.Change)
  | note (key : String) (value : Value)
  | showNote (key : String)
  | unknown (name : String)
  deriving Inhabited, Repr

abbrev Script := List Instruction

/-! ## Handlers -/

/-- The operations that every resource has. -/
inductive GlobalOperation
  | readResource
  | readAttribute
  | writeAttribute
  | undefineAttribute
  | readChildrenNames
  | readChildrenTypes
  | readOperationNames
  | readOperationDescription
  | readResourceDescription
  | composite
  | validate
  deriving DecidableEq, Repr, Inhabited

/-- The work of one step. -/
inductive Handler
  | script (body : Script)
  /-- Creates the addressed resource from the parameters. -/
  | add (attributes : List AttributeDefinition)
  /-- Removes the addressed resource. -/
  | remove
  | global (operation : GlobalOperation)
  /-- Runs the operation where a proxy leads, as part of this one. -/
  | forward (proxy : Proxy)
  /-- Puts the results of response slots into the result, each at its path. -/
  | splice (parts : List (List String × Nat))
  /-- Makes the result of the responses in labelled slots. -/
  | collect (slots : List (String × Nat))
  /-- Creates resources where there are none. -/
  | seed (resources : List (Address × Resource))
  /-- Answers how often it ran. -/
  | countRuns (counter : Nat)
  | addWorker (attributes : List AttributeDefinition)
  | startWorker (name : String) (keepAlive : KeepAlive)
  | confirmWorker (name : String)
  | removeWorker
  | stopWorker (name : String)
  | writeKeepAlive
  | applyKeepAlive (name : String) (keepAlive : KeepAlive)
  deriving Inhabited, Repr

/-- What a completed step does with the outcome of its operation. -/
inductive Completion
  /-- Logs the outcome and runs a script; with `rollbackOnly` it leaves a commit alone. -/
  | script (label : String) (rollbackOnly : Bool) (body : Script)
  /-- Passes the outcome on to a prepared participant. -/
  | decide (handle : Nat)
  /-- After a rollback, tells in the response of slot `own` which of the labelled steps failed. -/
  | reportSteps (own : Nat) (slots : List (String × Nat))
  | stopWorker (name : String)
  | restoreWorker (name : String) (worker : Worker)
  | reconfigureWorker (name : String) (keepAlive : KeepAlive)
  deriving Inhabited, Repr

end ManagementPlane
