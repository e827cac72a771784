import ManagementPlane.Attachments
import ManagementPlane.Operation.Response
import ManagementPlane.Pipeline.Handler
import ManagementPlane.Tree.Transaction

/-!
# Pipeline/Context — the state of one running operation

A `Context` holds what an operation has queued, completed, staged and answered so far.  Steps work
on it through `Act`s, which may fail; what an act did before it failed stays done.  Queuing is
`queueStep`, completing is `complete`, and the model is reached through `update`, `create` and
`remove`, which only the first stage may do.
-/

namespace ManagementPlane

/-- A queued step. -/
structure Step where
  handler : Handler
  operation : Value
  address : Address
  /-- The response slot that the step writes to. -/
  slot : Nat
  deriving Inhabited, Repr

/-- The step that runs at the moment. -/
structure ActiveStep where
  address : Address
  slot : Nat
  completed : Bool := false
  deriving Inhabited, Repr

/-- The steps that wait in each stage. -/
structure Queues where
  model : List Step := []
  runtime : List Step := []
  verify : List Step := []
  done : List Step := []
  deriving Inhabited, Repr

namespace Queues

def get (q : Queues) : Stage → List Step
  | .model => q.model
  | .runtime => q.runtime
  | .verify => q.verify
  | .done => q.done

def set (q : Queues) (steps : List Step) : Stage → Queues
  | .model => { q with model := steps }
  | .runtime => { q with runtime := steps }
  | .verify => { q with verify := steps }
  | .done => { q with done := steps }

/-- Adds a step to a stage, in front of the others or behind them. -/
def add (q : Queues) (stage : Stage) (step : Step) (first : Bool) : Queues :=
  q.set (if first then step :: q.get stage else q.get stage ++ [step]) stage

end Queues

/-- A stream of text that a response refers to. -/
structure ResultStream where
  id : String
  mime : String
  text : String
  deriving Inhabited, Repr

/-- What comes with an operation besides its value. -/
structure Input where
  streams : List String := []
  /-- The cancellation that the caller may use, by number. -/
  cancellation : Option Nat := none
  deriving Inhabited, Repr

/-- Where reports go. -/
inductive Sink
  | collect
  | discard
  /-- To whoever follows the exchange. -/
  | exchange (id : Nat)
  deriving DecidableEq, Repr, Inhabited

structure Context where
  /-- The number of the operation on its controller. -/
  id : Nat := 0
  /-- The address of the operation. -/
  address : Address := Address.root
  transaction : Transaction := { writer := 0, base := {}, began := 0, lockTimeout := 0 }
  queues : Queues := {}
  stage : Stage := .model
  active : Option ActiveStep := none
  /-- What completed steps wait to do, the latest first. -/
  completed : List Completion := []
  slots : List ResponseSlot := [{}]
  rollbackOnly : Bool := false
  firstFailure : Option Value := none
  /-- A breach of the step contract that was noticed and not yet acted on. -/
  violation : Option String := none
  attachments : Attachments := {}
  /-- Slots by the labels that scripts gave them. -/
  labels : Dict Nat := []
  streams : List ResultStream := []
  /-- The forwarded steps whose final response is waited for. -/
  completions : List Nat := []
  input : Input := {}
  sink : Sink := .discard
  deriving Inhabited, Repr

/-- Part of the work of a step. -/
abbrev Act := ExceptT OperationError (StateM Context)

namespace Context

/-- The slot of the operation's own response. -/
def rootSlot : Nat := 0

/-- The address of the running step, or of the operation outside of steps. -/
def currentAddress (x : Context) : Address := (x.active.map (·.address)).getD x.address

/-- The slot of the running step, or the operation's own outside of steps. -/
def currentSlot (x : Context) : Nat := (x.active.map (·.slot)).getD rootSlot

def slot (x : Context) (i : Nat) : ResponseSlot := (x.slots[i]?).getD {}

def modifySlot (x : Context) (i : Nat) (f : ResponseSlot → ResponseSlot) : Context :=
  { x with slots := x.slots.modify i f }

/-- The result of the current slot. -/
def result (x : Context) : Value := (x.slot x.currentSlot).result

def setResult (x : Context) (v : Value) : Context :=
  x.modifySlot x.currentSlot fun s => { s with result := v }

/-- A fresh slot and its number. -/
def newSlot (x : Context) : Nat × Context :=
  (x.slots.length, { x with slots := x.slots ++ [{}] })

/-- Records a failure of a slot; the first failure of all is remembered. -/
def recordFailure (x : Context) (i : Nat) (failure : Value) : Context :=
  { x with firstFailure := some (x.firstFailure.getD failure) }.modifySlot i (·.fail failure)

/-- Marks the running step complete.  Doing so twice, or outside of a step, is a violation and
registers nothing. -/
def complete (x : Context) (c : Completion) : Context :=
  match x.active with
  | some a =>
    if a.completed then
      { x with violation := some ("step at " ++ a.address.text ++ " completed more than once") }
    else
      { x with
        active := some { a with completed := true }
        completed := c :: x.completed }
  | none => { x with violation := some "complete_step called outside of a step" }

/-- Queues a step.  Its address comes from its operation, and its stage must not be over. -/
def queueStep (x : Context) (handler : Handler) (operation : Value) (stage : Stage) (slot : Nat)
    (first : Bool) : Except OperationError Context :=
  if stage < x.stage then
    .error (.contractViolation ("cannot add a " ++ stage.name ++ " step while executing the "
      ++ x.stage.name ++ " stage"))
  else (Operation.addressOf operation).map fun address =>
    { x with queues := x.queues.add stage { handler, operation, address, slot } first }

/-! ## The model -/

/-- Refuses what only the first stage may do. -/
def requireModelStage (x : Context) (what : String) : Except OperationError Unit :=
  if x.stage = .model then .ok ()
  else .error (.contractViolation
    (what ++ " is only allowed in the MODEL stage, not " ++ x.stage.name))

/-- The root that the operation reads. -/
def snapshot (x : Context) : Resource := x.transaction.root

end Context

namespace Act

variable {α : Type}

/-- Does something that may fail and changes the context only when it succeeds. -/
def attempt (f : Context → Except OperationError (α × Context)) : Act α := do
  match f (← get) with
  | .ok (a, x) => set x; return a
  | .error e => throw e

def queue (handler : Handler) (operation : Value) (stage : Stage) (slot : Nat) (first : Bool) :
    Act Unit :=
  attempt fun x => (x.queueStep handler operation stage slot first).map ((), ·)

/-- Queues a step that shares the slot of the running one. -/
def addStep (handler : Handler) (operation : Value) (stage : Stage) : Act Unit := do
  queue handler operation stage (← get).currentSlot false

/-- Queues a step to run right after the running one. -/
def addStepFirst (handler : Handler) (operation : Value) (stage : Stage) : Act Unit := do
  queue handler operation stage (← get).currentSlot true

def complete (c : Completion) : Act Unit := modify (·.complete c)

def setResult (v : Value) : Act Unit := modify (·.setResult v)

def newSlot : Act Nat := modifyGet fun x => x.newSlot

/-- The resource at an address. -/
def readAt (a : Address) : Act Resource := do
  match (← get).transaction.read a with
  | .ok r => return r
  | .error e => throw e

/-- The resource of the running step. -/
def read : Act Resource := do readAt (← get).currentAddress

/-- Runs a write of the transaction; what it does to the transaction stays, even when it fails. -/
def onTransaction (what : String)
    (f : Transaction → Except OperationError α × Transaction) : Act α := do
  let x ← get
  match x.requireModelStage what with
  | .error e => throw e
  | .ok () =>
    let (out, transaction) := f x.transaction
    set { x with transaction }
    match out with
    | .ok a => return a
    | .error e => throw e

def updateAt (a : Address) (f : Resource → Resource) : Act Unit :=
  onTransaction "modifying a resource" fun t => t.update a fun r => ((), f r)

def createAt (a : Address) (r : Resource) : Act Unit :=
  onTransaction "creating a resource" fun t => t.create a r

def removeAt (a : Address) : Act Resource :=
  onTransaction "removing a resource" fun t => t.remove a

end Act

end ManagementPlane
