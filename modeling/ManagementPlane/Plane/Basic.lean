import ManagementPlane.ProcessState
import ManagementPlane.Proxied.Forward
import ManagementPlane.Registration.Lookup
import ManagementPlane.Transport.Actor
import ManagementPlane.Transport.Exchange
import ManagementPlane.Workers.Container

/-!
# Plane/Basic — everything that operations share

A `Plane` holds the controllers, the handles of prepared operations, the forwarded steps and
exchanges between controllers, the workers, and the clock.  Its tables are indexed by number; an
entry is added at the end and never moves.  What operations wrote to the log and reported is kept
until somebody takes it.
-/

namespace ManagementPlane

/-- The time limits of a controller, in milliseconds. -/
structure Settings where
  /-- For any single wait of a step. -/
  blocking : Nat := 300000
  /-- For the decision on a prepared operation; unlimited when missing. -/
  prepared : Option Nat := none
  /-- For the write lock. -/
  lock : Nat := 300000
  deriving DecidableEq, Repr, Inhabited

/-- One controller: its name, what is registered with it, its model and its limits. -/
structure Controller where
  name : String
  registration : Registration
  tree : Tree
  settings : Settings := {}
  /-- The number of its process state, which controllers may share. -/
  process : Nat := 0
  /-- How many operations it has accepted. -/
  accepted : Nat := 0
  deriving Inhabited, Repr

/-- What a mock participant does with the next operation. -/
inductive Expectation
  | prepare (result : Value)
  | fail (description : String)
  /-- Never answers. -/
  | ignore
  deriving Inhabited, Repr

/-- A participant that stands in for a child controller and does what it is told to expect. -/
structure Mock where
  expectations : List Expectation := []
  received : List Value := []
  /-- The decisions on the operations it prepared. -/
  decisions : List Decision := []
  deriving Inhabited, Repr

/-- The answer to a decision that was sent to an actor. -/
inductive Reply
  | awaited
  | answered (result : Except TransportError Unit)
  /-- The actor went away. -/
  | dropped
  deriving Inhabited

/-- A response with the streams it refers to, or why there is none. -/
abbrev Answer := Except ExecutionError (Value × List ResultStream)

/-- How an operation ended for the caller who waits for it. -/
inductive Final
  | answered (answer : Answer)
  /-- The operation broke down. -/
  | crashed (reason : String)
  deriving Inhabited

/-- What a caller learns of an operation. -/
structure Ticket where
  /-- The handle that the caller holds, and the tentative response. -/
  prepared : Option (Nat × Value) := none
  final : Option Final := none
  deriving Inhabited

/-- What a bounded wait looks at first.  It matters when more than one of them has come. -/
inductive Glance
  /-- What is waited for. -/
  | result
  /-- The end of the time. -/
  | timeout
  /-- The cancellation of the operation. -/
  | cancellation
  deriving DecidableEq, Repr, Inhabited

/-- **Everything that operations share.**  Whatever is numbered is found by its place in a list.
-/
structure Plane where
  /-- The time in milliseconds. -/
  now : Nat := 0
  /-- Where bounded waits look first.  The scheduler chooses, and may choose anew at any time. -/
  glance : Glance := .result
  controllers : List Controller := []
  processes : List ProcessState := []
  handles : List Prepared := []
  cancellations : List Bool := []
  forwards : List Forward := []
  links : List Link := []
  exchanges : List Exchange := []
  actors : List Actor := []
  replies : List Reply := []
  tickets : List Ticket := []
  mocks : List Mock := []
  workers : WorkerContainer := { capacity := 0 }
  /-- How often each counted handler ran. -/
  counters : List Nat := []
  /-- How many transactions were begun. -/
  writers : Nat := 0
  /-- How many requests were sent to actors. -/
  sends : Nat := 0
  /-- How many streams were attached to responses. -/
  streams : Nat := 0
  /-- The controller that nested operations run on. -/
  top : Nat := 0
  log : List String := []
  messages : List String := []
  deriving Inhabited

namespace Plane

/-! ## Reading -/

def controller (p : Plane) (c : Nat) : Controller := (p.controllers[c]?).getD default

def tree (p : Plane) (c : Nat) : Tree := (p.controller c).tree

def settings (p : Plane) (c : Nat) : Settings := (p.controller c).settings

def registration (p : Plane) (c : Nat) : Registration := (p.controller c).registration

/-- The process state that a controller goes by. -/
def processState (p : Plane) (c : Nat) : ProcessState :=
  (p.processes[(p.controller c).process]?).getD .running

def handle (p : Plane) (h : Nat) : Prepared := (p.handles[h]?).getD {}

def forward (p : Plane) (f : Nat) : Forward := (p.forwards[f]?).getD {}

def link (p : Plane) (l : Nat) : Link := (p.links[l]?).getD {}

def exchange (p : Plane) (x : Nat) : Exchange := (p.exchanges[x]?).getD {}

def actor (p : Plane) (a : Nat) : Actor :=
  (p.actors[a]?).getD { controller := 0, capacity := 0, isOpen := false }

def reply (p : Plane) (r : Nat) : Reply := (p.replies[r]?).getD .dropped

def ticket (p : Plane) (t : Nat) : Ticket := (p.tickets[t]?).getD {}

def isCancelled (p : Plane) (cancellation : Option Nat) : Bool :=
  match cancellation with
  | some c => (p.cancellations[c]?).getD false
  | none => false

/-- The cancellation of an operation is seen before anything else that has come. -/
def overtakes (p : Plane) (cancellation : Option Nat) : Bool :=
  p.glance = .cancellation && p.isCancelled cancellation

/-! ## Changing one entry -/

def modifyController (p : Plane) (c : Nat) (f : Controller → Controller) : Plane :=
  { p with controllers := p.controllers.modify c f }

/-- The tree of a controller is replaced. -/
def setTree (p : Plane) (c : Nat) (t : Tree) : Plane :=
  p.modifyController c fun k => { k with tree := t }

/-- The process state of a controller changes. -/
def changeProcess (p : Plane) (c : Nat) (change : ProcessState.Change) : Plane :=
  { p with processes := p.processes.modify (p.controller c).process (·.apply change) }

def modifyHandle (p : Plane) (h : Nat) (f : Prepared → Prepared) : Plane :=
  { p with handles := p.handles.modify h f }

def modifyForward (p : Plane) (i : Nat) (f : Forward → Forward) : Plane :=
  { p with forwards := p.forwards.modify i f }

def modifyLink (p : Plane) (l : Nat) (f : Link → Link) : Plane :=
  { p with links := p.links.modify l f }

def modifyExchange (p : Plane) (x : Nat) (f : Exchange → Exchange) : Plane :=
  { p with exchanges := p.exchanges.modify x f }

def modifyActor (p : Plane) (a : Nat) (f : Actor → Actor) : Plane :=
  { p with actors := p.actors.modify a f }

def modifyTicket (p : Plane) (t : Nat) (f : Ticket → Ticket) : Plane :=
  { p with tickets := p.tickets.modify t f }

def modifyMock (p : Plane) (m : Nat) (f : Mock → Mock) : Plane :=
  { p with mocks := p.mocks.modify m f }

def setReply (p : Plane) (r : Nat) (reply : Reply) : Plane :=
  { p with replies := p.replies.set r reply }

/-- A cancellation is made, for good. -/
def cancel (p : Plane) (c : Nat) : Plane :=
  { p with cancellations := p.cancellations.set c true }

/-! ## Adding an entry -/

def newHandle (p : Plane) (h : Prepared) : Nat × Plane :=
  (p.handles.length, { p with handles := p.handles ++ [h] })

def newForward (p : Plane) : Nat × Plane :=
  (p.forwards.length, { p with forwards := p.forwards ++ [{}] })

def newLink (p : Plane) : Nat × Plane :=
  (p.links.length, { p with links := p.links ++ [{}] })

def newExchange (p : Plane) (number : Nat) : Nat × Plane :=
  (p.exchanges.length, { p with exchanges := p.exchanges ++ [{ number }] })

def newReply (p : Plane) : Nat × Plane :=
  (p.replies.length, { p with replies := p.replies ++ [.awaited] })

def newTicket (p : Plane) : Nat × Plane :=
  (p.tickets.length, { p with tickets := p.tickets ++ [{}] })

def newCancellation (p : Plane) (cancelled : Bool) : Nat × Plane :=
  (p.cancellations.length, { p with cancellations := p.cancellations ++ [cancelled] })

def newProcess (p : Plane) : Nat × Plane :=
  (p.processes.length, { p with processes := p.processes ++ [.running] })

def newCounter (p : Plane) : Nat × Plane :=
  (p.counters.length, { p with counters := p.counters ++ [0] })

def newMock (p : Plane) (expectations : List Expectation) : Nat × Plane :=
  (p.mocks.length, { p with mocks := p.mocks ++ [{ expectations }] })

def newController (p : Plane) (c : Controller) : Nat × Plane :=
  (p.controllers.length, { p with controllers := p.controllers ++ [c] })

def newActor (p : Plane) (a : Actor) : Nat × Plane :=
  (p.actors.length, { p with actors := p.actors ++ [a] })

/-! ## Log and reports -/

def writeLog (p : Plane) (line : String) : Plane := { p with log := p.log ++ [line] }

/-- Delivers a report. -/
def report (p : Plane) (sink : Sink) (m : Message) : Plane :=
  match sink with
  | .collect => { p with messages := p.messages ++ [m.line] }
  | .discard => p
  | .exchange x => p.modifyExchange x (·.send (.message m))

/-! ## Prepared operations -/

/-- Decides a prepared operation. -/
def decide (p : Plane) (h : Nat) (d : Decision) : Except DecisionError Unit × Plane :=
  let (out, handle) := (p.handle h).resolve d
  (out, p.modifyHandle h fun _ => handle)

/-- Decides and lets go of the handle. -/
def decideAndDrop (p : Plane) (h : Nat) (d : Decision) : Plane :=
  (p.decide h d).2.modifyHandle h Prepared.drop

/-- Lets go of a handle, if there is one. -/
def letGo (p : Plane) : Option Nat → Plane
  | some h => p.modifyHandle h Prepared.drop
  | none => p

/-- Reports the outcome of a forwarded step; a handle that comes too late is rolled back. -/
def reportOutcome (p : Plane) (f : Nat) (o : Outcome) : Plane :=
  let (accepted, forward) := (p.forward f).report o
  let p := p.modifyForward f fun _ => forward
  match o.handle? with
  | some h => if accepted then p else p.decideAndDrop h .rollback
  | none => p

/-- Reports that the participant of a forwarded step failed, and will report no more. -/
def failForward (p : Plane) (f : Nat) (response : Value) : Plane :=
  (p.reportOutcome f (.failed response)).modifyForward f Forward.release

/-- Reports the final response of a participant, who will report no more. -/
def completeForward (p : Plane) (f : Nat) (response : Value) : Plane :=
  p.modifyForward f fun forward => (forward.complete response).release

/-! ## Actors -/

/-- Sends a request to an actor; the ticket says whether it still waits for room. -/
def send (p : Plane) (a : Nat) (r : ActorRequest) : Nat × Plane :=
  (p.sends, { p with sends := p.sends + 1 }.modifyActor a (·.send p.sends r))

/-- A request that nobody will serve. -/
def dropRequest (p : Plane) : ActorRequest → Plane
  | .execute _ exchange _ _ => p.modifyExchange exchange Exchange.close
  | .resolve _ _ reply => p.setReply reply .dropped

/-- Takes an actor away at once: what it had not served and not decided is dropped. -/
def dropActor (p : Plane) (a : Nat) : Plane :=
  let actor := p.actor a
  let p := actor.requests.foldl dropRequest p
  let p := actor.pending.foldl (fun p (_, h) => p.modifyHandle h Prepared.drop) p
  p.modifyActor a fun k => { k with isOpen := false, requests := [], pending := [] }

/-- A response as its controller gives it out: while the process is degraded, a header says so. -/
def finish (p : Plane) (c : Nat) (response : Value) : Value :=
  let state := p.processState c
  if state.isDegraded then response.setPath [Key.responseHeaders, Key.processState] state.name
  else response

end Plane

end ManagementPlane
