import ManagementPlane.Pipeline.Execution

/-!
# Machine/Task — what runs, and what it waits for

A `Task` runs until it has to wait.  What it waits for is read off its state by `Task.waits`; it can
go on as soon as one of these waits holds.
-/

namespace ManagementPlane

/-- Who is told how an operation ended. -/
inductive Origin
  | ticket (id : Nat)
  | link (id : Nat)
  | exchange (id : Nat)
  deriving DecidableEq, Repr, Inhabited

/-- How far the follower of a prepared exchange has come. -/
inductive Follow
  | deciding (handle : Nat)
  | sending (ticket reply : Nat)
  | replying (reply : Nat)
  | finishing
  deriving DecidableEq, Repr, Inhabited

inductive Task
  /-- An operation; those that it runs nested stand on top of it. -/
  | operation (stack : List Execution) (origin : Origin)
  /-- Passes the final response of a linked participant on. -/
  | relay (link forward : Nat)
  /-- Passes the decision to an actor, and the rest of the exchange back. -/
  | follow (actor exchange forward : Nat) (sink : Sink) (state : Follow)
  | serve (actor : Nat)
  /-- A mock participant that waits for its decision. -/
  | expect (mock handle forward : Nat) (result : Value)
  /-- Logs how a handle was decided. -/
  | watch (label : String) (handle : Nat)
  /-- Prepares after a while. -/
  | prepareLate (wake forward : Nat) (response : Value)
  /-- Completes twice once it is decided. -/
  | completeTwice (handle forward : Nat) (response : Value)
  | cancelAt (wake cancellation : Nat)
  deriving Inhabited

inductive Wait
  | time (due : Nat)
  | lock (controller writer : Nat)
  | cancelled (cancellation : Nat)
  | decision (handle : Nat)
  | offer (link : Nat)
  | linkEnd (link : Nat)
  | outcome (forward : Nat)
  | completion (forward : Nat)
  | event (exchange : Nat)
  | room (actor ticket : Nat)
  | reply (id : Nat)
  | turn (actor : Nat)
  deriving DecidableEq, Repr, Inhabited

namespace Wait

/-- Whether there is nothing to wait for. -/
def holds (p : Plane) : Wait → Bool
  | time due => due ≤ p.now
  | lock c writer => (p.tree c).lock.holder = some writer
  | cancelled c => p.isCancelled (some c)
  | decision h => (p.handle h).outlook.effect?.isSome
  | offer l => (p.link l).offer.isSome || (p.link l).final.isSome
  | linkEnd l => (p.link l).final.isSome
  | outcome f => (p.forward f).isAnswered
  | completion f => (p.forward f).isComplete
  | event x => (p.exchange x).isReady
  | room a ticket => !(p.actor a).isOpen || !(p.actor a).isWaiting ticket
  | reply r => match p.reply r with
    | .awaited => false
    | _ => true
  | turn a => !(p.actor a).isOpen || (p.actor a).isReady

/-- The time at which the wait is over at the latest. -/
def due? : Wait → Option Nat
  | time due => some due
  | _ => none

end Wait

/-- A wait that the cancellation of an operation ends. -/
def Input.waits (i : Input) : List Wait := (i.cancellation.map Wait.cancelled).toList

def Delivery.waits (forward : Nat) : Delivery → List Wait
  | sending actor ticket _ => [.room actor ticket]
  | linked link => [.offer link]
  | following _ exchange => [.event exchange]
  | delivered => [.outcome forward]

namespace Execution

def waits (x : Execution) : List Wait :=
  match x.phase with
  | .locking deadline => [.lock x.controller x.context.transaction.writer, .time deadline]
  | .handling _ work =>
    match work with
    | .acquiring deadline _ =>
      [.lock x.controller x.context.transaction.writer, .time deadline]
    | .pausing wake deadline _ _ => .time wake :: .time deadline :: x.context.input.waits
    | .forwarding forward deadline delivery =>
      delivery.waits forward ++ .time deadline :: x.context.input.waits
    | _ => []
  | .deciding handle deadline => .decision handle :: (deadline.map Wait.time).toList
  | .draining deadline _ =>
    (x.context.completions.take 1).map Wait.completion ++ (deadline.map Wait.time).toList
  | _ => []

end Execution

namespace Task

def waits : Task → List Wait
  | operation stack _ =>
    match stack with
    | x :: _ => x.waits
    | [] => []
  | relay link _ => [.linkEnd link]
  | follow actor exchange _ _ state =>
    match state with
    | .deciding handle => [.decision handle]
    | .sending ticket _ => [.room actor ticket]
    | .replying reply => [.reply reply]
    | .finishing => [.event exchange]
  | serve actor => [.turn actor]
  | expect _ handle _ _ => [.decision handle]
  | watch _ handle => [.decision handle]
  | prepareLate wake _ _ => [.time wake]
  | completeTwice handle _ _ => [.decision handle]
  | cancelAt wake _ => [.time wake]

/-- Whether a blocked task can go on. -/
def canGo (p : Plane) (t : Task) : Bool := t.waits.any (·.holds p)

/-- The next time at which the task can go on by itself. -/
def due? (t : Task) : Option Nat := (t.waits.filterMap Wait.due?).min?

end Task

end ManagementPlane
