import ManagementPlane.Client
import ManagementPlane.Machine.Run

/-!
# Machine/Session — what callers do with a machine

A caller submits an operation and waits for its end, or until it has prepared and a decision is
asked for; sends requests to actors; or lets time pass.  While a caller waits, everything else
runs.
-/

namespace ManagementPlane

/-- Builds a controller: the global operations come last, and one of them may be refused. -/
def Controller.build (name : String) (registration : Registration) (model : Resource)
    (settings : Settings) (process : Nat) : Except RegistrationError Controller :=
  match registration.addGlobals with
  | (none, registration) =>
    .ok { name, registration, tree := { root := model }, settings, process }
  | (some e, _) => .error e

/-- The registration that a controller of the given name starts with. -/
def Controller.rootRegistration (name : String) : Registration :=
  Registration.root ("The " ++ name ++ " management model")

namespace Machine

/-- More steps than any request takes. -/
def stepLimit : Nat := 10000000

def onPlane (m : Machine) (f : Plane → Plane) : Machine := { m with plane := f m.plane }

/-- Changes the plane from outside, which may let tasks go on. -/
def change (m : Machine) (f : Plane → Plane) : Machine := (m.onPlane f).wake

def spawn (m : Machine) (t : Task) : Machine := { m with ready := m.ready ++ [t] }

def runUntil (m : Machine) (done : Plane → Bool) : Machine := run done none stepLimit m

/-- Lets time pass; whatever is due in the meantime happens. -/
def sleep (m : Machine) (ms : Nat) : Machine :=
  run (fun _ => false) (some (m.plane.now + ms)) stepLimit m

/-- Lets everything run that can run now. -/
def drain (m : Machine) : Machine := run (fun _ => true) none stepLimit m

/-! ## Operations -/

/-- Starts an operation that answers to a new ticket. -/
def submit (m : Machine) (c : Nat) (operation : Value) (control : Nat → Control) (input : Input)
    (sink : Sink) : Nat × Machine :=
  let (t, plane) := m.plane.newTicket
  let x := Execution.new c operation (control t) input sink
  (t, { m with plane }.spawn (.operation [x] (.ticket t)))

/-- Waits for the end of an operation. -/
def await (m : Machine) (t : Nat) : Final × Machine :=
  let m := m.runUntil fun p => (p.ticket t).final.isSome
  (((m.plane.ticket t).final).getD (.crashed "the operation never ended"), m)

/-- Runs an operation to its end. -/
def execute (m : Machine) (c : Nat) (operation : Value) (control : Control) (input : Input)
    (sink : Sink) : Final × Machine :=
  let (t, m) := m.submit c operation (fun _ => control) input sink
  m.await t

/-- Runs an operation until it has prepared, or to its end when it never does. -/
def start (m : Machine) (c : Nat) (operation : Value) (input : Input) (sink : Sink) :
    Nat × Machine :=
  let (t, m) := m.submit c operation Control.hold input sink
  (t, m.runUntil fun p => (p.ticket t).prepared.isSome || (p.ticket t).final.isSome)

/-- Decides a held operation; without a decision the handle is dropped. -/
def resolve (m : Machine) (t : Nat) (d : Option Decision) : Except DecisionError Unit × Machine :=
  match (m.plane.ticket t).prepared with
  | none => (.error .participantGone, m)
  | some (h, _) =>
    let (out, plane) := match d with
      | some d => m.plane.decide h d
      | none => (.ok (), m.plane)
    (out, { m with plane := plane.modifyHandle h Prepared.drop }.wake)

/-! ## Exchanges -/

/-- Starts an operation on an actor; waits while its channel is full. -/
def openExchange (m : Machine) (a : Nat) (operation : Value) (input : Input) :
    Except TransportError Nat × Machine :=
  let number := (m.plane.actor a).nextNumber
  let (e, p) := m.plane.newExchange number
  let p := p.modifyActor a fun k => { k with nextNumber := number + 1 }
  if (p.actor a).isOpen then
    let (ticket, p) := p.send a (.execute number e operation { input with cancellation := none })
    let m := { m with plane := p }.wake
    let m := m.runUntil (Wait.room a ticket).holds
    if (m.plane.actor a).isWaiting ticket then (.error .actorClosed, m) else (.ok e, m)
  else (.error .actorClosed, { m with plane := p })

/-- Sends a decision to an actor and waits for the answer. -/
def decideExchange (m : Machine) (a number : Nat) (d : Decision) :
    Except TransportError Unit × Machine :=
  if (m.plane.actor a).isOpen then
    let (r, p) := m.plane.newReply
    let (ticket, p) := p.send a (.resolve number d r)
    let m := { m with plane := p }.wake
    let m := m.runUntil (Wait.room a ticket).holds
    if (m.plane.actor a).isWaiting ticket then (.error .actorClosed, m)
    else
      let m := m.runUntil (Wait.reply r).holds
      match m.plane.reply r with
      | .answered out => (out, m)
      | _ => (.error .actorDropped, m)
  else (.error .actorClosed, m)

/-- Waits for the next event of an exchange, for so many milliseconds. -/
def nextEvent (m : Machine) (e ms : Nat) : Exchange.Sight × Machine :=
  let m := run (Wait.event e).holds (some (m.plane.now + ms)) stepLimit m
  let (sight, exchange) := (m.plane.exchange e).next
  (sight, m.change fun p => p.modifyExchange e fun _ => exchange)

end Machine

end ManagementPlane
