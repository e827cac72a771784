import ManagementPlane.Machine.Task

/-!
# Machine/Forwarding — a step that runs in another controller

`dispatch` hands an operation to the participant behind a proxy, and `advance` follows it until it
prepared or failed, the step timed out, or the operation was cancelled.  Which of these is seen when
several have come is up to the scheduler (`Plane.glance`), so the step can be abandoned with an
event, an offer or an outcome that nobody has read.  A prepared participant is decided by the
completion of the step; an abandoned one finds nobody to report to and is rolled back.
-/

namespace ManagementPlane

/-- How an operation goes on. -/
inductive Next
  | going (x : Execution)
  /-- A step ended, with success or not. -/
  | returned (x : Execution) (step : Step) (out : Except OperationError Unit)
  /-- It waits. -/
  | blocked (x : Execution)
  /-- It goes on after another operation. -/
  | nesting (x : Execution) (operation : Value)
  /-- It breaks down. -/
  | crashed (reason : String)
  deriving Inhabited

/-- What one step of an operation leaves behind. -/
structure Turn where
  plane : Plane
  spawned : List Task := []
  next : Next
  deriving Inhabited

/-- What ends a bounded wait before it is seen whether that for which it waits has come. -/
def Execution.interruption? (p : Plane) (x : Execution) (deadline : Nat) (what : String) :
    Option OperationError :=
  if p.glance = .timeout && deadline ≤ p.now then
    some (.timeout (p.settings x.controller).blocking what)
  else if p.overtakes x.context.input.cancellation then some .cancelled
  else none

namespace Forwarding

/-- What the step waits for, as messages call it. -/
def subject (a : Address) : String := "proxied controller at " ++ a.text

def unruly (p : Plane) (f : Nat) (name : String) : Misconduct → List Task × Plane
  | .preparesTwice =>
    let (h, p) := p.newHandle {}
    let p := p.reportOutcome f (.prepared h (Response.success name))
    let (k, p) := p.newHandle {}
    let p := p.reportOutcome f (.prepared k (Response.success name))
    ([.watch "second" k, .watch "first" h], p.modifyForward f Forward.release)
  | .failsAfterPreparing =>
    let (h, p) := p.newHandle {}
    let p := p.reportOutcome f (.prepared h (Response.success name))
    ([.watch "first" h], p.failForward f (Response.failure "odd failure"))
  | .preparesAfterFailing =>
    let (h, p) := p.newHandle {}
    let p := p.reportOutcome f (.failed (Response.failure "odd failure"))
    let p := p.reportOutcome f (.prepared h (Response.success name))
    ([.watch "first" h], p.modifyForward f Forward.release)
  | .preparesLate ms => ([.prepareLate (p.now + ms) f (Response.success name)], p)
  | .neverCompletes =>
    let (h, p) := p.newHandle {}
    ([], p.reportOutcome f (.prepared h (Response.success name)))
  | .completesTwice =>
    let (h, p) := p.newHandle {}
    ([.completeTwice h f (Response.success name)],
      p.reportOutcome f (.prepared h (Response.success name)))
  | .preparesDeaf =>
    let (h, p) := p.newHandle { listening := false }
    let p := p.reportOutcome f (.prepared h (Response.success name))
    ([], p.modifyForward f Forward.release)
  | .failsBare => ([], p.failForward f Value.emptyObject)
  | .failsStructured =>
    ([], p.failForward f (Response.failure (.object [("code", .integer 7)])))
  | .staysSilent => ([], p.modifyForward f Forward.release)

/-- A mock participant does what it expects next; none when it expects nothing. -/
def mock (p : Plane) (m f : Nat) (operation : Value) : Option (List Task) × Plane :=
  let received := (p.mocks[m]?).getD {}
  let p := p.modifyMock m fun k =>
    { k with expectations := k.expectations.drop 1, received := k.received ++ [operation] }
  match received.expectations with
  | [] => (none, p)
  | .prepare result :: _ =>
    let (h, p) := p.newHandle {}
    let p := p.reportOutcome f (.prepared h (Response.success result))
    (some [.expect m h f result], p)
  | .fail description :: _ => (some [], p.failForward f (Response.failure description))
  | .ignore :: _ => (some [], p)

/-- Hands an operation to the participant behind a proxy. -/
def dispatch (p : Plane) (x : Execution) (proxy : Proxy) (operation : Value) (f : Nat) :
    Except String Delivery × List Task × Plane :=
  match proxy.delegate with
  | .controller c =>
    let (l, p) := p.newLink
    let child := Execution.new c operation (.relay l) x.context.input x.context.sink
    (.ok (.linked l), [.operation [child] (.link l)], p)
  | .actor a =>
    let actor := p.actor a
    let (e, p) := p.newExchange actor.nextNumber
    let p := p.modifyActor a fun k => { k with nextNumber := k.nextNumber + 1 }
    if actor.isOpen then
      let input := { x.context.input with cancellation := none }
      let (ticket, p) := p.send a (.execute actor.nextNumber e operation input)
      (.ok (.sending a ticket e), [], p)
    else
      (.ok .delivered, [], p.failForward f (Response.failure TransportError.actorClosed.message))
  | .mock m =>
    match mock p m f operation with
    | (some spawned, p) => (.ok .delivered, spawned, p)
    | (none, p) =>
      (.error ("Unexpected operation forwarded to " ++ proxy.node.text ++ ": "
        ++ operation.render), [], p)
  | .unruly name conduct =>
    let (spawned, p) := unruly p f name conduct
    (.ok .delivered, spawned, p)

/-- Begins a forwarded step: the address becomes relative to the node of the proxy.  Nothing is
handed over when the cancellation is seen first. -/
def start (p : Plane) (x : Execution) (step : Step) (proxy : Proxy) : Turn :=
  let address := step.address
  let depth := proxy.node.length
  if address.length < depth then
    { plane := p
      next := .returned x step (.error (.invalidAddress
        (address.text ++ " is not below proxy " ++ proxy.node.text))) }
  else if p.overtakes x.context.input.cancellation then
    { plane := p, next := .returned x step (.error .cancelled) }
  else
    let operation := step.operation.set Key.address (Address.toValue (address.drop depth))
    let (f, p) := p.newForward
    let deadline := p.now + (p.settings x.controller).blocking
    match dispatch p x proxy operation f with
    | (.ok delivery, spawned, p) =>
      { plane := p, spawned,
        next := .going { x with phase := .handling step (.forwarding f deadline delivery) } }
    | (.error reason, spawned, p) =>
      { plane := p.modifyForward f Forward.abandon, spawned, next := .crashed reason }

/-- The handle that has come for the step and was not read yet. -/
def unread? (p : Plane) (f : Nat) : Delivery → Option Nat
  | .linked l => (p.link l).offer.map Prod.fst
  | .delivered => (p.forward f).outcome.bind Outcome.handle?
  | _ => none

/-- The step stops waiting; whoever comes later finds nobody. -/
def leave (p : Plane) (f : Nat) : Delivery → Plane
  | .sending a ticket e =>
    ((p.modifyActor a (·.withdraw ticket)).modifyExchange e Exchange.leave).modifyForward f
      fun forward => forward.abandon.release
  | .linked l => (p.modifyLink l Link.abandon).modifyForward f fun forward =>
      forward.abandon.release
  | .following _ e => (p.modifyExchange e Exchange.leave).modifyForward f fun forward =>
      forward.abandon.release
  | .delivered => p.modifyForward f Forward.abandon

/-- The step stops waiting, and a handle that nobody has read is let go of. -/
def abandon (p : Plane) (f : Nat) (delivery : Delivery) : Plane :=
  leave (p.letGo (unread? p f delivery)) f delivery

/-- The step fails without having heard its participant. -/
def stop (p : Plane) (x : Execution) (step : Step) (f : Nat) (delivery : Delivery)
    (e : OperationError) : Turn where
  plane := abandon p f delivery
  next := .returned x step (.error e)

/-- The step waits, unless its time is over or the operation was cancelled. -/
def wait (p : Plane) (x : Execution) (step : Step) (f deadline : Nat) (delivery : Delivery) :
    Turn :=
  if deadline ≤ p.now then
    stop p x step f delivery
      (.timeout (p.settings x.controller).blocking (subject step.address))
  else if p.isCancelled x.context.input.cancellation then stop p x step f delivery .cancelled
  else { plane := p, next := .blocked x }

/-- The context of an operation whose step has a prepared participant: it waits for the final
response of that one, and passes the outcome on to it. -/
def accept (x : Context) (f h : Nat) (response : Value) : Context :=
  let x := x.setResult (Response.result response)
  { x with completions := x.completions ++ [f] }.complete (.decide h)

/-- The end of a step whose participant reported. -/
def conclude (x : Execution) (step : Step) (f : Nat) : Outcome → Next
  | .prepared h response =>
    .returned { x with context := accept x.context f h response } step (.ok ())
  | .failed response =>
    .returned x step (.error (.failed ((Response.failureText? response).getD
      ("proxied operation at " ++ step.address.text ++ " failed"))))

/-- Reads what a forwarded step waits for, if it has come. -/
def follow (p : Plane) (x : Execution) (step : Step) (f deadline : Nat) (delivery : Delivery) :
    Turn :=
  let go (p : Plane) (delivery : Delivery) (spawned : List Task) : Turn :=
    { plane := p, spawned,
      next := .going { x with phase := .handling step (.forwarding f deadline delivery) } }
  match delivery with
  | .sending a ticket e =>
    if !(p.actor a).isWaiting ticket then go p (.following a e) []
    else if !(p.actor a).isOpen then
      go (p.failForward f (Response.failure TransportError.actorClosed.message)) .delivered []
    else wait p x step f deadline delivery
  | .linked l =>
    match (p.link l).offer, (p.link l).final with
    | some (h, response), _ =>
      go ((p.modifyLink l Link.take).reportOutcome f (.prepared h response)) .delivered
        [.relay l f]
    | none, some (.answered response) => go (p.failForward f response) .delivered []
    | none, some (.crashed reason) =>
      go (p.failForward f (Response.failure ("proxied controller task failed: " ++ reason)))
        .delivered []
    | none, none => wait p x step f deadline delivery
  | .following a e =>
    let (sight, exchange) := (p.exchange e).next
    let q := p.modifyExchange e fun _ => exchange
    match sight with
    | .event (.message m) => go (q.report x.context.sink m) delivery []
    | .event (.prepared response) =>
      let (h, q) := q.newHandle {}
      let q := q.reportOutcome f (.prepared h response)
      let q := q.modifyActor a fun k => { k with clients := k.clients + 1 }
      go q .delivered [.follow a e f x.context.sink (.deciding h)]
    | .event (.completed response) =>
      go ((q.modifyExchange e Exchange.leave).failForward f response) .delivered []
    | .ended =>
      go (q.failForward f (Response.failure TransportError.exchangeClosed.message)) .delivered []
    | .nothingYet => wait p x step f deadline delivery
  | .delivered =>
    match (p.forward f).outcome with
    | some outcome => { plane := p, next := conclude x step f outcome }
    | none =>
      if (p.forward f).reporters = 0 then
        { plane := p.modifyForward f Forward.abandon
          next := .returned x step (.error (.proxy
            ("controller at " ++ step.address.text ++ " returned no outcome"))) }
      else wait p x step f deadline delivery

/-- Follows a forwarded step, or abandons it when the end of its time or the cancellation is seen
first. -/
def advance (p : Plane) (x : Execution) (step : Step) (f deadline : Nat) (delivery : Delivery) :
    Turn :=
  match x.interruption? p deadline (subject step.address) with
  | some e => stop p x step f delivery e
  | none => follow p x step f deadline delivery

end Forwarding

end ManagementPlane
