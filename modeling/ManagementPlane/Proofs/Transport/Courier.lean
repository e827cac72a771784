import ManagementPlane.Proofs.Machine.Turns

/-!
# Proofs/Transport/Courier — an operation on its way to an actor

A `Courier` carries the operation of a forwarded step to an actor.  Two tasks share the work: the
step sends the request and listens until the operation has prepared, has failed, or can not come any
more; from then on a follower waits for the decision, sends it, and listens to the end.

`Courier.Acts` lists the turns of both, with the calls that each makes on the step, on the actor and
on whoever wants reports.  `Courier.rendered` says that these are the turns of the two tasks: they
do nothing else, unless the step gives up, which it may do at any time when its own is over or the
operation was cancelled.
-/

namespace ManagementPlane

/-- What carries the operation of a forwarded step to an actor. -/
structure Courier where
  /-- The operation that the step belongs to. -/
  execution : Execution
  step : Step
  actor : Nat
  forward : Nat
  exchange : Nat
  /-- The number of the exchange on the actor. -/
  number : Nat
  /-- When the step gives up. -/
  due : Nat

namespace Courier

/-- What a courier calls for. -/
inductive Call
  /-- It passes a report on. -/
  | report (m : Message)
  /-- It hands a handle to the step, which stands for the operation at the actor. -/
  | prepared (handle : Nat) (response : Value)
  | failed (response : Value)
  /-- It asks for a decision to be sent; an actor that is gone does not get it. -/
  | resolve (number : Nat) (d : Decision)
  | completed (response : Value)

/-- How far a courier has come. -/
inductive Place
  /-- Its request waits for room, or has just got in. -/
  | sending (ticket : Nat)
  | listening
  /-- The follower has taken over. -/
  | following (state : Follow)
  | done

variable (k : Courier)

/-- Where reports go. -/
def sink : Sink := k.execution.context.sink

def delivery : Place → Delivery
  | .sending ticket => .sending k.actor ticket k.exchange
  | .listening => .following k.actor k.exchange
  | .following _ | .done => .delivered

/-- The operation while its step is at a place. -/
def stepping (s : Place) : Execution :=
  { k.execution with phase := .handling k.step (.forwarding k.forward k.due (k.delivery s)) }

def follower (state : Follow) : Task := .follow k.actor k.exchange k.forward k.sink state

/-- The task that the step leaves the rest to. -/
def heir : Place → List Task
  | .following state => [k.follower state]
  | .sending _ | .listening | .done => []

/-- What is left of the follower. -/
def remains : Place → Progress
  | .following state => .going (k.follower state)
  | .sending _ | .listening | .done => .finished

/-- The plane without the next event. -/
def read (p : Plane) : Plane :=
  p.modifyExchange k.exchange fun _ => (p.exchange k.exchange).next.2

/-- The end of the follower. -/
def finish (p : Plane) (response : Value) : Plane :=
  ((p.completeForward k.forward response).modifyExchange k.exchange Exchange.leave).modifyActor
    k.actor fun a => { a with clients := a.clients - 1 }

/-! ## What a courier does -/

/-- The step begins: it is this courier that is sent to the actor behind the proxy. -/
structure Starts (p : Plane) (proxy : Proxy) : Prop where
  delegate : proxy.delegate = .actor k.actor
  below : proxy.node.length ≤ k.step.address.length
  forward : k.forward = p.forwards.length
  exchange : k.exchange = p.exchanges.length
  number : k.number = (p.actor k.actor).nextNumber
  due : k.due = p.now + (p.settings k.execution.controller).blocking
  /-- Reports go where somebody listened before. -/
  sink : ∀ e, k.sink = .exchange e → e < p.exchanges.length

/-- The plane once the exchange has its number. -/
def numbered (p : Plane) : Plane :=
  (p.newForward.2.newExchange (p.actor k.actor).nextNumber).2.modifyActor k.actor fun a =>
    { a with nextNumber := a.nextNumber + 1 }

/-- The actor is asked to run the operation, under the address that it has there. -/
def request (proxy : Proxy) : ActorRequest :=
  .execute k.number k.exchange
    (k.step.operation.set Key.address (Address.toValue (k.step.address.drop proxy.node.length)))
    { k.execution.context.input with cancellation := none }

/-- The first turn, with the calls it makes. -/
inductive Begins (p : Plane) (proxy : Proxy) : List Call → Plane → Place → Prop
  | opens (h : k.Starts p proxy) (hopen : (p.actor k.actor).isOpen = true) :
    Begins p proxy [] ((k.numbered p).send k.actor (k.request proxy)).2 (.sending p.sends)
  | refused (h : k.Starts p proxy) (hclosed : (p.actor k.actor).isOpen = false) :
    Begins p proxy [.failed (Response.failure TransportError.actorClosed.message)]
      ((k.numbered p).failForward k.forward
        (Response.failure TransportError.actorClosed.message)) .done

/-- A later turn, with the calls it makes. -/
inductive Acts (p : Plane) : Place → List Call → Plane → Place → Prop
  | sent {ticket : Nat} (h : (p.actor k.actor).isWaiting ticket = false) :
    Acts p (.sending ticket) [] p .listening
  | refused {ticket : Nat} (hwaiting : (p.actor k.actor).isWaiting ticket = true)
      (hclosed : (p.actor k.actor).isOpen = false) :
    Acts p (.sending ticket) [.failed (Response.failure TransportError.actorClosed.message)]
      (p.failForward k.forward (Response.failure TransportError.actorClosed.message)) .done
  | hears {m : Message} (h : (p.exchange k.exchange).next.1 = .event (.message m)) :
    Acts p .listening [.report m] ((k.read p).report k.sink m) .listening
  | stands {r : Value} (h : (p.exchange k.exchange).next.1 = .event (.prepared r)) :
    Acts p .listening [.prepared p.handles.length r]
      ((((k.read p).newHandle {}).2.reportOutcome k.forward
        (.prepared p.handles.length r)).modifyActor k.actor fun a =>
          { a with clients := a.clients + 1 })
      (.following (.deciding p.handles.length))
  | fails {r : Value} (h : (p.exchange k.exchange).next.1 = .event (.completed r)) :
    Acts p .listening [.failed r]
      (((k.read p).modifyExchange k.exchange Exchange.leave).failForward k.forward r) .done
  | closes (h : (p.exchange k.exchange).next.1 = .ended) :
    Acts p .listening [.failed (Response.failure TransportError.exchangeClosed.message)]
      ((k.read p).failForward k.forward
        (Response.failure TransportError.exchangeClosed.message)) .done
  | decides {h : Nat} {d : Decision} (hd : (p.handle h).outlook.effect? = some d)
      (hopen : (p.actor k.actor).isOpen = true) :
    Acts p (.following (.deciding h)) [.resolve (p.exchange k.exchange).number d]
      ((p.modifyHandle h Prepared.leave).newReply.2.send k.actor
        (.resolve (p.exchange k.exchange).number d p.replies.length)).2
      (.following (.sending p.sends p.replies.length))
  | misses {h : Nat} {d : Decision} (hd : (p.handle h).outlook.effect? = some d)
      (hclosed : (p.actor k.actor).isOpen = false) :
    Acts p (.following (.deciding h)) [.resolve (p.exchange k.exchange).number d]
      (p.modifyHandle h Prepared.leave) (.following .finishing)
  | posted {ticket reply : Nat} (h : (p.actor k.actor).isWaiting ticket = false) :
    Acts p (.following (.sending ticket reply)) [] p (.following (.replying reply))
  | dropped {ticket reply : Nat} (hwaiting : (p.actor k.actor).isWaiting ticket = true)
      (hclosed : (p.actor k.actor).isOpen = false) :
    Acts p (.following (.sending ticket reply)) [] p (.following .finishing)
  | answered {reply : Nat} (h : p.reply reply ≠ .awaited) :
    Acts p (.following (.replying reply)) [] p (.following .finishing)
  | tells {m : Message} (h : (p.exchange k.exchange).next.1 = .event (.message m)) :
    Acts p (.following .finishing) [.report m] ((k.read p).report k.sink m) (.following .finishing)
  /-- Nobody is told that it prepared again. -/
  | skips {r : Value} (h : (p.exchange k.exchange).next.1 = .event (.prepared r)) :
    Acts p (.following .finishing) [] (k.read p) (.following .finishing)
  | completes {r : Value} (h : (p.exchange k.exchange).next.1 = .event (.completed r)) :
    Acts p (.following .finishing) [.completed r] (k.finish (k.read p) r) .done
  | ends (h : (p.exchange k.exchange).next.1 = .ended) :
    Acts p (.following .finishing)
      [.completed (Response.failure TransportError.exchangeClosed.message)]
      (k.finish (k.read p) (Response.failure TransportError.exchangeClosed.message)) .done

/-- What a courier waits for has not come. -/
def Waits (p : Plane) : Place → Prop
  | .sending ticket | .following (.sending ticket _) =>
    (p.actor k.actor).isWaiting ticket = true ∧ (p.actor k.actor).isOpen = true
  | .listening | .following .finishing => (p.exchange k.exchange).next.1 = .nothingYet
  | .following (.deciding h) => (p.handle h).outlook.effect? = none
  | .following (.replying reply) => p.reply reply = .awaited
  | .done => False

/-! ## The turns of the two tasks -/

/-- What a turn of the step comes to. -/
inductive Steps (p : Plane) (s : Place) : Turn → Prop
  | acts {calls : List Call} {q : Plane} {s' : Place} (h : k.Acts p s calls q s') :
    Steps p s { plane := q, spawned := k.heir s', next := .going (k.stepping s') }
  | waits (h : k.Waits p s) : Steps p s { plane := p, next := .blocked (k.stepping s) }
  /-- The time is over, or the operation was cancelled, whatever has come. -/
  | abandons (e : OperationError) (hstop : k.due ≤ p.now ∨
      p.isCancelled k.execution.context.input.cancellation = true) :
    Steps p s { plane := Forwarding.abandon p k.forward (k.delivery s)
                next := .returned (k.stepping s) k.step (.error e) }

/-- What a turn of the follower comes to. -/
inductive Follows (p : Plane) (state : Follow) : Move → Prop
  | acts {calls : List Call} {q : Plane} {s' : Place}
      (h : k.Acts p (.following state) calls q s') :
    Follows p state { plane := q, progress := k.remains s' }
  | waits (h : k.Waits p (.following state)) :
    Follows p state { plane := p, progress := .blocked (k.follower state) }

/-- The turns of the two tasks are those of the courier. -/
structure Rendered : Prop where
  /-- The step begins, unless a cancellation is seen before. -/
  begins : ∀ p proxy, k.Starts p proxy →
    (∃ calls q s, k.Begins p proxy calls q s ∧ Forwarding.start p k.execution k.step proxy =
      { plane := q, next := .going (k.stepping s) }) ∨
    p.isCancelled k.execution.context.input.cancellation = true ∧
      Forwarding.start p k.execution k.step proxy =
        { plane := p, next := .returned k.execution k.step (.error .cancelled) }
  sending : ∀ p ticket, k.Steps p (.sending ticket) ((k.stepping (.sending ticket)).advance p)
  listening : ∀ p, k.Steps p .listening ((k.stepping .listening).advance p)
  following : ∀ p state, k.Follows p state ((k.follower state).advance p)

variable {k : Courier} {p q : Plane} {s s' : Place} {calls : List Call}

theorem begins_of_starts {proxy : Proxy} (h : k.Starts p proxy) :
    (∃ calls q s, k.Begins p proxy calls q s ∧ Forwarding.start p k.execution k.step proxy =
      { plane := q, next := .going (k.stepping s) }) ∨
    p.isCancelled k.execution.context.input.cancellation = true ∧
      Forwarding.start p k.execution k.step proxy =
        { plane := p, next := .returned k.execution k.step (.error .cancelled) } := by
  have hsame : p.newForward.2.actor k.actor = p.actor k.actor := rfl
  rw [Forwarding.start]
  dsimp only
  rw [if_neg (Nat.not_lt.mpr h.below)]
  split
  · next hovertakes => exact .inr ⟨Plane.isCancelled_of_overtakes hovertakes, rfl⟩
  · left
    rw [Forwarding.dispatch.eq_def, h.delegate]
    dsimp only
    rw [hsame]
    by_cases hopen : (p.actor k.actor).isOpen = true
    · refine ⟨_, _, _, .opens h hopen, ?_⟩
      rw [if_pos hopen, stepping, delivery, request, h.number, h.forward, h.exchange, h.due]
      rfl
    · refine ⟨_, _, _, .refused h (Bool.eq_false_iff.mpr hopen), ?_⟩
      rw [if_neg hopen, stepping, delivery, h.forward, h.due]
      rfl

/-- What the step comes to that looks at what has come for it. -/
def Reads (k : Courier) (p : Plane) (s : Place) (t : Turn) : Prop :=
  (k.Waits p s ∧ t = Forwarding.wait p (k.stepping s) k.step k.forward k.due (k.delivery s)) ∨
    ∃ calls q s', k.Acts p s calls q s' ∧
      t = { plane := q, spawned := k.heir s', next := .going (k.stepping s') }

theorem reads_sending (k : Courier) (p : Plane) (ticket : Nat) : k.Reads p (.sending ticket)
    (Forwarding.follow p (k.stepping (.sending ticket)) k.step k.forward k.due
      (k.delivery (.sending ticket))) := by
  rw [Forwarding.follow.eq_def]
  dsimp only [delivery]
  split
  · next h => exact .inr ⟨_, _, _, .sent (Bool.not_eq_true' _ |>.mp h), rfl⟩
  · next hwaiting =>
    have hwaiting : (p.actor k.actor).isWaiting ticket = true := by simpa using hwaiting
    split
    · next hclosed =>
      exact .inr ⟨_, _, _, .refused hwaiting (Bool.not_eq_true' _ |>.mp hclosed), rfl⟩
    · next hopen => exact .inl ⟨⟨hwaiting, by simpa using hopen⟩, rfl⟩

theorem reads_listening (k : Courier) (p : Plane) : k.Reads p .listening
    (Forwarding.follow p (k.stepping .listening) k.step k.forward k.due
      (k.delivery .listening)) := by
  rw [Forwarding.follow.eq_def]
  dsimp only [delivery]
  split
  · next h => exact .inr ⟨_, _, _, .hears h, rfl⟩
  · next h => exact .inr ⟨_, _, _, .stands h, rfl⟩
  · next h => exact .inr ⟨_, _, _, .fails h, rfl⟩
  · next h => exact .inr ⟨_, _, _, .closes h, rfl⟩
  · next h => exact .inl ⟨h, rfl⟩

/-- The step is interrupted, or it looks. -/
theorem steps_of_reads (h : k.Reads p s
    (Forwarding.follow p (k.stepping s) k.step k.forward k.due (k.delivery s))) :
    k.Steps p s
      (Forwarding.advance p (k.stepping s) k.step k.forward k.due (k.delivery s)) := by
  rw [Forwarding.advance]
  split
  · next hinterrupted =>
    exact .abandons _ (Execution.of_interruption?_eq_some hinterrupted)
  · rcases h with ⟨hwaits, hturn⟩ | ⟨calls, q, s', hacts, hturn⟩
    · rw [hturn, Forwarding.wait]
      split
      · next hdue => exact .abandons _ (.inl hdue)
      · split
        · next hcancelled => exact .abandons _ (.inr hcancelled)
        · exact .waits hwaits
    · rw [hturn]
      exact .acts hacts

theorem follows_follower (k : Courier) (p : Plane) (state : Follow) :
    k.Follows p state ((k.follower state).advance p) := by
  rw [follower, Task.advance, Task.advanceFollow.eq_def]
  dsimp only
  cases state with
  | deciding h =>
    dsimp only
    split
    · next h => exact .waits h
    · next hd =>
      split
      · next hopen => exact .acts (.decides hd hopen)
      · next hclosed => exact .acts (.misses hd (Bool.eq_false_iff.mpr hclosed))
  | sending ticket reply =>
    dsimp only
    split
    · next h => exact .acts (.posted (Bool.not_eq_true' _ |>.mp h))
    · next hwaiting =>
      have hwaiting : (p.actor k.actor).isWaiting ticket = true := by simpa using hwaiting
      split
      · next hclosed => exact .acts (.dropped hwaiting (Bool.not_eq_true' _ |>.mp hclosed))
      · next hopen => exact .waits ⟨hwaiting, by simpa using hopen⟩
  | replying reply =>
    dsimp only
    split
    · next h => exact .waits h
    · next h => exact .acts (.answered h)
  | finishing =>
    dsimp only
    split
    · next h => exact .acts (.tells h)
    · next h => exact .acts (.skips h)
    · next h => exact .acts (.completes h)
    · next h => exact .acts (.ends h)
    · next h => exact .waits h

theorem rendered (k : Courier) : k.Rendered where
  begins _ _ := begins_of_starts
  sending p ticket := steps_of_reads (k.reads_sending p ticket)
  listening p := steps_of_reads (k.reads_listening p)
  following := k.follows_follower

/-- A courier that is not there yet waits or acts. -/
theorem goes (k : Courier) (p : Plane) (s : Place) :
    s = .done ∨ k.Waits p s ∨ ∃ calls q s', k.Acts p s calls q s' := by
  have hreads : ∀ {t}, k.Reads p s t → k.Waits p s ∨ ∃ calls q s', k.Acts p s calls q s' :=
    fun h => h.imp And.left fun ⟨calls, q, s', hacts, _⟩ => ⟨calls, q, s', hacts⟩
  have hfollows : ∀ {state m}, s = .following state → k.Follows p state m →
      k.Waits p s ∨ ∃ calls q s', k.Acts p s calls q s' := by
    rintro state m rfl h
    cases h with
    | acts h => exact .inr ⟨_, _, _, h⟩
    | waits h => exact .inl h
  cases s with
  | sending ticket => exact .inr (hreads (k.reads_sending p ticket))
  | listening => exact .inr (hreads (k.reads_listening p))
  | following state => exact .inr (hfollows rfl (k.follows_follower p state))
  | done => exact .inl rfl

end Courier

end ManagementPlane
