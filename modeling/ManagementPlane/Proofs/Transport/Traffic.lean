import ManagementPlane.Machine.Session
import ManagementPlane.Proofs.Proxied.Handing

/-!
# Proofs/Transport/Traffic — an actor between its clients and its operations

A `Traffic` is a plane with what its clients asked one of its actors for: the operations
(`Errand`), the decisions (`Ruling`), and which operations they have seen prepare.  On a
`Traffic.Step` a client, an operation or the actor does one thing, whatever the others do: a client
opens an exchange, sends a decision on any number, takes a request back, reads an event, leaves an
exchange, or goes away; an operation prepares, tells its follower, reports or ends; the actor takes
one turn.

The steps are the functions of the model on the plane.  An operation hands out its handle in two
steps, so that the actor and the clients may act in between; `announcePrepared_exchange` says that
they make up what it does at once.
-/

namespace ManagementPlane

/-! ## The table and the channel of an actor -/

/-- The table of an actor with one enrollment noted. -/
def Enrollment.note (table : Nat → Option Nat) : Enrollment → Nat → Option Nat
  | prepared n h => Function.update table n (some h)
  | withdrawn n => Function.update table n none

/-- A decision that a request asks for: the number, and the reply. -/
def ActorRequest.ruling? : ActorRequest → Option (Nat × Decision × Nat)
  | execute _ _ _ _ => none
  | resolve n d r => some (n, d, r)

namespace Actor

variable {a b : Actor}

/-- The handles by number, once all enrollments are noted. -/
def table (a : Actor) : Nat → Option Nat := a.enrollments.foldl Enrollment.note a.handleOf?

/-- All requests that were sent and not served, the oldest first. -/
def queue (a : Actor) : List ActorRequest := a.requests ++ a.backlog.map Prod.snd

/-- The decisions among them. -/
def asked (a : Actor) : List (Nat × Decision × Nat) := a.queue.filterMap ActorRequest.ruling?

theorem handleOf?_forget (a : Actor) (n : Nat) :
    (a.forget n).handleOf? = Function.update a.handleOf? n none := by
  funext m
  rw [Function.update_apply, handleOf?, forget, List.find?_filter]
  split
  · rename_i hm
    rw [Option.map_eq_none_iff, List.find?_eq_none]
    simp [hm]
  · rename_i hm
    rw [handleOf?]
    congr 2
    funext entry
    by_cases hentry : entry.1 = m <;> simp [hentry, hm]

theorem handleOf?_enroll (a : Actor) (e : Enrollment) :
    (a.enroll e).handleOf? = e.note a.handleOf? := by
  cases e with
  | withdrawn n => exact a.handleOf?_forget n
  | prepared n h =>
    funext m
    have hforget := congrFun (a.handleOf?_forget n) m
    rw [handleOf?, Function.update_apply] at hforget
    rw [Enrollment.note, Function.update_apply, handleOf?, enroll]
    dsimp only
    rw [List.find?_append, Option.map_or, hforget]
    split
    · rename_i hm
      simp [hm]
    · rename_i hm
      simp [Ne.symm hm]

theorem table_of_drained (h : a.enrollments = []) : a.table = a.handleOf? := by rw [table, h]; rfl

/-- Noting an enrollment does not change what is going to be in the table. -/
theorem table_enroll {e : Enrollment} {rest : List Enrollment} (h : a.enrollments = e :: rest) :
    ({ a with enrollments := rest }.enroll e).table = a.table := by
  have hrest : ({ a with enrollments := rest }.enroll e).enrollments = rest := by cases e <;> rfl
  rw [table, hrest, handleOf?_enroll, table, h]
  rfl

theorem table_append (a : Actor) (e : Enrollment) :
    { a with enrollments := a.enrollments ++ [e] }.table = e.note a.table :=
  List.foldl_append ..

theorem queue_send (a : Actor) (ticket : Nat) (r : ActorRequest) :
    (a.send ticket r).queue = a.queue ++ [r] := by
  rw [send]
  split
  · rename_i h
    have hbacklog : a.backlog = [] := by
      rw [Bool.and_eq_true] at h
      simpa using h.2
    simp [queue, hbacklog]
  · simp [queue]

theorem queue_withdraw (a : Actor) (ticket : Nat) : (a.withdraw ticket).queue.Sublist a.queue :=
  (List.filter_sublist.map _).append_left _

theorem queue_receive {r : ActorRequest} (h : a.receive? = some (r, b)) :
    a.queue = r :: b.queue := by
  rw [receive?] at h
  split at h
  · cases h
  · rename_i hrequests
    split at h <;> rename_i hbacklog <;> cases h <;> simp [queue, hrequests, hbacklog]

/-- A request waits for room only while there are others to serve. -/
def Flows (a : Actor) : Prop := 0 < a.capacity ∧ (a.requests = [] → a.backlog = [])

theorem Flows.send (h : a.Flows) (ticket : Nat) (r : ActorRequest) : (a.send ticket r).Flows := by
  rw [Actor.send]
  split
  · exact ⟨h.1, fun hnil => absurd hnil (by simp)⟩
  · rename_i hfull
    refine ⟨h.1, fun hnil => absurd ?_ hfull⟩
    simp only at hnil
    simp [hnil, h.1, h.2 hnil]

theorem Flows.withdraw (h : a.Flows) (ticket : Nat) : (a.withdraw ticket).Flows :=
  ⟨h.1, fun hnil => by rw [Actor.withdraw, h.2 hnil]; rfl⟩

theorem Flows.receive {r : ActorRequest} (h : a.Flows) (hr : a.receive? = some (r, b)) :
    b.Flows := by
  rw [receive?] at hr
  split at hr
  · cases hr
  · split at hr <;> rename_i hbacklog <;> cases hr
    · exact ⟨h.1, fun _ => hbacklog⟩
    · exact ⟨h.1, fun hnil => absurd hnil (by simp)⟩

end Actor

/-! ## Traffic -/

/-- How far an operation that was asked for has come. -/
inductive Errand.Standing
  | running
  /-- The actor was given the handle, and the follower is about to be told. -/
  | enrolled (handle : Nat)
  /-- The follower was told. -/
  | announced (handle : Nat)
  /-- There was nobody to tell. -/
  | withdrawn (handle : Nat)
  deriving DecidableEq, Repr

/-- The handle with which an operation prepared. -/
def Errand.Standing.handle? : Standing → Option Nat
  | running => none
  | enrolled h | announced h | withdrawn h => some h

/-- An operation that a client asked for. -/
structure Errand where
  number : Nat
  exchange : Nat
  standing : Errand.Standing := .running
  deriving DecidableEq, Repr

/-- A decision that a client sent. -/
structure Ruling where
  number : Nat
  decision : Decision
  reply : Nat
  /-- Whether a client had read by then that the operation prepared. -/
  informed : Bool
  deriving DecidableEq, Repr

structure Traffic where
  plane : Plane
  /-- What clients asked for, in their order. -/
  errands : List Errand := []
  /-- The exchanges of the operations that the actor has started. -/
  started : List Nat := []
  /-- The decisions that clients sent, in their order. -/
  rulings : List Ruling := []
  /-- The numbers of the operations of which a client has read that they prepared. -/
  heard : List Nat := []

/-- The exchange that a task was started for. -/
def Task.exchange? : Task → Option Nat
  | operation _ (.exchange e) => some e
  | _ => none

namespace Traffic

variable (T : Traffic) (a : Nat)

def onPlane (f : Plane → Plane) : Traffic := { T with plane := f T.plane }

/-- The standing of one operation changes. -/
def stand (s : Errand) (standing : Errand.Standing) : List Errand :=
  T.errands.map fun t => if t = s then { t with standing } else t

/-- A client opens an exchange: the operation gets its number, and the request is on its way. -/
def execute (operation : Value) (input : Input) : Traffic :=
  let actor := T.plane.actor a
  let (e, p) := T.plane.newExchange actor.nextNumber
  let p := p.modifyActor a fun k => { k with nextNumber := k.nextNumber + 1 }
  { T with
    plane :=
      if actor.isOpen then (p.send a (.execute actor.nextNumber e operation input)).2 else p
    errands := T.errands ++ [{ number := actor.nextNumber, exchange := e }] }

/-- A client sends a decision. -/
def resolve (n : Nat) (d : Decision) : Traffic :=
  let (r, p) := T.plane.newReply
  { T with
    plane := (p.send a (.resolve n d r)).2
    rulings := T.rulings ++
      [{ number := n, decision := d, reply := r, informed := T.heard.contains n }] }

/-- A client reads the next event of an exchange. -/
def read (s : Errand) : Traffic :=
  let (sight, exchange) := (T.plane.exchange s.exchange).next
  { T with
    plane := T.plane.modifyExchange s.exchange fun _ => exchange
    heard := match sight with
      | .event (.prepared _) => T.heard ++ [s.number]
      | _ => T.heard }

/-- The actor takes a turn. -/
def poll : Traffic :=
  let move := (Task.serve a).advance T.plane
  { T with
    plane := move.plane
    started := T.started ++ move.spawned.filterMap Task.exchange? }

/-- An operation prepares, and gives its handle to the actor. -/
def prepare (s : Errand) : Traffic :=
  let (h, p) := T.plane.newHandle {}
  if (p.actor a).isOpen then
    { T with
      plane := p.modifyActor a fun k =>
        { k with enrollments := k.enrollments ++ [.prepared (p.exchange s.exchange).number h] }
      errands := T.stand s (.enrolled h) }
  else { T with plane := p.decideAndDrop h .rollback, errands := T.stand s (.withdrawn h) }

/-- An operation tells its follower that it prepared; without one it rolls back and withdraws. -/
def announce (s : Errand) (h : Nat) (tentative : Value) : Traffic :=
  let p := T.plane
  if (p.exchange s.exchange).followed then
    { T with
      plane := p.modifyExchange s.exchange (·.send (.prepared tentative))
      errands := T.stand s (.announced h) }
  else
    { T with
      plane := (p.decideAndDrop h .rollback).modifyActor a fun k =>
        { k with enrollments := k.enrollments ++ [.withdrawn (p.exchange s.exchange).number] }
      errands := T.stand s (.withdrawn h) }

/-- What goes on elsewhere leaves the actor alone, and the exchanges, handles and replies of its
clients; a participant may stop to listen. -/
structure Aside (q : Plane) : Prop where
  actors : T.plane.actors.length ≤ q.actors.length
  actor : q.actor a = T.plane.actor a
  exchanges : T.plane.exchanges.length ≤ q.exchanges.length
  exchange : ∀ s ∈ T.errands, q.exchange s.exchange = T.plane.exchange s.exchange
  handles : T.plane.handles.length ≤ q.handles.length
  decision : ∀ s ∈ T.errands, ∀ h ∈ s.standing.handle?,
    (q.handle h).decision = (T.plane.handle h).decision
  replies : T.plane.replies.length ≤ q.replies.length
  reply : ∀ r ∈ T.rulings, q.reply r.reply = T.plane.reply r.reply

inductive Step (a : Nat) : Traffic → Traffic → Prop
  | executes (T : Traffic) (operation : Value) (input : Input) :
    Step a T (T.execute a operation input)
  | resolves {T : Traffic} (h : (T.plane.actor a).isOpen = true) (n : Nat) (d : Decision) :
    Step a T (T.resolve a n d)
  /-- A client does not wait any longer for room in the channel. -/
  | withdraws (T : Traffic) (ticket : Nat) :
    Step a T (T.onPlane (·.modifyActor a (·.withdraw ticket)))
  | reads {T : Traffic} {s : Errand} (hs : s ∈ T.errands) : Step a T (T.read s)
  | leaves {T : Traffic} {s : Errand} (hs : s ∈ T.errands) :
    Step a T (T.onPlane (·.modifyExchange s.exchange Exchange.leave))
  /-- Clients come and go. -/
  | clients (T : Traffic) (clients : Nat) :
    Step a T (T.onPlane (·.modifyActor a ({ · with clients })))
  | polls (T : Traffic) : Step a T (T.poll a)
  | prepares {T : Traffic} {s : Errand} (hs : s ∈ T.errands) (hstarted : s.exchange ∈ T.started)
    (hrunning : s.standing = .running) : Step a T (T.prepare a s)
  | announces {T : Traffic} {s : Errand} (hs : s ∈ T.errands) {h : Nat}
    (henrolled : s.standing = .enrolled h) (tentative : Value) :
    Step a T (T.announce a s h tentative)
  | reports {T : Traffic} {s : Errand} (hs : s ∈ T.errands) (m : Message) :
    Step a T (T.onPlane (·.report (.exchange s.exchange) m))
  | ends {T : Traffic} {s : Errand} (hs : s ∈ T.errands) (answer : Answer) :
    Step a T (T.onPlane ((Origin.exchange s.exchange).tell · answer))
  | crashes {T : Traffic} {s : Errand} (hs : s ∈ T.errands) (reason : String) :
    Step a T (T.onPlane ((Origin.exchange s.exchange).tellCrash · reason))
  | aside {T : Traffic} {q : Plane} (h : T.Aside a q) : Step a T { T with plane := q }

/-- One traffic comes to be another. -/
abbrev Leads (a : Nat) : Traffic → Traffic → Prop := Relation.ReflTransGen (Step a)

/-- Nobody has asked the actor for anything. -/
structure Fresh : Prop where
  live : a < T.plane.actors.length
  flows : 0 < (T.plane.actor a).capacity
  requests : (T.plane.actor a).requests = []
  backlog : (T.plane.actor a).backlog = []
  enrollments : (T.plane.actor a).enrollments = []
  pending : (T.plane.actor a).pending = []
  errands : T.errands = []
  rulings : T.rulings = []
  heard : T.heard = []

def Reachable : Prop := ∃ T₀ : Traffic, T₀.Fresh a ∧ Leads a T₀ T

end Traffic

/-! ## The steps are what operations do -/

open Traffic

variable {T : Traffic} {a : Nat}

/-- **What an operation does at once when it prepares**, in two steps of the traffic. -/
theorem announcePrepared_exchange (s t : Errand) (ht : t.exchange = s.exchange)
    (tentative : Value) :
    (T.plane.newHandle {}).2.announcePrepared (.exchange s.exchange a) T.plane.handles.length
        tentative =
      if (T.plane.actor a).isOpen then
        ((T.prepare a s).announce a t T.plane.handles.length tentative).plane
      else (T.prepare a s).plane := by
  have hactor : (T.plane.newHandle {}).2.actor a = T.plane.actor a := rfl
  rw [Plane.announcePrepared, prepare]
  dsimp only
  rw [hactor]
  split
  · rw [announce, ht, apply_ite Traffic.plane]
    rfl
  · rfl

/-- A step that is forwarded to an actor opens an exchange. -/
theorem dispatch_actor (x : Execution) {proxy : Proxy} (hproxy : proxy.delegate = .actor a)
    (hopen : (T.plane.actor a).isOpen = true) (operation : Value) (f : Nat) :
    (Forwarding.dispatch T.plane x proxy operation f).2.2 =
      (T.execute a operation { x.context.input with cancellation := none }).plane := by
  rw [Forwarding.dispatch, hproxy, execute]
  dsimp only
  rw [if_pos hopen, if_pos hopen]

/-- The follower of an exchange that prepared sends what was decided. -/
theorem follow_deciding {e f h : Nat} {sink : Sink} {d : Decision}
    (hd : (T.plane.handle h).outlook.effect? = some d) (hopen : (T.plane.actor a).isOpen = true) :
    (Task.advance T.plane (.follow a e f sink (.deciding h))).plane =
      ((T.onPlane (·.modifyHandle h Prepared.leave)).resolve a
        (T.plane.exchange e).number d).plane := by
  have hopen' : ((T.plane.modifyHandle h Prepared.leave).actor a).isOpen = true := hopen
  rw [Task.advance, Task.advanceFollow]
  dsimp only
  rw [hd]
  dsimp only
  rw [if_pos hopen']
  rfl

end ManagementPlane
