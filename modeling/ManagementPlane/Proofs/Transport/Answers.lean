import ManagementPlane.Proofs.Transport.Courier
import ManagementPlane.Proofs.Transport.Sound

/-!
# Proofs/Transport/Answers — a courier answers once

A `Courier.Run` is any course of a courier whose step does not give up.  Between its turns, all
others do what they like, as long as they leave to the courier what is its own
(`Courier.Meanwhile`): any events come in any order, the exchange is closed at any point, and the
handle is decided or dropped.

The calls that were made by then follow from the events read so far and from the decision
(`Courier.Kept`).  So the step is told once that the operation prepared or failed; a prepared one is
decided once, as its handle was, and completed once; and every report is passed on.
-/

namespace ManagementPlane

open Plane

namespace ExchangeEvent

def message? : ExchangeEvent → Option Message
  | message m => some m
  | prepared _ | completed _ => none

/-- The tentative response. -/
def tentative? : ExchangeEvent → Option Value
  | prepared r => some r
  | message _ | completed _ => none

/-- The response that ends the exchange. -/
def final? : ExchangeEvent → Option Value
  | completed r => some r
  | message _ | prepared _ => none

end ExchangeEvent

theorem Exchange.next_event {x : Exchange} {e : ExchangeEvent} (h : x.next.1 = .event e) :
    ∃ rest, x.events = e :: rest ∧ x.next.2 = { x with events := rest } := by
  rw [Exchange.next] at h ⊢
  split at h
  · next hevents =>
    cases h
    exact ⟨_, hevents, rfl⟩
  · dsimp only at h
    split at h <;> cases h

theorem Exchange.next_ended {x : Exchange} (h : x.next.1 = .ended) :
    x.events = [] ∧ x.active = false ∧ x.next.2 = x := by
  rw [Exchange.next] at h ⊢
  split at h
  · cases h
  · next hevents =>
    dsimp only at h
    split at h
    · cases h
    · next hclosed => exact ⟨hevents, Bool.eq_false_iff.mpr hclosed, rfl⟩

namespace Plane

theorem exchange_of_exchanges {p q : Plane} (h : q.exchanges = p.exchanges) (e : Nat) :
    q.exchange e = p.exchange e := congrArg (fun xs : List Exchange => (xs[e]?).getD {}) h

theorem handle_of_handles {p q : Plane} (h : q.handles = p.handles) (i : Nat) :
    q.handle i = p.handle i := congrArg (fun hs : List Prepared => (hs[i]?).getD {}) h

theorem outlook_leave (p : Plane) (h i : Nat) :
    ((p.modifyHandle h Prepared.leave).handle i).outlook = (p.handle i).outlook := by
  rw [handle_modifyHandle]
  split <;> rfl

theorem exchange_report {e : Nat} {sink : Sink} (hsink : ∀ i, sink = .exchange i → i ≠ e)
    (p : Plane) (m : Message) : (p.report sink m).exchange e = p.exchange e := by
  cases sink with
  | collect | discard => rfl
  | exchange i =>
    have hne := hsink i rfl
    exact (exchange_modifyExchange ..).trans (if_neg fun h => hne h.1)

theorem length_exchanges_report (p : Plane) (sink : Sink) (m : Message) :
    (p.report sink m).exchanges.length = p.exchanges.length := by
  cases sink with
  | collect | discard => rfl
  | exchange i => exact List.length_modify _ _ _

theorem forwards_report (p : Plane) (sink : Sink) (m : Message) :
    (p.report sink m).forwards = p.forwards := by cases sink <;> rfl

theorem handles_report (p : Plane) (sink : Sink) (m : Message) :
    (p.report sink m).handles = p.handles := by cases sink <;> rfl

/-- An outcome changes the record of its step, and nothing else but handles. -/
theorem exists_reportOutcome (p : Plane) (f : Nat) (o : Outcome) : ∃ handles,
    p.reportOutcome f o =
      { p.modifyForward f fun _ => ((p.forward f).report o).2 with handles } := by
  rw [reportOutcome]
  dsimp only
  split
  · split <;> exact ⟨_, rfl⟩
  · exact ⟨_, rfl⟩

theorem exchanges_reportOutcome (p : Plane) (f : Nat) (o : Outcome) :
    (p.reportOutcome f o).exchanges = p.exchanges := by
  obtain ⟨handles, h⟩ := p.exists_reportOutcome f o
  rw [h]
  rfl

theorem exchanges_failForward (p : Plane) (f : Nat) (response : Value) :
    (p.failForward f response).exchanges = p.exchanges := exchanges_reportOutcome p f _

theorem length_forwards_reportOutcome (p : Plane) (f : Nat) (o : Outcome) :
    (p.reportOutcome f o).forwards.length = p.forwards.length := by
  obtain ⟨handles, h⟩ := p.exists_reportOutcome f o
  rw [h]
  exact List.length_modify _ _ _

theorem forward_reportOutcome {f : Nat} {p : Plane} (hf : f < p.forwards.length) (o : Outcome) :
    (p.reportOutcome f o).forward f = ((p.forward f).report o).2 := by
  obtain ⟨handles, h⟩ := p.exists_reportOutcome f o
  rw [h]
  exact (forward_modifyForward ..).trans (if_pos ⟨rfl, hf⟩)

theorem forward_failForward {f : Nat} {p : Plane} (hf : f < p.forwards.length) (response : Value) :
    (p.failForward f response).forward f =
      ((p.forward f).report (.failed response)).2.release := by
  have hf' : f < (p.reportOutcome f (.failed response)).forwards.length :=
    (length_forwards_reportOutcome ..).symm ▸ hf
  rw [failForward, forward_modifyForward, if_pos ⟨rfl, hf'⟩, forward_reportOutcome hf]

end Plane

namespace Courier

namespace Call

def message? : Call → Option Message
  | report m => some m
  | prepared .. | failed _ | resolve .. | completed _ => none

/-- Reports may come at any time; the other calls are the answer to the step. -/
def isAnswer (c : Call) : Bool := c.message?.isNone

/-- What becomes of the record of the forwarded step. -/
def note (f : Forward) : Call → Forward
  | prepared h r => (f.report (.prepared h r)).2
  | failed r => (f.report (.failed r)).2.release
  | completed r => (f.complete r).release
  | report _ | resolve .. => f

end Call

/-- How many turns it takes to come to a place, not counting those that read an event. -/
def Place.rank : Place → Nat
  | sending _ => 0
  | listening | following (.deciding _) => 1
  | following (.sending ..) => 2
  | following (.replying _) => 3
  | following .finishing => 4
  | done => 5

variable (k : Courier) {p q : Plane} {s s' : Place} {calls : List Call}

/-! ## Runs -/

/-- What everything else may do to the plane, while `more` is sent to the exchange. -/
structure Meanwhile (p : Plane) (s : Place) (more : List ExchangeEvent) (q : Plane) : Prop where
  exchanges : p.exchanges.length ≤ q.exchanges.length
  /-- It may be closed at any time. -/
  exchange : ∃ active, q.exchange k.exchange =
    { p.exchange k.exchange with events := (p.exchange k.exchange).events ++ more, active }
  /-- Nothing is sent to an exchange whose request waits for room, and no request goes back. -/
  unsent : ∀ ticket, s = .sending ticket → (q.actor k.actor).isWaiting ticket = true →
    (p.actor k.actor).isWaiting ticket = true ∧ more = []
  forwards : p.forwards.length ≤ q.forwards.length
  forward : q.forward k.forward = p.forward k.forward
  /-- A decision is final, and so is the drop of all clones. -/
  decided : ∀ h d, (p.handle h).outlook.effect? = some d → (q.handle h).outlook.effect? = some d

/-- `Run n sent log p s`: in `n` turns after the first one, the courier has come to `s` and made the
calls of `log`, while `sent` was sent to its exchange. -/
inductive Run : Nat → List ExchangeEvent → List Call → Plane → Place → Prop
  | begins {p q : Plane} {proxy : Proxy} {calls : List Call} {s : Place}
      (h : k.Begins p proxy calls q s) : Run 0 [] calls q s
  | acts {n : Nat} {sent : List ExchangeEvent} {log calls : List Call} {p q : Plane} {s s' : Place}
      (h : Run n sent log p s) (hacts : k.Acts p s calls q s') :
    Run (n + 1) sent (log ++ calls) q s'
  | rests {n : Nat} {sent more : List ExchangeEvent} {log : List Call} {p q : Plane} {s : Place}
      (h : Run n sent log p s) (hs : s ≠ .done) (hmeanwhile : k.Meanwhile p s more q) :
    Run n (sent ++ more) log q s

/-- The exchange ends with a response: the first that was not read completes it, or there is none
left and it was closed. -/
def Ends (p : Plane) (unread : List ExchangeEvent) (last : Value) : Prop :=
  unread.head? = some (.completed last) ∨ unread = [] ∧ (p.exchange k.exchange).active = false ∧
    last = Response.failure TransportError.exchangeClosed.message

/-- What the step was answered by the time that the courier is at a place. -/
inductive Answers (p : Plane) (seen unread : List ExchangeEvent) (answers : List Call) :
    Place → Prop
  | sending {ticket : Nat} (h : answers = []) (hseen : seen = [])
      (hunread : (p.actor k.actor).isWaiting ticket = true → unread = []) :
    Answers p seen unread answers (.sending ticket)
  | listening (h : answers = []) (hseen : seen.findSome? ExchangeEvent.tentative? = none) :
    Answers p seen unread answers .listening
  | deciding {i : Nat} {r : Value} (h : answers = [.prepared i r])
      (hseen : seen.findSome? ExchangeEvent.tentative? = some r) :
    Answers p seen unread answers (.following (.deciding i))
  | decided {i : Nat} {r : Value} {d : Decision} {state : Follow}
      (h : answers = [.prepared i r, .resolve k.number d])
      (hseen : seen.findSome? ExchangeEvent.tentative? = some r)
      (hd : (p.handle i).outlook.effect? = some d) (hstate : ∀ j, state ≠ .deciding j) :
    Answers p seen unread answers (.following state)
  /-- The exchange never started. -/
  | unreached (h : answers = [.failed (Response.failure TransportError.actorClosed.message)])
      (hseen : seen = []) (hunread : unread = []) :
    Answers p seen unread answers .done
  | failed {last : Value} (h : answers = [.failed last])
      (hseen : seen.findSome? ExchangeEvent.tentative? = none) (hends : k.Ends p unread last) :
    Answers p seen unread answers .done
  | completed {i : Nat} {r last : Value} {d : Decision}
      (h : answers = [.prepared i r, .resolve k.number d, .completed last])
      (hseen : seen.findSome? ExchangeEvent.tentative? = some r)
      (hd : (p.handle i).outlook.effect? = some d) (hends : k.Ends p unread last) :
    Answers p seen unread answers .done

/-- What a run keeps to, when the events `seen` were read and `unread` were not. -/
structure Kept (n : Nat) (seen unread : List ExchangeEvent) (log : List Call) (p : Plane)
    (s : Place) : Prop where
  answers : k.Answers p seen unread (log.filter Call.isAnswer) s
  /-- Reports are passed on in their order. -/
  reports : log.filterMap Call.message? = seen.filterMap ExchangeEvent.message?
  /-- None that ends the exchange is among them. -/
  plain : ∀ e ∈ seen, e.final? = none
  /-- The record of the step shows these calls and no others. -/
  forward : p.forward k.forward = log.foldl Call.note {}
  turns : n ≤ seen.length + s.rank

/-- The courier's own are in their places. -/
structure Owns (p : Plane) : Prop where
  exchange : k.exchange < p.exchanges.length
  number : (p.exchange k.exchange).number = k.number
  known : k.forward < p.forwards.length
  sink : ∀ e, k.sink = .exchange e → e ≠ k.exchange

/-- How a run stands: besides, what was sent and not read waits in the exchange. -/
structure Stands (n : Nat) (seen unread : List ExchangeEvent) (log : List Call) (p : Plane)
    (s : Place) : Prop extends k.Kept n seen unread log p s, k.Owns p where
  events : s = .done ∨ (p.exchange k.exchange).events = unread

variable {k} {n : Nat} {seen unread more sent : List ExchangeEvent} {log : List Call}

/-! ## What the turns change -/

/-- The record of the step takes note of the calls. -/
theorem Acts.forward (h : k.Acts p s calls q s') (hk : k.forward < p.forwards.length) :
    q.forward k.forward = calls.foldl Call.note (p.forward k.forward) := by
  have hreport : ∀ m, ((k.read p).report k.sink m).forward k.forward = p.forward k.forward :=
    fun m => congrArg (fun fs : List Forward => (fs[k.forward]?).getD {}) (forwards_report ..)
  have hfinish : ∀ r, (k.finish (k.read p) r).forward k.forward =
      ((p.forward k.forward).complete r).release :=
    fun r => (forward_modifyForward ..).trans (if_pos ⟨rfl, hk⟩)
  cases h with
  | refused => exact forward_failForward hk _
  | fails =>
    exact forward_failForward (p := (k.read p).modifyExchange k.exchange Exchange.leave) hk _
  | closes => exact forward_failForward (p := k.read p) hk _
  | stands => exact forward_reportOutcome (p := ((k.read p).newHandle {}).2) hk _
  | hears | tells => exact hreport _
  | completes | ends => exact hfinish _
  | sent | decides | misses | posted | dropped | answered | skips => rfl

section Owns

variable (h : k.Owns p)

include h

theorem Owns.exchange_read :
    (k.read p).exchange k.exchange = (p.exchange k.exchange).next.2 :=
  (exchange_modifyExchange ..).trans (if_pos ⟨rfl, h.exchange⟩)

theorem Owns.of_exchanges (hexchanges : q.exchanges = p.exchanges)
    (hforwards : q.forwards.length = p.forwards.length) : k.Owns q where
  exchange := hexchanges ▸ h.exchange
  number := by rw [Plane.exchange, hexchanges]; exact h.number
  known := hforwards ▸ h.known
  sink := h.sink

theorem Owns.modifyExchange {g : Exchange → Exchange}
    (hg : (g (p.exchange k.exchange)).number = (p.exchange k.exchange).number) :
    k.Owns (p.modifyExchange k.exchange g) where
  exchange := (List.length_modify _ _ _).symm ▸ h.exchange
  number := by
    rw [exchange_modifyExchange, if_pos ⟨rfl, h.exchange⟩]
    exact hg.trans h.number
  known := h.known
  sink := h.sink

theorem Owns.read : k.Owns (k.read p) := h.modifyExchange <| by
  rw [Exchange.next]
  split <;> rfl

theorem Owns.report (m : Message) : k.Owns (p.report k.sink m) where
  exchange := (length_exchanges_report ..).symm ▸ h.exchange
  number := by rw [exchange_report h.sink]; exact h.number
  known := (forwards_report ..).symm ▸ h.known
  sink := h.sink

theorem Owns.reportOutcome (f : Nat) (o : Outcome) : k.Owns (p.reportOutcome f o) :=
  h.of_exchanges (exchanges_reportOutcome ..) (length_forwards_reportOutcome ..)

theorem Owns.modifyForward (f : Nat) (g : Forward → Forward) : k.Owns (p.modifyForward f g) :=
  h.of_exchanges rfl (List.length_modify _ _ _)

theorem Owns.failForward (f : Nat) (r : Value) : k.Owns (p.failForward f r) :=
  (h.reportOutcome f _).modifyForward f _

theorem Owns.active_finish (r : Value) :
    ((k.finish p r).exchange k.exchange).active = (p.exchange k.exchange).active := by
  have hleft : (k.finish p r).exchange k.exchange = (p.exchange k.exchange).leave :=
    (exchange_modifyExchange ..).trans (if_pos ⟨rfl, h.exchange⟩)
  rw [hleft]
  rfl

theorem Owns.finish (r : Value) : k.Owns (k.finish p r) :=
  ((h.modifyForward k.forward _).modifyExchange (g := Exchange.leave) rfl).of_exchanges rfl rfl

/-- The exchange of the courier is no other after a turn. -/
theorem Owns.acts (hacts : k.Acts p s calls q s') : k.Owns q := by
  cases hacts with
  | sent | posted | dropped | answered => exact h
  | decides | misses => exact h.of_exchanges rfl rfl
  | refused => exact h.failForward _ _
  | hears | tells => exact h.read.report _
  | @stands r =>
    have hnew : k.Owns ((k.read p).newHandle {}).2 := h.read.of_exchanges rfl rfl
    exact (hnew.reportOutcome k.forward (.prepared p.handles.length r)).of_exchanges rfl rfl
  | skips => exact h.read
  | fails => exact (h.read.modifyExchange (g := Exchange.leave) rfl).failForward _ _
  | closes => exact h.read.failForward _ _
  | completes | ends => exact h.read.finish _

end Owns

/-- One turn more, which has read the events `read`. -/
theorem Stands.extend {read rest : List ExchangeEvent}
    (h : k.Stands n seen (read ++ rest) log p s) (hacts : k.Acts p s calls q s')
    (hplain : ∀ e ∈ read, e.final? = none)
    (hreports : calls.filterMap Call.message? = read.filterMap ExchangeEvent.message?)
    (hrank : s.rank + 1 ≤ s'.rank + read.length)
    (hevents : s' = .done ∨ (q.exchange k.exchange).events = rest)
    (hanswers : k.Answers q (seen ++ read) rest
      (log.filter Call.isAnswer ++ calls.filter Call.isAnswer) s') :
    k.Stands (n + 1) (seen ++ read) rest (log ++ calls) q s' where
  answers := by rwa [List.filter_append]
  reports := by rw [List.filterMap_append, List.filterMap_append, h.reports, hreports]
  plain e he := (List.mem_append.mp he).elim (h.plain e) (hplain e)
  forward := by rw [hacts.forward h.known, h.forward, List.foldl_append]
  turns := by
    have hturns := h.turns
    rw [List.length_append]
    omega
  toOwns := h.toOwns.acts hacts
  events := hevents

theorem Acts.ne_done (h : k.Acts p s calls q s') : s ≠ .done := by
  cases h <;> rintro ⟨⟩

/-! ## The answer, turn by turn -/

section Answers

variable {answers : List Call} {state : Follow}

theorem Answers.decides {i : Nat} {d : Decision}
    (h : k.Answers p seen unread answers (.following (.deciding i)))
    (hd : (q.handle i).outlook.effect? = some d) (hstate : ∀ j, state ≠ .deciding j) :
    k.Answers q seen unread (answers ++ [.resolve k.number d]) (.following state) := by
  cases h with
  | deciding hanswers hseen => exact .decided (by rw [hanswers]; rfl) hseen hd hstate
  | decided _ _ _ hnot => exact absurd rfl (hnot i)

/-- Once it was decided, reports come, and nothing else. -/
theorem Answers.goesOn {seen' rest : List ExchangeEvent} {state' : Follow}
    (h : k.Answers p seen unread answers (.following state)) (hstate : ∀ j, state ≠ .deciding j)
    (hstate' : ∀ j, state' ≠ .deciding j) (hseen' : seen <+: seen')
    (hq : q.handles = p.handles) : k.Answers q seen' rest answers (.following state') := by
  cases h with
  | deciding => exact absurd rfl (hstate _)
  | decided hanswers hseen hd =>
    exact .decided hanswers (hseen'.findSome?_eq_some hseen) (handle_of_handles hq _ ▸ hd) hstate'

theorem Answers.ends {last : Value}
    (h : k.Answers p seen unread answers (.following state)) (hstate : ∀ j, state ≠ .deciding j)
    (hq : q.handles = p.handles) (hends : k.Ends q unread last) :
    k.Answers q seen unread (answers ++ [.completed last]) .done := by
  cases h with
  | deciding => exact absurd rfl (hstate _)
  | decided hanswers hseen hd =>
    exact .completed (by rw [hanswers]; rfl) hseen (handle_of_handles hq _ ▸ hd) hends

end Answers

/-- A turn that reads nothing brings the courier nearer to its end. -/
theorem Stands.quiet (h : k.Stands n seen unread log p s) (hacts : k.Acts p s calls q s')
    (hreports : calls.filterMap Call.message? = []) (hrank : s.rank < s'.rank)
    (hq : s' = .done ∨ q.exchange k.exchange = p.exchange k.exchange)
    (hanswers : k.Answers q seen unread
      (log.filter Call.isAnswer ++ calls.filter Call.isAnswer) s') :
    ∃ read rest, unread = read ++ rest ∧
      k.Stands (n + 1) (seen ++ read) rest (log ++ calls) q s' := by
  refine ⟨[], unread, rfl, Stands.extend h hacts (by simp) hreports hrank ?_ ?_⟩
  · refine hq.imp_right fun hq => ?_
    rw [hq]
    exact h.events.resolve_left hacts.ne_done
  · rwa [List.append_nil]

/-- A turn that reads an event which does not end the exchange. -/
theorem Stands.reads {e : ExchangeEvent} (h : k.Stands n seen unread log p s)
    (hacts : k.Acts p s calls q s') (hsight : (p.exchange k.exchange).next.1 = .event e)
    (hplain : e.final? = none)
    (hreports : calls.filterMap Call.message? = [e].filterMap ExchangeEvent.message?)
    (hrank : s.rank ≤ s'.rank) (hq : q.exchange k.exchange = (p.exchange k.exchange).next.2)
    (hanswers : ∀ rest, k.Answers q (seen ++ [e]) rest
      (log.filter Call.isAnswer ++ calls.filter Call.isAnswer) s') :
    ∃ read rest, unread = read ++ rest ∧
      k.Stands (n + 1) (seen ++ read) rest (log ++ calls) q s' := by
  obtain ⟨rest, hevents, hnext⟩ := Exchange.next_event hsight
  obtain rfl : unread = [e] ++ rest :=
    (h.events.resolve_left hacts.ne_done).symm.trans hevents
  refine ⟨[e], rest, rfl, h.extend hacts (by simpa using hplain) hreports
    (Nat.succ_le_succ hrank) (.inr ?_) (hanswers rest)⟩
  rw [hq, hnext]

/-- The exchange ends with its next event. -/
theorem Stands.ends_of_event {r : Value} (h : k.Stands n seen unread log p s) (hs : s ≠ .done)
    (hsight : (p.exchange k.exchange).next.1 = .event (.completed r)) : k.Ends q unread r := by
  obtain ⟨rest, hevents, -⟩ := Exchange.next_event hsight
  rw [h.events.resolve_left hs] at hevents
  exact .inl (by rw [hevents]; rfl)

theorem Stands.ends_of_ended (h : k.Stands n seen unread log p s) (hs : s ≠ .done)
    (hsight : (p.exchange k.exchange).next.1 = .ended)
    (hq : (q.exchange k.exchange).active = (p.exchange k.exchange).active) :
    k.Ends q unread (Response.failure TransportError.exchangeClosed.message) := by
  obtain ⟨hevents, hclosed, -⟩ := Exchange.next_ended hsight
  rw [h.events.resolve_left hs] at hevents
  exact .inr ⟨hevents, hq.trans hclosed, rfl⟩

/-- A turn of the step reads the next event, or none, and answers what it asks for. -/
theorem Stands.steps (h : k.Stands n seen unread log p s) (hacts : k.Acts p s calls q s')
    (hs : s = .listening ∨ ∃ ticket, s = .sending ticket) :
    ∃ read rest, unread = read ++ rest ∧
      k.Stands (n + 1) (seen ++ read) rest (log ++ calls) q s' := by
  have hanswers := h.answers
  cases hacts with
  | sent hw =>
    refine h.quiet (.sent hw) rfl (by simp [Place.rank]) (.inr rfl) ?_
    cases hanswers with
    | sending hlog hseen => exact .listening (by rw [hlog]; rfl) (by rw [hseen]; rfl)
  | refused hw hc =>
    refine h.quiet (.refused hw hc) rfl (by simp [Place.rank]) (.inl rfl) ?_
    cases hanswers with
    | sending hlog hseen hunread => exact .unreached (by rw [hlog]; rfl) hseen (hunread hw)
  | hears hm =>
    refine h.reads (.hears hm) hm rfl rfl le_rfl ?_ fun rest => ?_
    · rw [exchange_report h.sink, h.exchange_read]
    · cases hanswers with
      | listening hlog hseen =>
        exact .listening (by rw [hlog]; rfl) (by rw [List.findSome?_append, hseen]; rfl)
  | stands hr =>
    refine h.reads (.stands hr) hr rfl rfl le_rfl ?_ fun rest => ?_
    · exact (exchange_of_exchanges (exchanges_reportOutcome ..) _).trans h.exchange_read
    · cases hanswers with
      | listening hlog hseen =>
        exact .deciding (by rw [hlog]; rfl) (by rw [List.findSome?_append, hseen]; rfl)
  | fails hr =>
    refine h.quiet (.fails hr) rfl (by simp [Place.rank]) (.inl rfl) ?_
    cases hanswers with
    | listening hlog hseen => exact .failed (by rw [hlog]; rfl) hseen (h.ends_of_event nofun hr)
  | closes hx =>
    refine h.quiet (.closes hx) rfl (by simp [Place.rank]) (.inl rfl) ?_
    cases hanswers with
    | listening hlog hseen =>
      refine .failed (by rw [hlog]; rfl) hseen (h.ends_of_ended nofun hx ?_)
      rw [exchange_of_exchanges (exchanges_failForward ..), h.exchange_read,
        (Exchange.next_ended hx).2.2]
  | _ => rcases hs with hs | ⟨_, hs⟩ <;> cases hs

/-- A turn of the follower reads the next event, or none; only the decision and the end ask for an
answer. -/
theorem Stands.follows {state : Follow} (h : k.Stands n seen unread log p (.following state))
    (hacts : k.Acts p (.following state) calls q s') :
    ∃ read rest, unread = read ++ rest ∧
      k.Stands (n + 1) (seen ++ read) rest (log ++ calls) q s' := by
  have hanswers := h.answers
  have hsame : ∀ {q state' seen' rest}, (∀ j, state ≠ .deciding j) → (∀ j, state' ≠ .deciding j) →
      seen <+: seen' → q.handles = p.handles →
      k.Answers q seen' rest (log.filter Call.isAnswer ++ []) (.following state') := by
    intro q state' seen' rest hstate hstate' hseen hq
    rw [List.append_nil]
    exact hanswers.goesOn hstate hstate' hseen hq
  cases hacts with
  | decides hd ho =>
    refine h.quiet (.decides hd ho) rfl (by simp [Place.rank]) (.inr rfl) ?_
    rw [h.number]
    exact hanswers.decides ((outlook_leave ..).symm ▸ hd) nofun
  | misses hd hc =>
    refine h.quiet (.misses hd hc) rfl (by simp [Place.rank]) (.inr rfl) ?_
    rw [h.number]
    exact hanswers.decides ((outlook_leave ..).symm ▸ hd) nofun
  | posted hw =>
    exact h.quiet (.posted hw) rfl (by simp [Place.rank]) (.inr rfl)
      (hsame nofun nofun List.prefix_rfl rfl)
  | dropped hw hc =>
    exact h.quiet (.dropped hw hc) rfl (by simp [Place.rank]) (.inr rfl)
      (hsame nofun nofun List.prefix_rfl rfl)
  | answered hr =>
    exact h.quiet (.answered hr) rfl (by simp [Place.rank]) (.inr rfl)
      (hsame nofun nofun List.prefix_rfl rfl)
  | tells hm =>
    refine h.reads (.tells hm) hm rfl rfl le_rfl ?_ fun rest => ?_
    · rw [exchange_report h.sink, h.exchange_read]
    · exact hsame nofun nofun (List.prefix_append ..) (handles_report ..)
  | skips hr =>
    refine h.reads (.skips hr) hr rfl rfl le_rfl h.exchange_read fun rest => ?_
    exact hsame nofun nofun (List.prefix_append ..) rfl
  | completes hr =>
    refine h.quiet (.completes hr) rfl (by simp [Place.rank]) (.inl rfl) ?_
    exact hanswers.ends nofun rfl (h.ends_of_event nofun hr)
  | ends hx =>
    refine h.quiet (.ends hx) rfl (by simp [Place.rank]) (.inl rfl) ?_
    refine hanswers.ends nofun rfl (h.ends_of_ended nofun hx ?_)
    rw [h.read.active_finish, h.exchange_read, (Exchange.next_ended hx).2.2]

/-- **What a turn keeps.** -/
theorem Stands.acts (h : k.Stands n seen unread log p s) (hacts : k.Acts p s calls q s') :
    ∃ read rest, unread = read ++ rest ∧
      k.Stands (n + 1) (seen ++ read) rest (log ++ calls) q s' := by
  cases s with
  | sending ticket => exact h.steps hacts (.inr ⟨ticket, rfl⟩)
  | listening => exact h.steps hacts (.inl rfl)
  | following state => exact h.follows hacts
  | done => exact absurd rfl hacts.ne_done

/-! ## The answer, run by run -/

theorem Owns.rests (h : k.Owns p) (hmeanwhile : k.Meanwhile p s more q) : k.Owns q where
  exchange := h.exchange.trans_le hmeanwhile.exchanges
  number := by
    obtain ⟨active, hexchange⟩ := hmeanwhile.exchange
    rw [hexchange]
    exact h.number
  known := h.known.trans_le hmeanwhile.forwards
  sink := h.sink

theorem Answers.rests {answers : List Call} (h : k.Answers p seen unread answers s)
    (hs : s ≠ .done) (hmeanwhile : k.Meanwhile p s more q) :
    k.Answers q seen (unread ++ more) answers s := by
  cases h with
  | sending hanswers hseen hunread =>
    refine .sending hanswers hseen fun hwaiting => ?_
    obtain ⟨hwaited, rfl⟩ := hmeanwhile.unsent _ rfl hwaiting
    rw [List.append_nil]
    exact hunread hwaited
  | listening hanswers hseen => exact .listening hanswers hseen
  | deciding hanswers hseen => exact .deciding hanswers hseen
  | decided hanswers hseen hd hstate =>
    exact .decided hanswers hseen (hmeanwhile.decided _ _ hd) hstate
  | unreached | failed | completed => exact absurd rfl hs

/-- **What all others keep meanwhile.** -/
theorem Stands.rests (h : k.Stands n seen unread log p s) (hs : s ≠ .done)
    (hmeanwhile : k.Meanwhile p s more q) : k.Stands n seen (unread ++ more) log q s where
  answers := h.answers.rests hs hmeanwhile
  reports := h.reports
  plain := h.plain
  forward := hmeanwhile.forward.trans h.forward
  turns := h.turns
  toOwns := h.toOwns.rests hmeanwhile
  events := by
    obtain ⟨active, hexchange⟩ := hmeanwhile.exchange
    rw [hexchange, ← h.events.resolve_left hs]
    exact .inr rfl

theorem Starts.exchange_numbered {proxy : Proxy} (h : k.Starts p proxy) :
    (k.numbered p).exchange k.exchange = { number := k.number } := by
  have hlength : k.exchange = p.newForward.2.exchanges.length := h.exchange
  refine (exchange_newExchange ..).trans ?_
  rw [if_pos hlength, h.number]

theorem Starts.owns {proxy : Proxy} (h : k.Starts p proxy) : k.Owns (k.numbered p) where
  exchange := by simp [h.exchange, numbered, newExchange, newForward, modifyActor]
  number := by rw [h.exchange_numbered]
  known := by simp [h.forward, numbered, newExchange, newForward, modifyActor]
  sink e he := h.exchange ▸ (h.sink e he).ne

theorem Starts.forward_numbered {proxy : Proxy} (h : k.Starts p proxy) :
    (k.numbered p).forward k.forward = {} := by
  refine (forward_newForward ..).trans ?_
  rw [Plane.forward, h.forward, List.getElem?_eq_none le_rfl]
  rfl

theorem Begins.stands {proxy : Proxy} (h : k.Begins p proxy calls q s) :
    k.Stands 0 [] [] calls q s := by
  cases h with
  | opens h hopen =>
    exact {
      answers := .sending rfl rfl fun _ => rfl
      reports := rfl
      plain := nofun
      forward := h.forward_numbered
      turns := le_rfl
      toOwns := h.owns.of_exchanges rfl rfl
      events := .inr (congrArg Exchange.events h.exchange_numbered) }
  | refused h hclosed =>
    exact {
      answers := .unreached rfl rfl rfl
      reports := rfl
      plain := nofun
      forward := by rw [forward_failForward h.owns.known, h.forward_numbered]; rfl
      turns := Nat.zero_le _
      toOwns := h.owns.failForward _ _
      events := .inl rfl }

/-- **What a run keeps.** -/
theorem Run.stands (h : k.Run n sent log p s) :
    ∃ seen unread, sent = seen ++ unread ∧ k.Stands n seen unread log p s := by
  induction h with
  | begins h => exact ⟨[], [], rfl, h.stands⟩
  | acts _ hacts ih =>
    obtain ⟨seen, unread, rfl, hstands⟩ := ih
    obtain ⟨read, rest, rfl, hnext⟩ := hstands.acts hacts
    exact ⟨seen ++ read, rest, (List.append_assoc ..).symm, hnext⟩
  | rests _ hs hmeanwhile ih =>
    obtain ⟨seen, unread, rfl, hstands⟩ := ih
    exact ⟨seen, _, List.append_assoc .., hstands.rests hs hmeanwhile⟩

end Courier

/-- **A courier answers once.**  Its turns are those of the step and of its follower.  Whatever
comes to the exchange, and however the handle is decided, a run has made the calls that are listed
for the place that it has come to, and no others; and a courier that is not over waits for others or
goes on. -/
theorem Courier.answers_once (k : Courier) : k.Rendered ∧ ∀ {n sent log p s},
    k.Run n sent log p s →
      (∃ seen unread, sent = seen ++ unread ∧ k.Kept n seen unread log p s) ∧
      (s = .done ∨ k.Waits p s ∨ ∃ calls q s', k.Acts p s calls q s') := by
  refine ⟨k.rendered, fun {n sent log p s} h => ⟨?_, k.goes p s⟩⟩
  obtain ⟨seen, unread, hsent, hstands⟩ := h.stands
  exact ⟨seen, unread, hsent, hstands.toKept⟩

namespace Courier

section Meanwhile

variable {k : Courier} {p q : Plane} {s : Place}

theorem meanwhile_send (hexchange : k.exchange < p.exchanges.length)
    (hfollowed : (p.exchange k.exchange).followed = true) (hs : ∀ ticket, s ≠ .sending ticket)
    (e : ExchangeEvent) : k.Meanwhile p s [e] (p.modifyExchange k.exchange (·.send e)) where
  exchanges := (List.length_modify _ _ _).ge
  exchange := by
    rw [exchange_modifyExchange, if_pos ⟨rfl, hexchange⟩, Exchange.send, if_pos hfollowed]
    exact ⟨_, rfl⟩
  unsent ticket h := absurd h (hs ticket)
  forwards := le_rfl
  forward := rfl
  decided _ _ h := h

/-- While a clone is held, what the participant observes is the decision. -/
theorem resolve_of_effect? {x : Prepared} {e : Decision} (hclones : x.clones ≠ 0)
    (h : x.outlook.effect? = some e) (d : Decision) : (x.resolve d).2 = x := by
  cases hdecision : x.decision with
  | none => simp [Prepared.outlook, hdecision, hclones, Prepared.Outlook.effect?] at h
  | some => rw [Prepared.resolve, hdecision]

/-- Whoever holds a clone of a handle may decide. -/
theorem meanwhile_decide {i : Nat} (hclones : (p.handle i).clones ≠ 0) (d : Decision) :
    k.Meanwhile p s [] (p.decide i d).2 where
  exchanges := le_rfl
  exchange := ⟨_, by rw [List.append_nil]; rfl⟩
  unsent _ _ h := ⟨h, rfl⟩
  forwards := le_rfl
  forward := rfl
  decided j e h := by
    have hdecide : (p.decide i d).2.handle j =
        if i = j ∧ j < p.handles.length then ((p.handle i).resolve d).2 else p.handle j :=
      handle_modifyHandle ..
    rw [hdecide]
    split
    · next hj =>
      obtain ⟨rfl, -⟩ := hj
      rwa [resolve_of_effect? hclones h]
    · exact h

theorem meanwhile_of_same (hs : ∀ ticket, s ≠ .sending ticket)
    (hexchanges : q.exchanges = p.exchanges) (hforwards : q.forwards = p.forwards)
    (hhandles : q.handles = p.handles) : k.Meanwhile p s [] q where
  exchanges := hexchanges ▸ le_rfl
  exchange := ⟨_, by rw [List.append_nil, exchange_of_exchanges hexchanges]⟩
  unsent ticket h := absurd h (hs ticket)
  forwards := hforwards ▸ le_rfl
  forward := by rw [Plane.forward, hforwards]; rfl
  decided i _ h := (handle_of_handles hhandles i).symm ▸ h

end Meanwhile

/-! ## An operation that reports, and prepares twice -/

/-- The way from an operation with a single step to the only actor. -/
def trip : Courier where
  execution := .new 0 .emptyObject (.decide .keep) {} .collect
  step := {
    handler := .forward ⟨[], .actor 0⟩, operation := .emptyObject, address := [], slot := 0 }
  actor := 0
  forward := 0
  exchange := 0
  number := 1
  due := (default : Controller).settings.blocking

/-- The operation at the actor reports before and after its decision, and prepares again. -/
theorem answers_once_trip :
    ∃ sent log p, trip.Run 9 sent log p .done ∧
      sent = [.message ⟨.info, "before"⟩, .prepared (.string "tentative"),
        .message ⟨.info, "after"⟩, .prepared (.string "again"), .completed (.string "final")] ∧
      log = [.report ⟨.info, "before"⟩, .prepared 0 (.string "tentative"), .resolve 1 .keep,
        .report ⟨.info, "after"⟩, .completed (.string "final")] ∧
      ∃ seen unread, sent = seen ++ unread ∧ trip.Kept 9 seen unread log p .done := by
  have hbegins : trip.Begins { actors := [{ controller := 0, capacity := 1 }] }
      ⟨[], .actor 0⟩ [] _ _ := .opens ⟨rfl, le_rfl, rfl, rfl, rfl, rfl, nofun⟩ rfl
  have hlistens := (Run.begins hbegins).acts (.sent rfl)
  have hreported := (hlistens.rests nofun (meanwhile_send (by decide) rfl (by simp)
    (.message ⟨.info, "before"⟩))).acts (.hears rfl)
  have hprepared := (hreported.rests nofun (meanwhile_send (by decide) rfl (by simp)
    (.prepared (.string "tentative")))).acts (.stands rfl)
  have hdecided := (hprepared.rests nofun
    (meanwhile_decide (i := 0) (by decide) .keep)).acts (.decides rfl rfl)
  -- the actor takes both requests and answers
  have hanswered := ((hdecided.rests nofun (meanwhile_of_same (by simp)
    (q := (Plane.modifyActor _ 0 fun a => { a with requests := [], backlog := [] }).setReply 0
      (.answered (.ok ()))) rfl rfl rfl)).acts (.posted rfl)).acts (.answered nofun)
  have htold := (hanswered.rests nofun (meanwhile_send (by decide) rfl (by simp)
    (.message ⟨.info, "after"⟩))).acts (.tells rfl)
  have hagain := (htold.rests nofun (meanwhile_send (by decide) rfl (by simp)
    (.prepared (.string "again")))).acts (.skips rfl)
  have hcompleted := (hagain.rests nofun (meanwhile_send (by decide) rfl (by simp)
    (.completed (.string "final")))).acts (.completes rfl)
  exact ⟨_, _, _, hcompleted, rfl, rfl, (trip.answers_once.2 hcompleted).1⟩

end Courier

end ManagementPlane
