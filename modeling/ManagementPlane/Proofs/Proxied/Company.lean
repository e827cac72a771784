import ManagementPlane.Proofs.Proxied.Winding

/-!
# Proofs/Proxied/Company — tasks that wind up together

Around operations that wind up there are relays, followers and actors that pass on what they hear
(`Task.Winding`).  Among such tasks every turn but those of sleepers is a step towards the end
(`Company.turn`), whatever order they come in.  So one that waits for its turn among them gets it
(`Company.settles`).
-/

namespace ManagementPlane

/-! ## How much is left to do -/

def Actor.load (a : Actor) : Nat :=
  a.requests.length + a.backlog.length + a.enrollments.length

namespace Plane

variable {p : Plane} {a e k : Nat}

/-- What waits in the channels and exchanges. -/
def load (p : Plane) : Nat :=
  (p.actors.map Actor.load).sum + (p.exchanges.map (·.events.length)).sum

theorem sum_modify {α : Type} (l : List α) {i : Nat} (hi : i < l.length) (g : α → α) (f : α → Nat)
    (d : α) : ((l.modify i g).map f).sum + f (l[i]?.getD d) =
      (l.map f).sum + f (g (l[i]?.getD d)) := by
  induction l generalizing i with
  | nil => cases hi
  | cons x l ih =>
    cases i with
    | zero =>
      simp
      omega
    | succ i =>
      have hsum := ih (Nat.lt_of_succ_lt_succ hi)
      simp only [List.modify_succ_cons, List.map_cons, List.sum_cons, List.getElem?_cons_succ]
      omega

theorem modify_of_le {α : Type} (l : List α) {i : Nat} (hi : l.length ≤ i) (g : α → α) :
    l.modify i g = l := by
  refine List.ext_getElem? fun j => ?_
  rw [List.getElem?_modify]
  rcases Nat.lt_or_ge j l.length with hj | hj
  · have hij : i ≠ j := by omega
    simp [hij]
  · simp [hj]

theorem load_modifyActor (ha : a < p.actors.length) (g : Actor → Actor) :
    (p.modifyActor a g).load + (p.actor a).load = p.load + (g (p.actor a)).load := by
  have hsum := sum_modify p.actors ha g Actor.load
    { controller := 0, capacity := 0, isOpen := false }
  show ((p.actors.modify a g).map Actor.load).sum + (p.exchanges.map (·.events.length)).sum + _ = _
  rw [load, Plane.actor]
  omega

theorem load_modifyExchange (he : e < p.exchanges.length) (g : Exchange → Exchange) :
    (p.modifyExchange e g).load + (p.exchange e).events.length =
      p.load + (g (p.exchange e)).events.length := by
  have hsum := sum_modify p.exchanges he g (·.events.length) {}
  show (p.actors.map Actor.load).sum + ((p.exchanges.modify e g).map (·.events.length)).sum + _ = _
  rw [load, exchange]
  omega

theorem load_modifyActor_le {g : Actor → Actor}
    (hg : (g (p.actor a)).load ≤ (p.actor a).load + k) :
    (p.modifyActor a g).load ≤ p.load + k := by
  rcases Nat.lt_or_ge a p.actors.length with ha | ha
  · have hload := load_modifyActor ha g
    omega
  · rw [modifyActor, modify_of_le _ ha]
    exact Nat.le_add_right _ _

theorem load_modifyExchange_le {g : Exchange → Exchange}
    (hg : (g (p.exchange e)).events.length ≤ (p.exchange e).events.length + k) :
    (p.modifyExchange e g).load ≤ p.load + k := by
  rcases Nat.lt_or_ge e p.exchanges.length with he | he
  · have hload := load_modifyExchange he g
    omega
  · rw [modifyExchange, modify_of_le _ he]
    exact Nat.le_add_right _ _

theorem load_tell (o : Origin) (p : Plane) (answer : Answer) :
    (o.tell p answer).load ≤ p.load + 1 := by
  cases o with
  | ticket t => exact Nat.le_succ _
  | link l => exact Nat.le_succ _
  | exchange e =>
    refine load_modifyExchange_le ?_
    rw [Exchange.close, Exchange.send]
    split <;> simp

end Plane

/-- The actor is open, has more clients than there are followers, and is asked for decisions
only. -/
structure Actor.Attended (k : Nat) (a : Actor) : Prop where
  isOpen : a.isOpen = true
  clients : k < a.clients
  requests : ∀ r ∈ a.requests, r.decides = true
  backlog : ∀ r ∈ a.backlog, r.2.decides = true

namespace Actor

variable {a b : Actor} {k l : Nat} {r : ActorRequest}

theorem Attended.mono (h : a.Attended k) (hl : l ≤ k) : a.Attended l :=
  { h with clients := hl.trans_lt h.clients }

theorem Attended.send (h : a.Attended k) (ticket : Nat) (hr : r.decides = true) :
    (a.send ticket r).Attended k := by
  rw [Actor.send]
  split
  · refine ⟨h.isOpen, h.clients, List.forall_mem_append.mpr ⟨h.requests, ?_⟩, h.backlog⟩
    exact List.forall_mem_singleton.mpr hr
  · refine ⟨h.isOpen, h.clients, h.requests, List.forall_mem_append.mpr ⟨h.backlog, ?_⟩⟩
    exact List.forall_mem_singleton.mpr hr

theorem load_send (a : Actor) (ticket : Nat) (r : ActorRequest) :
    (a.send ticket r).load = a.load + 1 := by
  rw [send, load]
  split <;> simp [load] <;> omega

theorem load_enroll (a : Actor) (news : Enrollment) : (a.enroll news).load = a.load := by
  cases news <;> rfl

theorem Attended.enroll (h : a.Attended k) {news : Enrollment} {rest : List Enrollment} :
    ({ a with enrollments := rest }.enroll news).Attended k := by
  cases news <;> exact { h with }

/-- The oldest request leaves the channel. -/
theorem Attended.receive? (h : a.Attended k) (hreceive : a.receive? = some (r, b)) :
    r.decides = true ∧ b.Attended k ∧ b.load < a.load := by
  rw [receive?.eq_def] at hreceive
  split at hreceive
  · cases hreceive
  · next first rest hrequests =>
    have hdecides := hrequests ▸ h.requests
    have hrest : ∀ s ∈ rest, s.decides = true := fun s hs => hdecides s (List.mem_cons_of_mem _ hs)
    split at hreceive
    · next hbacklog =>
      obtain ⟨rfl, rfl⟩ := Prod.mk.inj (Option.some.inj hreceive)
      refine ⟨hdecides _ List.mem_cons_self, ⟨h.isOpen, h.clients, hrest, h.backlog⟩, ?_⟩
      simp only [load, hrequests, List.length_cons]
      omega
    · next ticket next others hbacklog =>
      have hwaiting := hbacklog ▸ h.backlog
      obtain ⟨rfl, rfl⟩ := Prod.mk.inj (Option.some.inj hreceive)
      refine ⟨hdecides _ List.mem_cons_self, ⟨h.isOpen, h.clients, ?_, ?_⟩, ?_⟩
      · exact List.forall_mem_append.mpr
          ⟨hrest, List.forall_mem_singleton.mpr (hwaiting _ List.mem_cons_self)⟩
      · exact fun s hs => hwaiting s (List.mem_cons_of_mem _ hs)
      · simp only [load, hrequests, hbacklog, List.length_cons, List.length_append,
          List.length_nil]
        omega

end Actor

theorem Plane.load_send (p : Plane) (a : Nat) (r : ActorRequest) :
    (p.send a r).2.load ≤ p.load + 1 :=
  load_modifyActor_le (p := { p with sends := p.sends + 1 }) (Actor.load_send _ _ _).le

/-- An attended actor takes in what waits for it, until nothing does. -/
theorem Actor.Attended.poll {a : Actor} {k : Nat} (h : a.Attended k) : a.poll.1 = .wait ∨
    a.poll.2.Attended k ∧ a.poll.2.load < a.load ∧ (a.poll.1 = .enrolled ∨
      (∃ handle d reply, a.poll.1 = .decide handle d reply) ∨
      ∃ number reply, a.poll.1 = .refuse number reply) := by
  rw [Actor.poll.eq_def]
  split
  · next news rest henrollments =>
    refine .inr ⟨h.enroll, ?_, .inl rfl⟩
    rw [load_enroll, load, load, henrollments, List.length_cons]
    exact Nat.lt_succ_self _
  · split
    · next r b hreceive =>
      obtain ⟨hdecides, hb, hload⟩ := h.receive? hreceive
      cases r with
      | execute number exchange operation input => cases hdecides
      | resolve number d reply =>
        rw [serve.eq_def]
        dsimp only
        split
        · exact .inr ⟨⟨hb.isOpen, hb.clients, hb.requests, hb.backlog⟩, hload,
            .inr (.inl ⟨_, _, _, rfl⟩)⟩
        · exact .inr ⟨hb, hload, .inr (.inr ⟨_, _, rfl⟩)⟩
    · rw [if_neg (Nat.ne_zero_of_lt h.clients)]
      exact .inl rfl

/-- Whoever reads on has less to read. -/
theorem Plane.load_read {p : Plane} {e : Nat} {event : ExchangeEvent}
    (hsight : (p.exchange e).next.1 = .event event) :
    (p.modifyExchange e fun _ => (p.exchange e).next.2).load < p.load := by
  rw [Exchange.next] at hsight ⊢
  split at hsight
  · next first rest hevents =>
    have he : e < p.exchanges.length := by
      by_contra hge
      rw [exchange, List.getElem?_eq_none (not_lt.mp hge)] at hevents
      cases hevents
    have hload := load_modifyExchange he fun _ => { p.exchange e with events := rest }
    rw [hevents, List.length_cons] at hload
    dsimp only at hload ⊢
    omega
  · split at hsight <;> cases hsight

theorem Plane.lt_of_isOpen {p : Plane} {a : Nat} (h : (p.actor a).isOpen = true) :
    a < p.actors.length := by
  by_contra hge
  rw [actor, List.getElem?_eq_none (not_lt.mp hge)] at h
  cases h

/-- **Tasks that wind up**, with actors that serve their followers. -/
structure Company (R : Reserve) (p : Plane) (ts : List Task) : Prop where
  winding : ∀ t ∈ ts, t.Winding R p
  attended : ∀ a, .serve a ∈ ts → (p.actor a).Attended (ts.countP (Task.follows a))

namespace Company

variable {R R' : Reserve} {p q : Plane} {t s : Task} {ts us : List Task}

theorem perm (h : Company R p ts) (hperm : ts.Perm us) : Company R p us where
  winding t ht := h.winding t (hperm.symm.subset ht)
  attended a ha := by
    rw [← hperm.countP_eq]
    exact h.attended a (hperm.symm.subset ha)

theorem mono (h : Company R p ts) (hR : R.Covers R') : Company R' p ts where
  winding t ht := (h.winding t ht).mono hR
  attended := h.attended

/-- Around the company nothing may happen but that actors stay attended. -/
theorem around (h : Company R p ts) (hmute : ∀ e, (p.exchange e).Mute → (q.exchange e).Mute)
    (hattended : ∀ a k, (p.actor a).Attended k → (q.actor a).Attended k) : Company R q ts where
  winding t ht := (h.winding t ht).around hmute
  attended a ha := hattended a _ (h.attended a ha)

/-- What a turn leaves of a task that winds up. -/
structure Turned (R : Reserve) (p : Plane) (t : Task) (ts : List Task) (m : Move) : Prop where
  spawned : m.spawned = []
  awake : ∀ s, m.progress ≠ .blocked s
  kept : R.Kept p m.plane
  company : Company R m.plane (m.progress.remains ++ ts)
  lighter : (m.progress.remains.map Task.weight).sum + m.plane.load < t.weight + p.load
  /-- An operation gets closer to its end, or tells it. -/
  operation : ∀ x o, t = .operation [x] o →
    (∃ y, m.progress = .going (.operation [y] o) ∧ x.Nears R p m.plane y) ∨
    ∃ answer, x.phase = .ended answer ∧ m = { plane := o.tell p answer, progress := .finished }
  /-- Other tasks tell no caller. -/
  other : (∀ x o, t ≠ .operation [x] o) →
    m.plane.tickets = p.tickets ∧ ∀ y o, .operation [y] o ∉ m.progress.remains

/-- The company stays, if each actor stays attended. -/
theorem of_attended (us : List Task) (h : Company R p (t :: ts)) (hq : R.Kept p q)
    (hus : ∀ u ∈ us, u.Winding R q) (hserve : ∀ a, .serve a ∉ us)
    (hattended : ∀ a k, (p.actor a).Attended ([t].countP (Task.follows a) + k) →
      (q.actor a).Attended (us.countP (Task.follows a) + k)) : Company R q (us ++ ts) where
  winding := List.forall_mem_append.mpr
    ⟨hus, fun u hu => (h.winding u (List.mem_cons_of_mem _ hu)).around hq.mute⟩
  attended a ha := by
    have hts : .serve a ∈ ts := (List.mem_append.mp ha).resolve_left (hserve a)
    rw [List.countP_append]
    refine hattended a _ ?_
    rw [← List.countP_append]
    exact h.attended a (List.mem_cons_of_mem _ hts)

theorem of_actors (us : List Task) (h : Company R p (t :: ts)) (hq : R.Kept p q)
    (hactors : q.actors = p.actors) (hus : ∀ u ∈ us, u.Winding R q) (hserve : ∀ a, .serve a ∉ us)
    (hcount : ∀ a, us.countP (Task.follows a) ≤ [t].countP (Task.follows a)) :
    Company R q (us ++ ts) := by
  refine h.of_attended us hq hus hserve fun a k ha => ?_
  rw [Plane.actor, hactors]
  exact ha.mono (Nat.add_le_add_right (hcount a) k)

theorem turned_operation {x : Execution} {o : Origin} (h : Company R p (.operation [x] o :: ts)) :
    (Task.operation [x] o).Sleeps p ∨
      Turned R p (.operation [x] o) ts ((Task.operation [x] o).advance p) := by
  cases h.winding _ List.mem_cons_self with
  | operation hx ho =>
    by_cases hended : ∃ answer, x.phase = .ended answer
    · obtain ⟨answer, hphase⟩ := hended
      right
      rw [Task.advance_ended hphase]
      have htell := Reserve.kept_tell ho p answer
      refine ⟨rfl, by rintro _ ⟨⟩, htell, ?_, ?_, ?_, fun h => absurd rfl (h x o)⟩
      · exact h.of_actors [] htell (by cases o <;> rfl) (by rintro _ ⟨⟩)
          (fun _ => List.not_mem_nil) (fun _ => Nat.zero_le _)
      · have hload := Plane.load_tell o p answer
        show 0 + (o.tell p answer).load < [x.remaining].sum + p.load
        rw [Execution.remaining, hphase, List.sum_singleton]
        dsimp only
        omega
      · rintro _ _ ⟨⟩
        exact .inr ⟨answer, hphase, rfl⟩
    · have hopen : ∀ answer, x.phase ≠ .ended answer := fun answer h => hended ⟨answer, h⟩
      rcases hx.nears (R := R) hopen with ⟨y, hblocked⟩ | ⟨q, y, hnears⟩
      · left
        suffices hprogress : ((Task.operation [x] o).advance p).progress =
            .blocked (.operation [y] o) from (Task.sleeps_of_blocked hprogress).1
        rw [Task.advance, Task.advanceStack.eq_def]
        dsimp only
        split
        · next answer hphase => exact absurd hphase (hopen answer)
        · rw [hblocked]
      · right
        rw [Task.advance_going hopen hnears.turn]
        refine ⟨rfl, by rintro _ ⟨⟩, hnears.kept, ?_, ?_, ?_, fun h => absurd rfl (h x o)⟩
        · exact h.of_actors [.operation [y] o] hnears.kept hnears.actors
            (List.forall_mem_singleton.mpr (.operation hnears.winding ho)) (by simp)
            (fun _ => le_rfl)
        · have hload : q.load = p.load := by
            rw [Plane.load, Plane.load, hnears.actors, hnears.exchanges]
          show [[y.remaining].sum].sum + q.load < [x.remaining].sum + p.load
          rw [List.sum_singleton, List.sum_singleton, List.sum_singleton, hload]
          exact Nat.add_lt_add_right hnears.remaining _
        · rintro _ _ ⟨⟩
          exact .inl ⟨y, rfl, hnears⟩

theorem turned_relay {l f : Nat} (h : Company R p (.relay l f :: ts)) :
    (Task.relay l f).Sleeps p ∨ Turned R p (.relay l f) ts ((Task.relay l f).advance p) := by
  have hhalt : ∀ {q : Plane}, R.Kept p q → q.actors = p.actors → q.exchanges = p.exchanges →
      q.tickets = p.tickets →
      Turned R p (.relay l f) ts { plane := q, progress := .finished } := by
    intro q hq hactors hexchanges htickets
    refine ⟨rfl, by rintro _ ⟨⟩, hq, ?_, ?_, by rintro _ _ ⟨⟩,
      fun _ => ⟨htickets, by rintro _ _ ⟨⟩⟩⟩
    · exact h.of_actors [] hq hactors (by rintro _ ⟨⟩) (fun _ => List.not_mem_nil)
        (fun _ => Nat.zero_le _)
    · have hload : q.load = p.load := by rw [Plane.load, Plane.load, hactors, hexchanges]
      show 0 + q.load < 1 + p.load
      omega
  rw [Task.Sleeps, Task.advance]
  dsimp only
  split
  · exact .inr (hhalt (Reserve.kept_completeForward R p f _) rfl rfl rfl)
  · exact .inr (hhalt (Reserve.kept_modifyForward fun _ _ h => ⟨h.silent, h.listening⟩) rfl rfl
      rfl)
  · exact .inl rfl

/-- A follower goes on. -/
theorem turned_going {a e f : Nat} {sink : Sink} {state next : Follow}
    (h : Company R p (.follow a e f sink state :: ts)) (hq : R.Kept p q)
    (htickets : q.tickets = p.tickets)
    (hactor : ∀ b k, (p.actor b).Attended k → (q.actor b).Attended k)
    (hlighter : next.remaining + q.load < state.remaining + p.load) :
    Turned R p (.follow a e f sink state) ts
      { plane := q, progress := .going (.follow a e f sink next) } := by
  refine ⟨rfl, by rintro _ ⟨⟩, hq, ?_, hlighter, by rintro _ _ ⟨⟩, fun _ => ⟨htickets,
      fun _ _ hy => nomatch List.mem_singleton.mp hy⟩⟩
  refine h.of_attended [.follow a e f sink next] hq ?_ (by simp) fun b k => hactor b _
  cases h.winding _ List.mem_cons_self with
  | follow htold hread hmute =>
    exact List.forall_mem_singleton.mpr (.follow htold hread (hq.mute _ hmute))

/-- A follower reads on in its exchange. -/
theorem kept_read {e : Nat} {x : Exchange} (htold : ¬R.told (.exchange e))
    (hread : ¬R.read (.exchange e)) (hx : x = (p.exchange e).next.2) :
    R.Kept p (p.modifyExchange e fun _ => x) := by
  refine Reserve.kept_modifyExchange htold hread p fun hmute m hm => hmute m ?_
  rw [hx, Exchange.next] at hm
  split at hm
  · next hevents =>
    rw [hevents]
    exact List.mem_cons_of_mem _ hm
  · exact hm

theorem turned_finish {a e f : Nat} {sink : Sink} {x : Exchange} {response : Value}
    (h : Company R p (.follow a e f sink .finishing :: ts)) (hx : x = (p.exchange e).next.2) :
    Turned R p (.follow a e f sink .finishing) ts
      { plane := (((p.modifyExchange e fun _ => x).completeForward f response).modifyExchange e
          Exchange.leave).modifyActor a fun k => { k with clients := k.clients - 1 }
        progress := .finished } := by
  cases h.winding _ List.mem_cons_self with
  | follow htold hread hmute =>
    have hq : R.Kept p (((p.modifyExchange e fun _ => x).completeForward f response).modifyExchange
        e Exchange.leave) :=
      (kept_read htold hread hx).trans ((Reserve.kept_completeForward R _ f response).trans
        (Reserve.kept_modifyExchange htold hread _ fun _ m hm => by cases hm))
    have hkept := hq.trans (Reserve.kept_modifyActor R _ a
      (g := fun k => { k with clients := k.clients - 1 }) id)
    refine ⟨rfl, by rintro _ ⟨⟩, hkept, ?_, ?_, by rintro _ _ ⟨⟩,
      fun _ => ⟨rfl, by rintro _ _ ⟨⟩⟩⟩
    · refine h.of_attended [] hkept (by rintro _ ⟨⟩) (fun _ => List.not_mem_nil) ?_
      intro b k hb
      rw [Plane.actor_modifyActor]
      split
      · next heq =>
        obtain ⟨rfl, -⟩ := heq
        have hclients : [Task.follow a e f sink .finishing].countP (Task.follows a) + k <
            (p.actor a).clients := hb.clients
        refine ⟨hb.isOpen, ?_, hb.requests, hb.backlog⟩
        show 0 + k < (p.actor a).clients - 1
        rw [List.countP_singleton, Task.follows, if_pos (decide_eq_true rfl)] at hclients
        omega
      · exact hb.mono (Nat.add_le_add_right (Nat.zero_le _) k)
    · have hnext : ((p.modifyExchange e fun _ => x).load : Nat) ≤ p.load + 0 :=
        Plane.load_modifyExchange_le (by
          rw [hx, Exchange.next]
          split
          · next hevents => simp [hevents]
          · exact le_rfl)
      have hleave : ((((p.modifyExchange e fun _ => x).completeForward f response).modifyExchange
          e Exchange.leave).modifyActor a fun k => { k with clients := k.clients - 1 }).load ≤
          (p.modifyExchange e fun _ => x).load + 0 :=
        (Plane.load_modifyActor_le (k := 0) le_rfl).trans
          (Plane.load_modifyExchange_le (k := 0) (Nat.zero_le _))
      refine lt_of_le_of_lt ?_ (Nat.lt_add_of_pos_left (n := p.load) Nat.one_pos)
      exact (Nat.zero_add _).le.trans (hleave.trans hnext)

/-- A follower passes the decision on. -/
theorem turned_send {a e f number reply : Nat} {sink : Sink} {state : Follow} {d : Decision}
    (h : Company R p (.follow a e f sink state :: ts)) (hq : R.Kept p q)
    (hactors : q.actors = p.actors) (hexchanges : q.exchanges = p.exchanges)
    (htickets : q.tickets = p.tickets) (hstate : state.remaining = 5) {sent : Nat × Plane}
    (hsent : sent = q.send a (.resolve number d reply)) :
    Turned R p (.follow a e f sink state) ts
      { plane := sent.2, progress := .going (.follow a e f sink (.sending sent.1 reply)) } := by
  subst hsent
  have hactor : ∀ b, p.actor b = q.actor b := fun b => by rw [Plane.actor, Plane.actor, hactors]
  refine h.turned_going (hq.trans (Reserve.kept_send R q a _)) htickets (fun b k hb => ?_) ?_
  · rw [hactor] at hb
    rw [Plane.actor_send]
    split
    · exact hb.send _ rfl
    · exact hb
  · have hload : q.load = p.load := by rw [Plane.load, Plane.load, hactors, hexchanges]
    have hsend := q.load_send a (.resolve number d reply)
    rw [hstate, Follow.remaining]
    omega

theorem turned_follow {a e f : Nat} {sink : Sink} {state : Follow}
    (h : Company R p (.follow a e f sink state :: ts)) :
    (Task.follow a e f sink state).Sleeps p ∨
      Turned R p (.follow a e f sink state) ts ((Task.follow a e f sink state).advance p) := by
  have hsame : ∀ b k, (p.actor b).Attended k → (p.actor b).Attended k := fun _ _ => id
  -- a turn that only passes to the next state
  have hpasses : ∀ {next : Follow}, next.remaining < state.remaining →
      Turned R p (.follow a e f sink state) ts
        { plane := p, progress := .going (.follow a e f sink next) } :=
    fun hnext => h.turned_going (.refl R p) rfl hsame (Nat.add_lt_add_right hnext _)
  rw [Task.Sleeps, Task.advance]
  rw [Task.advanceFollow.eq_def]
  cases state with
  | deciding handle =>
    dsimp only
    have hleft : R.Kept p (p.modifyHandle handle Prepared.leave) :=
      Reserve.kept_modifyHandle R p handle fun _ _ => id
    split
    · exact .inl rfl
    · next d _ =>
      right
      split
      · have hreply : R.Kept p (p.modifyHandle handle Prepared.leave).newReply.2 :=
          hleft.trans { Reserve.Kept.refl R _ with }
        exact h.turned_send hreply rfl rfl rfl rfl rfl
      · exact h.turned_going hleft rfl hsame (Nat.add_lt_add_right (by simp [Follow.remaining]) _)
  | sending ticket reply =>
    dsimp only
    split
    · exact .inr (hpasses (by simp [Follow.remaining]))
    · split
      · exact .inr (hpasses (by simp [Follow.remaining]))
      · exact .inl rfl
  | replying reply =>
    dsimp only
    split
    · exact .inl rfl
    · exact .inr (hpasses (by simp [Follow.remaining]))
  | finishing =>
    cases h.winding _ List.mem_cons_self with
    | follow htold hread hmute =>
      dsimp only
      split
      · next m hsight =>
        rw [Exchange.next] at hsight
        split at hsight
        · next event rest hevents =>
          cases hsight
          exact absurd (hevents ▸ List.mem_cons_self) (hmute m)
        · split at hsight <;> cases hsight
      · next response hsight =>
        refine .inr (h.turned_going (kept_read htold hread rfl) rfl hsame ?_)
        exact Nat.add_lt_add_left (Plane.load_read hsight) _
      · exact .inr (h.turned_finish rfl)
      · exact .inr (h.turned_finish rfl)
      · exact .inl rfl

theorem turned_serve {a : Nat} (h : Company R p (.serve a :: ts)) :
    (Task.serve a).Sleeps p ∨ Turned R p (.serve a) ts ((Task.serve a).advance p) := by
  have hattended := h.attended a List.mem_cons_self
  have hgoes : ∀ {q r : Plane} {b : Actor},
      b.Attended ((Task.serve a :: ts).countP (Task.follows a)) →
      b.load < (p.actor a).load → q = p.modifyActor a (fun _ => b) → R.Kept q r →
      r.actors = q.actors → r.exchanges = q.exchanges → r.tickets = q.tickets →
      Turned R p (.serve a) ts { plane := r, progress := .going (.serve a) } := by
    intro q r b hb hload hq hr hactors hexchanges htickets
    subst hq
    have hkept : R.Kept p r := (Reserve.kept_modifyActor R p a fun _ => hb.isOpen).trans hr
    refine ⟨rfl, by rintro _ ⟨⟩, hkept, ⟨?_, ?_⟩, ?_, by rintro _ _ ⟨⟩, fun _ => ⟨htickets,
      fun _ _ hy => nomatch List.mem_singleton.mp hy⟩⟩
    · exact fun t ht => (h.winding t ht).around hkept.mute
    · intro c hc
      rw [Plane.actor, hactors, ← Plane.actor, Plane.actor_modifyActor]
      split
      · next heq =>
        obtain ⟨rfl, -⟩ := heq
        exact hb
      · exact h.attended c hc
    · have ha := Plane.load_modifyActor (Plane.lt_of_isOpen hattended.isOpen) fun _ => b
      have hsame : r.load = (p.modifyActor a fun _ => b).load := by
        rw [Plane.load, Plane.load, hactors, hexchanges]
      show 0 + r.load < 0 + p.load
      omega
  have hadvance : ∀ {m : Move}, Task.advanceServe p a = m → (Task.serve a).advance p = m := id
  rw [Task.advanceServe, if_neg (by rw [hattended.isOpen]; decide)] at hadvance
  dsimp only at hadvance
  rcases hattended.poll with hwait | ⟨hb, hload, hturn | ⟨i, d, r, hturn⟩ | ⟨number, r, hturn⟩⟩
  · left
    suffices hprogress : ((Task.serve a).advance p).progress = .blocked (.serve a) from
      (Task.sleeps_of_blocked hprogress).1
    rw [hwait] at hadvance
    rw [hadvance rfl]
  · rw [hturn] at hadvance
    rw [hadvance rfl]
    exact .inr (hgoes hb hload rfl (.refl R _) rfl rfl rfl)
  · rw [hturn] at hadvance
    rw [hadvance rfl]
    have hdecided := Reserve.kept_decideAndDrop R (p.modifyActor a fun _ => (p.actor a).poll.2) i d
    exact .inr (hgoes hb hload rfl (hdecided.trans { Reserve.Kept.refl R _ with }) rfl rfl rfl)
  · rw [hturn] at hadvance
    rw [hadvance rfl]
    exact .inr (hgoes hb hload rfl { Reserve.Kept.refl R _ with } rfl rfl rfl)

/-- **A task that winds up** sleeps, or its turn is a step towards the end. -/
theorem turn (h : Company R p (t :: ts)) : t.Sleeps p ∨ Turned R p t ts (t.advance p) := by
  cases ht : h.winding t List.mem_cons_self with
  | operation hx ho => exact h.turned_operation
  | relay l f => exact h.turned_relay
  | follow htold hread hmute => exact h.turned_follow
  | serve a => exact h.turned_serve

/-! ## One of them after another -/

variable {m m' : Machine} {rest : List Task}

/-- How much is left to do for all. -/
def weight (p : Plane) (ts : List Task) : Nat := (ts.map Task.weight).sum + p.load

theorem weight_perm (hperm : ts.Perm us) : weight p ts = weight p us := by
  rw [weight, weight, (hperm.map Task.weight).sum_nat]

/-- The turn of a task that does not sleep, among others. -/
theorem turns {others : List Task} (h : Company R p (t :: ts)) (hm : m.Turns p t (others ++ ts))
    (hawake : ¬t.Sleeps p) : ∃ m' q us, m.step? = some m' ∧ m'.Holds q (others ++ (us ++ ts)) ∧
      R.Kept p q ∧ Company R q (us ++ ts) ∧ weight q (us ++ ts) < weight p (t :: ts) ∧
      us = (t.advance p).progress.remains ∧ q = (t.advance p).plane := by
  have hturned := h.turn.resolve_left hawake
  have hlighter : weight (t.advance p).plane ((t.advance p).progress.remains ++ ts) <
      weight p (t :: ts) := by
    have := hturned.lighter
    rw [weight, weight, List.map_append, List.sum_append, List.map_cons, List.sum_cons]
    omega
  have hsame : t.advance p = ⟨(t.advance p).plane, [], (t.advance p).progress⟩ := by
    rw [← hturned.spawned]
  have hcompany := hturned.company
  cases hprogress : (t.advance p).progress with
  | blocked s => exact absurd hprogress (hturned.awake s)
  | going s =>
    rw [hprogress] at hcompany hlighter hsame
    obtain ⟨m', hstep, hm', -⟩ := hm.going hsame
    have hperm : (s :: (others ++ ts)).Perm (others ++ ([s] ++ ts)) := List.perm_middle.symm
    exact ⟨m', _, _, hstep, hm'.toHolds.perm hperm, hturned.kept, hcompany, hlighter, rfl, rfl⟩
  | finished =>
    rw [hprogress] at hcompany hlighter hsame
    obtain ⟨m', hstep, hm'⟩ := hm.finished hsame
    exact ⟨m', _, _, hstep, hm', hturned.kept, hcompany, hlighter, rfl, rfl⟩

/-- **A task that can go on comes to its turn** among others that sleep or wind up. -/
theorem settles {m : Machine} {p : Plane} {S W : List Task} (hW : Company R p W)
    (hm : m.Holds p (t :: (S ++ W))) (hgo : ∀ q, R.Kept p q → t.canGo q = true)
    (hS : ∀ q, R.Kept p q → ∀ s ∈ S, s.Sleeps q) :
    ∃ m' q W', m.Leads m' ∧ m'.Turns q t (S ++ W') ∧ R.Kept p q ∧ Company R q W' := by
  have hmem : t ∈ m.ready :=
    hm.dormant.mem_ready (hm.tasks.symm.subset List.mem_cons_self) (hm.plane ▸ hgo p (.refl R p))
  obtain ⟨s, rest, hready⟩ := List.exists_cons_of_ne_nil (List.ne_nil_of_mem hmem)
  by_cases hs : s = t
  · subst hs
    exact ⟨m, p, W, .refl, ⟨hm, rest, hready⟩, .refl R p, hW⟩
  · have hsleeping : s.Sleeps p →
        ∃ m' q W', m.Leads m' ∧ m'.Turns q t (S ++ W') ∧ R.Kept p q ∧ Company R q W' := by
      intro hsleeps
      obtain ⟨hstep, hm'⟩ := hm.sleeping hready hsleeps
      obtain ⟨m', q, W', hleads, hrest⟩ := settles hW hm' hgo hS
      exact ⟨m', q, W', .head hstep hleads, hrest⟩
    have hmem : s ∈ S ++ W := by
      have hs' : s ∈ t :: (S ++ W) :=
        hm.tasks.subset (List.mem_append_left _ (hready ▸ List.mem_cons_self))
      exact (List.mem_cons.mp hs').resolve_left hs
    rcases List.mem_append.mp hmem with hmem | hmem
    · exact hsleeping (hS p (.refl R p) s hmem)
    · obtain ⟨before, behind, hsplit⟩ := List.append_of_mem hmem
      have hperm : W.Perm (s :: (before ++ behind)) := hsplit ▸ List.perm_middle
      have hcompany : Company R p (s :: (before ++ behind)) := hW.perm hperm
      by_cases hsleeps : s.Sleeps p
      · exact hsleeping hsleeps
      · have hturns : m.Turns p s (t :: S ++ (before ++ behind)) := by
          have hmiddle : (t :: S ++ s :: (before ++ behind)).Perm
            (s :: (t :: S ++ (before ++ behind))) := List.perm_middle
          exact ⟨hm.perm (((hperm.append_left S).cons t).trans hmiddle), rest, hready⟩
        obtain ⟨m₁, q, us, hstep, hm₁, hkept, hcompany', hlighter, -⟩ :=
          hcompany.turns hturns hsleeps
        have hweight : weight q (us ++ (before ++ behind)) < weight p W :=
          hlighter.trans_eq (weight_perm hperm.symm)
        obtain ⟨m', r, W', hleads, hm', hkept', hW'⟩ := settles hcompany' hm₁
          (fun r hr => hgo r (hkept.trans hr)) (fun r hr => hS r (hkept.trans hr))
        exact ⟨m', r, W', .head hstep hleads, hm', hkept.trans hkept', hW'⟩
termination_by (weight p W, m.ready.length)
decreasing_by
  · exact .right _ (hready ▸ Nat.lt_succ_self _)
  · exact .left _ _ hweight

end Company

end ManagementPlane
