import ManagementPlane.Proofs.Proxied.Arriving

/-!
# Proofs/Proxied/Descending — an operation that is handed on from controller to controller

On a federation that does nothing else (`Plane.Resting`) an operation that hands itself on does so
at once, and then waits (`Resting.descends`), whether the other controller is in the same process or
served by an actor.  So the operation that is at a controller (`Machine.Bears`) has behind it the
chain of those that wait for it.
-/

namespace ManagementPlane

open Execution (Pass Passes)

/-- The actor has nothing to do, and waits for requests. -/
structure Actor.Idle (a : Actor) : Prop where
  isOpen : a.isOpen = true
  clients : 0 < a.clients
  capacity : 0 < a.capacity
  requests : a.requests = []
  backlog : a.backlog = []
  enrollments : a.enrollments = []

namespace Actor

/-- The actor when it has given away a number. -/
def counted (a : Actor) : Actor := { a with nextNumber := a.nextNumber + 1 }

variable {a : Actor}

theorem Idle.attended (h : a.Idle) : a.Attended 0 where
  isOpen := h.isOpen
  clients := h.clients
  requests := by
    rw [h.requests]
    rintro _ ⟨⟩
  backlog := by
    rw [h.backlog]
    rintro _ ⟨⟩

theorem Idle.poll (h : a.Idle) : a.poll = (.wait, a) := by
  rw [Actor.poll, h.enrollments]
  dsimp only
  rw [receive?, h.requests]
  exact if_neg (Nat.ne_zero_of_lt h.clients)

/-- An idle actor has room for a request. -/
theorem Idle.send (h : a.Idle) (ticket : Nat) (r : ActorRequest) :
    a.send ticket r = { a with requests := [r] } := by
  rw [Actor.send, h.requests, h.backlog]
  exact if_pos (by simpa using h.capacity)

/-- An idle actor that gets a request to start an operation starts it, and is idle again. -/
theorem Idle.poll_execute (h : a.Idle) (number e : Nat) (operation : Value) (input : Input) :
    ({ a with requests := [.execute number e operation input] } : Actor).poll =
      (.start number e operation input, a) := by
  obtain ⟨c, capacity, clients, next, requests, backlog, enrollments, pending, isOpen⟩ := a
  obtain ⟨-, -, -, rfl, rfl, rfl⟩ := h
  rfl

theorem Idle.counted (h : a.Idle) : a.counted.Idle := { h with }

end Actor

namespace Plane

variable {p q : Plane} {c n : Nat} {W : List Task}

theorem Unmoved.idle {a : Nat} (h : p.Unmoved q) (ha : (p.actor a).Idle) : (q.actor a).Idle := by
  obtain ⟨n, hn⟩ := h.actor a
  rw [hn]
  exact { ha with }

/-- **A federation that does nothing else**: its locks are free, and the actors behind its proxies
wait for requests. -/
structure Peaceful (p : Plane) (W : List Task) : Prop where
  federated : p.Federated
  free : ∀ c < p.controllers.length, (p.tree c).lock = {}
  idle : ∀ s ∈ W, ∃ a, s = .serve a ∧ (p.actor a).Idle
  nodup : W.Nodup
  served : ∀ c < p.controllers.length, ∀ b d proxy a,
    (p.registration c).proxyFor? b = some (d, proxy) → proxy.delegate = .actor a → .serve a ∈ W

/-- And its limits let operations wait for each other. -/
structure Resting (p : Plane) (W : List Task) : Prop extends p.Peaceful W where
  patient : ∀ c < p.controllers.length, 0 < (p.settings c).blocking

theorem sleeps_serve {a : Nat} (h : (p.actor a).Idle) : (Task.serve a).Sleeps p := by
  rw [Task.Sleeps, Task.advance, Task.advanceServe, if_neg (by rw [h.isOpen]; decide), h.poll]
  dsimp only
  rw [modifyActor_self]

theorem Resting.sleeps (hp : p.Resting W) (h : p.Unmoved q) : ∀ s ∈ W, s.Sleeps q := by
  intro s hs
  obtain ⟨a, rfl, ha⟩ := hp.idle s hs
  exact sleeps_serve (h.idle ha)

/-- Actors that have nothing to do are company for whoever winds up. -/
theorem Resting.company (hp : p.Resting W) (h : p.Unmoved q) (R : Reserve) : Company R q W where
  winding s hs := by
    obtain ⟨a, rfl, -⟩ := hp.idle s hs
    exact .serve a
  attended a ha := by
    obtain ⟨b, hb, hidle⟩ := hp.idle _ ha
    obtain rfl := Task.serve.inj hb
    have hnone : W.countP (Task.follows a) = 0 := by
      refine List.countP_eq_zero.mpr fun s hs => ?_
      obtain ⟨b, rfl, -⟩ := hp.idle s hs
      exact Bool.false_ne_true
    rw [hnone]
    exact (h.idle hidle).attended

end Plane

/-! ## What a chain has taken -/

namespace Plane.Chain

variable {p : Plane} {n : Nat} {o : Origin} {control : Control} {levels : List Level}

theorem forward_lt (h : p.Chain n o control levels) {f : Nat} (hf : (Reserve.for levels).heard f) :
    f < p.forwards.length := by
  induction h with
  | top known hnone => obtain ⟨_, ⟨⟩, -⟩ := hf
  | level h hx hway hsilent hforward htold ih =>
    obtain ⟨level, hlevel, rfl⟩ := hf
    rcases List.mem_cons.mp hlevel with rfl | hlevel
    · exact hx.known
    · exact ih ⟨level, hlevel, rfl⟩

/-- What is waited for is there. -/
theorem awaited_lt (h : p.Chain n o control levels) : ∀ level ∈ levels,
    (∃ l < p.links.length, level.awaited = .link l) ∨
      ∃ e < p.exchanges.length, level.awaited = .exchange e := by
  induction h with
  | top known hnone => rintro _ ⟨⟩
  | level h hx hway hsilent hforward htold ih =>
    refine List.forall_mem_cons.mpr ⟨?_, ih⟩
    cases hway with
    | linked l => exact .inl ⟨l, hsilent.1, rfl⟩
    | following a e => exact .inr ⟨e, hsilent.1, rfl⟩

theorem not_told_link (h : p.Chain n o control levels) :
    ¬(Reserve.for levels).told (.link p.links.length) := by
  rintro (⟨_, ⟨⟩⟩ | ⟨level, hlevel, heq⟩)
  rcases h.awaited_lt level hlevel with ⟨l, hl, hlink⟩ | ⟨e, -, hexchange⟩
  · obtain rfl := Origin.link.inj (heq.symm.trans hlink)
    exact hl.false
  · cases heq.symm.trans hexchange

theorem not_told_exchange (h : p.Chain n o control levels) :
    ¬(Reserve.for levels).told (.exchange p.exchanges.length) := by
  rintro (⟨_, ⟨⟩⟩ | ⟨level, hlevel, heq⟩)
  rcases h.awaited_lt level hlevel with ⟨l, -, hlink⟩ | ⟨e, he, hexchange⟩
  · cases heq.symm.trans hlink
  · obtain rfl := Origin.exchange.inj (heq.symm.trans hexchange)
    exact he.false

end Plane.Chain

/-! ## Handing on -/

namespace Execution

variable {p : Plane} {x : Execution} {proxy : Proxy} {operation : Value} {a : Address}
  {step : Step} {n : Nat} {o o' : Origin} {control : Control} {levels : List Level} {f : Nat}
  {way : Delivery}

/-- The operation that waits in the forwarded step. -/
def forwarding (x : Execution) (step : Step) (f due : Nat) (way : Delivery) : Execution :=
  { x with phase := .handling step (.forwarding f due way) }

theorem advance_forwarding (p : Plane) (x : Execution) (step : Step) (f due : Nat)
    (way : Delivery) :
    (x.forwarding step f due way).advance p =
      Forwarding.advance p (x.forwarding step f due way) step f due way := rfl

theorem advance_forward (hphase : x.phase = .handling step .begin)
    (hhandler : step.handler = .forward proxy) :
    x.advance p = Forwarding.start p x step proxy := by
  have hbegin : x.advance p = work p x step .begin := by rw [advance, hphase]
  rw [hbegin, work.eq_def]
  dsimp only
  rw [hhandler]

/-- A participant in the same process is started on a new link. -/
theorem start_linked {c : Nat} (hlength : proxy.node.length ≤ step.address.length)
    (hcalm : p.overtakes x.context.input.cancellation = false)
    (hdelegate : proxy.delegate = .controller c) :
    Forwarding.start p x step proxy =
      { plane := p.newForward.2.newLink.2
        spawned := [.operation [new c (step.operation.set Key.address
          (Address.toValue (step.address.drop proxy.node.length))) (.relay p.links.length)
          x.context.input x.context.sink] (.link p.links.length)]
        next := .going (x.forwarding step p.forwards.length
          (p.now + (p.settings x.controller).blocking) (.linked p.links.length)) } := by
  rw [Forwarding.start]
  dsimp only
  rw [if_neg hlength.not_gt, hcalm, if_neg Bool.false_ne_true, Forwarding.dispatch, hdelegate]
  rfl

/-- The plane with a new exchange on which a request has been sent to the actor. -/
def requesting (p : Plane) (i : Nat) (operation : Value) (input : Input) : Plane :=
  ((p.newForward.2.newExchange (p.actor i).nextNumber).2.modifyActor i Actor.counted).send i
    (.execute (p.actor i).nextNumber p.exchanges.length operation input) |>.2

/-- An open actor is sent a request, on a new exchange. -/
theorem start_sending {i : Nat} (hlength : proxy.node.length ≤ step.address.length)
    (hcalm : p.overtakes x.context.input.cancellation = false)
    (hdelegate : proxy.delegate = .actor i) (hopen : (p.actor i).isOpen = true) :
    Forwarding.start p x step proxy =
      { plane := requesting p i (step.operation.set Key.address
          (Address.toValue (step.address.drop proxy.node.length)))
          { x.context.input with cancellation := none }
        next := .going (x.forwarding step p.forwards.length
          (p.now + (p.settings x.controller).blocking)
          (.sending i p.sends p.exchanges.length)) } := by
  have hactor : p.newForward.2.actor i = p.actor i := rfl
  rw [Forwarding.start]
  dsimp only
  rw [if_neg hlength.not_gt, hcalm, if_neg Bool.false_ne_true, Forwarding.dispatch, hdelegate]
  dsimp only
  rw [hactor, if_pos hopen]
  rfl

variable {i : Nat} {input : Input}

theorem actor_requesting (h : (p.actor i).Idle) (j : Nat) :
    (requesting p i operation input).actor j =
      if i = j then { (p.actor i).counted with
        requests := [.execute (p.actor i).nextNumber p.exchanges.length operation input] }
      else p.actor j := by
  have hlength : i < p.actors.length := Plane.lt_of_isOpen h.isOpen
  have hcounted : ((p.newForward.2.newExchange (p.actor i).nextNumber).2.modifyActor i
      Actor.counted).actor j = if i = j then (p.actor i).counted else p.actor j := by
    rw [Plane.actor_modifyActor]
    by_cases hij : i = j
    · subst hij
      rw [if_pos ⟨rfl, hlength⟩, if_pos rfl]
      rfl
    · rw [if_neg fun h => hij h.1, if_neg hij]
      rfl
  rw [requesting, Plane.actor_send, hcounted]
  by_cases hij : i = j
  · subst hij
    rw [if_pos rfl, if_pos rfl, if_pos ⟨rfl, by simpa [Plane.newExchange, Plane.newForward,
      Plane.modifyActor] using hlength⟩, h.counted.send]
  · rw [if_neg hij, if_neg fun h => hij h.1, if_neg hij]

/-- What is sent to an actor waits for it, and everything else is left alone. -/
theorem kept_requesting {R : Reserve} (htold : ¬R.told (.exchange p.exchanges.length)) :
    R.Kept p (requesting p i operation input) := by
  have hexchange : R.Kept p (p.newForward.2.newExchange (p.actor i).nextNumber).2 :=
    (Reserve.kept_newForward R p).trans (Reserve.kept_newExchange (p := p.newForward.2) htold _)
  exact (hexchange.trans (Reserve.kept_modifyActor R _ i id)).trans (Reserve.kept_send R _ i _)

/-- A new exchange is there, and nothing has come of it. -/
theorem silent_requesting (h : (p.actor i).Idle) :
    (Delivery.following i p.exchanges.length).Silent (requesting p i operation input) := by
  have hexchange : (requesting p i operation input).exchange p.exchanges.length =
      { number := (p.actor i).nextNumber } :=
    (Plane.getD_append _ _ _ _).trans (if_pos rfl)
  refine ⟨?_, ?_, ?_⟩
  · show p.exchanges.length < (p.exchanges ++ [_]).length
    simp
  · rw [actor_requesting h, if_pos rfl]
    exact h.isOpen
  · rw [hexchange]
    exact ⟨rfl, rfl, rfl⟩

/-- A request that does not have to wait has been taken. -/
theorem advance_sending {ticket e due : Nat} (hwaiting : (p.actor i).isWaiting ticket = false)
    (hread : x.interruption? p due (Forwarding.subject step.address) = none) :
    (x.forwarding step f due (.sending i ticket e)).advance p =
      { plane := p, next := .going (x.forwarding step f due (.following i e)) } := by
  rw [advance_forwarding, Forwarding.advance_eq_follow (x := x.forwarding step f due _) hread,
    Forwarding.follow.eq_def]
  dsimp only
  rw [hwaiting]
  rfl

/-- An actor that has got a request starts the operation. -/
theorem advance_serve {k : Actor} {number e : Nat} (hk : k.Idle)
    (hactor : p.actor i = { k with requests := [.execute number e operation input] }) :
    (Task.serve i).advance p =
      { plane := p.modifyActor i fun _ => k
        spawned := [.operation
          [new k.controller operation (.exchange e i) input (.exchange e)] (.exchange e)]
        progress := .going (.serve i) } := by
  have hopen : (p.actor i).isOpen = true := by rw [hactor]; exact hk.isOpen
  rw [Task.advance, Task.advanceServe, if_neg (by rw [hopen]; decide), hactor, hk.poll_execute]

/-- The plane once the actor has started the operation. -/
theorem unmoved_served (h : (p.actor i).Idle) :
    p.Unmoved ((requesting p i operation input).modifyActor i fun _ => (p.actor i).counted) := by
  refine ⟨rfl, rfl, fun _ => rfl, fun _ => rfl, fun _ => rfl, fun j => ?_⟩
  have hsilent : (Delivery.following i p.exchanges.length).Silent
    (requesting p i operation input) := silent_requesting h
  have hlength := Plane.lt_of_isOpen hsilent.2.1
  rw [Plane.actor_modifyActor]
  by_cases hij : i = j
  · subst hij
    exact ⟨_, if_pos ⟨rfl, hlength⟩⟩
  · rw [if_neg fun h => hij h.1, actor_requesting h, if_neg hij]
    exact ⟨_, rfl⟩

end Execution

/-- **An actor that has got a request** starts the operation, when all others sleep. -/
theorem Machine.Holds.serving {m : Machine} {q : Plane} {i number e : Nat} {operation : Value}
    {input : Input} {k : Actor} {us : List Task} (hm : m.Holds q (.serve i :: us)) (hk : k.Idle)
    (hactor : q.actor i = { k with requests := [.execute number e operation input] })
    (hus : ∀ s ∈ us, s.Sleeps q) (hus' : ∀ s ∈ us, s.Sleeps (q.modifyActor i fun _ => k)) :
    ∃ m', m.Leads m' ∧ m'.Turns (q.modifyActor i fun _ => k) (.operation
      [Execution.new k.controller operation (.exchange e i) input (.exchange e)] (.exchange e))
      (.serve i :: us) := by
  have hgo : (Task.serve i).canGo q = true := by
    refine List.any_eq_true.mpr ⟨.turn i, List.mem_cons_self, ?_⟩
    rw [Wait.holds, hactor]
    simp [Actor.isReady]
  have hsame : (q.modifyActor i fun _ => k).actor i = k := by
    have hopen : (q.actor i).isOpen = true := by
      rw [hactor]
      exact hk.isOpen
    rw [Plane.actor_modifyActor, if_pos ⟨rfl, Plane.lt_of_isOpen hopen⟩]
  obtain ⟨m₁, hleads₁, hm₁⟩ := hm.settles (hm.dormant.mem_ready
    (hm.tasks.symm.subset List.mem_cons_self) (hm.plane ▸ hgo)) hus
  obtain ⟨m₂, hstep₂, hm₂, hready⟩ := hm₁.going (Execution.advance_serve hk hactor)
  obtain ⟨m₃, hleads₃, hm₃⟩ := (hm₂.toHolds.perm (.swap _ _ _)).settles (hready List.mem_cons_self)
    (List.forall_mem_cons.mpr ⟨Plane.sleeps_serve (hsame.symm ▸ hk), hus'⟩)
  exact ⟨m₃, hleads₁.trans (.head hstep₂ hleads₃), hm₃⟩

/-- **An operation that hands itself on** is the next one of its chain. -/
theorem Plane.Chain.waiting {p q : Plane} {n : Nat} {x : Execution} {o o' : Origin}
    {control : Control} {levels : List Level} {way : Delivery} {step : Step}
    (h : p.Chain n o x.control levels) (hpoised : x.context.Poised)
    (hslot : step.slot = Context.rootSlot) (hpatient : 0 < (p.settings x.controller).blocking)
    (hq : (Reserve.for levels).Kept p q) (hforwards : q.forwards = p.newForward.2.forwards)
    (hway : way.Joins o' control) (hsilent : way.Silent q) (htold : ¬(Reserve.for levels).told o') :
    q.Chain n o' control (⟨x.forwarding step p.forwards.length
      (p.now + (p.settings x.controller).blocking) way, o, p.forwards.length, o'⟩ :: levels) := by
  have hforwards : q.forwards = p.forwards ++ [({} : Forward)] := hforwards
  have hnew : q.forward p.forwards.length = {} := by
    rw [Plane.forward, hforwards]
    simp
  refine .level (h.kept hq) ⟨⟨step, _, rfl, hslot, ?_⟩, ?_, ?_, hpoised⟩ hway hsilent
    (fun hf => (h.forward_lt hf).false) htold
  · rw [hq.now]
    exact Nat.lt_add_of_pos_right hpatient
  · rw [hforwards]
    simp
  · rw [hnew]
    exact ⟨rfl, rfl⟩

/-- **An operation is at a controller**, and behind it are those that wait for it. -/
def Machine.Bears (m : Machine) (p₀ : Plane) (W : List Task) (n c : Nat) (operation : Value) :
    Prop :=
  ∃ p x o levels, m.Turns p (.operation [x] o) (levels.map Level.task ++ W) ∧
    x.Fresh c operation ∧ p.Chain n o x.control levels ∧ p₀.Unmoved p

section

variable {p₀ p : Plane} {m : Machine} {W : List Task} {n c c' i : Nat} {x : Execution} {o : Origin}
  {levels : List Level} {operation : Value} {proxy : Proxy} {a : Address} {step : Step}
  (hp : p₀.Resting W) (hunmoved : p₀.Unmoved p)
  (hm : m.Turns p (.operation [x] o) (levels.map Level.task ++ W))
  (hphase : x.phase = .handling step .begin) (hhandler : step.handler = .forward proxy)
  (hslot : step.slot = Context.rootSlot) (hpoised : x.context.Poised)
  (hchain : p.Chain n o x.control levels)
  (hpatient : 0 < (p.settings x.controller).blocking)
  (hlength : proxy.node.length ≤ step.address.length)
include hp hunmoved hm hphase hhandler hslot hpoised hchain hpatient hlength

/-- To a controller in the same process. -/
theorem Machine.descends_linked (hdelegate : proxy.delegate = .controller c) :
    ∃ m', m.Leads m' ∧ m'.Bears p₀ W n c (step.operation.set Key.address
      (Address.toValue (step.address.drop proxy.node.length))) := by
  have hadvance := (Execution.advance_forward hphase hhandler).trans
    (Execution.start_linked (p := p) hlength (Execution.calm_of_poised hpoised) hdelegate)
  have hopen : ∀ answer, x.phase ≠ .ended answer := by
    rw [hphase]
    rintro _ ⟨⟩
  obtain ⟨m₁, hstep, hm₁, hready⟩ := hm.going (Task.advance_going hopen hadvance)
  have hkept : (Reserve.for levels).Kept p p.newForward.2.newLink.2 :=
    (Reserve.kept_newForward _ p).trans (Reserve.kept_newLink _ _)
  have hsilent : (Delivery.linked p.links.length).Silent p.newForward.2.newLink.2 := by
    refine ⟨?_, ?_⟩
    · show p.links.length < (p.links ++ [_]).length
      simp
    · exact (Plane.getD_append _ _ _ _).trans (if_pos rfl)
  have hchain' := hchain.waiting (q := p.newForward.2.newLink.2) hpoised hslot hpatient hkept rfl
    (.linked _) hsilent hchain.not_told_link
  have hunmoved' : p₀.Unmoved p.newForward.2.newLink.2 :=
    hunmoved.trans ⟨rfl, rfl, fun _ => rfl, fun _ => rfl, fun _ => rfl, fun _ => ⟨_, rfl⟩⟩
  have hsleeps : ∀ s ∈ _ :: (levels.map Level.task ++ W), s.Sleeps p.newForward.2.newLink.2 :=
    List.forall_mem_cons.mpr ⟨hchain'.sleeps _ List.mem_cons_self, List.forall_mem_append.mpr
      ⟨fun s hs => hchain'.sleeps s (List.mem_cons_of_mem _ hs), hp.sleeps hunmoved'⟩⟩
  obtain ⟨m₂, hleads, hm₂⟩ := (hm₁.toHolds.perm (.swap _ _ _)).settles
    (hready List.mem_cons_self) hsleeps
  exact ⟨m₂, .head hstep hleads, _, _, _, _, hm₂, ⟨_, _, _, rfl, hpoised.uncancelled⟩, hchain',
    hunmoved'⟩

/-- To a controller that an actor serves. -/
theorem Machine.descends_served (hdelegate : proxy.delegate = .actor i) (hserve : .serve i ∈ W) :
    ∃ m', m.Leads m' ∧ m'.Bears p₀ W n (p₀.actor i).controller (step.operation.set Key.address
      (Address.toValue (step.address.drop proxy.node.length))) := by
  have hidle : (p.actor i).Idle := by
    obtain ⟨b, hb, hidle⟩ := hp.idle _ hserve
    obtain rfl := Task.serve.inj hb
    exact hunmoved.idle hidle
  have hopen : ∀ answer, x.phase ≠ .ended answer := by
    rw [hphase]
    rintro _ ⟨⟩
  have hadvance := (Execution.advance_forward hphase hhandler).trans
    (Execution.start_sending (p := p) hlength (Execution.calm_of_poised hpoised) hdelegate
      hidle.isOpen)
  generalize step.operation.set Key.address
    (Address.toValue (step.address.drop proxy.node.length)) = relative at hadvance ⊢
  obtain ⟨input, hinput⟩ : ∃ input, input = { x.context.input with cancellation := none } :=
    ⟨_, rfl⟩
  rw [← hinput] at hadvance
  obtain ⟨q, hq⟩ : ∃ q, q = Execution.requesting p i relative input := ⟨_, rfl⟩
  obtain ⟨due, hdue⟩ : ∃ due, due = p.now + (p.settings x.controller).blocking := ⟨_, rfl⟩
  rw [← hq, ← hdue] at hadvance
  have hactor : q.actor i = { (p.actor i).counted with
      requests := [.execute (p.actor i).nextNumber p.exchanges.length relative input] } := by
    rw [hq, Execution.actor_requesting hidle, if_pos rfl]
  -- the request is taken at once
  have hbacklog : (q.actor i).backlog = [] := by
    rw [hactor]
    exact hidle.backlog
  have hwaiting : (q.actor i).isWaiting p.sends = false := by
    rw [Actor.isWaiting, hbacklog]
    rfl
  obtain ⟨m₁, hstep₁, hm₁, -⟩ := hm.going (Task.advance_going hopen hadvance)
  have hkept : (Reserve.for levels).Kept p q :=
    hq ▸ Execution.kept_requesting hchain.not_told_exchange
  have hintime : q.now < due := by
    rw [hkept.now, hdue]
    exact Nat.lt_add_of_pos_right hpatient
  obtain ⟨m₂, hstep₂, hm₂, -⟩ := hm₁.going (Task.advance_going (by rintro _ ⟨⟩)
    (Execution.advance_sending hwaiting (Execution.unhurried_of_poised hpoised hintime _)))
  have hsilent : (Delivery.following i p.exchanges.length).Silent q :=
    hq ▸ Execution.silent_requesting hidle
  have hchain' := hchain.waiting hpoised hslot hpatient hkept (by rw [hq]; rfl)
    (.following i _) hsilent hchain.not_told_exchange
  rw [← hdue] at hchain'
  -- the actor starts the operation, since all others sleep
  obtain ⟨others, hperm⟩ : ∃ others, W.Perm (.serve i :: others) := by
    obtain ⟨before, behind, rfl⟩ := List.append_of_mem hserve
    exact ⟨_, List.perm_middle⟩
  have hothers : ∀ s ∈ others, s.Sleeps q := by
    intro s hs
    obtain ⟨b, rfl, hb⟩ := hp.idle s (hperm.symm.subset (List.mem_cons_of_mem _ hs))
    have hib : i ≠ b := by
      rintro rfl
      exact (List.nodup_cons.mp (hperm.nodup_iff.mp hp.nodup)).1 hs
    refine Plane.sleeps_serve ?_
    rw [hq, Execution.actor_requesting hidle, if_neg hib]
    exact hunmoved.idle hb
  have hunmoved' : p₀.Unmoved (q.modifyActor i fun _ => (p.actor i).counted) :=
    hunmoved.trans (hq ▸ Execution.unmoved_served hidle)
  have hchain'' := hchain'.kept
    (Reserve.kept_modifyActor _ q i (g := fun _ => (p.actor i).counted) fun _ => hidle.isOpen)
  generalize hlevels : (_ :: levels : List Level) = waiting at hchain' hchain''
  have htasks : m₂.Holds q (.serve i :: (waiting.map Level.task ++ others)) := by
    rw [← hlevels]
    exact hm₂.toHolds.perm ((hperm.append_left (_ :: levels.map Level.task)).trans List.perm_middle)
  obtain ⟨m₃, hleads, hm₃⟩ := htasks.serving hidle.counted hactor
    (List.forall_mem_append.mpr ⟨hchain'.sleeps, hothers⟩)
    (List.forall_mem_append.mpr ⟨hchain''.sleeps, fun s hs =>
      hp.sleeps hunmoved' s (hperm.symm.subset (List.mem_cons_of_mem _ hs))⟩)
  have hcontroller : (p.actor i).counted.controller = (p₀.actor i).controller := by
    obtain ⟨number, hnumber⟩ := hunmoved.actor i
    rw [Actor.counted, hnumber]
  rw [hcontroller] at hm₃
  exact ⟨m₃, .head hstep₁ (.head hstep₂ hleads), _, _, _, _,
    hm₃.perm (List.perm_middle.symm.trans (hperm.symm.append_left _)),
    ⟨_, _, _, rfl, by rw [hinput]⟩, hchain'', hunmoved'⟩

end

/-! ## What becomes of it -/

namespace Machine.Bears

variable {p₀ : Plane} {m : Machine} {W : List Task} {n c c' : Nat} {operation value : Value}
  {proxy : Proxy} {a b : Address} {name text : String} {step : Step}
  (hp : p₀.Resting W) (hm : m.Bears p₀ W n c operation)
include hp hm

/-- **An operation that hands itself on** gets to the controller behind the proxy. -/
theorem hop (hc : c < p₀.controllers.length)
    (hhands : ∀ p x, p₀.Unmoved p → x.Fresh c operation → Execution.HandsOn p x proxy value b)
    (hlength : proxy.node.length ≤ b.length)
    (hresolve : (p₀.registration c).resolve a name = .ok (.proxied proxy))
    (hhost : p₀.host? proxy.delegate = some c') :
    ∃ m', m.Leads m' ∧ m'.Bears p₀ W n c'
      (value.set Key.address (Address.toValue (b.drop proxy.node.length))) := by
  obtain ⟨p, x, o, levels, hturns, hfresh, hchain, hunmoved⟩ := hm
  obtain ⟨q, y, hpasses, hsteps, hmoved, hkept⟩ := hhands p x hunmoved hfresh
  obtain ⟨m₁, hleads, hm₁⟩ := hturns.passes hpasses
  have hchain' : q.Chain n o y.control levels := hsteps.control ▸ hchain.kept (hkept _)
  have hpatient : 0 < (q.settings y.controller).blocking := by
    obtain ⟨control, input, sink, rfl, -⟩ := hfresh
    rw [hsteps.controller, (hunmoved.trans hmoved).settings]
    exact hp.patient c hc
  obtain ⟨d, howner⟩ := Registration.resolve_proxied_iff.mp hresolve
  cases hdelegate : proxy.delegate with
  | controller i =>
    rw [hdelegate] at hhost
    obtain rfl := Option.some.inj hhost
    obtain ⟨m₂, hleads', hm₂⟩ := Machine.descends_linked hp (hunmoved.trans hmoved) hm₁ hsteps.phase
      rfl rfl hsteps.poised hchain' hpatient hlength hdelegate
    exact ⟨m₂, hleads.trans hleads', hm₂⟩
  | actor i =>
    rw [hdelegate] at hhost
    obtain rfl := Option.some.inj hhost
    obtain ⟨m₂, hleads', hm₂⟩ := Machine.descends_served hp (hunmoved.trans hmoved) hm₁ hsteps.phase
      rfl rfl hsteps.poised hchain' hpatient hlength hdelegate
      (hp.served c hc _ _ _ _ howner hdelegate)
    exact ⟨m₂, hleads.trans hleads', hm₂⟩
  | _ =>
    rw [hdelegate] at hhost
    cases hhost

/-- **An operation that fails** is answered so. -/
theorem fails (h : ∀ p x, p₀.Unmoved p → x.Fresh c operation → Execution.FailsAlone p x text) :
    m.Delivers n (Inquiry.FailsWith · text) := by
  obtain ⟨p, x, o, levels, hturns, hfresh, hchain, hunmoved⟩ := hm
  obtain ⟨q, y, answer, hpasses, hphase, hfails, hkept, hactors⟩ := h p x hunmoved hfresh
  obtain ⟨m₁, hleads, hm₁⟩ := hturns.passes hpasses
  have hcompany : Company (Reserve.for levels) q W := by
    refine (hp.company hunmoved _).around (hkept .nothing).mute fun a k ha => ?_
    rwa [Plane.actor, hactors]
  exact .of_leads hleads ((hchain.kept (hkept _)).fails hm₁ hcompany hphase hfails)

/-- **An operation that does all its steps** is answered with a success. -/
theorem completes (h : ∀ p x, p₀.Unmoved p → x.Fresh c operation → Execution.CompletesAlone p x) :
    m.Delivers n Execution.Succeeds := by
  obtain ⟨p, x, o, levels, hturns, hfresh, hchain, hunmoved⟩ := hm
  obtain ⟨q, y, hpasses, hcomplete, hcontrol, hkept, hactors⟩ := h p x hunmoved hfresh
  obtain ⟨m₁, hleads, hm₁⟩ := hturns.passes hpasses
  have hcompany : Company (Reserve.for levels) q W := by
    refine (hp.company hunmoved _).around (hkept .nothing).mute fun a k ha => ?_
    rwa [Plane.actor, hactors]
  have hchain' : q.Chain n o y.control levels := hcontrol ▸ hchain.kept (hkept _)
  exact .of_leads hleads (hchain'.succeeds hm₁ hcompany hcomplete)

end Machine.Bears

end ManagementPlane
