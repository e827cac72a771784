import ManagementPlane.Proofs.Proxied.Descending

/-!
# Proofs/Proxied/Confined — operations that only hand on and validate

Some operations do nothing but hand themselves on to proxies, or validate others
(`Plane.Confines`).  While nothing else runs, nothing is published, and only such operations ever
begin (`Machine.confined_run`).
-/

namespace ManagementPlane

open Transaction (Keeps)

/-! ## What happens to the plane -/

/-- The requests that wait at the actor. -/
def Actor.inbox (a : Actor) : List ActorRequest := a.requests ++ a.backlog.map Prod.snd

/-- The second actor is the first one later: it has been asked for no operations but such. -/
structure Actor.Bides (V : Nat → Value → Prop) (a b : Actor) : Prop where
  controller : b.controller = a.controller
  asked : ∀ number e operation input, .execute number e operation input ∈ b.inbox →
    .execute number e operation input ∈ a.inbox ∨ V a.controller operation

namespace Actor

variable {V : Nat → Value → Prop} {a b : Actor}

theorem Bides.refl (a : Actor) : a.Bides V a := ⟨rfl, fun _ _ _ _ h => .inl h⟩

theorem Bides.trans {c : Actor} (h : a.Bides V b) (h' : b.Bides V c) : a.Bides V c where
  controller := h'.controller.trans h.controller
  asked number e operation input hmem :=
    (h'.asked number e operation input hmem).elim (h.asked number e operation input)
      fun hasked => .inr (h.controller ▸ hasked)

theorem Bides.of_subset (hcontroller : b.controller = a.controller) (h : b.inbox ⊆ a.inbox) :
    a.Bides V b := ⟨hcontroller, fun _ _ _ _ hmem => .inl (h hmem)⟩

theorem inbox_send (a : Actor) (ticket : Nat) (r : ActorRequest) :
    ∀ s ∈ (a.send ticket r).inbox, s ∈ a.inbox ∨ s = r := by
  intro s hs
  rw [inbox, send] at hs
  split at hs
  · simp only [List.mem_append, List.mem_singleton] at hs
    rw [inbox, List.mem_append]
    tauto
  · simp only [List.map_append, List.map_cons, List.map_nil, List.mem_append,
      List.mem_singleton] at hs
    rw [inbox, List.mem_append]
    tauto

theorem bides_send (ticket : Nat) {r : ActorRequest} (hr : ∀ number e operation input,
    r = .execute number e operation input → V a.controller operation) :
    a.Bides V (a.send ticket r) where
  controller := by
    rw [send]
    split <;> rfl
  asked number e operation input hmem :=
    (inbox_send a ticket r _ hmem).imp_right fun h => hr number e operation input h.symm

theorem inbox_receive? {r : ActorRequest} (h : a.receive? = some (r, b)) :
    b.controller = a.controller ∧ b.inbox ⊆ a.inbox ∧ r ∈ a.inbox := by
  rw [receive?] at h
  split at h
  · cases h
  · next first rest hrequests =>
    split at h <;> obtain ⟨rfl, rfl⟩ := Prod.mk.inj (Option.some.inj h)
    · next hbacklog =>
      rw [inbox, inbox, hrequests, hbacklog]
      simp
    · next hbacklog =>
      rw [inbox, inbox, hrequests, hbacklog]
      simp

/-- An actor takes what it starts from its inbox. -/
theorem bides_poll (a : Actor) : a.Bides V a.poll.2 ∧ ∀ number e operation input,
    a.poll.1 = .start number e operation input → .execute number e operation input ∈ a.inbox := by
  rw [poll]
  split
  · next news rest _ =>
    refine ⟨?_, by rintro _ _ _ _ ⟨⟩⟩
    cases news <;> exact .of_subset rfl (List.Subset.refl _)
  · split
    · next r b hreceive =>
      obtain ⟨hcontroller, hsubset, hr⟩ := inbox_receive? hreceive
      cases r with
      | execute number e operation input =>
        refine ⟨.of_subset hcontroller hsubset, fun _ _ _ _ h => ?_⟩
        cases h
        exact hr
      | resolve number d reply =>
        rw [serve]
        split
        · exact ⟨.of_subset hcontroller hsubset, by rintro _ _ _ _ ⟨⟩⟩
        · exact ⟨.of_subset hcontroller hsubset, by rintro _ _ _ _ ⟨⟩⟩
    · split
      · exact ⟨.of_subset rfl (List.Subset.refl _), by rintro _ _ _ _ ⟨⟩⟩
      · exact ⟨.refl a, by rintro _ _ _ _ ⟨⟩⟩

end Actor

namespace Plane

/-- Nothing has been published since, and actors have been asked for no operations but such. -/
structure Bides (V : Nat → Value → Prop) (p q : Plane) : Prop where
  tree : ∀ c, Keeps (p.tree c) (q.tree c)
  registration : ∀ c, q.registration c = p.registration c
  actor : ∀ a, (p.actor a).Bides V (q.actor a)

variable {V : Nat → Value → Prop} {p q r : Plane}

theorem Bides.refl (p : Plane) : p.Bides V p :=
  ⟨fun _ => ⟨rfl, rfl⟩, fun _ => rfl, fun _ => .refl _⟩

theorem Bides.trans (h : p.Bides V q) (h' : q.Bides V r) : p.Bides V r where
  tree c := ⟨(h'.tree c).1.trans (h.tree c).1, (h'.tree c).2.trans (h.tree c).2⟩
  registration c := (h'.registration c).trans (h.registration c)
  actor a := (h.actor a).trans (h'.actor a)

theorem Steady.bides (h : p.Steady q) (hactors : q.actors = p.actors) : p.Bides V q where
  tree := h.tree
  registration := h.registration
  actor a := by
    have hactor : q.actor a = p.actor a := by rw [actor, hactors, actor]
    rw [hactor]
    exact .refl _

theorem Fair.bides (h : p.Fair q) (hactor : ∀ a, (p.actor a).Bides V (q.actor a)) :
    p.Bides V q where
  tree c := by
    rw [h.tree]
    exact ⟨rfl, rfl⟩
  registration c := by
    rw [registration, controller, h.controllers]
    rfl
  actor := hactor

theorem Fair.bides_of_actors (h : p.Fair q) (hactors : q.actors = p.actors) : p.Bides V q :=
  h.bides fun a => by
    have hactor : q.actor a = p.actor a := by rw [actor, hactors, actor]
    rw [hactor]
    exact .refl _

theorem bides_modifyActor (p : Plane) (a : Nat) {g : Actor → Actor}
    (hg : (p.actor a).Bides V (g (p.actor a))) : p.Bides V (p.modifyActor a g) := by
  refine Fair.bides (.of_same rfl rfl rfl) fun b => ?_
  rw [actor_modifyActor]
  split
  · next h =>
    obtain ⟨rfl, -⟩ := h
    exact hg
  · exact .refl _

theorem bides_send (p : Plane) (a : Nat) {r : ActorRequest} (hr : ∀ number e operation input,
    r = .execute number e operation input → V (p.actor a).controller operation) :
    p.Bides V (p.send a r).2 := by
  refine Fair.bides (.of_same rfl rfl rfl) fun b => ?_
  rw [actor_send]
  split
  · next h =>
    obtain ⟨rfl, -⟩ := h
    exact Actor.bides_send _ hr
  · exact .refl _

theorem bides_foldl {α : Type} {f : Plane → α → Plane} (hf : ∀ q a, Bides V q (f q a)) (l : List α)
    (p : Plane) : p.Bides V (l.foldl f p) := by
  induction l generalizing p with
  | nil => exact .refl p
  | cons a l ih => exact (hf p a).trans (ih _)

theorem Bides.reportOutcome (h : p.Bides V q) (f : Nat) (o : Outcome) :
    p.Bides V (q.reportOutcome f o) := by
  refine h.trans (Fair.bides_of_actors ((Fair.refl q).reportOutcome f o) ?_)
  rw [Plane.reportOutcome]
  dsimp only
  split
  · split <;> rfl
  · rfl

theorem Bides.failForward (h : p.Bides V q) (f : Nat) (response : Value) :
    p.Bides V (q.failForward f response) :=
  (h.reportOutcome f (.failed response)).trans (Fair.bides_of_actors (.of_same rfl rfl rfl) rfl)

theorem Bides.report (h : p.Bides V q) (sink : Sink) (m : Message) :
    p.Bides V (q.report sink m) := by
  refine h.trans (((Fair.refl q).report sink m).bides_of_actors ?_)
  cases sink <;> rfl

/-- Whoever is handed a handle asks for no operation. -/
theorem bides_announcePrepared (p : Plane) (control : Control) (handle : Nat) (tentative : Value) :
    p.Bides V (p.announcePrepared control handle tentative) := by
  have hfair := (Fair.refl p).announcePrepared control handle tentative
  cases control with
  | announce decisions =>
    have hlog : p.Bides V (p.writeLog ("prepared: " ++ tentative.render)) :=
      Fair.bides_of_actors (.of_same rfl rfl rfl) rfl
    rw [announcePrepared]
    refine Bides.trans (hlog.trans (bides_foldl (fun q d => ?_) decisions _))
      (Fair.bides_of_actors (.of_same rfl rfl rfl) rfl)
    exact Fair.bides_of_actors (.of_same rfl rfl rfl) rfl
  | relay l =>
    refine hfair.bides_of_actors ?_
    rw [announcePrepared]
    dsimp only
    split <;> rfl
  | exchange e a =>
    have henroll : ∀ (news : Enrollment) (q : Plane), q.Bides V
        (q.modifyActor a fun k => { k with enrollments := k.enrollments ++ [news] }) :=
      fun news q => bides_modifyActor q a (.of_subset rfl (List.Subset.refl _))
    rw [announcePrepared]
    dsimp only
    split
    · split
      · exact (henroll _ p).trans (Fair.bides_of_actors (.of_same rfl rfl rfl) rfl)
      · have hdecided : ∀ q : Plane, q.Bides V (q.decideAndDrop handle .rollback) :=
          fun q => Fair.bides_of_actors (.of_same rfl rfl rfl) rfl
        exact ((henroll _ p).trans (hdecided _)).trans (henroll _ _)
    · exact Fair.bides_of_actors (.of_same rfl rfl rfl) rfl
  | _ => exact hfair.bides_of_actors rfl

end Plane

/-! ## What becomes of an operation -/

/-- **Operations that only hand on and validate**: which may be submitted to a controller, and which
steps they take there. -/
structure Plane.Confines (p : Plane) (V : Nat → Value → Prop) (H : Nat → Step → Prop) : Prop where
  opens : ∀ {c operation name a resolved}, V c operation →
    Operation.parse operation = .ok (name, a) →
    Execution.consulted (p.registration c) name a operation = .ok resolved →
      resolved.isReadOnly = true ∧ H c ⟨resolved.handler, operation, a, Context.rootSlot⟩
  works : ∀ {c step}, H c step → (∃ proxy, step.handler = .forward proxy) ∨
    step.handler = .global .validate ∧ ∀ x : Context, x.stage = .model →
      (∃ out, (GlobalOperation.validateAct (p.registration c) step.operation).run.run x =
        (out, x)) ∨
      ∃ s, H c s ∧ (GlobalOperation.validateAct (p.registration c) step.operation).run.run x =
        (.ok (), { x with queues := { x.queues with model := s :: x.queues.model } })
  forwards : ∀ {c step proxy}, H c step → step.handler = .forward proxy →
    ∃ c', p.host? proxy.delegate = some c' ∧ V c' (step.operation.set Key.address
      (Address.toValue (step.address.drop proxy.node.length)))

/-- The operation is one of those, and has done nothing else. -/
structure Execution.Confined (V : Nat → Value → Prop) (H : Nat → Step → Prop) (x : Execution) :
    Prop where
  submitted : V x.controller x.operation
  unstaged : x.context.transaction.staging = none
  decisions : ∀ c ∈ x.context.completed, ∃ h, c = .decide h
  queued : ∃ l, x.context.queues = { model := l } ∧ ∀ s ∈ l, H x.controller s
  unlocked : ∀ due, x.phase ≠ .locking due
  handled : ∀ step w, x.phase = .handling step w → H x.controller step ∧ x.context.stage = .model ∧
    (w = .begin ∨ ∃ f due way, w = .forwarding f due way)

/-- A task that runs such an operation, passes on what comes of one, or has been serving an actor
that waited for requests. -/
inductive Task.Confined (p : Plane) (V : Nat → Value → Prop) (H : Nat → Step → Prop) : Task → Prop
  | operation {x : Execution} {o : Origin} (hx : x.Confined V H) : Confined p V H (.operation [x] o)
  | relay (l f : Nat) : Confined p V H (.relay l f)
  | follow (a e f : Nat) (sink : Sink) (state : Follow) : Confined p V H (.follow a e f sink state)
  | serve {a : Nat} (hinbox : (p.actor a).inbox = []) : Confined p V H (.serve a)

/-- An operation goes on so. -/
inductive Next.Confined (V : Nat → Value → Prop) (H : Nat → Step → Prop) : Next → Prop
  | going {x : Execution} (hx : x.Confined V H) : Confined V H (.going x)
  | blocked {x : Execution} (hx : x.Confined V H) : Confined V H (.blocked x)
  | returned {x : Execution} {step : Step} {out : Except OperationError Unit}
      (hx : (x.afterStep step out).Confined V H) : Confined V H (.returned x step out)

/-- A turn that leaves it at that. -/
structure Turn.Confined (p₀ : Plane) (V : Nat → Value → Prop) (H : Nat → Step → Prop) (p : Plane)
    (t : Turn) : Prop where
  plane : p.Bides V t.plane
  spawned : ∀ s ∈ t.spawned, s.Confined p₀ V H
  next : t.next.Confined V H

namespace Execution

variable {V : Nat → Value → Prop} {H : Nat → Step → Prop} {p₀ p q : Plane} {x y : Execution}
  {step : Step} {context : Context}

/-- Between steps only what is staged, completed and queued counts. -/
theorem Confined.between (h : x.Confined V H) (hcontroller : y.controller = x.controller)
    (hoperation : y.operation = x.operation) (hstaging : y.context.transaction.staging = none)
    (hcompleted : y.context.completed ⊆ x.context.completed)
    (hqueues : y.context.queues = x.context.queues) (hlocking : ∀ due, y.phase ≠ .locking due)
    (hhandling : ∀ step w, y.phase ≠ .handling step w) : y.Confined V H where
  submitted := by
    rw [hcontroller, hoperation]
    exact h.submitted
  unstaged := hstaging
  decisions c hc := h.decisions c (hcompleted hc)
  queued := by
    rw [hqueues, hcontroller]
    exact h.queued
  unlocked := hlocking
  handled step w hphase := absurd hphase (hhandling step w)

theorem Confined.new {c : Nat} {operation : Value} (h : V c operation) (control : Control)
    (input : Input) (sink : Sink) : (new c operation control input sink).Confined V H where
  submitted := h
  unstaged := rfl
  decisions := by rintro _ ⟨⟩
  queued := ⟨[], rfl, by rintro _ ⟨⟩⟩
  unlocked := by rintro _ ⟨⟩
  handled := by rintro _ _ ⟨⟩

/-- A step that ends leaves the operation as it is. -/
theorem afterStep_cases (x : Execution) (step : Step) (out : Except OperationError Unit) :
    ∃ context phase, x.afterStep step out = { x with context, phase } ∧
      (phase = .stepping ∨ ∃ e, phase = .unwinding e) ∧
      context.transaction = x.context.transaction ∧ context.completed = x.context.completed ∧
      context.queues = x.context.queues := by
  have hend : (x.context.endStep step out).2.transaction = x.context.transaction ∧
      (x.context.endStep step out).2.completed = x.context.completed ∧
      (x.context.endStep step out).2.queues = x.context.queues := by
    rw [Context.endStep.eq_def]
    dsimp only
    split
    · exact ⟨rfl, rfl, rfl⟩
    · split
      · exact ⟨rfl, rfl, rfl⟩
      · split
        · exact ⟨rfl, rfl, rfl⟩
        · split <;> exact ⟨rfl, rfl, rfl⟩
  rw [afterStep]
  split
  · next heq =>
    rw [heq] at hend
    exact ⟨_, _, rfl, .inl rfl, hend⟩
  · next e _ heq =>
    rw [heq] at hend
    exact ⟨_, _, rfl, .inr ⟨e, rfl⟩, hend⟩

theorem Confined.afterStep (h : x.Confined V H) (step : Step) (out : Except OperationError Unit) :
    (x.afterStep step out).Confined V H := by
  obtain ⟨context, phase, heq, hphase, htransaction, hcompleted, hqueues⟩ :=
    x.afterStep_cases step out
  rw [heq]
  refine h.between rfl rfl ?_ (by rw [hcompleted]; exact List.Subset.refl _) hqueues ?_ ?_
  · show context.transaction.staging = none
    rw [htransaction]
    exact h.unstaged
  · rcases hphase with rfl | ⟨e, rfl⟩ <;> rintro _ ⟨⟩
  · rcases hphase with rfl | ⟨e, rfl⟩ <;> rintro _ _ ⟨⟩

/-! ### What handing on does to the plane -/

/-- An actor counts on, even when it is closed. -/
theorem bides_numbered (p : Plane) (i : Nat) : p.Bides V
    ((p.newForward.2.newExchange (p.actor i).nextNumber).2.modifyActor i Actor.counted) := by
  have hnew : p.Bides V (p.newForward.2.newExchange (p.actor i).nextNumber).2 :=
    Plane.Fair.bides_of_actors (.of_same rfl rfl rfl) rfl
  exact hnew.trans (Plane.bides_modifyActor _ i (.of_subset rfl (List.Subset.refl _)))

theorem bides_requesting {i : Nat} {operation : Value} (h : V (p.actor i).controller operation)
    (input : Input) : p.Bides V (requesting p i operation input) := by
  have hnumbered : p.Bides V _ := bides_numbered p i
  refine hnumbered.trans (Plane.bides_send _ i ?_)
  rintro _ _ _ _ ⟨⟩
  rw [(hnumbered.actor i).controller]
  exact h

/-- A closed actor is asked for nothing. -/
theorem start_closed {proxy : Proxy} {i : Nat} (hlength : proxy.node.length ≤ step.address.length)
    (hcalm : p.overtakes x.context.input.cancellation = false)
    (hdelegate : proxy.delegate = .actor i) (hclosed : (p.actor i).isOpen = false) :
    Forwarding.start p x step proxy =
      { plane := ((p.newForward.2.newExchange (p.actor i).nextNumber).2.modifyActor i
          Actor.counted).failForward p.forwards.length
            (Response.failure TransportError.actorClosed.message)
        next := .going (x.forwarding step p.forwards.length
          (p.now + (p.settings x.controller).blocking) .delivered) } := by
  have hactor : p.newForward.2.actor i = p.actor i := rfl
  rw [Forwarding.start]
  dsimp only
  rw [if_neg hlength.not_gt, hcalm, if_neg Bool.false_ne_true, Forwarding.dispatch, hdelegate]
  dsimp only
  rw [hactor, if_neg (by rw [hclosed]; decide)]
  rfl

theorem bides_approaches {sink : Sink} {f : Nat} {way way' : Delivery} {spawned : List Task}
    (h : Forwarding.Approaches p sink f way way' q spawned) :
    p.Bides V q ∧ ∀ s ∈ spawned, s.Confined p₀ V H := by
  have hseen : ∀ (e : Nat) (g : Exchange → Exchange), p.Bides V (p.modifyExchange e g) :=
    fun e g => Plane.Fair.bides_of_actors (.of_same rfl rfl rfl) rfl
  cases h with
  | sent => exact ⟨.refl p, by rintro _ ⟨⟩⟩
  | refused | ends | breaks => exact ⟨(Plane.Bides.refl p).failForward f _, by rintro _ ⟨⟩⟩
  | @takes l =>
    have htaken : p.Bides V (p.modifyLink l Link.take) :=
      Plane.Fair.bides_of_actors (.of_same rfl rfl rfl) rfl
    exact ⟨htaken.reportOutcome f _, List.forall_mem_singleton.mpr (.relay l f)⟩
  | hears => exact ⟨(hseen _ _).report _ _, by rintro _ ⟨⟩⟩
  | @stands a e r q _ hq =>
    have hnew : p.Bides V (q.newHandle {}).2 := by
      rw [hq]
      exact Plane.Fair.bides_of_actors (.of_same rfl rfl rfl) rfl
    exact ⟨(hnew.reportOutcome f _).trans
      (Plane.bides_modifyActor _ a (.of_subset rfl (List.Subset.refl _))),
      List.forall_mem_singleton.mpr (.follow a e f sink _)⟩
  | @fails a e =>
    have hleft : p.Bides V ((p.modifyExchange e fun _ => (p.exchange e).next.2).modifyExchange e
        Exchange.leave) := Plane.Fair.bides_of_actors (.of_same rfl rfl rfl) rfl
    exact ⟨hleft.failForward f _, by rintro _ ⟨⟩⟩
  | closes => exact ⟨(hseen _ _).failForward f _, by rintro _ ⟨⟩⟩

theorem bides_abandon (p : Plane) (f : Nat) (way : Delivery) :
    p.Bides V (Forwarding.abandon p f way) := by
  have hfair := Forwarding.fair_abandon p f way
  cases way with
  | sending i ticket e =>
    have hwithdrawn : p.Bides V (p.modifyActor i (·.withdraw ticket)) := by
      refine Plane.bides_modifyActor p i (.of_subset rfl ?_)
      exact ((List.filter_sublist.map Prod.snd).append_left _).subset
    exact hwithdrawn.trans (Plane.Fair.bides_of_actors (.of_same rfl rfl rfl) rfl)
  | _ =>
    refine hfair.bides_of_actors ?_
    rw [Forwarding.abandon, Plane.letGo_eq]
    rfl

/-- What a prepared participant adds to the context. -/
theorem completed_accept (context : Context) (f handle : Nat) (response : Value) :
    (Forwarding.accept context f handle response).transaction = context.transaction ∧
      (Forwarding.accept context f handle response).completed ⊆
        .decide handle :: context.completed := by
  rw [Forwarding.accept, Context.complete]
  split
  · split
    · exact ⟨rfl, List.subset_cons_self _ _⟩
    · exact ⟨rfl, List.Subset.refl _⟩
  · exact ⟨rfl, List.subset_cons_self _ _⟩

section

variable (hp₀ : p₀.Confines V H) (hp : p₀.Bides V p) (h : x.Confined V H)
include hp₀ hp h

/-- The operation is resolved, and opens without the lock. -/
theorem Confined.begin : (begin p x).Confined p₀ V H p := by
  have hrejects : ∀ {q : Plane} {e : OperationError}, p.Bides V q →
      (reject q x e).Confined p₀ V H p := fun hq =>
    ⟨hq, by rintro _ ⟨⟩, .going (h.between rfl rfl h.unstaged (List.Subset.refl _) rfl
      (by rintro _ ⟨⟩) (by rintro _ _ ⟨⟩))⟩
  have hcounting : p.Bides V (Plane.counting x.controller p) :=
    Plane.Steady.bides (p.steady_modifyController _ ⟨_, _, rfl, rfl, rfl⟩) rfl
  cases hparse : Operation.parse x.operation with
  | error e =>
    have hbegin : Execution.begin p x = reject p x e := by rw [Execution.begin, hparse]
    rw [hbegin]
    exact hrejects (.refl p)
  | ok parsed =>
    obtain ⟨name, a⟩ := parsed
    cases hconsulted : consulted ((Plane.counting x.controller p).registration x.controller) name a
      x.operation with
    | error e =>
      rw [begin_of_error hparse hconsulted]
      exact hrejects hcounting
    | ok resolved =>
      have hentering : p.Bides V (entering x.controller p) :=
        hcounting.trans (Plane.Steady.bides (q := entering x.controller p)
          (Plane.steady_of_controllers rfl rfl) rfl)
      have hresolved := hconsulted
      rw [hcounting.registration, hp.registration] at hresolved
      obtain ⟨hread, hfirst⟩ := hp₀.opens h.submitted hparse hresolved
      rw [begin_of_readOnly hparse hconsulted hread]
      refine ⟨hentering, by rintro _ ⟨⟩, .going ⟨h.submitted, rfl, h.decisions, ⟨[_], rfl, ?_⟩,
        by rintro _ ⟨⟩, by rintro _ _ ⟨⟩⟩⟩
      exact List.forall_mem_singleton.mpr hfirst

omit hp₀ hp in
/-- The next step is one of those, or the operation prepares. -/
theorem Confined.pick (hphase : x.phase = .stepping) : (pick p x).Confined p₀ V H p := by
  obtain ⟨l, hqueues, hl⟩ := h.queued
  have hinterrupts : ∀ (context : Context) (slot : Nat),
      context.transaction = x.context.transaction → context.completed = x.context.completed →
      (∃ k, context.queues = { model := k } ∧ ∀ s ∈ k, H x.controller s) →
      Next.Confined V H
        (.going { x with context := context.interrupt slot, phase := .unwinding .failed }) := by
    intro context slot htransaction hcompleted hqueued
    refine .going ⟨h.submitted, ?_, ?_, hqueued, by rintro _ ⟨⟩, by rintro _ _ ⟨⟩⟩
    · show context.transaction.staging = none
      rw [htransaction]
      exact h.unstaged
    · show ∀ c ∈ context.completed, ∃ h, c = .decide h
      rw [hcompleted]
      exact h.decisions
  rw [Execution.pick]
  dsimp only
  split
  · next step context hstep =>
    obtain ⟨hmodel, k, hk, hcontext⟩ : x.context.stage = .model ∧ ∃ k, l = step :: k ∧
        context = { x.context with queues := { model := k } } := by
      have hmodel : x.context.stage = .model ∧ l ≠ [] := by
        rw [Context.nextStep?, hqueues] at hstep
        cases hstage : x.context.stage <;> rw [hstage] at hstep
        case model => exact ⟨rfl, by rintro rfl; cases hstep⟩
        all_goals cases hstep
      obtain ⟨first, k, rfl⟩ := List.exists_cons_of_ne_nil hmodel.2
      rw [Context.nextStep?_eq hmodel.1 hqueues] at hstep
      obtain ⟨rfl, rfl⟩ := Prod.mk.inj (Option.some.inj hstep)
      exact ⟨hmodel.1, k, rfl, rfl⟩
    subst hcontext
    obtain ⟨hfirst, hrest⟩ := List.forall_mem_cons.mp (hk ▸ hl)
    split
    · exact ⟨.refl p, by rintro _ ⟨⟩, hinterrupts _ _ rfl rfl ⟨k, rfl, hrest⟩⟩
    · refine ⟨.refl p, by rintro _ ⟨⟩, .going
        ⟨h.submitted, h.unstaged, h.decisions, ⟨k, rfl, hrest⟩, by rintro _ ⟨⟩, ?_⟩⟩
      rintro _ _ ⟨⟩
      exact ⟨hfirst, hmodel, .inl rfl⟩
  · split
    · next stage hstage =>
      refine ⟨Plane.Steady.bides (p.steady_setTree _ (Transaction.keeps_releaseLock _ _)) rfl,
        by rintro _ ⟨⟩, .going (h.between rfl rfl ?_ (List.Subset.refl _) rfl h.unlocked ?_)⟩
      · show (x.context.transaction.releaseLock _).2.staging = none
        rw [Transaction.releaseLock, h.unstaged]
        exact h.unstaged
      · show ∀ step w, x.phase ≠ .handling step w
        rw [hphase]
        rintro _ _ ⟨⟩
    · split
      · exact ⟨.refl p, by rintro _ ⟨⟩, hinterrupts _ _ rfl rfl ⟨l, hqueues, hl⟩⟩
      · rw [prepare]
        refine ⟨?_, by rintro _ ⟨⟩, .going (h.between rfl rfl h.unstaged (List.Subset.refl _) rfl
          (by rintro _ ⟨⟩) (by rintro _ _ ⟨⟩))⟩
        have hnew : p.Bides V (p.newHandle {}).2 :=
          Plane.Fair.bides_of_actors (.of_same rfl rfl rfl) rfl
        exact hnew.trans (Plane.bides_announcePrepared _ _ _ _)

/-! ## Handing on -/

omit hp₀ hp in
theorem Confined.forwarding (hstep : H x.controller step) (hstage : x.context.stage = .model)
    (f due : Nat) (way : Delivery) : (x.forwarding step f due way).Confined V H where
  submitted := h.submitted
  unstaged := h.unstaged
  decisions := h.decisions
  queued := h.queued
  unlocked := by rintro _ ⟨⟩
  handled := by
    rintro _ _ ⟨⟩
    exact ⟨hstep, hstage, .inr ⟨f, due, way, rfl⟩⟩

/-- **A step that hands on** starts an operation that may be submitted there, or asks for it. -/
theorem Confined.start (hstep : H x.controller step) (hstage : x.context.stage = .model)
    {proxy : Proxy} (hhandler : step.handler = .forward proxy) :
    (Forwarding.start p x step proxy).Confined p₀ V H p := by
  obtain ⟨c, hhost, hsubmits⟩ := hp₀.forwards hstep hhandler
  by_cases hlength : proxy.node.length ≤ step.address.length
  · by_cases hovertakes : p.overtakes x.context.input.cancellation = true
    · have hstart : Forwarding.start p x step proxy =
          { plane := p, next := .returned x step (.error .cancelled) } := by
        rw [Forwarding.start]
        dsimp only
        rw [if_neg hlength.not_gt, if_pos hovertakes]
      rw [hstart]
      exact ⟨.refl p, by rintro _ ⟨⟩, .returned (h.afterStep step _)⟩
    have hcalm := Bool.eq_false_iff.mpr hovertakes
    cases hdelegate : proxy.delegate with
    | controller i =>
      rw [hdelegate] at hhost
      obtain rfl := Option.some.inj hhost
      rw [start_linked hlength hcalm hdelegate]
      exact ⟨Plane.Fair.bides_of_actors (.of_same rfl rfl rfl) rfl,
        List.forall_mem_singleton.mpr (.operation (.new hsubmits _ _ _)),
        .going (h.forwarding hstep hstage _ _ _)⟩
    | actor i =>
      rw [hdelegate] at hhost
      obtain rfl := Option.some.inj hhost
      rw [← (hp.actor i).controller] at hsubmits
      by_cases hopen : (p.actor i).isOpen = true
      · rw [start_sending hlength hcalm hdelegate hopen]
        exact ⟨bides_requesting hsubmits _, by rintro _ ⟨⟩,
          .going (h.forwarding hstep hstage _ _ _)⟩
      · rw [start_closed hlength hcalm hdelegate (Bool.eq_false_iff.mpr hopen)]
        exact ⟨(bides_numbered p i).failForward _ _, by rintro _ ⟨⟩,
          .going (h.forwarding hstep hstage _ _ _)⟩
    | _ =>
      rw [hdelegate] at hhost
      cases hhost
  · have hstart : Forwarding.start p x step proxy =
        { plane := p
          next := .returned x step (.error (.invalidAddress
            (step.address.text ++ " is not below proxy " ++ proxy.node.text))) } := by
      rw [Forwarding.start]
      dsimp only
      rw [if_pos (not_le.mp hlength)]
    rw [hstart]
    exact ⟨.refl p, by rintro _ ⟨⟩, .returned (h.afterStep step _)⟩

omit hp₀ hp in
theorem Confined.conclude (step : Step) (f : Nat) (o : Outcome) :
    (Forwarding.conclude x step f o).Confined V H := by
  cases o with
  | failed response => exact .returned (h.afterStep step _)
  | prepared handle response =>
    obtain ⟨htransaction, hcompleted⟩ := completed_accept x.context f handle response
    obtain ⟨hstage, hqueues⟩ := Forwarding.queues_accept x.context f handle response
    have haccepted : Confined V H
        { x with context := Forwarding.accept x.context f handle response } := by
      refine ⟨h.submitted, htransaction ▸ h.unstaged, fun c hc => ?_, ?_, h.unlocked,
        fun step w hphase => ?_⟩
      · rcases List.mem_cons.mp (hcompleted hc) with rfl | hc
        · exact ⟨handle, rfl⟩
        · exact h.decisions c hc
      · rw [hqueues]
        exact h.queued
      · rw [hstage]
        exact h.handled step w hphase
    exact .returned (haccepted.afterStep step _)

omit hp₀ hp in
/-- **A step that was handed on** comes closer to its participant, concludes, or stops. -/
theorem Confined.follow {f due : Nat} {way : Delivery}
    (hphase : x.phase = .handling step (.forwarding f due way)) :
    (Forwarding.advance p x step f due way).Confined p₀ V H p := by
  obtain ⟨hstep, hstage, -⟩ := h.handled step _ hphase
  have hadvances := Forwarding.advances p x step f due way
  generalize Forwarding.advance p x step f due way = t at hadvances ⊢
  cases hadvances with
  | goes happroaches =>
    obtain ⟨hplane, hspawned⟩ := bides_approaches happroaches
    exact ⟨hplane, hspawned, .going (h.forwarding hstep hstage _ _ _)⟩
  | concludes => exact ⟨.refl p, by rintro _ ⟨⟩, h.conclude step f _⟩
  | waits => exact ⟨.refl p, by rintro _ ⟨⟩, .blocked h⟩
  | stops => exact ⟨bides_abandon p f way, by rintro _ ⟨⟩, .returned (h.afterStep step _)⟩

/-- A step hands on or validates, and a validation may hand on as well. -/
theorem Confined.work {w : Work} (hphase : x.phase = .handling step w) :
    (x.advance p).Confined p₀ V H p := by
  obtain ⟨hstep, hstage, rfl | ⟨f, due, way, rfl⟩⟩ := h.handled step w hphase
  · rcases hp₀.works hstep with ⟨proxy, hhandler⟩ | ⟨hhandler, hvalidates⟩
    · rw [advance_forward hphase hhandler]
      exact h.start hp₀ hp hstep hstage hhandler
    · rw [← hp.registration] at hvalidates
      rcases hvalidates x.context hstage with ⟨out, hrun⟩ | ⟨s, hs, hrun⟩
      · rw [advance_validate hphase hhandler hrun]
        exact ⟨.refl p, by rintro _ ⟨⟩, .returned (h.afterStep step out)⟩
      · rw [advance_validate hphase hhandler hrun]
        obtain ⟨l, hqueues, hl⟩ := h.queued
        refine ⟨.refl p, by rintro _ ⟨⟩, .returned (Confined.afterStep ?_ step _)⟩
        exact { h with queued := ⟨s :: l, by rw [hqueues], List.forall_mem_cons.mpr ⟨hs, hl⟩⟩ }
  · have hadvance : x.advance p = Forwarding.advance p x step f due way := by
      rw [advance, hphase]
      rfl
    rw [hadvance]
    exact h.follow hphase

/-! ## The end -/

omit hp₀ hp in
/-- Nothing was staged, so that nothing is published. -/
theorem Confined.decide (handle : Nat) (due : Option Nat) :
    (decide p x handle due).Confined p₀ V H p := by
  have hleft : p.Bides V (p.modifyHandle handle Prepared.leave) :=
    Plane.Fair.bides_of_actors (.of_same rfl rfl rfl) rfl
  have hfinished : ∀ ending, Turn.Confined p₀ V H p
      { plane := (p.modifyHandle handle Prepared.leave).setTree x.controller
          (x.context.transaction.finish ((p.modifyHandle handle Prepared.leave).tree
            x.controller)).1
        next := .going
          { x.withTransaction (x.context.transaction.finish
              ((p.modifyHandle handle Prepared.leave).tree x.controller)).2 with
            phase := .unwinding ending } } := fun ending =>
    ⟨hleft.trans (Plane.Steady.bides (Plane.steady_setTree _ _ (Transaction.keeps_finish _ _)) rfl),
      by rintro _ ⟨⟩, .going (h.between rfl rfl (Transaction.staging_finish _ _)
        (List.Subset.refl _) rfl (by rintro _ ⟨⟩) (by rintro _ _ ⟨⟩))⟩
  have happly : ∀ d, (apply p x handle d).Confined p₀ V H p := by
    intro d
    rw [apply.eq_def]
    dsimp only
    cases d with
    | keep =>
      dsimp only
      rw [Transaction.commit, h.unstaged]
      exact hfinished .kept
    | rollback => exact hfinished _
  rw [Execution.decide.eq_def]
  split
  · exact happly _
  · split
    · split
      · exact happly _
      · exact ⟨.refl p, by rintro _ ⟨⟩, .blocked h⟩
    · exact ⟨.refl p, by rintro _ ⟨⟩, .blocked h⟩

omit hp₀ hp in
/-- The participants are told. -/
theorem Confined.unwind {ending : Ending} (hphase : x.phase = .unwinding ending) :
    (unwind p x ending).Confined p₀ V H p := by
  have hdraining : ∀ {q : Plane} {t : Transaction}, p.Bides V q → t.staging = none →
      Turn.Confined p₀ V H p
        { plane := q
          next := .going { x.withTransaction t with phase := .draining none ending } } :=
    fun hq ht =>
    ⟨hq, by rintro _ ⟨⟩, .going (h.between rfl rfl ht (List.Subset.refl _) rfl (by rintro _ ⟨⟩)
      (by rintro _ _ ⟨⟩))⟩
  have hrollback : ∀ {q : Plane}, p.Bides V q → p.Bides V (q.setTree x.controller
      (x.context.transaction.rollback (q.tree x.controller)).1) := fun hq =>
    hq.trans (Plane.Steady.bides (Plane.steady_setTree _ _ (Transaction.keeps_finish _ _)) rfl)
  rw [Execution.unwind]
  split
  · cases ending with
    | kept => exact hdraining (.refl p) h.unstaged
    | rolledBack failure => exact hdraining (.refl p) h.unstaged
    | failed => exact hdraining (hrollback (.refl p)) (Transaction.staging_finish _ _)
    | fatal reason =>
      have hprocess : p.Bides V (p.changeProcess x.controller .reload) :=
        Plane.Steady.bides (Plane.steady_of_controllers rfl (List.length_modify _ _ _)) rfl
      exact hdraining (hrollback hprocess) (Transaction.staging_finish _ _)
  · next c rest hcompleted =>
    obtain ⟨handle, rfl⟩ := h.decisions c (hcompleted ▸ List.mem_cons_self)
    refine ⟨Plane.Fair.bides_of_actors (.of_same rfl rfl rfl) rfl, by rintro _ ⟨⟩,
      .going (h.between rfl rfl h.unstaged ?_ rfl h.unlocked ?_)⟩
    · rw [hcompleted]
      exact List.subset_cons_self _ _
    · show ∀ step w, x.phase ≠ .handling step w
      rw [hphase]
      rintro _ _ ⟨⟩

omit hp₀ hp in
theorem Confined.drain (due : Option Nat) (ending : Ending) :
    (drain p x due ending).Confined p₀ V H p := by
  have hgoing : ∀ (completions : List Nat) (phase : Phase), (∀ due, phase ≠ .locking due) →
      (∀ step w, phase ≠ .handling step w) → Turn.Confined p₀ V H p
        { plane := p
          next := .going { x with context := { x.context with completions }, phase } } :=
    fun _ _ hlocking hhandling => ⟨.refl p, by rintro _ ⟨⟩, .going (h.between rfl rfl h.unstaged
      (List.Subset.refl _) rfl hlocking hhandling)⟩
  rw [Execution.drain]
  dsimp only
  split
  · exact hgoing x.context.completions _ (by rintro _ ⟨⟩) (by rintro _ _ ⟨⟩)
  · split
    · exact hgoing _ _ (by rintro _ ⟨⟩) (by rintro _ _ ⟨⟩)
    · split
      · exact hgoing x.context.completions _ (by rintro _ ⟨⟩) (by rintro _ _ ⟨⟩)
      · split
        · exact hgoing _ _ (by rintro _ ⟨⟩) (by rintro _ _ ⟨⟩)
        · exact ⟨.refl p, by rintro _ ⟨⟩, .blocked h⟩

/-- **Every turn keeps to it.** -/
theorem Confined.turn : (x.advance p).Confined p₀ V H p := by
  cases hphase : x.phase with
  | handling step w => exact h.work hp₀ hp hphase
  | locking due => exact absurd hphase (h.unlocked due)
  | opening =>
    rw [advance, hphase]
    exact h.begin hp₀ hp
  | stepping =>
    rw [advance, hphase]
    exact h.pick hphase
  | deciding handle due =>
    rw [advance, hphase]
    exact h.decide handle due
  | unwinding ending =>
    rw [advance, hphase]
    exact h.unwind hphase
  | draining due ending =>
    rw [advance, hphase]
    exact h.drain due ending
  | ended answer =>
    rw [advance, hphase]
    exact ⟨.refl p, by rintro _ ⟨⟩, .blocked h⟩

end

end Execution

/-! ## All together -/

/-- A move that leaves it at that. -/
structure Move.Confined (p₀ : Plane) (V : Nat → Value → Prop) (H : Nat → Step → Prop) (p : Plane)
    (m : Move) : Prop where
  plane : p.Bides V m.plane
  spawned : ∀ s ∈ m.spawned, s.Confined p₀ V H
  remains : ∀ s ∈ m.progress.remains, s.Confined p₀ V H

namespace Task

variable {V : Nat → Value → Prop} {H : Nat → Step → Prop} {p₀ p : Plane}

theorem confined_follow (p : Plane) (a e f : Nat) (sink : Sink) (state : Follow) :
    (advanceFollow p a e f sink state).Confined p₀ V H p := by
  have hgoes : ∀ {q : Plane} (state : Follow), p.Bides V q → Move.Confined p₀ V H p
      { plane := q, progress := .going (.follow a e f sink state) } := fun state hq =>
    ⟨hq, by rintro _ ⟨⟩, List.forall_mem_singleton.mpr (.follow a e f sink state)⟩
  have hstays : Move.Confined p₀ V H p
      { plane := p, progress := .blocked (.follow a e f sink state) } :=
    ⟨.refl p, by rintro _ ⟨⟩, List.forall_mem_singleton.mpr (.follow a e f sink state)⟩
  have hseen : ∀ g : Exchange → Exchange, p.Bides V (p.modifyExchange e g) :=
    fun g => Plane.Fair.bides_of_actors (.of_same rfl rfl rfl) rfl
  have hfinishes : ∀ {q : Plane} (response : Value), p.Bides V q → Move.Confined p₀ V H p
      { plane := ((q.completeForward f response).modifyExchange e Exchange.leave).modifyActor a
          fun k => { k with clients := k.clients - 1 }
        progress := .finished } := by
    intro q response hq
    have hcompleted : q.Bides V ((q.completeForward f response).modifyExchange e Exchange.leave) :=
      Plane.Fair.bides_of_actors (.of_same rfl rfl rfl) rfl
    exact ⟨(hq.trans hcompleted).trans
      (Plane.bides_modifyActor _ a (.of_subset rfl (List.Subset.refl _))), by rintro _ ⟨⟩,
      by rintro _ ⟨⟩⟩
  rw [advanceFollow.eq_def]
  dsimp only
  cases state with
  | deciding handle =>
    dsimp only
    split
    · exact hstays
    · next d _ =>
      split
      · have hreply : p.Bides V (p.modifyHandle handle Prepared.leave).newReply.2 :=
          Plane.Fair.bides_of_actors (.of_same rfl rfl rfl) rfl
        exact hgoes _ (hreply.trans (Plane.bides_send _ a (by rintro _ _ _ _ ⟨⟩)))
      · exact hgoes _ (Plane.Fair.bides_of_actors (.of_same rfl rfl rfl) rfl)
  | sending ticket r =>
    dsimp only
    split
    · exact hgoes _ (.refl p)
    · split
      · exact hgoes _ (.refl p)
      · exact hstays
  | replying r =>
    dsimp only
    split
    · exact hstays
    · exact hgoes _ (.refl p)
  | finishing =>
    dsimp only
    split
    · exact hgoes _ ((hseen _).report _ _)
    · exact hgoes _ (hseen _)
    · exact hfinishes _ (hseen _)
    · exact hfinishes _ (hseen _)
    · exact hstays

/-- **An actor** starts nothing but what it has been asked for. -/
theorem confined_serve (hp : p₀.Bides V p) {a : Nat} (hinbox : (p₀.actor a).inbox = []) :
    (advanceServe p a).Confined p₀ V H p := by
  have hserves : Task.Confined p₀ V H (.serve a) := .serve hinbox
  obtain ⟨hpoll, hstarts⟩ := (p.actor a).bides_poll (V := V)
  have hpolled : p.Bides V (p.modifyActor a fun _ => (p.actor a).poll.2) :=
    Plane.bides_modifyActor p a hpoll
  have hquiet : ∀ {q : Plane}, p.Bides V q → Move.Confined p₀ V H p
      { plane := q, progress := .going (.serve a) } := fun hq =>
    ⟨hq, by rintro _ ⟨⟩, List.forall_mem_singleton.mpr hserves⟩
  rw [advanceServe]
  split
  · exact ⟨.refl p, by rintro _ ⟨⟩, by rintro _ ⟨⟩⟩
  · dsimp only
    split
    · exact hquiet hpolled
    · next number e operation input hturn =>
      have hmay : V (p.actor a).poll.2.controller operation := by
        rw [hpoll.controller, (hp.actor a).controller]
        refine ((hp.actor a).asked number e operation input
          (hstarts number e operation input hturn)).resolve_left ?_
        rw [hinbox]
        rintro ⟨⟩
      exact ⟨hpolled, List.forall_mem_singleton.mpr (.operation (.new hmay _ _ _)),
        List.forall_mem_singleton.mpr hserves⟩
    · exact hquiet (hpolled.trans (Plane.Fair.bides_of_actors (.of_same rfl rfl rfl) rfl))
    · exact hquiet (hpolled.trans (Plane.Fair.bides_of_actors (.of_same rfl rfl rfl) rfl))
    · refine ⟨hpolled.trans (Plane.bides_foldl (fun q handle => ?_) _ _), by rintro _ ⟨⟩,
        by rintro _ ⟨⟩⟩
      exact Plane.Fair.bides_of_actors (.of_same rfl rfl rfl) rfl
    · exact ⟨hpolled, by rintro _ ⟨⟩, List.forall_mem_singleton.mpr hserves⟩

theorem Confined.advance {t : Task} (hp₀ : p₀.Confines V H) (hp : p₀.Bides V p)
    (h : t.Confined p₀ V H) : (t.advance p).Confined p₀ V H p := by
  cases h with
  | @operation x o hx =>
    by_cases hended : ∃ answer, x.phase = .ended answer
    · obtain ⟨answer, hphase⟩ := hended
      rw [advance_ended hphase]
      exact ⟨(o.fair_tell p answer).bides_of_actors (by cases o <;> rfl), by rintro _ ⟨⟩,
        by rintro _ ⟨⟩⟩
    · obtain ⟨hplane, hspawned, hnext⟩ := hx.turn hp₀ hp
      rw [Task.advance, advanceStack.eq_def]
      dsimp only
      split
      · next answer hphase => exact absurd ⟨answer, hphase⟩ hended
      · generalize (x.advance p).next = next at hnext ⊢
        cases hnext with
        | going hy => exact ⟨hplane, hspawned, List.forall_mem_singleton.mpr (.operation hy)⟩
        | blocked hy => exact ⟨hplane, hspawned, List.forall_mem_singleton.mpr (.operation hy)⟩
        | returned hy => exact ⟨hplane, hspawned, List.forall_mem_singleton.mpr (.operation hy)⟩
  | relay l f =>
    rw [Task.advance]
    dsimp only
    split
    · exact ⟨Plane.Fair.bides_of_actors (.of_same rfl rfl rfl) rfl, by rintro _ ⟨⟩,
        by rintro _ ⟨⟩⟩
    · exact ⟨Plane.Fair.bides_of_actors (.of_same rfl rfl rfl) rfl, by rintro _ ⟨⟩,
        by rintro _ ⟨⟩⟩
    · exact ⟨.refl p, by rintro _ ⟨⟩, List.forall_mem_singleton.mpr (.relay l f)⟩
  | follow a e f sink state => exact confined_follow p a e f sink state
  | serve hinbox => exact confined_serve hp hinbox

end Task

/-- Nothing has been published, and only such operations run. -/
structure Machine.Confined (p₀ : Plane) (V : Nat → Value → Prop) (H : Nat → Step → Prop)
    (m : Machine) : Prop where
  plane : p₀.Bides V m.plane
  tasks : ∀ t ∈ m.tasks, t.Confined p₀ V H

namespace Machine

variable {V : Nat → Value → Prop} {H : Nat → Step → Prop} {p₀ : Plane} {m m' : Machine}

theorem Confined.wake (h : m.Confined p₀ V H) : m.wake.Confined p₀ V H :=
  ⟨h.plane, fun t ht => h.tasks t ((World.perm_wake m).symm.subset ht)⟩

theorem Confined.elapse (h : m.Confined p₀ V H) (time : Nat) :
    (m.elapse time).Confined p₀ V H := by
  have hclock : m.plane.Bides V { m.plane with now := max m.plane.now time } :=
    Plane.Fair.bides_of_actors (.of_same rfl rfl rfl) rfl
  exact Confined.wake ⟨h.plane.trans hclock, h.tasks⟩

theorem Confined.step (hp₀ : p₀.Confines V H) (h : m.Confined p₀ V H)
    (hstep : m.step? = some m') : m'.Confined p₀ V H := by
  obtain ⟨p, ready, blocked⟩ := m
  cases ready with
  | nil => cases hstep
  | cons t rest =>
    obtain ⟨ht, hrest⟩ := List.forall_mem_cons.mp h.tasks
    obtain ⟨hplane, hspawned, hremains⟩ := ht.advance hp₀ h.plane
    rw [step?.eq_def] at hstep
    dsimp only at hstep
    generalize t.advance p = move at hstep hplane hspawned hremains
    obtain ⟨q, spawned, progress⟩ := move
    have hq : p₀.Bides V q := h.plane.trans hplane
    -- tasks that are woken are among those that were there
    have hjoins : ∀ ready, (∀ s ∈ ready ++ blocked, s.Confined p₀ V H) →
        ∀ others, (∀ s ∈ others, s.Confined p₀ V H) → Machine.Confined p₀ V H
          { (⟨q, ready, blocked⟩ : Machine).wake with
            ready := (⟨q, ready, blocked⟩ : Machine).wake.ready ++ spawned
            blocked := (⟨q, ready, blocked⟩ : Machine).wake.blocked ++ others } := by
      intro ready hready others hothers
      have hwoken : (⟨q, ready, blocked⟩ : Machine).wake.Confined p₀ V H :=
        Confined.wake ⟨hq, hready⟩
      obtain ⟨hawake, hasleep⟩ := List.forall_mem_append.mp hwoken.tasks
      exact ⟨hq, List.forall_mem_append.mpr ⟨List.forall_mem_append.mpr ⟨hawake, hspawned⟩,
        List.forall_mem_append.mpr ⟨hasleep, hothers⟩⟩⟩
    cases progress with
    | going s =>
      obtain rfl := Option.some.inj hstep
      have hjoined := hjoins (s :: rest)
        (List.forall_mem_cons.mpr ⟨hremains s List.mem_cons_self, hrest⟩) [] (by rintro _ ⟨⟩)
      rwa [List.append_nil] at hjoined
    | blocked s =>
      obtain rfl := Option.some.inj hstep
      exact hjoins rest hrest [s] hremains
    | finished =>
      obtain rfl := Option.some.inj hstep
      have hjoined := hjoins rest hrest [] (by rintro _ ⟨⟩)
      rwa [List.append_nil] at hjoined

/-- **Whatever the machine runs**, nothing is published and only such operations begin. -/
theorem Confined.run (hp₀ : p₀.Confines V H) (done : Plane → Bool) (limit : Option Nat) (fuel : Nat)
    (h : m.Confined p₀ V H) : (m.run done limit fuel).Confined p₀ V H := by
  induction fuel generalizing m with
  | zero => exact h
  | succ fuel ih =>
    rw [Machine.run.eq_def]
    dsimp only
    split
    · next m' hstep => exact ih (h.step hp₀ hstep)
    · split
      · exact h
      · split
        · split
          · exact h.elapse _
          · exact ih (h.elapse _)
        · exact ih (h.elapse _)
        · exact h.elapse _
        · exact h

end Machine

end ManagementPlane
