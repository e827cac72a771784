import ManagementPlane.Proofs.Proxied.Offers

/-!
# Proofs/Proxied/Linked — steps that are forwarded within the process

Such a step starts its participant on a new link, and waits there (`Moment.Links`,
`Execution.spawned_turn`).  As long as nothing is offered it waits on, or else it is over without a
participant, for good (`Execution.linked_turn`, `Plane.Shut`).  So when an operation prepares, the
participants of all these steps have prepared before it (`Execution.Story.prepared`).
-/

namespace ManagementPlane

open Plane

/-! ## Who is forwarded to -/

namespace Forwarding

variable {p : Plane} {x : Execution} {step : Step}

/-- A participant in the same process is started on a new link. -/
theorem dispatch_cases (p : Plane) (x : Execution) (proxy : Proxy) (operation : Value) (f : Nat) :
    (∀ s ∈ (dispatch p x proxy operation f).2.1, s.stack = []) ∧
        (∀ l, (dispatch p x proxy operation f).1 ≠ .ok (.linked l)) ∨
      ∃ d, dispatch p x proxy operation f = (.ok (.linked p.links.length),
        [.operation [Execution.new d operation (.relay p.links.length) x.context.input
          x.context.sink] (.link p.links.length)], p.newLink.2) := by
  rw [dispatch]
  split
  · exact .inr ⟨_, rfl⟩
  · dsimp only
    split <;> exact .inl ⟨by rintro s ⟨⟩, by rintro l ⟨⟩⟩
  · next m _ =>
    have hspawned : ∀ spawned, (mock p m f operation).1 = some spawned →
        ∀ s ∈ spawned, s.stack = [] := by
      rw [mock]
      dsimp only
      split
      · rintro spawned ⟨⟩
      · rintro spawned ⟨⟩ s (_ | ⟨_, ⟨⟩⟩)
        rfl
      · rintro spawned ⟨⟩ s ⟨⟩
      · rintro spawned ⟨⟩ s ⟨⟩
    split
    · next h => exact .inl ⟨hspawned _ (by rw [h]), by rintro l ⟨⟩⟩
    · exact .inl ⟨by rintro s ⟨⟩, by rintro l ⟨⟩⟩
  · next name conduct _ =>
    refine .inl ⟨?_, by rintro l ⟨⟩⟩
    cases conduct <;> simp [unruly, Task.stack]

theorem stack_advance (f due : Nat) (d : Delivery) :
    ∀ s ∈ (advance p x step f due d).spawned, s.stack = [] := by
  have hadvances := advances p x step f due d
  generalize advance p x step f due d = t at hadvances ⊢
  cases hadvances with
  | goes h => cases h <;> simp [Task.stack]
  | _ => rintro s ⟨⟩

end Forwarding

namespace Moment

variable {m : Moment} {f g k l : Nat}

/-- A step begins on this turn, and its participant is one in the same process. -/
def Links (m : Moment) (f l : Nat) : Prop :=
  (∃ step, m.execution.phase = .handling step .begin) ∧
    ∃ y, m.turn.next.after? = some y ∧ y.awaits? = some (f, .linked l)

theorem Links.unique (h : m.Links f l) (h' : m.Links g k) : f = g ∧ l = k := by
  obtain ⟨-, y, hy, hf⟩ := h
  obtain ⟨-, z, hz, hg⟩ := h'
  obtain rfl := Option.some.inj (hy.symm.trans hz)
  cases hf.symm.trans hg
  exact ⟨rfl, rfl⟩

end Moment

namespace Execution

variable {p : Plane} {x : Execution}

theorem spawned_start {step : Step} {proxy : Proxy} (hphase : x.phase = .handling step .begin)
    (hadvance : x.advance p = Forwarding.start p x step proxy) :
    (∀ s ∈ (x.advance p).spawned, s.stack = []) ∧ (∀ f l, ¬ (Moment.mk p x).Links f l) ∨
      ∃ d operation, (x.advance p).spawned = [.operation [Execution.new d operation
          (.relay p.links.length) x.context.input x.context.sink] (.link p.links.length)] ∧
        (Moment.mk p x).Links p.forwards.length p.links.length ∧
        p.forwards.length < (x.advance p).plane.forwards.length ∧
        p.links.length < (x.advance p).plane.links.length := by
  -- whoever is not in the process gets no link
  have hother : ∀ {next : Next} {spawned : List Task}, (x.advance p).next = next →
      (x.advance p).spawned = spawned → (∀ s ∈ spawned, s.stack = []) →
      (∀ y l, next.after? = some y → ∀ f, y.awaits? ≠ some (f, .linked l)) →
      (∀ s ∈ (x.advance p).spawned, s.stack = []) ∧ (∀ f l, ¬ (Moment.mk p x).Links f l) := by
    rintro next spawned hnext hspawned hstack hnot
    refine ⟨hspawned ▸ hstack, ?_⟩
    rintro f l ⟨-, y, hy, hf⟩
    rw [Moment.turn, hnext] at hy
    exact hnot y l hy f hf
  have hfails : ∀ e, x.advance p = { plane := p, next := .returned x step (.error e) } →
      (∀ s ∈ (x.advance p).spawned, s.stack = []) ∧ (∀ f l, ¬ (Moment.mk p x).Links f l) := by
    intro e hadvance
    refine hother (congrArg Turn.next hadvance) (congrArg Turn.spawned hadvance)
      (by rintro s ⟨⟩) fun y l hy f hf => ?_
    obtain rfl := Option.some.inj hy
    cases (congrArg Stance.awaits (stance_afterStep x step _)).symm.trans hf
  rw [Forwarding.start] at hadvance
  dsimp only at hadvance
  split at hadvance
  · exact .inl (hfails _ hadvance)
  split at hadvance
  · exact .inl (hfails _ hadvance)
  · have hcases := Forwarding.dispatch_cases p.newForward.2 x proxy
      (step.operation.set Key.address (Address.toValue (step.address.drop proxy.node.length)))
      p.newForward.1
    generalize Forwarding.dispatch p.newForward.2 x proxy _ p.newForward.1 = out at hcases hadvance
    obtain ⟨out, spawned, q⟩ := out
    rcases hcases with ⟨hstack, hnot⟩ | ⟨d, hd⟩
    · cases out with
      | ok delivery =>
        refine .inl (hother (congrArg Turn.next hadvance) (congrArg Turn.spawned hadvance) hstack
          fun y l hy f hf => hnot l ?_)
        obtain rfl := Option.some.inj hy
        cases hf
        rfl
      | error reason =>
        exact .inl (hother (congrArg Turn.next hadvance) (congrArg Turn.spawned hadvance) hstack
          (by rintro y l ⟨⟩))
    · cases hd
      have hafter : (Moment.mk p x).turn.next.after? = some { x with
          phase := .handling step (.forwarding p.forwards.length
            (p.newForward.2.now + (p.newForward.2.settings x.controller).blocking)
            (.linked p.links.length)) } := by
        rw [Moment.turn, hadvance]
        rfl
      refine .inr ⟨d, _, congrArg Turn.spawned hadvance, ⟨⟨step, hphase⟩, _, hafter, rfl⟩, ?_⟩
      rw [hadvance]
      show _ < (p.forwards ++ [_]).length ∧ _ < (p.links ++ [_]).length
      rw [List.length_append, List.length_append]
      exact ⟨Nat.lt_succ_self _, Nat.lt_succ_self _⟩

/-- **What a turn starts**: nobody in the process, unless a step is forwarded over a new link on
this turn; then its participant is started on that link, with the input of the operation. -/
theorem spawned_turn (p : Plane) (x : Execution) :
    (∀ s ∈ (x.advance p).spawned, s.stack = []) ∧ (∀ f l, ¬ (Moment.mk p x).Links f l) ∨
      ∃ d operation, (x.advance p).spawned = [.operation [Execution.new d operation
          (.relay p.links.length) x.context.input x.context.sink] (.link p.links.length)] ∧
        (Moment.mk p x).Links p.forwards.length p.links.length ∧
        p.forwards.length < (x.advance p).plane.forwards.length ∧
        p.links.length < (x.advance p).plane.links.length := by
  by_cases hbegin : ∃ step, x.phase = .handling step .begin
  · obtain ⟨step, hphase⟩ := hbegin
    have hadvance : x.advance p = work p x step .begin := by rw [advance, hphase]
    have hlocal : ∀ {next : Next}, (x.advance p).spawned = [] → (x.advance p).next = next →
        (∀ y, next.after? = some y → y.awaits? = none) →
        (∀ s ∈ (x.advance p).spawned, s.stack = []) ∧ (∀ f l, ¬ (Moment.mk p x).Links f l) := by
      intro next hspawned hnext hnone
      refine ⟨by rw [hspawned]; rintro s ⟨⟩, ?_⟩
      rintro f l ⟨-, y, hy, hf⟩
      rw [Moment.turn, hnext] at hy
      cases (hnone y hy).symm.trans hf
    rw [work] at hadvance
    split at hadvance
    · refine .inl (hlocal (by rw [hadvance]) (congrArg Turn.next hadvance) ?_)
      rintro y ⟨⟩
      rfl
    · next proxy _ => exact spawned_start hphase hadvance
    · split at hadvance
      all_goals
        refine .inl (hlocal (congrArg Turn.spawned hadvance) (congrArg Turn.next hadvance) ?_)
        rintro y hy
        obtain rfl := Option.some.inj hy
        exact congrArg Stance.awaits (stance_afterStep _ step _)
  · have hnot : ∀ step, x.phase ≠ .handling step .begin := fun step h => hbegin ⟨step, h⟩
    refine .inl ⟨?_, fun f l h => h.1.elim hnot⟩
    by_cases hhandling : ∃ step w, x.phase = .handling step w
    · obtain ⟨step, w, hphase⟩ := hhandling
      have hadvance : x.advance p = work p x step w := by rw [advance, hphase]
      rw [hadvance]
      cases hw : w.isFresh with
      | false =>
        rw [((keeping_work p x step w).retains hw).2]
        rintro s ⟨⟩
      | true =>
        cases w with
        | begin => exact absurd hphase (hnot step)
        | forwarding f due d => exact Forwarding.stack_advance f due d
        | _ => cases hw
    · rw [(idle_advance p fun step w hphase => hhandling ⟨step, w, hphase⟩).1]
      rintro s ⟨⟩

end Execution

/-! ## Steps without a participant -/

namespace Plane

variable {p q : Plane} {f : Nat}

/-- The step has no participant that prepared, and will get none. -/
structure Shut (p : Plane) (f : Nat) : Prop where
  deaf : ¬ p.Listens f
  empty : ∀ h, ¬ p.Accepts f h

theorem Persists.shut (h : Persists p q) (hf : f < p.forwards.length) (hs : p.Shut f) :
    q.Shut f where
  deaf hl := hs.deaf (h.closed hl hf)
  empty i ha := (h.accepted ha hf).elim (hs.empty i) hs.deaf

theorem shut_failForward (hf : f < p.forwards.length) (hnone : ∀ h, ¬ p.Accepts f h)
    (response : Value) : (p.failForward f response).Shut f := by
  have hn : Notes f (.failed response) p (p.reportOutcome f (.failed response)) :=
    notes_reportOutcome hf (by rintro h ⟨⟩)
  have heases := (Eases.refl (p.reportOutcome f (.failed response))).modifyForward f
    Forward.eases_release
  constructor
  · rintro ⟨-, hlistens⟩
    have hsilent := (heases.forward f).reports.symm.trans hlistens.silent
    rw [hn.reports] at hsilent
    simp at hsilent
  · rintro h ⟨r, hr⟩
    have houtcome := (heases.forward f).outcome.symm.trans hr
    rcases hn.heard with ⟨-, hfailed, -⟩ | ⟨hsame, -⟩
    · cases hfailed.symm.trans houtcome
    · exact hnone h ⟨r, hsame.symm.trans houtcome⟩

end Plane

namespace Execution

variable {p : Plane} {x y : Execution} {turns : List Moment} {m : Moment} {f l : Nat}

theorem shut_abandon (d : Delivery) (hnone : ∀ h, ¬ p.Accepts f h) :
    (Forwarding.abandon p f d).Shut f where
  deaf := Forwarding.not_listens_abandon p f d
  empty h := by
    rintro ⟨r, hr⟩
    exact hnone h ⟨r, (Forwarding.outcome_abandon p f d f).symm.trans hr⟩

/-- **A step that waits at a link where nothing is offered** waits on, or is over without a
participant. -/
theorem linked_turn (hx : x.awaits? = some (f, .linked l)) (hoffer : (p.link l).offer = none)
    (hf : f < p.forwards.length) (hnone : ∀ h, ¬ p.Accepts f h)
    (hy : (x.advance p).next.after? = some y) :
    y.awaits? = some (f, .linked l) ∨ (x.advance p).plane.Shut f := by
  obtain ⟨step, due, hadvances⟩ := advances_of_awaits p hx
  generalize x.advance p = t at hadvances hy ⊢
  cases hadvances with
  | goes h =>
    right
    cases h with
    | takes hsome => cases hoffer.symm.trans hsome
    | ends | breaks => exact shut_failForward hf hnone _
  | concludes hd => cases hd
  | waits =>
    obtain rfl := Option.some.inj hy
    exact .inl hx
  | stops => exact .inr (shut_abandon (.linked l) hnone)

/-! ## Operations that have prepared -/

/-- An operation is through with its pipeline after it prepared. -/
theorem isRunning_turn (hrunning : x.phase.isRunning = false)
    (hy : (x.advance p).next.after? = some y) : y.phase.isRunning = false := by
  have hgoes := goes_advance hy
  generalize (x.advance p).plane = q at hgoes
  cases hgoes with
  | rejects => rfl
  | opens hphase | locks hphase | picks hphase | works hphase | passes hphase =>
    rw [hphase] at hrunning
    cases hrunning
  | tells => exact hrunning
  | drains _ hnext =>
    rcases hnext with ⟨due, rfl⟩ | ⟨answer, rfl⟩ <;> rfl
  | blocks => exact hrunning
  | _ => rfl

/-- And no completion is registered any more. -/
theorem completed_turn (hlived : Lived turns x) (hrunning : x.phase.isRunning = false)
    (hy : (x.advance p).next.after? = some y) :
    y.context.completed ⊆ x.context.completed := by
  have hgoes := goes_advance hy
  generalize (x.advance p).plane = q at hgoes
  cases hgoes with
  | @tells e c rest hphase hcompleted =>
    rw [Lived, hphase] at hlived
    have hidle := c.run_idle e.decision ⟨p, x.controller, { x.context with completed := rest }⟩
      hlived.2.1
    dsimp only
    rw [hidle.2, hcompleted]
    exact List.subset_cons_self c rest
  | opens hphase | locks hphase | picks hphase | interrupts hphase | passes hphase
  | works hphase =>
    rw [hphase] at hrunning
    cases hrunning
  | _ => exact List.Subset.refl _

theorem isRunning_resume (p : Plane) (x : Execution) (answer : Answer) :
    (x.resume p answer).2.phase.isRunning = x.phase.isRunning := by
  rw [resume.eq_def]
  split
  · next hphase => rw [hphase]; rfl
  · rfl

theorem Story.through (h : Story turns p x) (hm : m ∈ turns) (hprepares : m.Prepares) :
    x.phase.isRunning = false := by
  obtain ⟨p₀, c, operation, control, input, sink, hcourse⟩ := h
  induction hcourse with
  | start => cases hm
  | around _ _ ih => exact ih hm
  | turn _ _ hy ih =>
    rcases List.mem_cons.mp hm with rfl | hm
    · obtain ⟨-, z, handle, due, hz, hphase⟩ := hprepares
      obtain rfl := Option.some.inj (hy.symm.trans hz)
      rw [hphase]
      rfl
    · exact isRunning_turn (ih hm) hy
  | resume _ answer ih =>
    rw [isRunning_resume]
    exact ih hm

/-- Whoever waits for its decision waited for it before, or has just prepared. -/
theorem deciding_turn (hy : (x.advance p).next.after? = some y) {handle : Nat} {due : Option Nat}
    (hphase : y.phase = .deciding handle due) : x.phase = .deciding handle due ∨
      (Moment.mk p x).Prepares ∧ (Moment.mk p x).handle = handle := by
  by_cases hstepping : x.phase = .stepping
  · right
    have hprepares : (Moment.mk p x).Prepares := ⟨hstepping, y, handle, due, hy, hphase⟩
    refine ⟨hprepares, ?_⟩
    have hnext : (x.advance p).next.after? = (prepare p x).next.after? :=
      congrArg (fun t : Turn => t.next.after?) hprepares.turn
    obtain rfl := Option.some.inj (hy.symm.trans hnext)
    exact (Phase.deciding.inj hphase).1
  · left
    have hgoes := goes_advance hy
    generalize (x.advance p).plane = q at hgoes
    cases hgoes with
    | @works step w _ _ hwork =>
      have hcontinues := (keeping_work p x step w).continues
      generalize (work p x step w).next = next at hcontinues hwork
      cases hcontinues with
      | returns | concludes =>
        obtain rfl := Option.some.inj hwork
        rw [afterStep] at hphase
        split at hphase <;> cases hphase
      | goes _ hw' =>
        obtain rfl := Option.some.inj hwork
        cases hphase
      | blocks =>
        obtain rfl := Option.some.inj hwork
        exact hphase
      | crashes => cases hwork
      | _ =>
        obtain rfl := Option.some.inj hwork
        cases hphase
    | prepares hx | passes hx | picks hx => exact absurd hx hstepping
    | opens _ _ _ _ hnext => rcases hnext with rfl | ⟨due, rfl⟩ <;> cases hphase
    | drains _ hnext => rcases hnext with ⟨due, rfl⟩ | ⟨answer, rfl⟩ <;> cases hphase
    | tells hx => cases hx.symm.trans hphase
    | blocks => exact hphase
    | _ => cases hphase

/-- So it has prepared, with the handle that is decided. -/
theorem Story.deciding (h : Story turns p x) {handle : Nat} {due : Option Nat}
    (hphase : x.phase = .deciding handle due) :
    ∃ m ∈ turns, m.Prepares ∧ m.handle = handle := by
  obtain ⟨p₀, c, operation, control, input, sink, hcourse⟩ := h
  induction hcourse with
  | start => cases hphase
  | around _ _ ih => exact ih hphase
  | turn _ _ hy ih =>
    rcases deciding_turn hy hphase with hx | hprepares
    · obtain ⟨m, hm, hprepares⟩ := ih hx
      exact ⟨m, List.mem_cons_of_mem _ hm, hprepares⟩
    · exact ⟨_, List.mem_cons_self, hprepares⟩
  | resume _ answer ih =>
    rw [resume.eq_def] at hphase
    split at hphase
    · cases hphase
    · exact ih hphase

/-- **When no step goes wrong, every step over a link gets a prepared participant.** -/
theorem Story.linked (h : Story turns p x) (hsmooth : ∀ k ∈ turns, k.Smooth) (hm : m ∈ turns)
    (hlinks : m.Links f l) :
    (∃ d, x.awaits? = some (f, d)) ∨ ∃ k ∈ turns, ∃ i, k.Concludes f i := by
  obtain ⟨p₀, c, operation, control, input, sink, hcourse⟩ := h
  induction hcourse with
  | start => cases hm
  | around _ _ ih => exact ih hsmooth hm
  | @turn turns p x y hcourse hopen hy ih =>
    obtain ⟨hnow, hbefore⟩ := List.forall_mem_cons.mp hsmooth
    rcases List.mem_cons.mp hm with rfl | hm
    · obtain ⟨-, z, hz, hf⟩ := hlinks
      obtain rfl := Option.some.inj (hy.symm.trans hz)
      exact .inl ⟨_, hf⟩
    · rcases ih hbefore hm with ⟨d, hx⟩ | ⟨k, hk, hconcludes⟩
      · rcases forwarding_advance hx hnow hy with hawaits | hconcludes
        · exact .inl hawaits
        · exact .inr ⟨_, List.mem_cons_self, hconcludes⟩
      · exact .inr ⟨k, List.mem_cons_of_mem _ hk, hconcludes⟩
  | @resume turns p x hcourse answer ih =>
    have hawaits : (x.resume p answer).2.awaits? = x.awaits? :=
      congrArg Stance.awaits (stance_resume p x answer)
    rw [hawaits]
    exact ih hsmooth hm

/-- So when an operation prepares, all its steps over links have prepared participants. -/
theorem Story.prepared (h : Story turns m.plane m.execution) (hprepares : m.Prepares) {k : Moment}
    (hk : k ∈ turns) (hlinks : k.Links f l) : ∃ k ∈ turns, ∃ i, k.Concludes f i := by
  have hlived := h.lived
  rw [Lived, hprepares.1] at hlived
  rcases h.linked hlived.1.smooth hk hlinks with ⟨d, hawaits⟩ | hconcludes
  · obtain ⟨step, due, hphase⟩ := phase_of_awaits hawaits
    cases hprepares.1.symm.trans hphase
  · exact hconcludes

end Execution

end ManagementPlane
