import ManagementPlane.Proofs.Machine.Course

/-!
# Proofs/Machine/Lived — what an operation has come to, while its pipeline lasts

For each phase `Execution.Lived` says what the turns so far have come to; nothing about what else
goes on is needed for that.  Until the pipeline ends every step went well, nothing was committed,
nobody was told anything, and what was completed is registered (`Context.Ahead`).

Here it is carried through the phases of the pipeline, with one lemma for each of them.
-/

namespace ManagementPlane

/-! ## Phase by phase -/

/-- No response slot has failed, unless a turn made one fail. -/
def Context.Clear (past : List Moment) (x : Context) : Prop :=
  (∀ m ∈ past, ¬ m.FailsSlot) → x.Unfailed

/-- What the turns of an operation came to, while its pipeline lasts. -/
structure Context.Ahead (past : List Moment) (x : Context) : Prop where
  smooth : ∀ m ∈ past, m.Smooth
  uncommitted : ∀ m ∈ past, ¬ m.Commits
  untold : told past = []
  completed : x.completed = (registered past).reverse
  passed : ∀ stage < x.stage, x.queues.get stage = []
  clear : x.Clear past

theorem Context.Clear.cons {past : List Moment} {m : Moment} {x y : Context} (h : x.Clear past)
    (hy : ¬ m.FailsSlot → x.Unfailed → y.Unfailed) : y.Clear (m :: past) := fun hm =>
  hy (hm m List.mem_cons_self) (h fun k hk => hm k (List.mem_cons_of_mem _ hk))

/-- No step runs. -/
structure Context.Idle (x : Context) : Prop where
  active : x.active = none
  violation : x.violation = none

/-- A step runs. -/
structure Context.Busy (x : Context) (step : Step) (w : Work) : Prop where
  active : ∃ a ∈ x.active, a.address = step.address ∧ a.slot = step.slot ∧
    (w.isFresh = true → a.completed = false)
  violation : ∀ v ∈ x.violation, ∃ a ∈ x.active, a.completed = true ∧ v = Context.twice a

namespace Ending

/-- What the turns must have come to for the pipeline to end this way. -/
def Verdict (past : List Moment) : Ending → Prop
  | kept => (∀ m ∈ past, m.Smooth) ∧ ∃ m ∈ past, m.Commits
  | rolledBack _ => (∀ m ∈ past, m.Smooth) ∧ ∀ m ∈ past, ¬ m.Commits
  | failed => (∀ m ∈ past, ¬ m.Breach) ∧ ∀ m ∈ past, ¬ m.Commits
  | fatal _ => (∃ m ∈ past, m.Breach) ∧ ∀ m ∈ past, ¬ m.Commits

/-- What the caller is told of an ending. -/
def Answers (past : List Moment) (answer : Answer) : Ending → Prop
  | kept => ∃ response streams, answer = .ok (response, streams) ∧
    ((∀ m ∈ past, ¬ m.FailsSlot) → Response.isSuccess response = true)
  | fatal reason => answer = .error (.fatal reason)
  | _ => ∃ response streams, answer = .ok (response, streams) ∧ Response.isSuccess response = false

end Ending

namespace Execution

/-- What the turns of an operation came to, phase by phase. -/
def Lived (past : List Moment) (x : Execution) : Prop :=
  match x.phase with
  | .opening =>
    x.context.Ahead past ∧ x.context.Idle ∧ x.context.completed = [] ∧ x.context.stage = .model
  | .locking _ => x.context.Ahead past ∧ x.context.Idle ∧ x.context.completed = []
  | .stepping => x.context.Ahead past ∧ x.context.Idle
  | .handling step w => x.context.Ahead past ∧ x.context.Busy step w
  | .deciding _ _ =>
    x.context.Ahead past ∧ x.context.Idle ∧ ∀ stage, x.context.queues.get stage = []
  | .unwinding e => e.Verdict past ∧ x.context.active = none ∧
    (told past).map Prod.fst ++ x.context.completed = (registered past).reverse ∧
    (∀ t ∈ told past, t.2 = e.decision) ∧ (e = .kept → x.context.Clear past)
  | .draining _ e => e.Verdict past ∧
    told past = (registered past).reverse.map (·, e.decision) ∧
    (e = .kept → x.context.Clear past) ∧ x.context.completed = []
  | .ended answer => (∃ e : Ending, e.Verdict past ∧ e.Answers past answer ∧
    told past = (registered past).reverse.map (·, e.decision)) ∧ x.context.completed = []

variable {p : Plane} {past : List Moment} {x y : Execution}

/-- A turn on which the operation stays ahead: no step goes wrong on it, nobody is told anything,
and what it completes is registered. -/
theorem ahead_cons {m : Moment} (new : List Completion) (h : m.execution.context.Ahead past)
    (hquiet : m.Quiet) (hy : m.turn.next.after? = some y) (hsmooth : m.Smooth)
    (hnew : y.context.completed = new ++ m.execution.context.completed)
    (hpassed : ∀ stage < y.context.stage, y.context.queues.get stage = [])
    (hclear : ¬ m.FailsSlot → m.execution.context.Unfailed → y.context.Unfailed) :
    y.context.Ahead (m :: past) where
  smooth := List.forall_mem_cons.mpr ⟨hsmooth, h.smooth⟩
  uncommitted := List.forall_mem_cons.mpr ⟨hquiet.commits, h.uncommitted⟩
  untold := by rw [told, h.untold, hquiet.tells, List.append_nil]
  completed := by
    rw [registered, Moment.registers_eq hy hnew, hnew, h.completed, List.reverse_append,
      List.reverse_reverse]
  passed := hpassed
  clear := h.clear.cons hclear

/-- A turn on which no step ends and nothing is completed. -/
theorem ahead_going {m : Moment} (h : m.execution.context.Ahead past)
    (hquiet : m.Quiet) (hnext : m.turn.next = .going y)
    (hcompleted : y.context.completed = m.execution.context.completed)
    (hslots : y.context.slots = m.execution.context.slots)
    (hpassed : ∀ stage < y.context.stage, y.context.queues.get stage = []) :
    y.context.Ahead (m :: past) :=
  ahead_cons [] h hquiet (by rw [hnext]; rfl) (Moment.smooth_of_next hnext (by rintro _ _ _ ⟨⟩))
    hcompleted hpassed fun _ h s hs => h s (hslots ▸ hs)

/-- An operation that did nothing yet ends in a failure. -/
theorem lived_reject {q : Plane} {e : OperationError} (h : x.context.Ahead past)
    (hcompleted : x.context.completed = []) (hquiet : (Moment.mk p x).Quiet)
    (hnext : (x.advance p).next = (reject q x e).next) :
    Lived (⟨p, x⟩ :: past)
      { x with
        phase := .ended (.ok (q.finish x.controller (Response.failure e.message), [])) } := by
  have hahead := ahead_going (m := ⟨p, x⟩) h hquiet hnext rfl rfl h.passed
  refine ⟨⟨.failed, ⟨fun m hm => (hahead.smooth m hm).not_breach, hahead.uncommitted⟩, ?_, ?_⟩,
    hcompleted⟩
  · exact ⟨_, _, rfl, (Response.isSuccess_finish _ _ _).trans (Response.isSuccess_failure _)⟩
  · have hregistered : (registered (⟨p, x⟩ :: past)).reverse = [] :=
      hahead.completed.symm.trans hcompleted
    rw [hahead.untold, hregistered]
    rfl

theorem not_lt_model (stage : Stage) : ¬ stage < .model := by cases stage <;> decide

theorem lived_begin (hphase : x.phase = .opening) (h : Lived past x)
    (hy : (x.advance p).next.after? = some y) : Lived (⟨p, x⟩ :: past) y := by
  have hquiet : (Moment.mk p x).Quiet := Moment.quiet_of_isRunning (by rw [hphase]; rfl)
  rw [Lived, hphase] at h
  obtain ⟨hahead, ⟨hactive, hviolation⟩, hcompleted, hstage⟩ := h
  have hadvance : x.advance p = begin p x := by rw [advance, hphase]
  have hreject : ∀ q e, (x.advance p).next = (reject q x e).next → Lived (⟨p, x⟩ :: past) y := by
    intro q e hnext
    rw [hnext] at hy
    obtain rfl := Option.some.inj hy
    exact lived_reject hahead hcompleted hquiet hnext
  rw [begin] at hadvance
  split at hadvance
  · exact hreject _ _ (by rw [hadvance])
  · rename_i name address hparse
    dsimp only at hadvance
    split at hadvance
    · exact hreject _ _ (by rw [hadvance])
    · -- the operation has a handler: whether or not it gets the lock, it goes on with one step
      rename_i resolved hresolved
      have hpassed : ∀ q : Queues, ∀ stage < x.context.stage, q.get stage = [] :=
        fun _ stage hlt => absurd (hstage ▸ hlt) (not_lt_model stage)
      split at hadvance
      · have hnext := congrArg Turn.next hadvance
        rw [hnext] at hy
        obtain rfl := Option.some.inj hy
        exact ⟨ahead_going hahead hquiet hnext rfl rfl (hpassed _), hactive, hviolation⟩
      · split at hadvance
        · have hnext := congrArg Turn.next hadvance
          rw [hnext] at hy
          obtain rfl := Option.some.inj hy
          exact ⟨ahead_going hahead hquiet hnext rfl rfl (hpassed _), hactive, hviolation⟩
        · have hnext := congrArg Turn.next hadvance
          rw [hnext] at hy
          obtain rfl := Option.some.inj hy
          exact ⟨ahead_going hahead hquiet hnext rfl rfl (hpassed _), ⟨hactive, hviolation⟩,
            hcompleted⟩

theorem lived_awaitLock {deadline : Nat} (hphase : x.phase = .locking deadline)
    (h : Lived past x) (hy : (x.advance p).next.after? = some y) : Lived (⟨p, x⟩ :: past) y := by
  have hquiet : (Moment.mk p x).Quiet := Moment.quiet_of_isRunning (by rw [hphase]; rfl)
  rw [Lived, hphase] at h
  obtain ⟨hahead, hidle, hcompleted⟩ := h
  have hadvance : x.advance p = awaitLock p x deadline := by rw [advance, hphase]
  rw [awaitLock] at hadvance
  dsimp only at hadvance
  split at hadvance
  · have hnext := congrArg Turn.next hadvance
    rw [hnext] at hy
    obtain rfl := Option.some.inj hy
    exact ⟨ahead_going hahead hquiet hnext rfl rfl hahead.passed, hidle.active, hidle.violation⟩
  · split at hadvance
    · have hnext := congrArg Turn.next hadvance
      rw [hnext] at hy
      obtain rfl := Option.some.inj hy
      exact lived_reject hahead hcompleted hquiet hnext
    · have hnext := congrArg Turn.next hadvance
      rw [hnext] at hy
      obtain rfl := Option.some.inj hy
      rw [Lived, hphase]
      refine ⟨ahead_cons [] hahead hquiet (by rw [Moment.turn, hnext]; rfl) ?_ rfl
        hahead.passed fun _ h => h, hidle, hcompleted⟩
      exact Moment.smooth_of_next hnext (by rintro _ _ _ ⟨⟩)

/-- A pipeline that stops leaves all its completions to be told. -/
theorem lived_stopped {z : Context} {e : Ending} (new : List Completion)
    (h : x.context.Ahead past) (hquiet : (Moment.mk p x).Quiet)
    (hafter : (x.advance p).next.after? = some { x with context := z, phase := .unwinding e })
    (hverdict : e.Verdict (⟨p, x⟩ :: past)) (hactive : z.active = none)
    (hcompleted : z.completed = new ++ x.context.completed) (hkept : e ≠ .kept) :
    Lived (⟨p, x⟩ :: past) { x with context := z, phase := .unwinding e } := by
  have htold : told (⟨p, x⟩ :: past) = [] := by
    rw [told, h.untold, hquiet.tells, List.append_nil]
  refine ⟨hverdict, hactive, ?_, ?_, fun he => absurd he hkept⟩
  · rw [htold, registered, Moment.registers_eq (m := ⟨p, x⟩) hafter hcompleted,
      List.reverse_append, List.reverse_reverse, ← h.completed]
    exact hcompleted
  · rw [htold]
    rintro t ⟨⟩

/-- A cancelled operation fails before its next step. -/
theorem lived_interrupt {slot : Nat} {z : Context} (h : x.context.Ahead past)
    (hquiet : (Moment.mk p x).Quiet) (hz : z.active = none ∧ z.completed = x.context.completed)
    (hnext : (x.advance p).next = .going { x with
      context := z.interrupt slot, phase := .unwinding .failed }) :
    Lived (⟨p, x⟩ :: past) { x with context := z.interrupt slot, phase := .unwinding .failed } := by
  refine lived_stopped [] h hquiet (by rw [hnext]; rfl) ⟨?_, ?_⟩ hz.1 hz.2 (by rintro ⟨⟩)
  · exact List.forall_mem_cons.mpr ⟨Moment.not_breach_of_next hnext (by rintro _ _ _ ⟨⟩),
      fun m hm => (h.smooth m hm).not_breach⟩
  · exact List.forall_mem_cons.mpr ⟨hquiet.commits, h.uncommitted⟩

theorem next?_eq_none {stage : Stage} (h : stage.next? = none) : stage = .done := by
  cases stage <;> first | rfl | cases h

theorem lt_or_eq_of_lt_next {stage stage' s : Stage} (h : stage.next? = some stage')
    (hs : s < stage') : s < stage ∨ s = stage := by
  cases stage <;> cases h <;> cases s <;> first | exact .inr rfl | exact .inl (by decide) |
    exact absurd hs (by decide)

theorem lived_pick (hphase : x.phase = .stepping) (h : Lived past x)
    (hy : (x.advance p).next.after? = some y) : Lived (⟨p, x⟩ :: past) y := by
  have hquiet : (Moment.mk p x).Quiet := Moment.quiet_of_isRunning (by rw [hphase]; rfl)
  rw [Lived, hphase] at h
  obtain ⟨hahead, hactive, hviolation⟩ := h
  have hadvance : x.advance p = pick p x := by rw [advance, hphase]
  rw [pick] at hadvance
  dsimp only at hadvance
  split at hadvance
  · rename_i step context hstep
    have hcontext : context = { x.context with queues := context.queues } ∧
        ∀ s < x.context.stage, context.queues.get s = [] := by
      obtain ⟨rest, -, rfl⟩ := Context.nextStep?_eq_some hstep
      refine ⟨rfl, fun s hs => ?_⟩
      have hget := hahead.passed s hs
      dsimp only
      cases hstage : x.context.stage <;> cases s <;> first | exact hget |
        exact absurd (hstage ▸ hs) (by decide)
    obtain ⟨hcontext, hpassed⟩ := hcontext
    split at hadvance
    · have hnext := congrArg Turn.next hadvance
      rw [hnext] at hy
      obtain rfl := Option.some.inj hy
      refine lived_interrupt hahead hquiet ⟨?_, ?_⟩ hnext
      · rw [hcontext]
        exact hactive
      · rw [hcontext]
    · have hnext := congrArg Turn.next hadvance
      rw [hnext] at hy
      obtain rfl := Option.some.inj hy
      refine ⟨ahead_going hahead hquiet hnext ?_ ?_ ?_, ⟨_, rfl, rfl, rfl, fun _ => rfl⟩, ?_⟩
      · show context.completed = _
        rw [hcontext]
      · show context.slots = _
        rw [hcontext]
      · show ∀ s < context.stage, context.queues.get s = []
        rw [hcontext]
        exact hpassed
      · intro v hv
        have hv' : v ∈ context.violation := hv
        rw [hcontext] at hv'
        cases hviolation.symm.trans hv'
  · rename_i hstep
    have hempty := Context.nextStep?_eq_none hstep
    split at hadvance
    · rename_i stage hstage
      have hnext := congrArg Turn.next hadvance
      rw [hnext] at hy
      obtain rfl := Option.some.inj hy
      have hahead' := ahead_going (m := ⟨p, x⟩) hahead hquiet hnext rfl rfl fun s hs =>
        (lt_or_eq_of_lt_next hstage hs).elim (hahead.passed s) (· ▸ hempty)
      simp only [Lived, hphase]
      exact ⟨hahead', hactive, hviolation⟩
    · rename_i hstage
      have hdone := next?_eq_none hstage
      split at hadvance
      · have hnext := congrArg Turn.next hadvance
        rw [hnext] at hy
        obtain rfl := Option.some.inj hy
        exact lived_interrupt hahead hquiet ⟨hactive, rfl⟩ hnext
      · have hnext := congrArg Turn.next hadvance
        rw [hnext] at hy
        obtain rfl := Option.some.inj hy
        refine ⟨ahead_going hahead hquiet hnext rfl rfl hahead.passed, ⟨hactive, hviolation⟩,
          fun s => ?_⟩
        -- the last stage is over, and so are all before it
        rw [hdone] at hempty
        cases s with
        | done => exact hempty
        | model => exact hahead.passed .model (hdone ▸ by decide)
        | runtime => exact hahead.passed .runtime (hdone ▸ by decide)
        | verify => exact hahead.passed .verify (hdone ▸ by decide)

/-! ### Steps -/

theorem afterStep_of_none {step : Step} {out : Except OperationError Unit}
    (h : (x.context.endStep step out).1 = none) : x.afterStep step out =
      { x with context := (x.context.endStep step out).2, phase := .stepping } := by
  rw [afterStep]
  split
  · rename_i heq
    rw [heq]
  · rename_i heq
    rw [heq] at h
    cases h

theorem afterStep_of_some {step : Step} {out : Except OperationError Unit} {e : Ending}
    (h : (x.context.endStep step out).1 = some e) : x.afterStep step out =
      { x with context := (x.context.endStep step out).2, phase := .unwinding e } := by
  rw [afterStep]
  split
  · rename_i heq
    rw [heq] at h
    cases h
  · rename_i heq
    rw [heq] at h ⊢
    rw [Option.some.inj h]

/-- What the end of a step comes to. -/
theorem lived_returned {z : Context} {step : Step} {out : Except OperationError Unit}
    (new : List Completion) (h : x.context.Ahead past) (hquiet : (Moment.mk p x).Quiet)
    (hnext : (x.advance p).next = .returned { x with context := z } step out)
    (hcompleted : z.completed = new ++ x.context.completed)
    (hpassed : ∀ stage < z.stage, z.queues.get stage = [])
    (hclear : ¬ (Moment.mk p x).FailsSlot → x.context.Unfailed → z.Unfailed) :
    Lived (⟨p, x⟩ :: past) ({ x with context := z }.afterStep step out) := by
  have hrested := z.endStep_rested step out
  have hafter :
      (Moment.turn ⟨p, x⟩).next.after? = some ({ x with context := z }.afterStep step out) := by
    rw [Moment.turn, hnext]
    rfl
  have hstill : (z.endStep step out).2.completed = new ++ x.context.completed :=
    hrested.completed.trans hcompleted
  have huncommitted : ∀ m ∈ (⟨p, x⟩ : Moment) :: past, ¬ m.Commits :=
    List.forall_mem_cons.mpr ⟨hquiet.commits, h.uncommitted⟩
  rcases z.endStep_cases step out with ⟨hnone, rfl, hviolation, hrollback, hrest⟩ |
    ⟨hfailed, hbroken⟩ | ⟨⟨reason, hfatal⟩, hbroken⟩
  · rw [afterStep_of_none hnone] at hafter ⊢
    refine ⟨ahead_cons new h hquiet hafter ?_ hstill ?_ ?_, hrested.active, hrested.violation⟩
    · intro z' step' out' hz'
      cases hnext.symm.trans hz'
      exact ⟨rfl, hviolation, hrollback⟩
    · show ∀ stage < (z.endStep step (.ok ())).2.stage, _
      rw [hrested.stage, hrested.queues]
      exact hpassed
    · intro hm hx
      show (z.endStep step (.ok ())).2.Unfailed
      rw [hrest]
      exact hclear hm hx
  · rw [afterStep_of_some hfailed] at hafter ⊢
    refine lived_stopped new h hquiet hafter ⟨?_, huncommitted⟩ hrested.active hstill
      (by rintro ⟨⟩)
    refine List.forall_mem_cons.mpr ⟨?_, fun m hm => (h.smooth m hm).not_breach⟩
    rintro ⟨z', step', out', hz', hbroken'⟩
    cases hnext.symm.trans hz'
    exact hbroken hbroken'
  · rw [afterStep_of_some hfatal] at hafter ⊢
    exact lived_stopped new h hquiet hafter ⟨⟨⟨p, x⟩, List.mem_cons_self, _, _, _, hnext, hbroken⟩,
      huncommitted⟩ hrested.active hstill (by rintro ⟨⟩)

end Execution

/-- A step stays the running one while it works. -/
theorem Context.Busy.of_worked {x y : Context} {step : Step} {w w' : Work} (h : x.Busy step w)
    (hy : x.Worked y) (hw : w'.isFresh = false) : y.Busy step w' := by
  obtain ⟨a, ha, haddress, hslot, -⟩ := h.active
  obtain ⟨b, hb, hbaddress, hbslot, hbcompleted⟩ := hy.active a ha
  refine ⟨⟨b, hb, hbaddress.trans haddress, hbslot.trans hslot, ?_⟩, fun v hv => ?_⟩
  · rw [hw]
    rintro ⟨⟩
  · rcases hy.violation v hv with hv | hnone | hv
    · obtain ⟨a', ha', hcompleted, rfl⟩ := h.violation v hv
      obtain rfl : a = a' := Option.some.inj (ha.symm.trans ha')
      exact ⟨b, hb, hbcompleted hcompleted, by rw [twice, twice, hbaddress]⟩
    · cases hnone.symm.trans ha
    · exact hv

/-- A forwarded step completes with the decision on its participant to come. -/
theorem Forwarding.accept_eq {x : Context} {a : ActiveStep} (f h : Nat) (response : Value)
    (ha : x.active = some a) (hcompleted : a.completed = false) : accept x f h response =
      { (x.setResult (Response.result response)) with
        completions := x.completions ++ [f]
        active := some { a with completed := true }
        completed := .decide h :: x.completed } := by
  simp only [accept, Context.complete, Context.setResult, Context.modifySlot, ha, hcompleted,
    if_false, Bool.false_eq_true]

namespace Execution

variable {p : Plane} {past : List Moment} {x y : Execution}

/-- A turn on which a step goes on. -/
theorem lived_going {z : Context} {step : Step} {w : Work} {next : Next} (new : List Completion)
    (h : x.context.Ahead past) (hquiet : (Moment.mk p x).Quiet)
    (hcompleted : z.completed = new ++ x.context.completed)
    (hpassed : ∀ stage < z.stage, z.queues.get stage = []) (hbusy : z.Busy step w)
    (hclear : ¬ (Moment.mk p x).FailsSlot → x.context.Unfailed → z.Unfailed)
    (hafter : next.after? = some { x with context := z, phase := .handling step w })
    (hreturned : ∀ y step out, next ≠ .returned y step out) (hnext : (x.advance p).next = next) :
    Lived (⟨p, x⟩ :: past) { x with context := z, phase := .handling step w } := by
  refine ⟨ahead_cons new h hquiet ?_ (Moment.smooth_of_next hnext hreturned) hcompleted hpassed
    hclear, hbusy⟩
  rw [Moment.turn, hnext]
  exact hafter

/-- **A step that works** goes on, or is over, and what it has completed is told later. -/
theorem lived_work {step : Step} {w : Work} (hphase : x.phase = .handling step w)
    (h : Lived past x) (hy : (x.advance p).next.after? = some y) : Lived (⟨p, x⟩ :: past) y := by
  have hquiet : (Moment.mk p x).Quiet := Moment.quiet_of_isRunning (by rw [hphase]; rfl)
  rw [Lived, hphase] at h
  obtain ⟨hahead, hbusy⟩ := h
  have hcontinues := (keeping_work p x step w).continues
  have hadvance : (x.advance p).next = (work p x step w).next := by rw [advance, hphase]
  have hpassed : ∀ {z : Context}, x.context.Worked z →
      ∀ stage < z.stage, z.queues.get stage = [] := by
    intro z hz stage hlt
    rw [hz.stage] at hlt
    rw [hz.queues stage hlt]
    exact hahead.passed stage hlt
  have hclear : ∀ {z : Context}, x.context.Does (· ∈ w.instructions) z →
      ¬ (Moment.mk p x).FailsSlot → x.context.Unfailed → z.Unfailed := by
    intro z hz hm
    refine hz.unfailed fun label failure hi => hm ⟨label, failure, ?_⟩
    rw [Moment.instructions, hphase]
    exact hi
  generalize (work p x step w).next = next at hcontinues hadvance
  rw [hadvance] at hy
  cases hcontinues with
  | goes hz hw =>
    obtain rfl := Option.some.inj hy
    cases hz with
    | does hz =>
      obtain ⟨new, hnew, -⟩ := hz.worked.completed
      exact lived_going new hahead hquiet hnew (hpassed hz.worked) (hbusy.of_worked hz.worked hw)
        (hclear hz) rfl (by rintro _ _ _ ⟨⟩) hadvance
    | stages hz =>
      obtain ⟨new, hnew, -⟩ := hz.worked.completed
      have hbusy' := hbusy.of_worked hz.worked hw
      have hpassed' := hpassed hz.worked
      have hclear' := hclear hz
      exact lived_going new hahead hquiet hnew hpassed' ⟨hbusy'.active, hbusy'.violation⟩ hclear'
        rfl (by rintro _ _ _ ⟨⟩) hadvance
  | forwards hf =>
    obtain rfl := Option.some.inj hy
    obtain ⟨a, ha, haddress, hslot, hfresh⟩ := hbusy.active
    have hw : w.isFresh = true := by
      rcases hf with ⟨d, rfl⟩ | ⟨rfl, -⟩ <;> rfl
    exact lived_going [] hahead hquiet rfl hahead.passed
      ⟨⟨a, ha, haddress, hslot, fun _ => hfresh hw⟩, hbusy.violation⟩ (fun _ h => h) rfl
      (by rintro _ _ _ ⟨⟩) hadvance
  | returns hz =>
    obtain rfl := Option.some.inj hy
    obtain ⟨new, hnew, -⟩ := hz.worked.completed
    exact lived_returned new hahead hquiet hadvance hnew (hpassed hz.worked) (hclear hz)
  | @concludes f due handle response hw houtcome =>
    obtain rfl := Option.some.inj hy
    obtain ⟨a, ha, -, -, hfresh⟩ := hbusy.active
    have haccept := Forwarding.accept_eq f handle response ha (hfresh (by rw [hw]; rfl))
    rw [haccept] at hadvance ⊢
    refine lived_returned [.decide handle] hahead hquiet hadvance rfl hahead.passed fun _ hx => ?_
    exact hx.modifySlot x.context.currentSlot fun _ => rfl
  | blocks =>
    obtain rfl := Option.some.inj hy
    simp only [Lived, hphase]
    refine ⟨ahead_cons [] hahead hquiet ?_ ?_ rfl hahead.passed fun _ h => h, hbusy⟩
    · rw [Moment.turn, hadvance]
      rfl
    · exact Moment.smooth_of_next hadvance (by rintro _ _ _ ⟨⟩)
  | nests hz =>
    obtain rfl := Option.some.inj hy
    obtain ⟨new, hnew, -⟩ := hz.worked.completed
    exact lived_going new hahead hquiet hnew (hpassed hz.worked) (hbusy.of_worked hz.worked rfl)
      (hclear hz) rfl (by rintro _ _ _ ⟨⟩) hadvance
  | crashes => cases hy

end Execution

end ManagementPlane
