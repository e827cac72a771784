import ManagementPlane.Proofs.Machine.Transitions

/-!
# Proofs/Machine/Violations — which violations of the step contract are surfaced

    step completes twice ──▸ noted ──(step returns)──▸ breach ──▸ fatal answer, degraded process
    completion completes ──▸ noted                                nobody looks

A violation is noted at once and looked at later, when a step returns.  What is noted while a step
runs is found there, and the operation ends fatally.  While the operation unwinds no step runs any
more, so what its completions note is not found, and it ends as had been settled before
(`Course.surfaces`).
-/

namespace ManagementPlane

/-- What was noted stays noted as long as a step works. -/
theorem Context.Does.violation {may : Instruction → Prop} {x y : Context} (h : x.Does may y)
    (hx : x.violation.isSome) : y.violation.isSome := by
  induction h with
  | refl => exact hx
  | tail _ h ih =>
    cases h with
    | complete c hc =>
      rw [complete]
      split
      · split
        · rfl
        · exact ih
      · rfl
    | _ => exact ih

namespace Moment

/-- A step runs on the turn. -/
def Steps (m : Moment) : Prop := ∃ step w, m.execution.phase = .handling step w

/-- A violation is noted on the turn. -/
inductive Records (m : Moment) : Prop
  /-- The step that noted it returns. -/
  | returns {x : Execution} {step : Step} {out : Except OperationError Unit}
    (hnext : m.turn.next = .returned x step out) (hnoted : x.context.violation.isSome)
  /-- The operation goes on with it. -/
  | goes {y : Execution} (hy : m.turn.next.after? = some y) (hnoted : y.context.violation.isSome)
    (hnew : m.execution.context.violation = none)

variable {m : Moment}

instance : Decidable m.Steps :=
  decidable_of_iff ((match m.execution.phase with
    | .handling .. => true
    | _ => false) = true) <| by
    rw [Steps]
    split
    · rename_i step w hphase
      exact ⟨fun _ => ⟨step, w, hphase⟩, fun _ => rfl⟩
    · rename_i hother
      exact ⟨by rintro ⟨⟩, fun ⟨step, w, hphase⟩ => absurd hphase (hother step w)⟩

instance : Decidable m.Records :=
  decidable_of_iff ((match m.turn.next with
    | .returned x _ _ => x.context.violation.isSome
    | _ => false) = true ∨
    m.turn.next.after?.any (·.context.violation.isSome) = true ∧
      m.execution.context.violation = none) <| by
    constructor
    · rintro (hreturns | ⟨hgoes, hnew⟩)
      · split at hreturns
        · rename_i x step out hnext
          exact .returns hnext hreturns
        · cases hreturns
      · obtain ⟨y, hy, hnoted⟩ := (Option.any_eq_true _ _).mp hgoes
        exact .goes hy hnoted hnew
    · rintro (⟨hnext, hnoted⟩ | ⟨hy, hnoted, hnew⟩)
      · rw [hnext]
        exact .inl hnoted
      · exact .inr ⟨(Option.any_eq_true _ _).mpr ⟨_, hy, hnoted⟩, hnew⟩

end Moment

namespace Execution

open Moment

variable {around : Plane → Plane → Prop} {p p₀ : Plane} {past : List Moment} {x x₀ y : Execution}
  {e : Ending}

/-! ## While a step runs -/

/-- Only running steps return. -/
theorem steps_of_returned {step : Step} {out : Except OperationError Unit}
    (h : (x.advance p).next = .returned y step out) : (Moment.mk p x).Steps := by
  rw [advance] at h
  split at h
  case h_4 step w hphase => exact ⟨step, w, hphase⟩
  all_goals exfalso
  · rw [begin] at h
    dsimp only at h
    repeat' split at h
    all_goals cases h
  · rw [awaitLock] at h
    dsimp only at h
    repeat' split at h
    all_goals cases h
  · rw [pick] at h
    dsimp only at h
    repeat' split at h
    all_goals cases h
  · rw [decide.eq_def] at h
    simp only [apply.eq_def] at h
    repeat' split at h
    all_goals cases h
  · rename_i e hphase
    rw [unwind] at h
    split at h
    · obtain ⟨t, ht⟩ := unwound_next p x e
      cases ht.symm.trans h
    · cases h
  · exact drain_not_returned p x _ _ y step out h
  · cases h

/-- What is noted when a turn of a step begins is there afterwards, or the step returns with it. -/
theorem noted_work {step : Step} {w : Work} (hphase : x.phase = .handling step w)
    (hbusy : x.context.Busy step w) (hnoted : x.context.violation.isSome)
    (hy : (x.advance p).next.after? = some y) :
    (Moment.mk p x).Breach ∨ (∃ w', y.phase = .handling step w') ∧ y.context.violation.isSome := by
  have hcontinues := (keeping_work p x step w).continues
  have hadvance : (x.advance p).next = (work p x step w).next := by rw [advance, hphase]
  generalize (work p x step w).next = next at hcontinues hadvance
  rw [hadvance] at hy
  cases hcontinues with
  | goes hz hw =>
    obtain rfl := Option.some.inj hy
    cases hz with
    | does hz => exact .inr ⟨⟨_, rfl⟩, hz.violation hnoted⟩
    | stages hz => exact .inr ⟨⟨_, rfl⟩, hz.violation hnoted⟩
  | forwards =>
    obtain rfl := Option.some.inj hy
    exact .inr ⟨⟨_, rfl⟩, hnoted⟩
  | returns hz => exact .inl ⟨_, _, _, hadvance, .inl (hz.violation hnoted)⟩
  | @concludes f due handle response hw =>
    obtain ⟨a, ha, -, -, hfresh⟩ := hbusy.active
    have haccept := Forwarding.accept_eq f handle response ha (hfresh (by rw [hw]; rfl))
    refine .inl ⟨_, _, _, hadvance, .inl ?_⟩
    show (Forwarding.accept x.context f handle response).violation.isSome
    rw [haccept]
    exact hnoted
  | blocks =>
    obtain rfl := Option.some.inj hy
    exact .inr ⟨⟨_, hphase⟩, hnoted⟩
  | nests hz =>
    obtain rfl := Option.some.inj hy
    exact .inr ⟨⟨_, rfl⟩, hz.violation hnoted⟩
  | crashes => cases hy

/-- The same for what is noted on the turn itself. -/
theorem records_work {step : Step} {w : Work} (hphase : x.phase = .handling step w)
    (hrecords : (Moment.mk p x).Records) (hy : (x.advance p).next.after? = some y) :
    (Moment.mk p x).Breach ∨ (∃ w', y.phase = .handling step w') ∧ y.context.violation.isSome := by
  cases hrecords with
  | returns hnext hnoted => exact .inl ⟨_, _, _, hnext, .inl hnoted⟩
  | goes hy' hnoted hnew =>
    obtain rfl := Option.some.inj (hy.symm.trans hy')
    refine .inr ⟨?_, hnoted⟩
    have hcontinues := (keeping_work p x step w).continues
    have hadvance : (x.advance p).next = (work p x step w).next := by rw [advance, hphase]
    generalize (work p x step w).next = next at hcontinues hadvance
    rw [hadvance] at hy
    -- a step that returns leaves nothing noted
    have hreturned : ∀ {z : Execution} {out : Except OperationError Unit},
        (Next.returned z step out).after? = some y → ∃ w', y.phase = .handling step w' := by
      intro z out hz
      obtain rfl := Option.some.inj hz
      rw [(z.rested_afterStep step out).violation] at hnoted
      cases hnoted
    cases hcontinues with
    | returns | concludes => exact hreturned hy
    | crashes => cases hy
    | blocks =>
      obtain rfl := Option.some.inj hy
      exact ⟨_, hphase⟩
    | _ =>
      obtain rfl := Option.some.inj hy
      exact ⟨_, rfl⟩

/-! ## While the operation unwinds -/

/-- However the operation goes on, it ends in the given way. -/
def EndsAs (e : Ending) (x : Execution) : Prop :=
  x.phase = .unwinding e ∨ (∃ due, x.phase = .draining due e) ∨
    ∃ answer, x.phase = .ended answer ∧ (IsFatal answer ↔ ∃ reason, e = .fatal reason)

theorem isFatal_response (e : Ending) (context : Context) (f : Value → Value × List ResultStream) :
    IsFatal ((e.response? context).map f) ↔ ∃ reason, e = .fatal reason := by
  cases e with
  | fatal reason => exact ⟨fun _ => ⟨reason, rfl⟩, fun _ => ⟨reason, rfl⟩⟩
  | _ => exact ⟨fun ⟨_, h⟩ => (by cases h), fun ⟨_, h⟩ => (by cases h)⟩

/-- **Unwinding does not change how an operation ends.** -/
theorem EndsAs.turn (h : x.EndsAs e) (hopen : ∀ answer, x.phase ≠ .ended answer)
    (hy : (x.advance p).next.after? = some y) : y.EndsAs e := by
  rcases h with hphase | ⟨due, hphase⟩ | ⟨answer, hphase, -⟩
  · rw [advance, hphase] at hy
    dsimp only at hy
    rw [unwind] at hy
    split at hy
    · obtain ⟨t, hnext⟩ := unwound_next p x e
      rw [hnext] at hy
      obtain rfl := Option.some.inj hy
      exact .inr (.inl ⟨none, rfl⟩)
    · obtain rfl := Option.some.inj hy
      exact .inl hphase
  · rw [advance, hphase] at hy
    dsimp only at hy
    rw [drain] at hy
    dsimp only at hy
    repeat' split at hy
    · obtain rfl := Option.some.inj hy
      exact .inr (.inr ⟨_, rfl, isFatal_response e _ _⟩)
    · obtain rfl := Option.some.inj hy
      exact .inr (.inl ⟨_, rfl⟩)
    · obtain rfl := Option.some.inj hy
      exact .inr (.inl ⟨_, rfl⟩)
    · obtain rfl := Option.some.inj hy
      exact .inr (.inl ⟨_, rfl⟩)
    · obtain rfl := Option.some.inj hy
      exact .inr (.inl ⟨_, hphase⟩)
  · exact absurd hphase (hopen answer)

/-- Where neither a step runs nor the operation unwinds, nothing is noted. -/
theorem unwinding_of_records (hsteps : ¬ (Moment.mk p x).Steps)
    (hrecords : (Moment.mk p x).Records) :
    ∃ e, x.phase = .unwinding e := by
  cases hrecords with
  | returns hnext => exact absurd (steps_of_returned hnext) hsteps
  | @goes y hy hnoted hnew =>
    have hsame : y.context.violation = x.context.violation → ∃ e, x.phase = .unwinding e := by
      intro heq
      rw [heq, hnew] at hnoted
      cases hnoted
    have hnext : ∀ {step : Step} {context : Context}, x.context.nextStep? = some (step, context) →
        context.violation = x.context.violation := by
      intro step context hstep
      obtain ⟨rest, -, rfl⟩ := Context.nextStep?_eq_some hstep
      rfl
    have hgoes : Goes p x (x.advance p).plane y := goes_advance hy
    generalize (x.advance p).plane = q at hgoes
    cases hgoes with
    | works hphase => exact absurd ⟨_, _, hphase⟩ hsteps
    | tells hphase => exact ⟨_, hphase⟩
    | picks hphase hstep =>
      have hkept := hnext hstep
      exact hsame hkept
    | interrupts hphase hcontext =>
      rcases hcontext with rfl | ⟨step, hstep⟩
      · exact hsame rfl
      · have hkept := hnext hstep
        exact hsame hkept
    | _ => exact hsame rfl

/-! ## The whole course -/

/-- What has become of the violations that were noted so far. -/
structure Judged (past : List Moment) (x : Execution) : Prop where
  /-- Of a step they wait for its end, or have been found. -/
  inside : ∀ m ∈ past, m.Steps → m.Records → (∃ k ∈ past, k.Breach) ∨
    (∃ step w, x.phase = .handling step w) ∧ x.context.violation.isSome
  outside : ∀ m ∈ past, ∀ e, m.execution.phase = .unwinding e → x.EndsAs e

theorem Judged.turn (h : Judged past x) (hlived : Lived past x)
    (hopen : ∀ answer, x.phase ≠ .ended answer) (hy : (x.advance p).next.after? = some y) :
    Judged (⟨p, x⟩ :: past) y where
  inside := by
    have hfound : (Moment.mk p x).Breach ∨
        (∃ step w, y.phase = .handling step w) ∧ y.context.violation.isSome →
        (∃ k ∈ (⟨p, x⟩ : Moment) :: past, k.Breach) ∨
          (∃ step w, y.phase = .handling step w) ∧ y.context.violation.isSome :=
      Or.imp_left fun hbreach => ⟨_, List.mem_cons_self, hbreach⟩
    refine List.forall_mem_cons.mpr ⟨fun ⟨step, w, hphase⟩ hrecords => ?_,
      fun m hm hsteps hrecords => ?_⟩
    · refine hfound ((records_work hphase hrecords hy).imp_right fun ⟨⟨w', hw⟩, hnoted⟩ => ?_)
      exact ⟨⟨step, w', hw⟩, hnoted⟩
    · rcases h.inside m hm hsteps hrecords with ⟨k, hk, hbreach⟩ | ⟨⟨step, w, hphase⟩, hnoted⟩
      · exact .inl ⟨k, List.mem_cons_of_mem _ hk, hbreach⟩
      · rw [Lived, hphase] at hlived
        refine hfound ((noted_work hphase hlived.2 hnoted hy).imp_right
          fun ⟨⟨w', hw⟩, hnoted⟩ => ?_)
        exact ⟨⟨step, w', hw⟩, hnoted⟩
  outside := List.forall_mem_cons.mpr
    ⟨fun _ hphase => EndsAs.turn (.inl hphase) hopen hy,
      fun m hm e hphase => (h.outside m hm e hphase).turn hopen hy⟩

theorem Judged.resume (h : Judged past x) (p : Plane) (answer : Answer) :
    Judged past (x.resume p answer).2 := by
  rw [Execution.resume.eq_def]
  split
  · rename_i step frames hphase
    refine ⟨fun m hm hsteps hrecords => ?_, fun m hm e he => ?_⟩
    · exact (h.inside m hm hsteps hrecords).imp_right fun hnoted => ⟨⟨_, _, rfl⟩, hnoted.2⟩
    · rcases h.outside m hm e he with hother | ⟨due, hother⟩ | ⟨answer, hother, -⟩ <;>
        cases hphase.symm.trans hother
  · exact h

theorem Course.judged (h : Course around p₀ x₀ past p x) (hlived : Lived [] x₀) :
    Judged past x := by
  induction h with
  | start => exact ⟨by rintro _ ⟨⟩, by rintro _ ⟨⟩⟩
  | around _ _ ih => exact ih
  | turn hcourse hopen hy ih => exact ih.turn (hcourse.lived hlived) hopen hy
  | resume _ answer ih => exact ih.resume _ answer

/-- What the violations that an operation has noted come to. -/
structure Surfaces (past : List Moment) (answer : Answer) : Prop where
  /-- What a running step notes ends the operation fatally. -/
  inside : ∀ m ∈ past, m.Steps → m.Records → IsFatal answer
  /-- What is noted elsewhere is noted while the operation unwinds, and changes nothing. -/
  outside : ∀ m ∈ past, ¬ m.Steps → m.Records →
    ∃ e, m.execution.phase = .unwinding e ∧ (IsFatal answer ↔ ∃ reason, e = .fatal reason)
  /-- Nothing but the return of a step is judged. -/
  fatal : IsFatal answer → ∃ m ∈ past, m.Steps ∧ m.Breach

/-- **A violation is surfaced just if a step runs when it is noted**, whatever happens around the
operation. -/
theorem Course.surfaces {c : Nat} {operation : Value} {control : Control} {input : Input}
    {sink : Sink} {answer : Answer}
    (h : Course around p₀ (Execution.new c operation control input sink) past p x)
    (hended : x.phase = .ended answer) : Surfaces past answer := by
  have hjudged := h.judged (lived_new c operation control input sink)
  have hlived := h.lived (lived_new c operation control input sink)
  rw [Lived, hended] at hlived
  obtain ⟨⟨e, hverdict, hanswers, -⟩, -⟩ := hlived
  have hfatal : IsFatal answer ↔ ∃ m ∈ past, m.Breach := by
    have hplain : (∀ m ∈ past, ¬ m.Breach) → (∃ response, answer = .ok response) →
        (IsFatal answer ↔ ∃ m ∈ past, m.Breach) := by
      rintro hnone ⟨response, rfl⟩
      constructor
      · rintro ⟨_, ⟨⟩⟩
      · rintro ⟨m, hm, hbreach⟩
        exact absurd hbreach (hnone m hm)
    cases e with
    | fatal reason => exact ⟨fun _ => hverdict.1, fun _ => ⟨reason, hanswers⟩⟩
    | kept =>
      obtain ⟨response, streams, hanswer, -⟩ := hanswers
      exact hplain (fun m hm => (hverdict.1 m hm).not_breach) ⟨_, hanswer⟩
    | rolledBack failure =>
      obtain ⟨response, streams, hanswer, -⟩ := hanswers
      exact hplain (fun m hm => (hverdict.1 m hm).not_breach) ⟨_, hanswer⟩
    | failed =>
      obtain ⟨response, streams, hanswer, -⟩ := hanswers
      exact hplain hverdict.1 ⟨_, hanswer⟩
  refine ⟨fun m hm hsteps hrecords => ?_, fun m hm hsteps hrecords => ?_, fun hanswer => ?_⟩
  · rcases hjudged.inside m hm hsteps hrecords with hbreach | ⟨⟨step, w, hphase⟩, -⟩
    · exact hfatal.mpr hbreach
    · cases hended.symm.trans hphase
  · obtain ⟨e', hphase⟩ := unwinding_of_records hsteps hrecords
    refine ⟨e', hphase, ?_⟩
    rcases hjudged.outside m hm e' hphase with hother | ⟨due, hother⟩ | ⟨answer', hother, hiff⟩
    · cases hended.symm.trans hother
    · cases hended.symm.trans hother
    · cases hended.symm.trans hother
      exact hiff
  · obtain ⟨m, hm, y, step, out, hnext, hbroken⟩ := hfatal.mp hanswer
    exact ⟨m, hm, steps_of_returned hnext, y, step, out, hnext, hbroken⟩

/-- An operation whose step completes twice ends fatally. -/
theorem surfaces_twice : ∃ past answer, (∃ m ∈ past, m.Steps ∧ m.Records) ∧ IsFatal answer ∧
    Surfaces past answer := by
  have hrun : (alone (solo [.complete "a" [], .complete "b" []])
      (Execution.new 0 (.object [(Key.operation, .string "go")]) (.decide .keep) {} .discard)
      10).any (fun reached => reached.2.2.hasEnded &&
        reached.1.any fun m => m.Steps ∧ m.Records) = true := by decide
  obtain ⟨⟨past, p, x⟩, hcourse, hfacts⟩ := (Option.any_eq_true _ _).mp hrun
  simp only [Bool.and_eq_true, List.any_eq_true, decide_eq_true_eq] at hfacts
  obtain ⟨hended, m, hm, hsteps, hrecords⟩ := hfacts
  obtain ⟨answer, hphase⟩ := exists_of_hasEnded hended
  have halone : Course (fun _ _ => False) _ _ past p x := course_alone hcourse
  have hsurfaces := Course.surfaces halone hphase
  exact ⟨past, answer, ⟨m, hm, hsteps, hrecords⟩, hsurfaces.inside m hm hsteps hrecords, hsurfaces⟩

/-- An operation whose completion completes once more: the violation is noted, and the operation
ends with a success, in a process that keeps running. -/
theorem swallowed_completion : ∃ past p x answer, Course (fun _ _ => False)
      (solo [.complete "a" [.complete "b" []]])
      (Execution.new 0 (.object [(Key.operation, .string "go")]) (.decide .keep) {} .discard)
      past p x ∧
    x.phase = .ended answer ∧ (∃ m ∈ past, m.Records) ∧ Succeeds answer ∧
    p.processState 0 = .running := by
  have hrun : (alone (solo [.complete "a" [.complete "b" []]])
      (Execution.new 0 (.object [(Key.operation, .string "go")]) (.decide .keep) {} .discard)
      14).any (fun reached => reached.2.2.succeeded && (reached.1.any fun m => m.Records) &&
        reached.2.1.processState 0 = .running) = true := by decide
  obtain ⟨⟨past, p, x⟩, hcourse, hfacts⟩ := (Option.any_eq_true _ _).mp hrun
  simp only [Bool.and_eq_true, List.any_eq_true, decide_eq_true_eq] at hfacts
  obtain ⟨⟨hsucceeded, m, hm, hrecords⟩, hrunning⟩ := hfacts
  obtain ⟨answer, hphase, hsucceeds⟩ := exists_of_succeeded hsucceeded
  exact ⟨past, p, x, answer, course_alone hcourse, hphase, ⟨m, hm, hrecords⟩, hsucceeds, hrunning⟩

end Execution

end ManagementPlane
