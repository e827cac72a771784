import ManagementPlane.Proofs.Machine.Collecting
import ManagementPlane.Proofs.Machine.Violations

/-!
# Proofs/Machine/Blame — which steps a failed composite names

The failure of a step is recorded in the slot that the step answers in.  Then the completions are
told, the latest first; and a composite that finds failed slots among those of its operations fails
in its own slot.  A composite is told before the one that it is an operation of, since its slot is
older than those of its operations (`Nested`).  So the slots that have failed in the end are those
that the failure is charged to (`Charged`, `Context.Blames`).

The response of a composite names exactly the operations whose slots these are
(`Execution.Course.composite_names`).
-/

namespace ManagementPlane

open Context (rootSlot)

/-! ## Charging a failure -/

/-- A failure in slot `i` is charged to that slot, and to the slot of a composite one of whose
operations answers in a slot that it is charged to. -/
inductive Charged (done : List Completion) (i : Nat) : Nat → Prop
  | here : Charged done i i
  | composite {own : Nat} {slots : List (String × Nat)} {q : String × Nat}
      (h : .reportSteps own slots ∈ done) (hq : q ∈ slots) (hcharged : Charged done i q.2) :
    Charged done i own

/-- The slots that a completion reports on, under their labels. -/
def Completion.reported : Completion → List (String × Nat)
  | reportSteps _ slots => slots
  | _ => []

/-- Completions, the latest first: a composite is older than the slots of its operations, and so is
every composite that completed before it. -/
structure Nested (done : List Completion) : Prop where
  newer : ∀ own slots, .reportSteps own slots ∈ done → ∀ q ∈ slots, own < q.2
  earlier : done.Pairwise fun later earlier => ∀ own slots own' slots',
    later = .reportSteps own slots → earlier = .reportSteps own' slots' → ∀ q ∈ slots, own' < q.2

variable {done rest : List Completion} {c : Completion} {i j own : Nat}
  {slots : List (String × Nat)}

theorem Charged.mono (h : Charged done i j) (hdone : ∀ c ∈ done, c ∈ rest) : Charged rest i j := by
  induction h with
  | here => exact .here
  | composite h hq _ ih => exact .composite (hdone _ h) hq ih

/-- A failure is charged to older slots. -/
theorem Charged.le (h : Charged done i j) (hdone : Nested done) : j ≤ i := by
  induction h with
  | here => exact Nat.le_refl i
  | composite h hq _ ih => exact Nat.le_trans (Nat.le_of_lt (hdone.newer _ _ h _ hq)) ih

theorem Nested.of_append (h : Nested (done ++ rest)) : Nested done :=
  ⟨fun own slots hmem => h.newer own slots (List.mem_append_left _ hmem),
    (List.pairwise_append.mp h.earlier).1⟩

theorem charged_nil_iff : Charged [] i j ↔ j = i := by
  constructor
  · rintro (_ | ⟨⟨⟩, -, -⟩)
    rfl
  · rintro rfl
    exact .here

theorem charged_snoc_iff (hc : ∀ own slots, c ≠ .reportSteps own slots) :
    Charged (done ++ [c]) i j ↔ Charged done i j := by
  refine ⟨fun h => ?_, fun h => h.mono fun _ hd => List.mem_append_left _ hd⟩
  induction h with
  | here => exact .here
  | composite h hq _ ih =>
    rcases List.mem_append.mp h with h | h
    · exact .composite h hq ih
    · exact absurd (List.mem_singleton.mp h).symm (hc _ _)

/-- A composite that is told next charges its own slot only: those told before do not know it. -/
theorem charged_snoc_report_iff (h : Nested (done ++ [.reportSteps own slots])) :
    Charged (done ++ [.reportSteps own slots]) i j ↔
      Charged done i j ∨ j = own ∧ ∃ q ∈ slots, Charged done i q.2 := by
  have hunknown : ∀ own' slots', .reportSteps own' slots' ∈ done ++ [.reportSteps own slots] →
      ∀ q ∈ slots', q.2 ≠ own := by
    intro own' slots' hmem q hq heq
    rcases List.mem_append.mp hmem with hmem | hmem
    · have hlt := (List.pairwise_append.mp h.earlier).2.2 _ hmem _ (List.mem_singleton_self _)
        own' slots' own slots rfl rfl q hq
      exact Nat.lt_irrefl _ (heq ▸ hlt)
    · obtain ⟨rfl, rfl⟩ := Completion.reportSteps.inj (List.mem_singleton.mp hmem)
      have hlt := h.newer own' slots' (List.mem_append_right _ (List.mem_singleton_self _)) q hq
      exact Nat.lt_irrefl _ (heq ▸ hlt)
  constructor
  · intro hcharged
    induction hcharged with
    | here => exact .inl .here
    | @composite own' slots' q hmem hq _ ih =>
      have hq' : Charged done i q.2 := ih.resolve_right fun h => hunknown own' slots' hmem q hq h.1
      rcases List.mem_append.mp hmem with hmem | hmem
      · exact .inl (.composite hmem hq hq')
      · obtain ⟨rfl, rfl⟩ := Completion.reportSteps.inj (List.mem_singleton.mp hmem)
        exact .inr ⟨rfl, q, hq, hq'⟩
  · rintro (hcharged | ⟨rfl, q, hq, hcharged⟩)
    · exact hcharged.mono fun _ hd => List.mem_append_left _ hd
    · exact .composite (List.mem_append_right _ (List.mem_singleton_self _)) hq
        (hcharged.mono fun _ hd => List.mem_append_left _ hd)

/-! ## What the slots hold -/

namespace Context

/-- The slots that failed are those that a failure `v` in slot `i` is charged to. -/
structure Blames (done : List Completion) (i : Nat) (v : Value) (x : Context) : Prop where
  charged : ∀ j, (x.slot j).isFailed = true ↔ Charged done i j
  here : (x.slot i).failure = some v
  first : x.firstFailure = some v

/-- The operation answers as a composite whose operations answered in `slots` and were rolled
back. -/
structure Amends (slots : List (String × Nat)) (x : Context) : Prop where
  result : (x.slot rootSlot).result =
    .object (slots.map fun q => (q.1, Composite.rolledBackStep (x.slot q.2)))
  failure : Composite.failures x slots ≠ [] → (x.slot rootSlot).failure =
    some (.string ("Composite operation failed and was rolled back. Steps that failed: "
      ++ (Value.object (Composite.failures x slots)).render))

variable {x y : Context} {v : Value}

theorem Blames.of_failures (h : x.Blames done i v)
    (hslots : ∀ j, (y.slot j).failure = (x.slot j).failure)
    (hfirst : y.firstFailure = x.firstFailure)
    (hdone : ∀ j, Charged rest i j ↔ Charged done i j) : y.Blames rest i v where
  charged j := by
    rw [ResponseSlot.isFailed, hslots, hdone]
    exact h.charged j
  here := (hslots i).trans h.here
  first := hfirst.trans h.first

theorem Blames.of_slots (h : x.Blames done i v) (hslots : y.slots = x.slots)
    (hfirst : y.firstFailure = x.firstFailure) : y.Blames done i v :=
  h.of_failures (fun j => by rw [slot, slot, hslots]) hfirst fun _ => Iff.rfl

theorem Amends.of_slots (h : x.Amends slots) (hslots : y.slots = x.slots) : y.Amends slots := by
  have hslot : ∀ j, y.slot j = x.slot j := fun j => by rw [slot, slot, hslots]
  have hfailures : Composite.failures y slots = Composite.failures x slots := by
    simp only [Composite.failures, hslot]
  constructor
  · simp only [hslot]
    exact h.result
  · rw [hfailures, hslot]
    exact h.failure

/-- The first failure is charged to the slot that it is recorded in. -/
theorem blames_recordFailure (hx : x.Unfailed) (hfirst : x.firstFailure = none)
    (hi : i < x.slots.length) (v : Value) : (x.recordFailure i v).Blames [] i v := by
  have hhere : ((x.recordFailure i v).slot i).failure = some v := by
    rw [recordFailure, slot_modifySlot_self _ (by exact hi)]
    show some ((x.slot i).failure.getD v) = some v
    rw [hx.slot i]
    rfl
  refine ⟨fun j => ?_, hhere, ?_⟩
  · rw [charged_nil_iff, ResponseSlot.isFailed]
    by_cases hj : j = i
    · subst hj
      rw [hhere]
      exact ⟨fun _ => rfl, fun _ => rfl⟩
    · have hother : ((x.recordFailure i v).slot j).failure = (x.slot j).failure :=
        congrArg ResponseSlot.failure (slot_modifySlot_ne _ _ (Ne.symm hj))
      rw [hother, hx.slot j]
      exact ⟨by rintro ⟨⟩, fun h => absurd h hj⟩
  · show some (x.firstFailure.getD v) = some v
    rw [hfirst]
    rfl

end Context

/-! ## Telling the completions -/

namespace Composite

variable {x : Context} {v : Value}

theorem failures_ne_nil_iff (x : Context) (slots : List (String × Nat)) :
    failures x slots ≠ [] ↔ ∃ q ∈ slots, (x.slot q.2).isFailed = true := by
  rw [Ne, failures, List.filterMap_eq_nil_iff, not_forall]
  refine exists_congr fun q => Classical.not_imp.trans (and_congr_right fun _ => ?_)
  rw [ResponseSlot.isFailed]
  show Option.map (fun f => (q.1, f)) (x.slot q.2).failure ≠ none ↔ _
  cases (x.slot q.2).failure with
  | none => exact ⟨fun h => absurd rfl h, by rintro ⟨⟩⟩
  | some f => exact ⟨fun _ => rfl, fun _ => Option.some_ne_none _⟩

/-- What a composite makes of its slot after a rollback. -/
theorem slot_report (h : own < x.slots.length) (slots : List (String × Nat)) :
    (report own slots x).slot own = { x.slot own with
      result := .object (slots.map fun q => (q.1, rolledBackStep (x.slot q.2)))
      failure := if (failures x slots).isEmpty then (x.slot own).failure
        else some (.string ("Composite operation failed and was rolled back. Steps that failed: "
          ++ (Value.object (failures x slots)).render)) } :=
  Context.slot_modifySlot_self _ h

theorem slot_report_ne (h : own ≠ j) (slots : List (String × Nat)) :
    (report own slots x).slot j = x.slot j := x.slot_modifySlot_ne _ h

theorem amends_report (h : rootSlot < x.slots.length) (hslots : ∀ q ∈ slots, rootSlot < q.2) :
    (report rootSlot slots x).Amends slots := by
  have hsame : ∀ q ∈ slots, (report rootSlot slots x).slot q.2 = x.slot q.2 := fun q hq =>
    slot_report_ne (Nat.ne_of_lt (hslots q hq)) slots
  have hfailures : failures (report rootSlot slots x) slots = failures x slots := by
    rw [failures, failures]
    exact List.filterMap_congr fun q hq =>
      congrArg (fun s : ResponseSlot => s.failure.map fun f => (q.1, f)) (hsame q hq)
  constructor
  · rw [slot_report h]
    exact congrArg Value.object (List.map_congr_left fun q hq =>
      congrArg (fun s => (q.1, rolledBackStep s)) (hsame q hq).symm)
  · intro hfailed
    rw [hfailures] at hfailed ⊢
    rw [slot_report h]
    exact if_neg fun hempty => hfailed (List.isEmpty_iff.mp hempty)

/-- **A composite fails** just if one of its operations' slots has. -/
theorem blames_report (h : x.Blames done i v) (hown : own < x.slots.length)
    (hnested : Nested (done ++ [.reportSteps own slots])) :
    (report own slots x).Blames (done ++ [.reportSteps own slots]) i v := by
  have hnewer : ∀ q ∈ slots, own < q.2 :=
    hnested.newer own slots (List.mem_append_right _ (List.mem_singleton_self _))
  have hfailures : failures x slots ≠ [] ↔ ∃ q ∈ slots, Charged done i q.2 :=
    (failures_ne_nil_iff x slots).trans
      (exists_congr fun q => and_congr_right fun _ => h.charged q.2)
  refine ⟨fun j => ?_, ?_, h.first⟩
  · rw [charged_snoc_report_iff hnested]
    by_cases hj : j = own
    · subst hj
      rw [slot_report hown, ResponseSlot.isFailed]
      dsimp only
      split
      · next hempty =>
        have hnone := fun hq => hfailures.mpr hq (List.isEmpty_iff.mp hempty)
        exact (h.charged j).trans (or_iff_left fun hq => hnone hq.2).symm
      · next hsome =>
        have hne : failures x slots ≠ [] := fun hnil => hsome (List.isEmpty_iff.mpr hnil)
        exact ⟨fun _ => .inr ⟨rfl, hfailures.mp hne⟩, fun _ => rfl⟩
    · rw [slot_report_ne (Ne.symm hj)]
      exact (h.charged j).trans (or_iff_left fun hq => hj hq.1).symm
  · by_cases hi : i = own
    · subst hi
      -- the slots of its operations are newer than the one that failed
      have hempty : failures x slots = [] := by
        refine Classical.byContradiction fun hne => ?_
        obtain ⟨q, hq, hcharged⟩ := hfailures.mp hne
        exact Nat.lt_irrefl _ (Nat.lt_of_lt_of_le (hnewer q hq) (hcharged.le hnested.of_append))
      rw [slot_report hown]
      exact (if_pos (by rw [hempty]; rfl)).trans h.here
    · rw [slot_report_ne (Ne.symm hi)]
      exact h.here

end Composite

namespace Completion

variable {s : Scene} {v : Value}

theorem length_le_run (c : Completion) (d : Decision) (s : Scene) :
    s.context.slots.length ≤ (c.run d s).context.slots.length := by
  rcases c.context_run d s with hdoes | ⟨own, slots, hreport⟩
  · exact hdoes.length_le
  · rw [hreport]
    exact (List.length_modify _ _ _).ge

/-- **Telling a completion** charges the failure on, and nothing else makes a slot fail. -/
theorem blames_run (h : s.context.Blames done i v) (hnested : Nested (done ++ [c]))
    (hown : ∀ own slots, c = .reportSteps own slots → own < s.context.slots.length)
    (hquiet : ∀ label failure, .failSlot label failure ∉ c.instructions .rollback) :
    (c.run .rollback s).context.Blames (done ++ [c]) i v := by
  have hsame : (∀ own slots, c ≠ .reportSteps own slots) →
      (c.run .rollback s).context = s.context →
      (c.run .rollback s).context.Blames (done ++ [c]) i v := fun hc hcontext =>
    h.of_failures (fun j => by rw [hcontext]) (by rw [hcontext]) fun j => charged_snoc_iff hc
  have hscript : ∀ (body : Script) (t : Scene), t.context = s.context →
      (∀ label failure, .failSlot label failure ∉ body) →
      (∀ own slots, c ≠ .reportSteps own slots) →
      (runScript body t).context.Blames (done ++ [c]) i v := by
    intro body t ht hbody hc
    have hdoes := (runScript_does body t).context
    rw [ht] at hdoes
    exact h.of_failures (hdoes.failure_slot hbody) hdoes.worked.firstFailure
      fun j => charged_snoc_iff hc
  cases c with
  | script label ro body =>
    cases ro with
    | false => exact hscript body _ rfl hquiet (by rintro _ _ ⟨⟩)
    | true => exact hscript body _ rfl hquiet (by rintro _ _ ⟨⟩)
  | decide handle => exact hsame (by rintro _ _ ⟨⟩) rfl
  | reportSteps own slots => exact Composite.blames_report h (hown own slots rfl) hnested
  | stopWorker name => exact hsame (by rintro _ _ ⟨⟩) rfl
  | restoreWorker name worker => exact hsame (by rintro _ _ ⟨⟩) rfl
  | reconfigureWorker name k =>
    refine hsame (by rintro _ _ ⟨⟩) ?_
    rw [run]
    split
    · rfl
    · split <;> rfl

end Completion

namespace Response

theorem get?_failureDescription (s : ResponseSlot) (f : Value) (rolledBack : Bool) :
    (ResponseSlot.toValue { s with failure := some f } rolledBack).get? Key.failureDescription =
      some f := rfl

/-- A failed response shows a result that is there. -/
theorem get?_result {s : ResponseSlot} {fields : List (String × Value)}
    (h : s.result = .object fields) (f : Value) (rolledBack : Bool) :
    (ResponseSlot.toValue { s with failure := some f } rolledBack).get? Key.result =
      some (.object fields) := by
  rw [ResponseSlot.toValue]
  dsimp only
  rw [h]
  rfl

end Response

/-! ## A pipeline that a step has failed -/

theorem registered_append (later earlier : List Moment) :
    registered (later ++ earlier) = registered earlier ++ registered later := by
  induction later with
  | nil => exact (List.append_nil _).symm
  | cons m later ih => rw [List.cons_append, registered, ih, registered, List.append_assoc]

/-- The turn ends the pipeline: `step` fails with `e`, and breaks no contract. -/
structure Moment.Fails (m : Moment) (step : Step) (e : OperationError) : Prop where
  returns : ∃ y, m.turn.next = .returned y step (.error e)
  keeps : ¬ m.Breach

/-- The step that fails on the turn. -/
def Moment.failed? (m : Moment) : Option (Step × OperationError) :=
  match m.turn.next with
  | .returned y step (.error e) =>
    if y.context.violation.isSome || e.isFatal || y.context.active.any (·.completed) then none
    else some (step, e)
  | _ => none

theorem Moment.fails_of_failed? {m : Moment} {step : Step} {e : OperationError}
    (h : m.failed? = some (step, e)) : m.Fails step e := by
  rw [failed?] at h
  split at h
  · next y step' e' hnext =>
    split at h
    · cases h
    · next hkeeps =>
      obtain ⟨rfl, rfl⟩ := Prod.mk.inj (Option.some.inj h)
      refine ⟨⟨y, hnext⟩, ?_⟩
      rintro ⟨y', s, out, hnext', hbroken⟩
      cases hnext.symm.trans hnext'
      refine hkeeps ?_
      rw [Bool.or_eq_true, Bool.or_eq_true]
      rcases hbroken with hviolation | ⟨e, heq, hfatal | ⟨a, ha, hcompleted⟩⟩
      · exact .inl (.inl hviolation)
      · obtain rfl := Except.error.inj heq
        exact .inl (.inr hfatal)
      · exact .inr ((Option.any_eq_true _ _).mpr ⟨a, ha, hcompleted⟩)
  · cases h

/-- What a failed step does to its context when it ends. -/
theorem Context.endStep_error {x : Context} {e : OperationError} (step : Step)
    (h : ¬ x.Broken (.error e)) : x.endStep step (.error e) = (some .failed,
      { ({ x with active := none } : Context).recordFailure step.slot (.string e.message) with
        rollbackOnly := true }) := by
  have hviolation : x.violation = none := by
    cases hv : x.violation with
    | none => rfl
    | some v => exact absurd (.inl (by rw [hv]; rfl)) h
  have hfatal : ¬ e.isFatal = true := fun hfatal => h (.inr ⟨e, rfl, .inl hfatal⟩)
  have hcompleted : ¬ (x.active.map (·.completed)).getD false = true := by
    cases ha : x.active with
    | none => exact Bool.false_ne_true
    | some a => exact fun hcompleted => h (.inr ⟨e, rfl, .inr ⟨a, ha, hcompleted⟩⟩)
  rw [endStep]
  dsimp only
  rw [hviolation]
  dsimp only
  rw [if_neg hfatal, if_neg hcompleted]

namespace Execution

variable {around : Plane → Plane → Prop} {p₀ p : Plane} {x y : Execution} {past : List Moment}
  {v : Value} {step : Step} {e : OperationError}

/-- The pipeline has failed in slot `i` with `v`, and its completions are being told. -/
structure Blaming (past : List Moment) (i : Nat) (v : Value) (x : Execution) : Prop where
  blames : x.context.Blames ((told past).map Prod.fst) i v
  nested : Nested ((told past).map Prod.fst ++ x.context.completed)
  there : ∀ own slots, .reportSteps own slots ∈ x.context.completed →
    own < x.context.slots.length
  amends : x.context.completed = [] → ∀ slots,
    ((told past).map Prod.fst).getLast? = some (.reportSteps rootSlot slots) →
    x.context.Amends slots
  ends : x.phase = .unwinding .failed ∨ (∃ due, x.phase = .draining due .failed) ∨
    ∃ (q : Plane) (streams : List ResultStream), x.phase = .ended
      ((Ending.failed.response? x.context).map fun response =>
        (q.finish x.controller response, streams))

theorem blaming_of_fails (hbounded : x.Bounded) (hlived : Lived past x)
    (hfirst : x.context.firstFailure = none)
    (hslots : ∀ m ∈ (⟨p, x⟩ :: past : List Moment), ¬ m.FailsSlot)
    (hfails : (Moment.mk p x).Fails step e) (hy : (x.advance p).next.after? = some y) :
    y.Blaming (⟨p, x⟩ :: past) step.slot (.string e.message) := by
  obtain ⟨⟨z', hnext⟩, hkeeps⟩ := hfails
  obtain ⟨s, w, hphase⟩ := steps_of_returned hnext
  change x.phase = .handling s w at hphase
  have hadvance : x.advance p = work p x s w := by rw [advance, hphase]
  have hnext' : (x.advance p).next = .returned z' step (.error e) := hnext
  have hcontinues := (keeping_work p x s w).continues
  have hanswering : Answering false x s (work p x s w).next :=
    answering_work hphase (by rintro ⟨⟩)
  rw [← hadvance, hnext'] at hcontinues hanswering
  rw [Lived, hphase] at hlived
  obtain ⟨hahead, -⟩ := hlived
  cases hcontinues with
  | @returns z _ hdoes =>
    cases hanswering with
    | returns hreaches =>
      have hbroken : ¬ z.Broken (.error e) := fun h => hkeeps ⟨_, _, _, hnext, h⟩
      have hquiet : ∀ label failure, .failSlot label failure ∉ w.instructions := by
        intro label failure hi
        refine hslots _ List.mem_cons_self ⟨label, failure, ?_⟩
        rw [Moment.instructions, hphase]
        exact hi
      obtain ⟨hcurrent, hthere⟩ := hbounded.running _ w hphase
      have hz : z.Bounded := hbounded.context.reaches (hcurrent ▸ hthere) hreaches
      have hunfailed : z.Unfailed := hdoes.unfailed hquiet
        (hahead.clear fun m hm => hslots m (List.mem_cons_of_mem _ hm))
      have htold : told (⟨p, x⟩ :: past) = [] := by
        rw [told, hahead.untold, Moment.tells_eq_nil]
        · rfl
        · rw [hphase]
          rintro _ ⟨⟩
      have hend := z.endStep_error step hbroken
      have hrested := z.endStep_rested step (.error e)
      have hlength : (z.endStep step (.error e)).2.slots.length = z.slots.length := by
        rw [hend]
        exact List.length_modify _ _ _
      rw [hnext'] at hy
      obtain rfl := Option.some.inj hy
      rw [afterStep_of_some (x := { x with context := z }) (congrArg Prod.fst hend)]
      constructor
      · rw [htold, hend]
        have hblames := Context.blames_recordFailure (x := { z with active := none }) hunfailed
          (hreaches.firstFailure.trans hfirst) (Nat.lt_of_lt_of_le hthere hreaches.length)
          (.string e.message)
        exact hblames.of_failures (fun _ => rfl) rfl fun _ => Iff.rfl
      · rw [htold]
        show Nested (z.endStep step (.error e)).2.completed
        rw [hrested.completed]
        exact ⟨fun own slots h q hq => ((hz.reports own slots h).2 q hq).1, hz.nested⟩
      · show ∀ own slots, .reportSteps own slots ∈ (z.endStep step (.error e)).2.completed →
          own < (z.endStep step (.error e)).2.slots.length
        rw [hrested.completed, hlength]
        exact fun own slots h => (hz.reports own slots h).1
      · rw [htold]
        rintro - slots ⟨⟩
      · exact .inl rfl

/-- Nothing happens to the slots. -/
theorem Blaming.of_slots {past' : List Moment} (h : x.Blaming past i v)
    (htold : told past' = told past) (hslots : y.context.slots = x.context.slots)
    (hfirst : y.context.firstFailure = x.context.firstFailure)
    (hcompleted : y.context.completed = x.context.completed)
    (hends : y.phase = .unwinding .failed ∨ (∃ due, y.phase = .draining due .failed) ∨
      ∃ (q : Plane) (streams : List ResultStream), y.phase = .ended
        ((Ending.failed.response? y.context).map fun response =>
          (q.finish y.controller response, streams))) : y.Blaming past' i v where
  blames := by
    rw [htold]
    exact h.blames.of_slots hslots hfirst
  nested := by
    rw [htold, hcompleted]
    exact h.nested
  there := by
    rw [hcompleted, hslots]
    exact h.there
  amends := by
    rw [htold, hcompleted]
    exact fun hnil slots hlast => (h.amends hnil slots hlast).of_slots hslots
  ends := hends

theorem Blaming.tell {c : Completion} {rest : List Completion} (h : x.Blaming past i v)
    (hphase : x.phase = .unwinding .failed) (hactive : x.context.active = none)
    (hcompleted : x.context.completed = c :: rest) (hquiet : ¬ (Moment.mk p x).FailsSlot) :
    Blaming (⟨p, x⟩ :: past) i v { x with
      context := (c.run .rollback
        ⟨p, x.controller, { x.context with completed := rest }⟩).context } := by
  have htold : (told (⟨p, x⟩ :: past)).map Prod.fst = (told past).map Prod.fst ++ [c] := by
    rw [told, List.map_append, Moment.tells, hphase, hcompleted]
    rfl
  have hidle := c.run_idle .rollback ⟨p, x.controller, { x.context with completed := rest }⟩ hactive
  have hnested : Nested (((told past).map Prod.fst ++ [c]) ++ rest) := by
    rw [List.append_assoc, List.singleton_append, ← hcompleted]
    exact h.nested
  have hown : ∀ own slots, c = .reportSteps own slots → own < x.context.slots.length := by
    rintro own slots rfl
    exact h.there own slots (hcompleted ▸ List.mem_cons_self)
  have hinstructions : ∀ label failure, .failSlot label failure ∉ c.instructions .rollback := by
    intro label failure hi
    refine hquiet ⟨label, failure, ?_⟩
    rw [Moment.instructions, hphase]
    dsimp only
    rw [hcompleted]
    exact hi
  have hbefore : ({ x.context with completed := rest } : Context).Blames
      ((told past).map Prod.fst) i v := h.blames.of_slots rfl rfl
  constructor
  · rw [htold]
    exact Completion.blames_run hbefore hnested.of_append hown hinstructions
  · rw [htold]
    dsimp only
    rw [hidle.2]
    exact hnested
  · have hlength := c.length_le_run .rollback
      ⟨p, x.controller, { x.context with completed := rest }⟩
    dsimp only
    rw [hidle.2]
    intro own slots hmem
    exact Nat.lt_of_lt_of_le (h.there own slots (hcompleted ▸ List.mem_cons_of_mem _ hmem)) hlength
  · rw [htold]
    rintro - slots hlast
    obtain rfl := Option.some.inj (List.getLast?_concat.symm.trans hlast)
    exact Composite.amends_report (hown _ _ rfl)
      (hnested.newer _ _ (List.mem_append_left _ (List.mem_append_right _ List.mem_cons_self)))
  · exact .inl hphase

/-- **After a failure** the slots that have failed are those that it is charged to, whatever
completions are told. -/
theorem Blaming.turn (h : x.Blaming past i v) (hlived : Lived past x)
    (hquiet : ¬ (Moment.mk p x).FailsSlot) (hopen : ∀ answer, x.phase ≠ .ended answer)
    (hy : (x.advance p).next.after? = some y) : y.Blaming (⟨p, x⟩ :: past) i v := by
  have hstill : (Moment.mk p x).tells = [] → told (⟨p, x⟩ :: past) = told past := by
    intro htells
    rw [told, htells, List.append_nil]
  rcases h.ends with hphase | ⟨due, hphase⟩ | ⟨q, streams, hphase⟩
  · have hadvance : x.advance p = unwind p x .failed := by rw [advance, hphase]
    rw [Lived, hphase] at hlived
    cases hcompleted : x.context.completed with
    | nil =>
      obtain ⟨t, hnext⟩ := unwound_next p x .failed
      rw [hadvance, unwind, hcompleted] at hy
      dsimp only at hy
      rw [hnext] at hy
      obtain rfl := Option.some.inj hy
      refine h.of_slots (hstill ?_) rfl rfl rfl (.inr (.inl ⟨none, rfl⟩))
      rw [Moment.tells, hphase, hcompleted]
    | cons c rest =>
      rw [hadvance, unwind, hcompleted] at hy
      obtain rfl := Option.some.inj hy
      exact h.tell hphase hlived.2.1 hcompleted hquiet
  · have hadvance : x.advance p = drain p x due .failed := by rw [advance, hphase]
    have htells := hstill (Moment.tells_eq_nil (by rw [hphase]; rintro _ ⟨⟩))
    rw [hadvance, drain] at hy
    dsimp only at hy
    split at hy
    · obtain rfl := Option.some.inj hy
      exact h.of_slots htells rfl rfl rfl (.inr (.inr ⟨p, _, rfl⟩))
    · repeat' split at hy
      all_goals obtain rfl := Option.some.inj hy
      · exact h.of_slots htells rfl rfl rfl (.inr (.inl ⟨none, rfl⟩))
      · exact h.of_slots htells rfl rfl rfl (.inr (.inl ⟨_, rfl⟩))
      · exact h.of_slots htells rfl rfl rfl (.inr (.inl ⟨none, rfl⟩))
      · exact h.of_slots htells rfl rfl rfl (.inr (.inl ⟨_, hphase⟩))
  · exact absurd hphase (hopen _)

/-- **From the failure on**, to the end of the operation. -/
theorem Course.blaming {c : Nat} {operation : Value} {control : Control} {input : Input}
    {sink : Sink} (h : Course around p₀ (Execution.new c operation control input sink) past p x)
    (hslots : ∀ m ∈ past, ¬ m.FailsSlot) {m : Moment} (hm : m ∈ past) (hfails : m.Fails step e) :
    x.Blaming past step.slot (.string e.message) := by
  induction h with
  | start => cases hm
  | around _ _ ih => exact ih hslots hm
  | @turn past p x y h hopen hy ih =>
    rcases List.mem_cons.mp hm with rfl | hm
    · obtain ⟨s, w, hphase⟩ := steps_of_returned hfails.returns.choose_spec
      change x.phase = .handling s w at hphase
      have hrunning : x.phase.isClosed = false := by rw [hphase]; rfl
      exact blaming_of_fails (h.bounded (bounded_new c operation control input sink) hrunning)
        (h.lived (lived_new c operation control input sink)) (h.firstFailure rfl hrunning) hslots
        hfails hy
    · exact (ih (fun k hk => hslots k (List.mem_cons_of_mem _ hk)) hm).turn
        (h.lived (lived_new c operation control input sink)) (hslots _ List.mem_cons_self) hopen hy
  | @resume past p x h answer ih =>
    have hx := ih hslots hm
    rw [resume.eq_def]
    split
    · next hphase =>
      rcases hx.ends with hends | ⟨due, hends⟩ | ⟨q, streams, hends⟩ <;>
        cases hphase.symm.trans hends
    · exact hx

/-- A composite after which another step runs has lined its operations up. -/
theorem Course.linesUp {c : Nat} {operation : Value} {control : Control} {input : Input}
    {sink : Sink} (h : Course around p₀ (Execution.new c operation control input sink) past p x)
    {later earlier : List Moment} {m k : Moment} (hpast : past = later ++ m :: earlier)
    (hcomposes : m.composes = some step) (hk : k ∈ later) (hsteps : k.Steps) :
    ∃ ps, m.LinesUp step ps := by
  induction h generalizing later with
  | start => cases later <;> cases hpast
  | around _ _ ih => exact ih hpast hk
  | @turn past p x y h _ hy ih =>
    cases later with
    | nil => cases hk
    | cons head later =>
      obtain ⟨rfl, rfl⟩ := List.cons.inj hpast
      rcases List.mem_cons.mp hk with rfl | hk
      · obtain ⟨s, w, hphase⟩ := hsteps
        change x.phase = .handling s w at hphase
        have hopen : x.phase.isClosed = false := by rw [hphase]; rfl
        obtain ⟨ps, hlines, -⟩ := h.gathers hopen m
          (List.mem_append_right _ List.mem_cons_self) step hcomposes
        exact ⟨ps, hlines⟩
      · exact ih rfl hk
  | resume _ _ ih => exact ih hpast hk

/-- The response that an operation has ended with. -/
def response? (x : Execution) : Option Value :=
  match x.phase with
  | .ended (.ok (response, _)) => some response
  | _ => none

theorem exists_of_response? {response : Value} (h : x.response? = some response) :
    ∃ streams, x.phase = .ended (.ok (response, streams)) := by
  rw [response?] at h
  split at h
  · next response' streams hphase =>
    obtain rfl := Option.some.inj h
    exact ⟨streams, hphase⟩
  · cases h

/-- How the response of a composite, whose operations answer in `slots`, tells of a failure `v` in
slot `i`. -/
structure Names (past : List Moment) (slots : List (String × Nat)) (i : Nat) (v : Value)
    (x : Execution) (response : Value) : Prop where
  /-- The slots that have failed are those that the failure is charged to. -/
  charged : ∀ j, (x.context.slot j).isFailed = true ↔ Charged (registered past) i j
  here : (x.context.slot i).failure = some v
  /-- The operations whose slots have failed are named, each with the failure of its slot. -/
  names : (∃ q ∈ slots, Charged (registered past) i q.2) →
    response.get? Key.failureDescription = some (.string
      ("Composite operation failed and was rolled back. Steps that failed: "
        ++ (Value.object (Composite.failures x.context slots)).render))
  /-- Otherwise there is the failure alone. -/
  alone : i = rootSlot ∨ ¬ Charged (registered past) i rootSlot →
    response.get? Key.failureDescription = some v
  /-- Every operation is shown as failed and rolled back. -/
  result : response.get? Key.result = some (.object (slots.map fun q =>
    (q.1, Composite.rolledBackStep (x.context.slot q.2))))

/-- **A failed composite names the operations that the failure is charged to.**  The first that
completes is a composite that answers for the whole operation; later a step fails, and no response
is made fail by an instruction.  Then the response says which operations' slots have failed: the
slot of the step itself, and those of composites that it is charged to. -/
theorem Course.composite_names {c : Nat} {operation : Value} {control : Control} {input : Input}
    {sink : Sink} (h : Course around p₀ (Execution.new c operation control input sink) past p x)
    {answer : Answer} (hended : x.phase = .ended answer) (hslots : ∀ m ∈ past, ¬ m.FailsSlot)
    {later earlier : List Moment} {m k : Moment} {first : Step}
    (hpast : past = later ++ m :: earlier)
    (hcomposes : m.composes = some first) (hfirst : registered earlier = [])
    (hroot : first.slot = rootSlot) (hk : k ∈ later) (hfails : k.Fails step e) :
    ∃ ps, m.LinesUp first ps ∧ ∃ response streams, answer = .ok (response, streams) ∧
      x.Names past (m.slotsOf ps) step.slot (.string e.message) response := by
  have hlived := h.lived (lived_new c operation control input sink)
  have hm : k ∈ past := hpast ▸ List.mem_append_left _ hk
  have hblaming := h.blaming hslots hm hfails
  obtain ⟨ps, hlines⟩ := h.linesUp hpast hcomposes hk (steps_of_returned hfails.returns.choose_spec)
  refine ⟨ps, hlines, ?_⟩
  rw [Lived, hended] at hlived
  obtain ⟨⟨ending, -, -, htold⟩, hcompleted⟩ := hlived
  have hdone : (told past).map Prod.fst = (registered past).reverse := by
    rw [htold, List.map_map]
    exact List.map_id _
  have hlast : ((told past).map Prod.fst).getLast? =
      some (.reportSteps rootSlot (m.slotsOf ps)) := by
    rw [hdone, List.getLast?_reverse, hpast, registered_append, registered, hfirst,
      hlines.registers, hroot]
    rfl
  have hamends := hblaming.amends hcompleted _ hlast
  have hcharged : ∀ j, (x.context.slot j).isFailed = true ↔
      Charged (registered past) step.slot j := by
    intro j
    rw [hblaming.blames.charged, hdone]
    exact ⟨fun h => h.mono fun _ hc => List.mem_reverse.mp hc,
      fun h => h.mono fun _ hc => List.mem_reverse.mpr hc⟩
  rcases hblaming.ends with hphase | ⟨due, hphase⟩ | ⟨q, streams, hphase⟩
  · cases hended.symm.trans hphase
  · cases hended.symm.trans hphase
  · obtain rfl := Phase.ended.inj (hended.symm.trans hphase)
    refine ⟨_, _, rfl, hcharged, hblaming.blames.here, fun hnamed => ?_, fun halone => ?_, ?_⟩
    · rw [Response.get?_finish (by decide), Response.get?_failureDescription,
        hamends.failure ((Composite.failures_ne_nil_iff _ _).mpr ?_)]
      · rfl
      · exact hnamed.imp fun q hq => ⟨hq.1, (hcharged q.2).mpr hq.2⟩
    · rw [Response.get?_finish (by decide), Response.get?_failureDescription]
      rcases halone with hi | hnot
      · rw [← hi, hblaming.blames.here]
        rfl
      · have hnone : (x.context.slot rootSlot).failure = none := by
          have hfailed := mt (hcharged rootSlot).mp hnot
          rwa [ResponseSlot.isFailed, Option.not_isSome_iff_eq_none] at hfailed
        rw [hnone, hblaming.blames.first]
        rfl
    · rw [Response.get?_finish (by decide)]
      exact Response.get?_result hamends.result _ _

/-- A composite of two composites, of which the first is empty and a step of the second fails: the
second is charged with that, and named. -/
theorem composite_names_nested : ∃ past p x response streams slots i,
    Course (fun _ _ => False) (duo [.fail (.failed "no")])
      (composing [composed [], composed [go]]) past p x ∧
    x.phase = .ended (.ok (response, streams)) ∧ (∃ q ∈ slots, Charged (registered past) i q.2) ∧
    x.Names past slots i (.string "no") response := by
  have hrun : (alone (duo [.fail (.failed "no")]) (composing [composed [], composed [go]]) 17).any
      (fun reached => reached.2.2.hasEnded && (reached.1.all fun m => ¬ m.FailsSlot) &&
        ((reached.1.drop 14).head?.any fun m => m.composes.any (·.slot = rootSlot) &&
          m.registers.any fun c => c.reported.any (·.2 = 2)) &&
        (registered (reached.1.drop 14).tail).isEmpty &&
        ((reached.1.take 14).any fun k => k.failed?.any fun f => f.2.message = "no") &&
        (reached.2.2.context.slot 2).isFailed) = true := by
    decide +kernel
  obtain ⟨⟨past, p, x⟩, halone, hfacts⟩ := (Option.any_eq_true _ _).mp hrun
  simp only [Bool.and_eq_true, List.all_eq_true, List.any_eq_true, Option.any_eq_true,
    decide_eq_true_eq] at hfacts
  obtain ⟨⟨⟨⟨⟨hended, hslots⟩, m, hm, ⟨first, hcomposes, hroot⟩, c, hc, q, hq, hsecond⟩, hfirst⟩,
    k, hk, ⟨step, e⟩, hfails, hmessage⟩, hfailed⟩ := hfacts
  obtain ⟨earlier, hdrop⟩ := List.head?_eq_some_iff.mp hm
  have hpast : past = past.take 14 ++ m :: earlier := by rw [← hdrop, List.take_append_drop]
  rw [hdrop, List.tail_cons, List.isEmpty_iff] at hfirst
  obtain ⟨answer, hphase⟩ := exists_of_hasEnded hended
  have hcourse : Course (fun _ _ => False) _ _ past p x := course_alone halone
  obtain ⟨ps, hlines, response, streams, rfl, hnames⟩ := Course.composite_names hcourse hphase
    hslots hpast hcomposes hfirst hroot hk (Moment.fails_of_failed? hfails)
  rw [hlines.registers] at hc
  obtain rfl := List.mem_singleton.mp hc
  rw [show (step, e).2.message = "no" from hmessage] at hnames
  exact ⟨past, p, x, response, streams, _, _, hcourse, hphase,
    ⟨q, hq, (hnames.charged q.2).mp (hsecond ▸ hfailed)⟩, hnames⟩

/-- A composite of one step, which queues another one in a slot of its own.  That one fails, and the
composite does not name its step. -/
theorem composite_not_named : ∃ past p x response streams, Course (fun _ _ => False)
      (duo [.slot "x", .step .model [.fail (.failed "no")] none true (some "x")])
      (composing [go]) past p x ∧
    x.phase = .ended (.ok (response, streams)) ∧
    (∃ later m earlier first ps, past = later ++ m :: earlier ∧ m.composes = some first ∧
      m.LinesUp first ps ∧ ps.length = 1 ∧ ∃ k ∈ later, ∃ step e, k.Fails step e) ∧
    Response.failureText? response = some "no" := by
  have hrun : (alone (duo [.slot "x", .step .model [.fail (.failed "no")] none true (some "x")])
      (composing [go]) 15).any (fun reached => reached.2.2.hasEnded &&
        ((reached.1.drop 12).head?.any fun m => m.composes.any fun first =>
          (Composite.stepsOf first.operation).length = 1) &&
        ((reached.1.take 12).any fun k => k.failed?.isSome) &&
        (reached.2.2.response?.any fun response => Response.failureText? response = some "no"))
      = true := by
    decide +kernel
  obtain ⟨⟨past, p, x⟩, halone, hfacts⟩ := (Option.any_eq_true _ _).mp hrun
  simp only [Bool.and_eq_true, List.any_eq_true, Option.any_eq_true, decide_eq_true_eq] at hfacts
  obtain ⟨⟨⟨hended, m, hm, first, hcomposes, hsteps⟩, k, hk, hfails⟩, response, hresponse, htext⟩ :=
    hfacts
  obtain ⟨earlier, hdrop⟩ := List.head?_eq_some_iff.mp hm
  have hpast : past = past.take 12 ++ m :: earlier := by rw [← hdrop, List.take_append_drop]
  have hcourse : Course (fun _ _ => False) _ _ past p x := course_alone halone
  obtain ⟨⟨step, e⟩, hfailed⟩ := Option.isSome_iff_exists.mp hfails
  have hfails := Moment.fails_of_failed? hfailed
  obtain ⟨ps, hlines⟩ := hcourse.linesUp hpast hcomposes hk
    (steps_of_returned hfails.returns.choose_spec)
  obtain ⟨streams, hphase⟩ := exists_of_response? hresponse
  refine ⟨past, p, x, response, streams, hcourse, hphase, ⟨_, m, earlier, first, ps, hpast,
    hcomposes, hlines, ?_, k, hk, step, e, hfails⟩, htext⟩
  have hlength := congrArg List.length hlines.labels
  rwa [List.length_map, List.length_map, List.length_range', hsteps] at hlength

end Execution

end ManagementPlane
