import ManagementPlane.Proofs.Global.Upshot
import ManagementPlane.Proofs.Machine.Responses

/-!
# Proofs/Machine/Collecting — when a composite reports what its steps finally answered

A composite that runs lines its operations up, each with a response slot of its own, and behind them
a step that collects what these slots hold (`Moment.LinesUp`).  The collecting step runs in the
first stage; the operations may have queued steps that run later.

A slot that no waiting step reaches is not written any more (`Execution.Holds`).  So a composite
whose slot is spared answers what was collected, and an operation whose slot is spared is reported
with what it finally answered (`Moment.Reports`, `Execution.Course.composite_reports`).
-/

namespace ManagementPlane

open Context (Reaches)

/-! ## A slot that nothing reaches any more -/

namespace Context

/-- A step that answers in `slot` cannot come upon slot `i`. -/
def Misses (x : Context) (i slot : Nat) : Prop := ¬ x.Shared i ∧ slot ≠ i

/-- No step that waits reaches the slot: it answers nowhere, or elsewhere. -/
def Spares (x : Context) (i : Nat) : Prop :=
  ∀ stage, ∀ s ∈ x.queues.get stage, s.handler.isMute = true ∨ x.Misses i s.slot

variable {mute : Bool} {x z : Context} {i : Nat}

theorem not_within (hi : i < x.slots.length) (h : x.Misses i x.currentSlot) : ¬ x.Within z i := by
  rintro (heq | hshared | ⟨hle, -⟩)
  · exact h.2 heq.symm
  · exact h.1 hshared
  · exact absurd hi (Nat.not_lt.mpr hle)

theorem Reaches.misses (h : x.Reaches mute z) (hi : i < x.slots.length) {slot : Nat}
    (hmisses : x.Misses i slot) : z.Misses i slot :=
  ⟨fun hz => (h.shared hz).elim hmisses.1 fun hnew => absurd hi (Nat.not_lt.mpr hnew.1), hmisses.2⟩

theorem Reaches.spares (h : x.Reaches mute z) (hi : i < x.slots.length)
    (haway : mute = true ∨ x.Misses i x.currentSlot) (hx : x.Spares i) : z.Spares i := by
  intro stage s hs
  rcases h.queued stage s hs with hs | ⟨hwithin, hmute⟩
  · exact (hx stage s hs).imp_right (h.misses hi)
  · refine haway.imp hmute fun haway => ⟨(h.misses hi haway).1, ?_⟩
    rintro rfl
    exact not_within hi haway hwithin

end Context

namespace Execution

variable {p : Plane} {x y : Execution} {past : List Moment} {i own : Nat} {s : ResponseSlot}
  {slots : List (String × Nat)}

/-- The slot holds `s`, and nothing that is left to do reaches it. -/
structure Holds (x : Execution) (i : Nat) (s : ResponseSlot) : Prop where
  slot : x.context.slot i = s
  there : i < x.context.slots.length
  spared : x.context.Spares i
  running : ∀ step w, x.phase = .handling step w → w.Mute step ∨ x.context.Misses i step.slot
  opened : x.phase ≠ .opening

theorem holds_rest {z : Context} (hslot : z.slot i = s) (hthere : i < z.slots.length)
    (hspared : z.Spares i) : Holds { x with context := z, phase := .stepping } i s :=
  ⟨hslot, hthere, hspared, by rintro _ _ ⟨⟩, by rintro ⟨⟩⟩

/-- The running step keeps away from the slot. -/
theorem Holds.work {step : Step} {w : Work} (h : x.Holds i s) (hb : x.Bounded)
    (hphase : x.phase = .handling step w) (hy : (work p x step w).next.after? = some y)
    (hopen : y.phase.isClosed = false) : y.Holds i s := by
  have hgoes : ∀ mute, (mute = true → w.Mute step) →
      (mute = true ∨ x.context.Misses i step.slot) → y.Holds i s := by
    intro mute hw haway
    have hcurrent : mute = true ∨ x.context.Misses i x.context.currentSlot := by
      rwa [(hb.running step w hphase).1]
    have hkept : ∀ {z : Context}, x.context.Reaches mute z → z.slot i = s ∧
        i < z.slots.length ∧ z.Spares i := fun hz =>
      ⟨(hz.slots i (hcurrent.imp_right (Context.not_within h.there))).trans h.slot,
        Nat.lt_of_lt_of_le h.there hz.length, hz.spares h.there hcurrent h.spared⟩
    cases responds_work hphase hw hy with
    | goes hz hw' =>
      obtain ⟨hslot, hthere, hspared⟩ := hkept hz
      refine ⟨hslot, hthere, hspared, ?_, by rintro ⟨⟩⟩
      rintro _ _ ⟨⟩
      exact haway.imp hw' (hz.misses h.there)
    | rests hz =>
      obtain ⟨hslot, hthere, hspared⟩ := hkept hz
      exact holds_rest hslot hthere hspared
    | closes hclosed => cases hopen.symm.trans hclosed
  rcases h.running step w hphase with hmute | hmisses
  · exact hgoes true (fun _ => hmute) (.inl rfl)
  · exact hgoes false (by rintro ⟨⟩) (.inr hmisses)

/-- **A slot that nothing reaches is left alone** by a turn. -/
theorem Holds.turn (h : x.Holds i s) (hb : x.Bounded) (hy : (x.advance p).next.after? = some y)
    (hopen : y.phase.isClosed = false) : y.Holds i s := by
  cases proceeds_advance hy hopen with
  | opens hphase => exact absurd hphase h.opened
  | stands hslots hlabels hqueues _ hphase hopened =>
    refine ⟨?_, hslots ▸ h.there, fun stage s hs => ?_,
      fun step w hw => absurd hw (hphase step w), hopened⟩
    · rw [← h.slot, Context.slot, Context.slot, hslots]
    · rw [Context.Misses, Context.Shared, hlabels]
      exact h.spared stage s (hqueues ▸ hs)
  | @picks step rest hqueue =>
    refine ⟨h.slot, h.there, fun stage s hs => ?_, ?_, by rintro ⟨⟩⟩
    · change s ∈ (x.context.queues.set rest x.context.stage).get stage at hs
      rw [Queues.get_set] at hs
      split at hs
      · exact h.spared _ s (hqueue ▸ List.mem_cons_of_mem _ hs)
      · exact h.spared stage s hs
    · rintro _ _ ⟨⟩
      exact h.spared _ _ (hqueue ▸ List.mem_cons_self)
  | works hphase hwork => exact h.work hb hphase hwork hopen
  | blocks => exact h

theorem Holds.resume (h : x.Holds i s) (p : Plane) (answer : Answer) :
    (x.resume p answer).2.Holds i s := by
  rw [resume.eq_def]
  split
  · next hphase =>
    refine ⟨h.slot, h.there, h.spared, ?_, by rintro ⟨⟩⟩
    rintro _ _ ⟨⟩
    have hrunning := h.running _ _ hphase
    exact hrunning
  · exact h

end Execution

/-! ## What a composite lines up -/

namespace Moment

/-- The composite that the turn begins. -/
def composes (m : Moment) : Option Step :=
  match m.execution.phase with
  | .handling step .begin =>
    match step.handler with
    | .global .composite => some step
    | _ => none
  | _ => none

/-- The slot of the composite whose answers the turn collects, and those of its operations. -/
def collects (m : Moment) : Option (Nat × List (String × Nat)) :=
  match m.execution.phase with
  | .handling step .begin =>
    match step.handler with
    | .collect slots => some (step.slot, slots)
    | _ => none
  | _ => none

/-- The slots that the turn gives the operations of a composite, under their labels. -/
def slotsOf (m : Moment) (ps : List Composite.Planned) : List (String × Nat) :=
  Composite.labelled ps m.execution.context.slots.length

/-- The turn lines up the operations `ps` of the composite `step`: they are to run next, each in a
slot of its own, and after them what collects their answers. -/
structure LinesUp (m : Moment) (step : Step) (ps : List Composite.Planned) : Prop where
  plan : Composite.plan (m.plane.registration m.execution.controller) step.address step.operation
    = .ok ps
  labels : ps.map (·.label) =
    (List.range' 0 (Composite.stepsOf step.operation).length).map Composite.label
  queued : ∀ y ∈ m.turn.next.after?, y.context.queues.model =
    (ps.zipIdx m.execution.context.slots.length).map (fun q => q.1.step q.2)
      ++ Composite.collecting ps m.execution.context.slots.length step.address step.slot
      :: m.execution.context.queues.model
  registers : m.registers = [.reportSteps step.slot (m.slotsOf ps)]

theorem composes_eq_some {m : Moment} {step : Step} (h : m.composes = some step) :
    m.execution.phase = .handling step .begin ∧ step.handler = .global .composite := by
  rw [composes] at h
  split at h
  · next hphase =>
    split at h
    · next hhandler =>
      obtain rfl := Option.some.inj h
      exact ⟨hphase, hhandler⟩
    · cases h
  · cases h

theorem collects_of_phase {p : Plane} {x : Execution} {step : Step} {slots : List (String × Nat)}
    (hphase : x.phase = .handling step .begin) (hhandler : step.handler = .collect slots) :
    (Moment.mk p x).collects = some (step.slot, slots) := by
  rw [collects]
  dsimp only
  rw [hphase]
  dsimp only
  rw [hhandler]

end Moment

namespace Composite

variable {r : Registration} {base : Address} {operation : Value} {x y : Context}
  {ps : List Planned}

theorem addressOf_of_plan (h : plan r base operation = .ok ps) :
    ∀ o ∈ ps, Operation.addressOf o.operation = .ok o.address := by
  intro o ho
  obtain ⟨step, -, name, relative, resolved, -, -, hoperation, -⟩ :=
    exists_of_mem_planFrom (planFrom_of_plan h) o ho
  have ha : Operation.addressOf o.operation = .ok (base ++ relative) := by
    rw [hoperation, Operation.addressOf_set]
  rw [Planned.address, ha]

/-- A composite needs the first stage for what it queues. -/
theorem error_of_late (hstage : x.stage ≠ .model)
    (hplan : plan r x.currentAddress operation = .ok ps) :
    ∃ e y, (run r operation).run.run x = (.error e, y) := by
  have hover : Stage.model < x.stage := by
    cases hx : x.stage with
    | model => exact absurd hx hstage
    | _ => decide
  have hlate : ∀ (y : Context) (handler : Handler) (v : Value), y.stage = x.stage →
      ∃ e, (Act.addStepFirst handler v .model).run.run y = (.error e, y) := by
    intro y handler v hy
    show ∃ e, (Act.queue handler v .model y.currentSlot true).run.run y = (.error e, y)
    rw [Act.queue, Act.run_attempt, Context.queueStep, if_pos (hy ▸ hover)]
    exact ⟨_, rfl⟩
  rw [run, run_get]
  dsimp only
  rw [hplan]
  show ∃ e y, ((modifyGet (allot ps) : Act _) >>= fun allotted =>
    Act.addStepFirst (.collect (allotted.map fun q => (q.1.label, q.2)))
      (Operation.build "collect-composite-results" x.currentAddress) .model >>= fun _ =>
    queueFront allotted >>= fun _ =>
    Act.complete (.reportSteps x.currentSlot (allotted.map fun q => (q.1.label, q.2)))).run.run x
    = (.error e, y)
  rw [run_bind, run_allot]
  dsimp only
  rw [run_bind]
  obtain ⟨e, he⟩ := hlate { x with slots := x.slots ++ List.replicate ps.length {} }
    (.collect ((ps.zipIdx x.slots.length).map fun q => (q.1.label, q.2)))
    (Operation.build "collect-composite-results" x.currentAddress) rfl
  rw [he]
  exact ⟨e, _, rfl⟩

/-- A composite that does not fail runs in the first stage and has a plan. -/
theorem exists_of_run (h : (run r operation).run.run x = (.ok (), y)) :
    x.stage = .model ∧ ∃ ps, plan r x.currentAddress operation = .ok ps := by
  cases hplan : plan r x.currentAddress operation with
  | error e => cases (run_refused rfl hplan).symm.trans h
  | ok ps =>
    refine ⟨Classical.byContradiction fun hstage => ?_, ps, rfl⟩
    obtain ⟨e, z, hz⟩ := error_of_late hstage hplan
    cases hz.symm.trans h

end Composite

namespace Execution

variable {around : Plane → Plane → Prop} {p₀ p : Plane} {x y : Execution} {past : List Moment}
  {step : Step} {own : Nat} {slots : List (String × Nat)}

/-- **A composite that does not end the pipeline** has lined its operations up. -/
theorem exists_of_composite (hphase : x.phase = .handling step .begin)
    (hhandler : step.handler = .global .composite) (hbusy : x.context.Busy step .begin)
    (hy : (x.advance p).next.after? = some y) (hopen : y.phase.isClosed = false) :
    ∃ ps, Composite.plan (p.registration x.controller) step.address step.operation = .ok ps ∧
      y = x.queued ps step.address step.slot x.context.queues.model := by
  obtain ⟨⟨address, slot, completed⟩, ha, haddress, hslot, hfresh⟩ := hbusy.active
  obtain rfl : address = step.address := haddress
  obtain rfl : slot = step.slot := hslot
  obtain rfl : completed = false := hfresh rfl
  have hactive : x.context.active = some { address := step.address, slot := step.slot } := ha
  have haddress : x.context.currentAddress = step.address := by
    rw [Context.currentAddress, hactive]
    rfl
  have hdeed : step.handler.deed? step.operation = some (do
      let s ← get
      Deed.act (GlobalOperation.run .composite (s.plane.registration s.controller)
        step.operation)) := by
    rw [hhandler]
    rfl
  generalize hout : (Composite.run (p.registration x.controller) step.operation).run.run x.context
    = out
  have hnext : (x.advance p).next = .returned { x with context := out.2 } step out.1 := by
    have hadvance : x.advance p = work p x step .begin := by rw [advance, hphase]
    rw [hadvance, work_deed hdeed, run_get, Deed.run_act, GlobalOperation.run, hout]
  rw [hnext] at hy
  obtain rfl := Option.some.inj hy
  rcases phase_afterStep { x with context := out.2 } step out.1 with ⟨hok, -⟩ | ⟨e, hclosed, -⟩
  · have hrun : (Composite.run (p.registration x.controller) step.operation).run.run x.context
        = (.ok (), out.2) := hout.trans (Prod.ext hok rfl)
    obtain ⟨hstage, ps, hplan⟩ := Composite.exists_of_run hrun
    rw [haddress] at hplan
    have hcontext := congrArg Prod.snd (hrun.symm.trans
      (Composite.run_run hstage hactive hplan (Composite.addressOf_of_plan hplan)))
    refine ⟨ps, hplan, ?_⟩
    rcases out.2.endStep_cases step out.1 with ⟨hnone, -, -, -, hrest⟩ | ⟨hsome, -⟩ |
      ⟨⟨reason, hsome⟩, -⟩
    · rw [afterStep_of_none hnone, hrest, hcontext]
      rfl
    · rw [afterStep_of_some hsome] at hopen
      cases hopen
    · rw [afterStep_of_some hsome] at hopen
      cases hopen
  · rw [hclosed] at hopen
    cases hopen

/-! ## The slots of a composite -/

/-- What has become of what collects the answers of a composite. -/
inductive Gathering (past : List Moment) (own : Nat) (slots : List (String × Nat))
    (x : Execution) : Prop
  | waits {step : Step} (stage : Stage) (hstep : step ∈ x.context.queues.get stage)
    (hhandler : step.handler = .collect slots) (hslot : step.slot = own)
  | starts {step : Step} (hphase : x.phase = .handling step .begin)
    (hhandler : step.handler = .collect slots) (hslot : step.slot = own)
  /-- It ran at `k`, and the slots that were spared then are as it left them. -/
  | done {k : Moment} (hk : k ∈ past) (hcollects : k.collects = some (own, slots))
    (hown : k.execution.context.Spares own → x.Holds own
      { k.execution.context.slot own with
        result := Composite.results k.execution.context slots })
    (hslots : ∀ q ∈ slots, k.execution.context.Spares q.2 →
      x.Holds q.2 (k.execution.context.slot q.2))

/-- A composite of slot `own` began before, and its operations answer in `slots`. -/
structure Gathers (past : List Moment) (own : Nat) (slots : List (String × Nat))
    (x : Execution) : Prop where
  opened : x.phase ≠ .opening
  newer : ∀ q ∈ slots, own < q.2 ∧ q.2 < x.context.slots.length
  gathering : Gathering past own slots x

/-- While the pipeline lasts, slots stay, and the operation does not open again. -/
theorem lasting_advance (hx : x.phase ≠ .opening) (hy : (x.advance p).next.after? = some y)
    (hopen : y.phase.isClosed = false) :
    y.phase ≠ .opening ∧ x.context.slots.length ≤ y.context.slots.length := by
  cases proceeds_advance hy hopen with
  | opens hphase => exact absurd hphase hx
  | stands hslots _ _ _ _ hopened =>
      exact ⟨hopened, Nat.le_of_eq (congrArg List.length hslots).symm⟩
  | picks => exact ⟨by rintro ⟨⟩, le_rfl⟩
  | works hphase hwork =>
    cases responds_of_work hphase hwork with
    | goes hz => exact ⟨by rintro ⟨⟩, hz.length⟩
    | rests hz => exact ⟨by rintro ⟨⟩, hz.length⟩
    | closes hclosed => cases hopen.symm.trans hclosed
  | blocks => exact ⟨hx, le_rfl⟩

/-- The collecting step writes what the slots hold, and nothing else. -/
theorem Gathering.collect (hb : x.Bounded) (hnewer : ∀ q ∈ slots, own < q.2 ∧
      q.2 < x.context.slots.length) (hphase : x.phase = .handling step .begin)
    (hhandler : step.handler = .collect slots) (hslot : step.slot = own)
    (hy : (work p x step .begin).next.after? = some y) (hopen : y.phase.isClosed = false) :
    Gathering (⟨p, x⟩ :: past) own slots y := by
  obtain ⟨hcurrent, hthere⟩ := hb.running step .begin hphase
  rw [hslot] at hcurrent hthere
  have hdeed : step.handler.deed? step.operation
      = some (Deed.onContext fun c => c.setResult (Composite.results c slots)) := by
    rw [hhandler]
    rfl
  rw [work_deed hdeed] at hy
  obtain rfl := Option.some.inj hy
  set z := x.context.setResult (Composite.results x.context slots) with hz
  have hopen' : ({ x with context := z }.afterStep step (.ok ())).phase.isClosed = false := hopen
  have hafter : { x with context := z }.afterStep step (.ok ()) =
      { x with context := { z with active := none }, phase := .stepping } := by
    rcases z.endStep_cases step (.ok ()) with ⟨hnone, -, -, -, hrest⟩ | ⟨hsome, -⟩ |
      ⟨⟨reason, hsome⟩, -⟩
    · rw [afterStep_of_none hnone, hrest]
    · rw [afterStep_of_some (x := { x with context := z }) hsome] at hopen'
      cases hopen'
    · rw [afterStep_of_some (x := { x with context := z }) hsome] at hopen'
      cases hopen'
  show Gathering (⟨p, x⟩ :: past) own slots ({ x with context := z }.afterStep step (.ok ()))
  rw [hafter]
  have hlength : z.slots.length = x.context.slots.length := List.length_modify _ _ _
  refine .done List.mem_cons_self ?_ (fun hspares => holds_rest ?_ (hlength ▸ hthere) hspares)
    fun q hq hspares => holds_rest ?_ (hlength ▸ (hnewer q hq).2) hspares
  · rw [Moment.collects_of_phase hphase hhandler, hslot]
  · show z.slot own = _
    rw [hz, Context.setResult, hcurrent, Context.slot_modifySlot_self _ hthere]
  · refine x.context.slot_modifySlot_ne _ ?_
    rw [hcurrent]
    exact Nat.ne_of_lt (hnewer q hq).1

theorem Gathering.turn (h : Gathering past own slots x) (hb : x.Bounded)
    (hopened : x.phase ≠ .opening)
    (hnewer : ∀ q ∈ slots, own < q.2 ∧ q.2 < x.context.slots.length)
    (hy : (x.advance p).next.after? = some y) (hopen : y.phase.isClosed = false) :
    Gathering (⟨p, x⟩ :: past) own slots y := by
  cases h with
  | @waits step stage hstep hhandler hslot =>
    cases proceeds_advance hy hopen with
    | opens hphase => exact absurd hphase hopened
    | stands _ _ hqueues => exact .waits stage (hqueues ▸ hstep) hhandler hslot
    | @picks next rest hqueue =>
      by_cases hstage : stage = x.context.stage
      · subst hstage
        rw [hqueue] at hstep
        rcases List.mem_cons.mp hstep with rfl | hrest
        · exact .starts rfl hhandler hslot
        · refine .waits x.context.stage ?_ hhandler hslot
          show step ∈ (x.context.queues.set rest x.context.stage).get x.context.stage
          rwa [Queues.get_set, if_pos rfl]
      · refine .waits stage ?_ hhandler hslot
        show step ∈ (x.context.queues.set rest x.context.stage).get stage
        rwa [Queues.get_set, if_neg hstage]
    | works _ hwork =>
      obtain ⟨es, hes⟩ := (queued_work hwork).queues
      exact .waits stage (hes ▸ Queues.mem_get_addAll hstep es) hhandler hslot
    | blocks => exact .waits stage hstep hhandler hslot
  | @starts step hphase hhandler hslot =>
    have hadvance : x.advance p = work p x step .begin := by rw [advance, hphase]
    exact .collect hb hnewer hphase hhandler hslot (hadvance ▸ hy) hopen
  | done hk hcollects hown hslots =>
    exact .done (List.mem_cons_of_mem _ hk) hcollects (fun hs => (hown hs).turn hb hy hopen)
      fun q hq hs => (hslots q hq hs).turn hb hy hopen

theorem Gathers.turn (h : x.Gathers past own slots) (hb : x.Bounded)
    (hy : (x.advance p).next.after? = some y) (hopen : y.phase.isClosed = false) :
    y.Gathers (⟨p, x⟩ :: past) own slots := by
  obtain ⟨hopened, hlength⟩ := lasting_advance h.opened hy hopen
  exact ⟨hopened, fun q hq => ⟨(h.newer q hq).1, Nat.lt_of_lt_of_le (h.newer q hq).2 hlength⟩,
    h.gathering.turn hb h.opened h.newer hy hopen⟩

theorem Gathers.resume (h : x.Gathers past own slots) (p : Plane) (answer : Answer) :
    (x.resume p answer).2.Gathers past own slots := by
  have hresumes : ∀ {i s}, x.Holds i s → (x.resume p answer).2.Holds i s := fun hi =>
    hi.resume p answer
  rw [resume.eq_def] at hresumes ⊢
  split at hresumes
  · next hphase =>
    refine ⟨by rintro ⟨⟩, h.newer, ?_⟩
    cases h.gathering with
    | waits stage hstep hhandler hslot => exact .waits stage hstep hhandler hslot
    | starts hstart => cases hphase.symm.trans hstart
    | done hk hcollects hown hslots =>
      exact .done hk hcollects (fun hs => hresumes (hown hs)) fun q hq hs =>
        hresumes (hslots q hq hs)
  · exact h

theorem Gathers.of_composite {ps : List Composite.Planned} (hb : x.Bounded)
    (hphase : x.phase = .handling step .begin) :
    (x.queued ps step.address step.slot x.context.queues.model).Gathers past step.slot
      ((Moment.mk p x).slotsOf ps) where
  opened := by rintro ⟨⟩
  newer := by
    intro q hq
    obtain ⟨⟨o, i⟩, hi, rfl⟩ := List.mem_map.mp hq
    obtain ⟨hle, hlt⟩ := mem_zipIdx_new rfl (o, i) hi
    exact ⟨Nat.lt_of_lt_of_le (hb.running step .begin hphase).2 hle, hlt⟩
  gathering := .waits .model (List.mem_append_right _ List.mem_cons_self) rfl rfl

/-- While the pipeline lasts, every composite has lined its operations up, and what collects their
answers waits or has run. -/
theorem Course.gathers {c : Nat} {operation : Value} {control : Control} {input : Input}
    {sink : Sink} (h : Course around p₀ (Execution.new c operation control input sink) past p x)
    (hopen : x.phase.isClosed = false) : ∀ m ∈ past, ∀ step, m.composes = some step →
      ∃ ps, m.LinesUp step ps ∧ x.Gathers past step.slot (m.slotsOf ps) := by
  induction h with
  | start => rintro _ ⟨⟩
  | around _ _ ih => exact ih hopen
  | @turn past p x y h hrunning hy ih =>
    have hstill := (goes_advance hy).isClosed hopen
    have hb := h.bounded (bounded_new c operation control input sink) hstill
    intro m hm step hcomposes
    rcases List.mem_cons.mp hm with rfl | hm
    · obtain ⟨hphase, hhandler⟩ := Moment.composes_eq_some hcomposes
      have hlived := h.lived (lived_new c operation control input sink)
      rw [Lived, hphase] at hlived
      obtain ⟨ps, hplan, rfl⟩ := exists_of_composite hphase hhandler hlived.2 hy hopen
      refine ⟨ps, ⟨hplan, Composite.labels_planFrom (Composite.planFrom_of_plan hplan), ?_, ?_⟩,
        .of_composite hb hphase⟩
      · intro y hy'
        obtain rfl := Option.some.inj (hy.symm.trans hy')
        rfl
      · exact Moment.registers_eq (m := ⟨p, x⟩) hy (show _ =
          [Completion.reportSteps step.slot ((Moment.mk p x).slotsOf ps)] ++ x.context.completed
          from rfl)
    · obtain ⟨ps, hlines, hgathers⟩ := ih hstill m hm step hcomposes
      exact ⟨ps, hlines, hgathers.turn hb hy hopen⟩
  | resume h answer ih =>
    intro m hm step hcomposes
    obtain ⟨ps, hlines, hgathers⟩ :=
      ih ((isClosed_resume _ _ answer).symm.trans hopen) m hm step hcomposes
    exact ⟨ps, hlines, hgathers.resume _ answer⟩

end Execution

/-- What a composite of slot `own`, whose operations answer in `slots`, reports when `m` commits:
the answers collected at `k`, and they still stand for every operation whose slot was spared
then. -/
structure Moment.Reports (k m : Moment) (own : Nat) (slots : List (String × Nat)) : Prop where
  collects : k.collects = some (own, slots)
  collected : k.execution.context.Spares own →
    (m.execution.context.slot own).result = Composite.results k.execution.context slots
  stands : ∀ q ∈ slots, k.execution.context.Spares q.2 →
    m.execution.context.slot q.2 = k.execution.context.slot q.2

namespace Moment

variable {m : Moment}

/-- Whether all steps that wait are mute. -/
def isMute (m : Moment) : Bool :=
  [Stage.model, .runtime, .verify, .done].all fun stage =>
    (m.execution.context.queues.get stage).all (·.handler.isMute)

theorem spares_of_isMute (h : m.isMute = true) (i : Nat) : m.execution.context.Spares i := by
  intro stage s hs
  have hstage := List.all_eq_true.mp h stage (by cases stage <;> decide)
  exact .inl (List.all_eq_true.mp hstage s hs)

theorem Commits.isDeciding (h : m.Commits) : m.execution.phase.isDeciding = true := by
  obtain ⟨handle, due, hphase, -⟩ := h.decided
  rw [hphase]
  rfl

end Moment

namespace Execution

variable {around : Plane → Plane → Prop} {p₀ p : Plane} {x : Execution} {past : List Moment}
  {m : Moment} {own : Nat} {slots : List (String × Nat)}

/-- When the operation commits, nothing waits to collect answers any more. -/
theorem Gathers.reports (h : x.Gathers past own slots) (hcommits : (Moment.mk p x).Commits) :
    ∃ k ∈ past, k.Reports ⟨p, x⟩ own slots := by
  cases h.gathering with
  | waits stage hstep =>
    have hempty : x.context.queues.get stage = [] := hcommits.empty stage
    rw [hempty] at hstep
    cases hstep
  | starts hphase =>
    obtain ⟨handle, due, hdeciding, -⟩ := hcommits.decided
    cases hphase.symm.trans hdeciding
  | @done k hk hcollects hown hslots =>
    exact ⟨k, hk, hcollects, fun hs => by rw [(hown hs).slot], fun q hq hs => (hslots q hq hs).slot⟩

theorem Course.reports {c : Nat} {operation : Value} {control : Control} {input : Input}
    {sink : Sink} (h : Course around p₀ (Execution.new c operation control input sink) past p x) :
    ∀ m ∈ past, ∀ m' ∈ past, m'.Commits → ∀ step, m.composes = some step →
      ∃ ps, m.LinesUp step ps ∧ ∃ k ∈ past, k.Reports m' step.slot (m.slotsOf ps) := by
  induction h with
  | start => rintro _ ⟨⟩
  | around _ _ ih => exact ih
  | @turn past p x y h hrunning hy ih =>
    intro m hm m' hm' hcommits step hcomposes
    rcases List.mem_cons.mp hm' with rfl | hm'
    · obtain ⟨handle, due, hdeciding, -⟩ := hcommits.decided
      have hopen : x.phase.isClosed = false := by
        rw [show x.phase = .deciding handle due from hdeciding]
        rfl
      rcases List.mem_cons.mp hm with rfl | hm
      · cases (Moment.composes_eq_some hcomposes).1.symm.trans hdeciding
      · obtain ⟨ps, hlines, hgathers⟩ := h.gathers hopen m hm step hcomposes
        obtain ⟨k, hk, hreports⟩ := hgathers.reports hcommits
        exact ⟨ps, hlines, k, List.mem_cons_of_mem _ hk, hreports⟩
    · rcases List.mem_cons.mp hm with rfl | hm
      · -- nothing runs after the commit
        have hlived := h.lived (lived_new c operation control input sink)
        rw [Lived, (Moment.composes_eq_some hcomposes).1] at hlived
        exact absurd hcommits (hlived.1.uncommitted m' hm')
      · obtain ⟨ps, hlines, k, hk, hreports⟩ := ih m hm m' hm' hcommits step hcomposes
        exact ⟨ps, hlines, k, List.mem_cons_of_mem _ hk, hreports⟩
  | resume _ _ ih => exact ih

/-- **A composite reports what its steps finally answered**, as far as nothing that waits reaches
their slots, or its own, when their answers are collected.  Among whatever else goes on, and
wherever in the operation the composite is, the operations of its plan answer in the slots that it
gave them; their answers are collected at some turn `k`. -/
theorem Course.composite_reports {c : Nat} {operation : Value} {control : Control} {input : Input}
    {sink : Sink} (h : Course around p₀ (Execution.new c operation control input sink) past p x)
    {m m' : Moment} (hm : m ∈ past) (hm' : m' ∈ past) {step : Step}
    (hcomposes : m.composes = some step) (hcommits : m'.Commits) :
    ∃ ps, m.LinesUp step ps ∧ ∃ k ∈ past, k.Reports m' step.slot (m.slotsOf ps) ∧
      (k.execution.context.Spares step.slot →
        (∀ q ∈ m.slotsOf ps, k.execution.context.Spares q.2) →
        (m'.execution.context.slot step.slot).result =
          Composite.results m'.execution.context (m.slotsOf ps)) := by
  obtain ⟨ps, hlines, k, hk, hreports⟩ := h.reports m hm m' hm' hcommits step hcomposes
  refine ⟨ps, hlines, k, hk, hreports, fun hown hslots => ?_⟩
  rw [hreports.collected hown, Composite.results, Composite.results]
  refine congrArg Value.object (List.map_congr_left fun q hq => ?_)
  exact congrArg (fun slot : ResponseSlot => (q.1, slot.toValue false))
    (hreports.stands q hq (hslots q hq)).symm

/-- A plane with one controller, which knows composites and has one more operation, `go`. -/
def duo (body : Script) : Plane where
  controllers := [{
    name := "main"
    registration := { Registration.root "" with
      operations := [(GlobalOperation.composite.name, GlobalOperation.composite.entry),
        ("go", { definition := { name := "go" }, handler := .script body })] }
    tree := { root := {} } }]
  processes := [.running]

/-- The operation `go`. -/
def go : Value := .object [(Key.operation, .string "go")]

/-- A composite at the root. -/
def composed (steps : List Value) : Value :=
  .object [(Key.operation, .string GlobalOperation.composite.name), (Key.steps, .list steps)]

/-- A composite that is to be kept. -/
def composing (steps : List Value) : Execution :=
  Execution.new 0 (composed steps) (.decide .keep) {} .discard

/-- A composite whose step queues another one that only logs: it reports what its step answered. -/
theorem composite_reports_logging : ∃ past p x, Course (fun _ _ => False)
      (duo [.result (.string "early"), .step .runtime [.log "late"] none false none])
      (composing [go]) past p x ∧
    ∃ m ∈ past, m.Commits ∧ (m.execution.context.slot 0).result =
      Composite.results m.execution.context [(Composite.label 0, 1)] := by
  have hrun : (alone (duo [.result (.string "early"), .step .runtime [.log "late"] none false none])
      (composing [go]) 24).any (fun reached => reached.2.2.succeeded &&
        (reached.1.any fun m => m.composes.isSome) && reached.1.all fun k =>
          k.collects.isNone || k.collects = some (0, [(Composite.label 0, 1)]) && k.isMute)
      = true := by decide +kernel
  obtain ⟨⟨past, p, x⟩, halone, hfacts⟩ := (Option.any_eq_true _ _).mp hrun
  simp only [Bool.and_eq_true, List.any_eq_true, List.all_eq_true] at hfacts
  obtain ⟨⟨hsucceeded, m, hm, hcomposes⟩, hcollects⟩ := hfacts
  have hcourse : Course (fun _ _ => False) _ _ past p x := course_alone halone
  obtain ⟨answer, hphase, hsucceeds⟩ := exists_of_succeeded hsucceeded
  obtain ⟨m', hm', hcommits⟩ := (hcourse.lived (lived_new _ _ _ _ _)).commits hphase hsucceeds
  obtain ⟨step, hstep⟩ := Option.isSome_iff_exists.mp hcomposes
  obtain ⟨ps, -, k, hk, hreports, hfinal⟩ := Course.composite_reports hcourse hm hm' hstep hcommits
  have hk := hcollects k hk
  rw [hreports.collects] at hk
  simp only [Option.isNone_some, Bool.false_or, Bool.and_eq_true, decide_eq_true_eq,
    Option.some.injEq, Prod.mk.injEq] at hk
  obtain ⟨⟨hown, hslots⟩, hmute⟩ := hk
  rw [hown, hslots] at hfinal
  exact ⟨past, p, x, hcourse, m', hm', hcommits, hfinal (Moment.spares_of_isMute hmute _)
    fun q _ => Moment.spares_of_isMute hmute _⟩

/-- A composite whose step queues another one that answers as well, in a later stage: when the
composite commits, its result is not what its step finally answered. -/
theorem composite_not_final : ∃ past p x, Course (fun _ _ => False)
      (duo [.result (.string "early"), .step .runtime [.result (.string "late")] none false none])
      (composing [go]) past p x ∧
    ∃ m ∈ past, ∃ m' ∈ past, ∃ step ps, m.composes = some step ∧ m.LinesUp step ps ∧ m'.Commits ∧
      (m'.execution.context.slot step.slot).result ≠
        Composite.results m'.execution.context (m.slotsOf ps) := by
  have hrun : (alone (duo [.result (.string "early"),
        .step .runtime [.result (.string "late")] none false none]) (composing [go]) 24).any
      (fun reached => reached.2.2.succeeded && (reached.1.any fun m => m.composes.isSome) &&
        reached.1.all fun k =>
          (k.collects.isNone || k.collects = some (0, [(Composite.label 0, 1)])) &&
          (!k.execution.phase.isDeciding || (k.execution.context.slot 0).result.render !=
            (Composite.results k.execution.context [(Composite.label 0, 1)]).render))
      = true := by decide +kernel
  obtain ⟨⟨past, p, x⟩, halone, hfacts⟩ := (Option.any_eq_true _ _).mp hrun
  simp only [Bool.and_eq_true, List.any_eq_true, List.all_eq_true] at hfacts
  obtain ⟨⟨hsucceeded, m, hm, hcomposes⟩, hall⟩ := hfacts
  have hcourse : Course (fun _ _ => False) _ _ past p x := course_alone halone
  obtain ⟨answer, hphase, hsucceeds⟩ := exists_of_succeeded hsucceeded
  obtain ⟨m', hm', hcommits⟩ := (hcourse.lived (lived_new _ _ _ _ _)).commits hphase hsucceeds
  obtain ⟨step, hstep⟩ := Option.isSome_iff_exists.mp hcomposes
  obtain ⟨ps, hlines, k, hk, hreports⟩ := Course.reports hcourse m hm m' hm' hcommits step hstep
  have hk := (hall k hk).1
  rw [hreports.collects] at hk
  simp only [Option.isNone_some, Bool.false_or, decide_eq_true_eq, Option.some.injEq,
    Prod.mk.injEq] at hk
  obtain ⟨hown, hslots⟩ := hk
  refine ⟨past, p, x, hcourse, m, hm, m', hm', step, ps, hstep, hlines, hcommits, fun heq => ?_⟩
  rw [hown, hslots] at heq
  have hlate := (hall m' hm').2
  rw [hcommits.isDeciding, heq] at hlate
  simp at hlate

end Execution

end ManagementPlane
