import ManagementPlane.Proofs.Global.Slots
import ManagementPlane.Proofs.Machine.Intent
import ManagementPlane.Proofs.Machine.Stages

/-!
# Proofs/Machine/Responses — which response slots a turn can reach

A turn of a running step leaves the operation with a context that is within reach of the step
(`Execution.responds_work`), until the pipeline comes to its end.  So every slot that a label or a
step refers to exists (`Execution.Bounded`), and whatever is given a slot of its own can rely on
that slot being new.
-/

namespace ManagementPlane

open Context (Reaches)

/-! ## A running step -/

namespace Work

/-- What is left of the step leaves the responses alone. -/
def Mute (step : Step) : Work → Prop
  | begin => step.handler.isMute = true
  | running frames | acquiring _ frames | pausing _ _ _ frames | nesting frames =>
    ∀ f ∈ frames, Instruction.areMute f.rest = true
  | forwarding .. => False

end Work

namespace Execution

variable {p : Plane} {x y : Execution} {step : Step} {mute : Bool}

/-- How an operation goes on after a turn of a running step, as far as its responses go. -/
inductive Responds (mute : Bool) (x : Execution) (step : Step) : Execution → Prop
  | goes {z : Context} {w : Work} (hz : x.context.Reaches mute z) (hw : mute = true → w.Mute step) :
    Responds mute x step { x with context := z, phase := .handling step w }
  | rests {z : Context} (hz : x.context.Reaches mute z) :
    Responds mute x step { x with context := { z with active := none }, phase := .stepping }
  /-- The pipeline comes to its end. -/
  | closes {y : Execution} (hy : y.phase.isClosed = true) : Responds mute x step y

theorem responds_afterStep {z : Context} (hz : x.context.Reaches mute z)
    (out : Except OperationError Unit) :
    Responds mute x step ({ x with context := z }.afterStep step out) := by
  rw [afterStep]
  split
  · next context h =>
    rcases z.endStep_cases step out with ⟨-, -, -, -, heq⟩ | ⟨hsome, -⟩ | ⟨⟨reason, hsome⟩, -⟩
    · obtain rfl : context = { z with active := none } := (congrArg Prod.snd h).symm.trans heq
      exact .rests hz
    · cases (congrArg Prod.fst h).symm.trans hsome
    · cases (congrArg Prod.fst h).symm.trans hsome
  · exact .closes rfl

theorem mute_catching {frames rest : List Frame} (h : catching frames = some rest)
    (hmute : ∀ f ∈ frames, Instruction.areMute f.rest = true) :
    ∀ f ∈ rest, Instruction.areMute f.rest = true := by
  induction frames with
  | nil => cases h
  | cons f frames ih =>
    obtain ⟨-, hframes⟩ := List.forall_mem_cons.mp hmute
    rw [catching] at h
    split at h
    · obtain rfl := Option.some.inj h
      exact hframes
    · exact ih h hframes

/-- What a turn of a running step comes to. -/
inductive Answering (mute : Bool) (x : Execution) (step : Step) : Next → Prop
  | goes {z : Context} {w : Work} (hz : x.context.Reaches mute z) (hw : mute = true → w.Mute step) :
    Answering mute x step (.going { x with context := z, phase := .handling step w })
  | nests {z : Context} {w : Work} {operation : Value} (hz : x.context.Reaches mute z)
      (hw : mute = true → w.Mute step) :
    Answering mute x step (.nesting { x with context := z, phase := .handling step w } operation)
  | blocks {w : Work} (hphase : x.phase = .handling step w) (hw : mute = true → w.Mute step) :
    Answering mute x step (.blocked x)
  | returns {z : Context} {out : Except OperationError Unit} (hz : x.context.Reaches mute z) :
    Answering mute x step (.returned { x with context := z } step out)
  | crashes {reason : String} : Answering mute x step (.crashed reason)

theorem answering_recover {q : Plane} {z : Context} {frames : List Frame}
    (hz : x.context.Reaches mute z)
    (hmute : mute = true → ∀ f ∈ frames, Instruction.areMute f.rest = true) (e : OperationError) :
    Answering mute x step (recover q { x with context := z } step frames e).next := by
  rw [recover]
  split
  · next rest hcatch => exact .goes hz fun h => mute_catching hcatch (hmute h)
  · exact .returns hz

theorem reaches_withTransaction {z : Context} (hz : x.context.Reaches mute z) (t : Transaction) :
    x.context.Reaches mute { z with transaction := t } :=
  hz.trans (Context.reaches_of_eq rfl rfl rfl rfl rfl rfl)

theorem answering_runScript {frames : List Frame}
    (hmute : mute = true → ∀ f ∈ frames, Instruction.areMute f.rest = true) :
    Answering mute x step (runScript p x step frames).next := by
  match frames with
  | [] => exact .returns (.refl _)
  | ⟨_, []⟩ :: rest =>
    exact .goes (.refl _) fun h => (List.forall_mem_cons.mp (hmute h)).2
  | ⟨caught, i :: is⟩ :: rest =>
    have hi : mute = true → i.isMute = true ∧ Instruction.areMute is = true := fun h =>
      (Bool.and_eq_true _ _).mp (List.forall_mem_cons.mp (hmute h)).1
    have hleft : mute = true → ∀ f ∈ (⟨caught, is⟩ :: rest : List Frame),
        Instruction.areMute f.rest = true := fun h =>
      List.forall_mem_cons.mpr ⟨(hi h).2, (List.forall_mem_cons.mp (hmute h)).2⟩
    have hreaches := i.perform_reaches step.operation (fun h => (hi h).1)
      ⟨p, x.controller, x.context⟩
    have henter : ∀ body t, ((i.perform step.operation).run).run ⟨p, x.controller, x.context⟩ =
        (.ok (.enter body), t) → i = .attempt body := fun _ _ => Instruction.eq_attempt_of_enter
    rw [runScript]
    generalize ((i.perform step.operation).run).run ⟨p, x.controller, x.context⟩ = out
      at hreaches henter ⊢
    obtain ⟨out, ⟨q, c, z⟩⟩ := out
    have hz : x.context.Reaches mute z := hreaches
    dsimp only
    cases out with
    | error e => exact answering_recover hz hmute e
    | ok effect =>
      cases effect with
      | proceed => exact .goes hz hleft
      | enter body =>
        refine .goes hz fun h => List.forall_mem_cons.mpr ⟨?_, hleft h⟩
        have hbody := (hi h).1
        rwa [henter body _ rfl] at hbody
      | pause ms what => exact .goes hz hleft
      | nest operation => exact .nests hz hleft
      | acquire =>
        dsimp only
        split
        · exact .goes (reaches_withTransaction hz _) hleft
        · exact .goes hz hleft

/-- **A turn of a running step stays within the reach of the step**, and what is left of a mute step
is mute. -/
theorem answering_work {w : Work} (hphase : x.phase = .handling step w)
    (hw : mute = true → w.Mute step) : Answering mute x step (work p x step w).next := by
  have hcomes : ∀ next, Forwarding.Comes x step next → mute = false →
      Answering mute x step next := by
    rintro next hnext rfl
    cases hnext with
    | follows => exact .goes (.refl _) (by rintro ⟨⟩)
    | fails => exact .returns (.refl _)
    | @concludes f h response =>
      refine .returns ?_
      rw [Forwarding.accept]
      refine Reaches.complete ?_ (by rintro _ _ ⟨⟩)
      exact (x.context.reaches_setResult _).trans (Context.reaches_of_eq rfl rfl rfl rfl rfl rfl)
    | blocks => exact .blocks hphase (by rintro ⟨⟩)
    | crashes => exact .crashes
  cases w with
  | begin =>
    rw [work]
    split
    · next body hhandler =>
      refine .goes (.refl _) fun h => List.forall_mem_singleton.mpr ?_
      have hbegin : step.handler.isMute = true := hw h
      rwa [hhandler] at hbegin
    · next proxy hhandler =>
      refine hcomes _ (Forwarding.comes_start proxy) ?_
      cases mute with
      | false => rfl
      | true =>
        have hbegin : step.handler.isMute = true := hw rfl
        rw [hhandler] at hbegin
        cases hbegin
    · split
      · next deed hdeed =>
        exact .returns (Handler.deed?_reaches hdeed hw ⟨p, x.controller, x.context⟩)
      · exact .returns (.refl _)
  | running frames => exact answering_runScript hw
  | acquiring deadline frames =>
    show Answering mute x step (acquire p x step deadline frames).next
    rw [acquire]
    dsimp only
    split
    · exact .goes (reaches_withTransaction (.refl _) _) hw
    · split
      · exact answering_recover (.refl _) hw _
      · exact .blocks hphase hw
  | pausing wake deadline what frames =>
    show Answering mute x step (pause p x step wake deadline what frames).next
    have hpauses := pauses p x step wake deadline what frames
    generalize pause p x step wake deadline what frames = t at hpauses ⊢
    cases hpauses with
    | wakes => exact .goes (.refl _) hw
    | fails e => exact answering_recover (.refl _) hw _
    | waits => exact .blocks hphase hw
  | nesting frames => exact .blocks hphase hw
  | forwarding f due d =>
    refine hcomes _ (Forwarding.comes_advance f due d) ?_
    cases mute with
    | false => rfl
    | true => exact (hw rfl).elim

theorem responds_work {w : Work} (hphase : x.phase = .handling step w)
    (hw : mute = true → w.Mute step) (hy : (work p x step w).next.after? = some y) :
    Responds mute x step y := by
  have hanswering := answering_work (p := p) hphase hw
  generalize (work p x step w).next = next at hanswering hy
  cases hanswering with
  | goes hz hw => exact Option.some.inj hy ▸ .goes hz hw
  | nests hz hw => exact Option.some.inj hy ▸ .goes hz hw
  | blocks hblocked hw =>
    obtain rfl := Option.some.inj hy
    have hgoes : Responds mute x step { x with context := x.context, phase := .handling step _ } :=
      .goes (.refl _) hw
    rwa [← hblocked] at hgoes
  | returns hz => exact Option.some.inj hy ▸ responds_afterStep hz _
  | crashes => cases hy

/-- Whatever it is, a running step keeps within its reach. -/
theorem responds_of_work {w : Work} (hphase : x.phase = .handling step w)
    (hy : (work p x step w).next.after? = some y) : Responds false x step y :=
  responds_work hphase (by rintro ⟨⟩) hy

end Execution

/-! ## The slots that are there -/

namespace Context

/-- Whatever refers to a slot refers to one that is there.  A composite is older than the slots of
its steps, and so is every composite that completed before it. -/
structure Bounded (x : Context) : Prop where
  root : rootSlot < x.slots.length
  labels : ∀ label i, Dict.get? x.labels label = some i → i < x.slots.length
  queued : ∀ stage, ∀ s ∈ x.queues.get stage, s.slot < x.slots.length
  reports : ∀ own slots, Completion.reportSteps own slots ∈ x.completed →
    own < x.slots.length ∧ ∀ q ∈ slots, own < q.2 ∧ q.2 < x.slots.length
  nested : x.completed.Pairwise fun later earlier => ∀ own slots own' slots',
    later = .reportSteps own slots → earlier = .reportSteps own' slots' → ∀ q ∈ slots, own' < q.2

variable {x y : Context} {mute : Bool}

theorem Bounded.shared (h : x.Bounded) {i : Nat} (hi : x.Shared i) : i < x.slots.length := by
  rcases hi with rfl | ⟨label, hlabel⟩
  · exact h.root
  · exact h.labels label i hlabel

theorem Bounded.reaches (h : x.Bounded) (hcurrent : x.currentSlot < x.slots.length)
    (hy : x.Reaches mute y) : y.Bounded := by
  obtain ⟨new, hnew, hreports⟩ := hy.reports
  have hgrown : ∀ {i : Nat}, i < x.slots.length → i < y.slots.length :=
    fun hi => Nat.lt_of_lt_of_le hi hy.length
  constructor
  · exact hgrown h.root
  · intro label i hi
    rcases hy.labels label i hi with hi | ⟨-, hlt⟩
    · exact hgrown (h.labels label i hi)
    · exact hlt
  · intro stage s hs
    rcases hy.queued stage s hs with hs | ⟨hcur | hshared | ⟨-, hlt⟩, -⟩
    · exact hgrown (h.queued stage s hs)
    · exact hgrown (hcur ▸ hcurrent)
    · exact hgrown (h.shared hshared)
    · exact hlt
  · intro own slots hmem
    rw [hnew] at hmem
    rcases List.mem_append.mp hmem with hmem | hmem
    · obtain ⟨rfl, hslots⟩ := hreports own slots hmem
      exact ⟨hgrown hcurrent, fun q hq =>
        ⟨Nat.lt_of_lt_of_le hcurrent (hslots q hq).1, (hslots q hq).2⟩⟩
    · obtain ⟨hown, hslots⟩ := h.reports own slots hmem
      exact ⟨hgrown hown, fun q hq => ⟨(hslots q hq).1, hgrown (hslots q hq).2⟩⟩
  · rw [hnew]
    -- whoever completed before was there before the new slots were made
    have hold : ∀ earlier ∈ new ++ x.completed, ∀ own slots, earlier = .reportSteps own slots →
        own < x.slots.length := by
      rintro _ hearlier own slots rfl
      rcases List.mem_append.mp hearlier with hmem | hmem
      · exact (hreports own slots hmem).1 ▸ hcurrent
      · exact (h.reports own slots hmem).1
    have hfresh : ∀ later ∈ new, ∀ earlier ∈ new ++ x.completed, ∀ own slots own' slots',
        later = .reportSteps own slots → earlier = .reportSteps own' slots' →
        ∀ q ∈ slots, own' < q.2 := by
      rintro _ hlater _ hearlier own slots own' slots' rfl rfl q hq
      exact Nat.lt_of_lt_of_le (hold _ hearlier own' slots' rfl)
        ((hreports own slots hlater).2 q hq).1
    refine List.pairwise_append.mpr ⟨?_, h.nested, fun later hlater earlier hearlier =>
      hfresh later hlater earlier (List.mem_append_right _ hearlier)⟩
    exact List.Pairwise.imp_of_mem (fun hlater hearlier _ =>
      hfresh _ hlater _ (List.mem_append_left _ hearlier))
      (List.pairwise_of_forall fun _ _ => trivial)

end Context

namespace Execution

variable {p q : Plane} {x y : Execution}

/-- Whatever refers to a slot refers to one that is there, and so does the running step, which
answers in its own. -/
structure Bounded (x : Execution) : Prop where
  context : x.context.Bounded
  running : ∀ step w, x.phase = .handling step w →
    x.context.currentSlot = step.slot ∧ step.slot < x.context.slots.length

/-- How an operation goes on while its pipeline lasts. -/
inductive Proceeds (p : Plane) (x : Execution) : Execution → Prop
  | opens {id : Nat} {address : Address} {t : Transaction} {handler : Handler} {phase : Phase}
    (hphase : x.phase = .opening) (hnext : phase = .stepping ∨ ∃ due, phase = .locking due) :
    Proceeds p x { x.opened id address t handler with phase }
  /-- No step begins or works. -/
  | stands {y : Execution} (hslots : y.context.slots = x.context.slots)
    (hlabels : y.context.labels = x.context.labels)
    (hqueues : y.context.queues = x.context.queues)
    (hcompleted : y.context.completed = x.context.completed)
    (hphase : ∀ step w, y.phase ≠ .handling step w) (hopened : y.phase ≠ .opening)
    (hfirst : y.context.firstFailure = x.context.firstFailure) : Proceeds p x y
  | picks {step : Step} {rest : List Step}
    (hqueue : x.context.queues.get x.context.stage = step :: rest) :
    Proceeds p x { x with
      context := Context.beginStep
        { x.context with queues := x.context.queues.set rest x.context.stage } step
      phase := .handling step .begin }
  | works {step : Step} {w : Work} {y : Execution} (hphase : x.phase = .handling step w)
    (hy : (work p x step w).next.after? = some y) : Proceeds p x y
  | blocks : Proceeds p x x

theorem proceeds_advance (hy : (x.advance p).next.after? = some y)
    (hopen : y.phase.isClosed = false) : Proceeds p x y := by
  have hgoes := goes_advance hy
  generalize (x.advance p).plane = q at hgoes
  cases hgoes with
  | rejects | interrupts | reverts | commits | unwinds => cases hopen
  | opens hphase _ _ _ hnext => exact .opens hphase hnext
  | locks | prepares =>
    exact .stands rfl rfl rfl rfl (by rintro _ _ ⟨⟩) (by rintro ⟨⟩) rfl
  | picks _ hstep =>
    obtain ⟨rest, hqueue, rfl⟩ := Context.nextStep?_eq_some hstep
    exact .picks hqueue
  | passes hphase =>
    refine .stands rfl rfl rfl rfl ?_ ?_ rfl
    · show ∀ step w, x.phase ≠ .handling step w
      rw [hphase]
      rintro _ _ ⟨⟩
    · show x.phase ≠ .opening
      rw [hphase]
      rintro ⟨⟩
  | works hphase hwork => exact .works hphase hwork
  | tells hphase =>
    change x.phase.isClosed = false at hopen
    rw [hphase] at hopen
    cases hopen
  | drains _ hnext => rcases hnext with ⟨due, rfl⟩ | ⟨answer, rfl⟩ <;> cases hopen
  | blocks => exact .blocks

theorem Bounded.of_eq (h : x.context.Bounded) (hphase : ∀ step w, y.phase ≠ .handling step w)
    (hslots : y.context.slots = x.context.slots) (hlabels : y.context.labels = x.context.labels)
    (hqueues : y.context.queues = x.context.queues)
    (hcompleted : y.context.completed = x.context.completed) : y.Bounded where
  context := by
    constructor
    · rw [hslots]
      exact h.root
    · rw [hslots, hlabels]
      exact h.labels
    · rw [hslots, hqueues]
      exact h.queued
    · rw [hslots, hcompleted]
      exact h.reports
    · rw [hcompleted]
      exact h.nested
  running step w hw := absurd hw (hphase step w)

/-- The pipeline does not come back from its end. -/
theorem Goes.isClosed (h : Goes p x q y) (hy : y.phase.isClosed = false) :
    x.phase.isClosed = false := by
  cases h with
  | rejects | interrupts | reverts | commits | unwinds => cases hy
  | opens hphase | locks hphase | picks hphase | passes hphase | prepares hphase | works hphase =>
    rw [hphase]
    rfl
  | tells => exact hy
  | drains hphase hnext => rcases hnext with ⟨due, rfl⟩ | ⟨answer, rfl⟩ <;> cases hy
  | blocks => exact hy

/-- **A turn keeps within the slots that are there.** -/
theorem Bounded.turn (h : x.Bounded) (hy : (x.advance p).next.after? = some y)
    (hopen : y.phase.isClosed = false) : y.Bounded := by
  cases proceeds_advance hy hopen with
  | opens _ hnext =>
    refine ⟨⟨h.context.root, h.context.labels, fun stage s hs => ?_, h.context.reports,
      h.context.nested⟩, fun step w hw => ?_⟩
    · cases stage with
      | model =>
        obtain rfl := List.mem_singleton.mp hs
        exact h.context.root
      | _ => cases hs
    · rcases hnext with rfl | ⟨due, rfl⟩ <;> cases hw
  | stands hslots hlabels hqueues hcompleted hphase =>
    exact .of_eq h.context hphase hslots hlabels hqueues hcompleted
  | @picks step rest hqueue =>
    refine ⟨⟨h.context.root, h.context.labels, fun stage s hs => ?_, h.context.reports,
      h.context.nested⟩, ?_⟩
    · change s ∈ (x.context.queues.set rest x.context.stage).get stage at hs
      rw [Queues.get_set] at hs
      split at hs
      · exact h.context.queued _ s (hqueue ▸ List.mem_cons_of_mem _ hs)
      · exact h.context.queued stage s hs
    · rintro _ _ ⟨⟩
      exact ⟨rfl, h.context.queued _ _ (hqueue ▸ List.mem_cons_self)⟩
  | works hphase hwork =>
    obtain ⟨hslot, hlt⟩ := h.running _ _ hphase
    cases responds_of_work hphase hwork with
    | goes hz =>
      refine ⟨h.context.reaches (hslot ▸ hlt) hz, ?_⟩
      rintro _ _ ⟨⟩
      exact ⟨hz.current.trans hslot, Nat.lt_of_lt_of_le hlt hz.length⟩
    | @rests z hz =>
      exact .of_eq (x := { x with context := z }) (h.context.reaches (hslot ▸ hlt) hz)
        (by rintro _ _ ⟨⟩) rfl rfl rfl rfl
    | closes hclosed => cases hopen.symm.trans hclosed
  | blocks => exact h

theorem bounded_new (c : Nat) (operation : Value) (control : Control) (input : Input)
    (sink : Sink) : (Execution.new c operation control input sink).Bounded where
  context :=
    { root := Nat.zero_lt_one
      labels := by rintro _ _ ⟨⟩
      queued := fun stage s hs => by cases stage <;> cases hs
      reports := by rintro _ _ ⟨⟩
      nested := .nil }
  running := by rintro _ _ ⟨⟩

theorem Bounded.resume (h : x.Bounded) (p : Plane) (answer : Answer) :
    (x.resume p answer).2.Bounded := by
  rw [resume.eq_def]
  split
  · next hphase =>
    refine ⟨h.context, ?_⟩
    rintro _ _ ⟨⟩
    exact h.running _ _ hphase
  · exact h

theorem isClosed_resume (p : Plane) (x : Execution) (answer : Answer) :
    (x.resume p answer).2.phase.isClosed = x.phase.isClosed := by
  rw [resume.eq_def]
  split
  · next hphase =>
    rw [hphase]
    rfl
  · rfl

/-- Throughout its pipeline an operation keeps within the slots that are there. -/
theorem Course.bounded {around : Plane → Plane → Prop} {p₀ p : Plane} {x₀ x : Execution}
    {past : List Moment} (h : Course around p₀ x₀ past p x) (h₀ : x₀.Bounded)
    (hopen : x.phase.isClosed = false) : x.Bounded := by
  induction h with
  | start => exact h₀
  | around _ _ ih => exact ih hopen
  | turn _ _ hy ih => exact (ih ((goes_advance hy).isClosed hopen)).turn hy hopen
  | resume _ answer ih => exact (ih ((isClosed_resume _ _ answer).symm.trans hopen)).resume _ answer

/-- No failure is recorded while the pipeline lasts. -/
theorem Course.firstFailure {around : Plane → Plane → Prop} {p₀ p : Plane} {x₀ x : Execution}
    {past : List Moment} (h : Course around p₀ x₀ past p x)
    (h₀ : x₀.context.firstFailure = none) (hopen : x.phase.isClosed = false) :
    x.context.firstFailure = none := by
  induction h with
  | start => exact h₀
  | around _ _ ih => exact ih hopen
  | turn _ _ hy ih =>
    have hx := ih ((goes_advance hy).isClosed hopen)
    cases proceeds_advance hy hopen with
    | opens | picks | blocks => exact hx
    | stands _ _ _ _ _ _ hfirst => exact hfirst.trans hx
    | works hphase hwork =>
      cases responds_of_work hphase hwork with
      | goes hz => exact hz.firstFailure.trans hx
      | rests hz => exact hz.firstFailure.trans hx
      | closes hclosed => cases hopen.symm.trans hclosed
  | @resume past p x _ answer ih =>
    have hx := ih ((isClosed_resume _ _ answer).symm.trans hopen)
    rw [resume.eq_def]
    split <;> exact hx

end Execution

end ManagementPlane
