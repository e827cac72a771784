import ManagementPlane.Proofs.Machine.Transitions
import ManagementPlane.Proofs.Pipeline.Agenda

/-!
# Proofs/Machine/Stages — the steps of an operation, stage by stage

The turns of an operation tell which steps it ran (`executed`).  Which ones it accepted is told by
any book that explains how its queues grew (`Moment.Accepts`); with the book the turns are replayed
on an `Agenda`, and the numbers on it are the steps that ran (`Course.paced`).

So the order of the steps is that of the agenda: stage after stage, and within a stage as they were
queued.
-/

namespace ManagementPlane

/-- Whether the pipeline has come to its end, and nothing that is queued will run. -/
def Phase.isClosed : Phase → Bool
  | unwinding _ | draining .. | ended _ => true
  | _ => false

/-- Whether the pipeline has come to its end, be it that the operation has prepared. -/
def Phase.isPrepared : Phase → Bool
  | deciding .. | unwinding _ | draining .. | ended _ => true
  | _ => false

/-! ## What a turn does to the queues -/

theorem Queues.addAll_append (q : Queues) (es es' : List Entry) :
    q.addAll (es ++ es') = (q.addAll es).addAll es' := List.foldl_append

namespace Context

/-- Steps were queued, none of them for a stage that is over. -/
structure Queued (x y : Context) : Prop where
  stage : y.stage = x.stage
  queues : ∃ es, y.queues = x.queues.addAll es
  behind : ∀ s < x.stage, y.queues.get s = x.queues.get s

theorem Queued.refl (x : Context) : x.Queued x := ⟨rfl, ⟨[], rfl⟩, fun _ _ => rfl⟩

theorem Queued.of_eq {x y z : Context} (h : x.Queued y) (hstage : z.stage = y.stage)
    (hqueues : z.queues = y.queues) : x.Queued z := by
  refine ⟨hstage.trans h.stage, ?_, ?_⟩
  · rw [hqueues]
    exact h.queues
  · rw [hqueues]
    exact h.behind

theorem Does.queued {may : Instruction → Prop} {x y : Context} (h : x.Does may y) :
    x.Queued y := by
  refine ⟨h.worked.stage, ?_, h.worked.queues⟩
  induction h with
  | refl => exact ⟨[], rfl⟩
  | tail _ h ih =>
    obtain ⟨es, hes⟩ := ih
    cases h with
    | queue stage step first _ =>
      refine ⟨es ++ [⟨stage, step, first⟩], ?_⟩
      rw [Queues.addAll_append, ← hes]
      rfl
    | complete c _ =>
      refine ⟨es, ?_⟩
      rw [← hes, complete]
      split
      · split <;> rfl
      · rfl
    | _ => exact ⟨es, hes⟩

end Context

/-- A completion queues what it likes as well, but for a stage that is over. -/
theorem Context.queued_told (x : Context) (c : Completion) (rest : List Completion) (d : Decision)
    (p : Plane) (k : Nat) : x.Queued (c.run d ⟨p, k, { x with completed := rest }⟩).context := by
  rcases c.context_run d ⟨p, k, { x with completed := rest }⟩ with hdoes | ⟨own, slots, hreport⟩
  · exact ⟨hdoes.queued.stage, hdoes.queued.queues, hdoes.queued.behind⟩
  · rw [hreport]
    exact .of_eq (.refl x) rfl rfl

theorem Forwarding.queues_accept (x : Context) (f h : Nat) (response : Value) :
    (accept x f h response).stage = x.stage ∧ (accept x f h response).queues = x.queues := by
  rw [accept, Context.complete]
  split
  · split <;> exact ⟨rfl, rfl⟩
  · exact ⟨rfl, rfl⟩

namespace Execution

variable {p : Plane} {x y : Execution}

/-- A running step queues what it likes, but for a stage that is over. -/
theorem queued_work {step : Step} {w : Work} (hy : (work p x step w).next.after? = some y) :
    x.context.Queued y.context := by
  have hcontinues := (keeping_work p x step w).continues
  generalize (work p x step w).next = next at hcontinues hy
  have hreturned : ∀ {z : Context} {out : Except OperationError Unit}, x.context.Queued z →
      x.context.Queued ({ x with context := z }.afterStep step out).context := by
    intro z out hz
    have hrested := rested_afterStep { x with context := z } step out
    exact hz.of_eq hrested.stage hrested.queues
  cases hcontinues with
  | goes hz =>
    obtain rfl := Option.some.inj hy
    cases hz with
    | does hz => exact hz.queued
    | stages hz => exact hz.queued.of_eq rfl rfl
  | forwards =>
    obtain rfl := Option.some.inj hy
    exact .refl _
  | returns hz =>
    obtain rfl := Option.some.inj hy
    exact hreturned hz.queued
  | @concludes f due h response =>
    obtain rfl := Option.some.inj hy
    obtain ⟨hstage, hqueues⟩ := Forwarding.queues_accept x.context f h response
    exact hreturned ((Context.Queued.refl _).of_eq hstage hqueues)
  | blocks =>
    obtain rfl := Option.some.inj hy
    exact .refl _
  | nests hz =>
    obtain rfl := Option.some.inj hy
    exact hz.queued
  | crashes => cases hy

end Execution

/-! ## The steps that ran, and those that were accepted -/

namespace Moment

/-- The step that the turn begins. -/
def runs (m : Moment) : Option Step :=
  match m.execution.phase, m.turn.next.after? with
  | .stepping, some y =>
    match y.phase with
    | .handling step _ => some step
    | _ => none
  | _, _ => none

/-- The turn accepts the steps `es`: they are what the queues grow by, be it that the operation
opens, or that one of its steps or one of its completions queues them (`Context.queueStep_eq_ok`).
Only a turn that picks steps takes from the queues, and accepts none. -/
def Accepts (m : Moment) (es : List Entry) : Prop :=
  match m.execution.phase with
  | .stepping => es = []
  | _ => ∀ y ∈ m.turn.next.after?, y.context.queues = m.execution.context.queues.addAll es

variable {m : Moment} {y : Execution} {es : List Entry}

theorem runs_eq_none (h : m.execution.phase ≠ .stepping) : m.runs = none := by
  rw [runs]
  split
  · next hphase _ => exact absurd hphase h
  · rfl

theorem runs_eq_some {step : Step} {w : Work} (hphase : m.execution.phase = .stepping)
    (hy : m.turn.next.after? = some y) (h : y.phase = .handling step w) : m.runs = some step := by
  rw [runs, hphase, hy]
  dsimp only
  rw [h]

theorem runs_of_phase (hphase : m.execution.phase = .stepping) (hy : m.turn.next.after? = some y)
    (h : ∀ step w, y.phase ≠ .handling step w) : m.runs = none := by
  rw [runs, hphase, hy]
  dsimp only
  split
  · next step w hw => exact absurd hw (h step w)
  · rfl

theorem accepts_iff (hphase : m.execution.phase ≠ .stepping)
    (hy : m.turn.next.after? = some y) :
    m.Accepts es ↔ y.context.queues = m.execution.context.queues.addAll es := by
  rw [Accepts]
  split
  · next h => exact absurd h hphase
  · rw [hy]
    simp

theorem accepts_iff_of_stepping (hphase : m.execution.phase = .stepping) :
    m.Accepts es ↔ es = [] := by rw [Accepts, hphase]

end Moment

/-- The steps that ran, in order, each with the stage it ran in. -/
def executed : List Moment → List (Stage × Step)
  | [] => []
  | m :: past => executed past ++ (m.runs.map (m.execution.context.stage, ·)).toList

/-- The turns by numbers, as long as the book explains them. -/
def agenda : List Moment → List (List Entry) → Agenda
  | m :: past, es :: book =>
    let a := agenda past book
    (if m.runs.isSome then a.next m.execution.context.stage else a).acceptAll es
  | _, _ => {}

namespace Execution

/-- The turns of an operation follow the agenda. -/
structure Paced (past : List Moment) (book : List (List Entry)) (x : Execution) : Prop where
  kept : (agenda past book).Kept
  lists : (agenda past book).Lists (executed past)
  rises : (executed past).Pairwise fun s t => ¬ t.1 < s.1
  tracks : x.phase.isClosed = false → (agenda past book).Tracks x.context.queues
  reached : x.phase.isClosed = false → ∀ s ∈ executed past, ¬ x.context.stage < s.1

variable {p : Plane} {x y : Execution} {past : List Moment} {book : List (List Entry)}
  {es : List Entry}

/-- A turn that begins no step. -/
theorem Paced.cons (h : Paced past book x) (hruns : (Moment.mk p x).runs = none)
    (hy : y.phase.isClosed = false → x.phase.isClosed = false ∧
      y.context.queues = x.context.queues.addAll es ∧ ¬ y.context.stage < x.context.stage) :
    Paced (⟨p, x⟩ :: past) (es :: book) y := by
  have hagenda : agenda (⟨p, x⟩ :: past) (es :: book) = (agenda past book).acceptAll es := by
    rw [agenda, hruns]
    rfl
  have hexecuted : executed (⟨p, x⟩ :: past) = executed past := by
    rw [executed, hruns]
    exact List.append_nil _
  constructor
  · rw [hagenda]
    exact h.kept.acceptAll es
  · rw [hagenda, hexecuted]
    exact h.lists.acceptAll es
  · rw [hexecuted]
    exact h.rises
  · intro hopen
    obtain ⟨hx, hqueues, -⟩ := hy hopen
    rw [hagenda, hqueues]
    exact (h.tracks hx).acceptAll es
  · intro hopen s hs hlt
    obtain ⟨hx, -, hstage⟩ := hy hopen
    rw [hexecuted] at hs
    exact hstage (Nat.lt_of_lt_of_le hlt (Nat.le_of_not_lt (h.reached hx s hs)))

/-- A turn that begins the next step. -/
theorem Paced.cons_pick (h : Paced past book x) (hphase : x.phase = .stepping) {step : Step}
    {context : Context} (hstep : x.context.nextStep? = some (step, context))
    (hruns : (Moment.mk p x).runs = some step) :
    Paced (⟨p, x⟩ :: past) ([] :: book)
      { x with context := context.beginStep step, phase := .handling step .begin } := by
  have hagenda : agenda (⟨p, x⟩ :: past) ([] :: book) =
      (agenda past book).next x.context.stage := by
    rw [agenda, hruns]
    rfl
  have hexecuted : executed (⟨p, x⟩ :: past) = executed past ++ [(x.context.stage, step)] := by
    rw [executed, hruns]
    rfl
  have hopen : x.phase.isClosed = false := by rw [hphase]; rfl
  have hreached := h.reached hopen
  obtain ⟨rest, hqueue, rfl⟩ := Context.nextStep?_eq_some hstep
  obtain ⟨t, waiting, ht, hshows, htracks⟩ := (h.tracks hopen).next hqueue
  constructor
  · rw [hagenda]
    exact h.kept.next ht
  · rw [hagenda, hexecuted]
    have hran : ((agenda past book).next x.context.stage).ran = (agenda past book).ran ++ [t] := by
      rw [Agenda.next, ht]
      rfl
    rw [Agenda.Lists, hran]
    exact List.rel_append h.lists (.cons hshows .nil)
  · rw [hexecuted]
    refine List.pairwise_append.mpr ⟨h.rises, List.pairwise_singleton _ _, fun s hs s' hs' => ?_⟩
    obtain rfl := List.mem_singleton.mp hs'
    exact hreached s hs
  · intro _
    rw [hagenda]
    exact htracks
  · intro _ s hs
    rw [hexecuted] at hs
    rcases List.mem_append.mp hs with hs | hs
    · exact hreached s hs
    · obtain rfl := List.mem_singleton.mp hs
      exact Nat.lt_irrefl _

theorem not_lt_of_next {stage stage' : Stage} (h : stage.next? = some stage') :
    ¬ stage' < stage := by
  cases stage <;> cases h <;> decide

/-- **Every turn follows the agenda**, whatever it finds around the operation. -/
theorem Paced.turn (h : Paced past book x) (hy : (x.advance p).next.after? = some y)
    (hes : (Moment.mk p x).Accepts es) : Paced (⟨p, x⟩ :: past) (es :: book) y := by
  have hgrows : x.phase ≠ .stepping → y.context.queues = x.context.queues.addAll es :=
    fun hphase => (Moment.accepts_iff (m := ⟨p, x⟩) hphase hy).mp hes
  have hnone : x.phase = .stepping → es = [] :=
    fun hphase => (Moment.accepts_iff_of_stepping (m := ⟨p, x⟩) hphase).mp hes
  have hgoes := goes_advance hy
  generalize (x.advance p).plane = q at hgoes
  cases hgoes with
  | rejects hphase =>
    refine h.cons (Moment.runs_eq_none ?_) (by rintro ⟨⟩)
    rcases hphase with hphase | ⟨due, hphase⟩ <;> rw [hphase] <;> rintro ⟨⟩
  | opens hphase | locks hphase =>
    have hopen : x.phase ≠ .stepping := by rw [hphase]; rintro ⟨⟩
    exact h.cons (Moment.runs_eq_none hopen) fun _ =>
      ⟨by rw [hphase]; rfl, hgrows hopen, Nat.lt_irrefl _⟩
  | picks hphase hstep =>
    obtain rfl := hnone hphase
    exact h.cons_pick hphase hstep (Moment.runs_eq_some hphase hy rfl)
  | interrupts hphase =>
    exact h.cons (Moment.runs_of_phase hphase hy (by rintro _ _ ⟨⟩)) (by rintro ⟨⟩)
  | passes hphase _ hnext =>
    obtain rfl := hnone hphase
    have hruns : (Moment.mk p x).runs = none :=
      Moment.runs_of_phase hphase hy (by rw [hphase]; rintro _ _ ⟨⟩)
    exact h.cons hruns fun _ => ⟨by rw [hphase]; rfl, rfl, not_lt_of_next hnext⟩
  | prepares hphase =>
    obtain rfl := hnone hphase
    exact h.cons (Moment.runs_of_phase hphase hy (by rintro _ _ ⟨⟩)) fun _ =>
      ⟨by rw [hphase]; rfl, rfl, Nat.lt_irrefl _⟩
  | works hphase hwork =>
    have hopen : x.phase ≠ .stepping := by rw [hphase]; rintro ⟨⟩
    exact h.cons (Moment.runs_eq_none hopen) fun _ =>
      ⟨by rw [hphase]; rfl, hgrows hopen, by rw [(queued_work hwork).stage]; exact Nat.lt_irrefl _⟩
  | commits hphase | reverts hphase | unwinds hphase =>
    exact h.cons (Moment.runs_eq_none (by rw [hphase]; rintro ⟨⟩)) (by rintro ⟨⟩)
  | tells hphase =>
    exact h.cons (Moment.runs_eq_none (by rw [hphase]; rintro ⟨⟩)) fun hopen => by
      rw [hphase] at hopen
      cases hopen
  | drains hphase hnext =>
    refine h.cons (Moment.runs_eq_none (by rw [hphase]; rintro ⟨⟩)) fun hopen => ?_
    rcases hnext with ⟨due, rfl⟩ | ⟨answer, rfl⟩ <;> cases hopen
  | blocks =>
    by_cases hphase : x.phase = .stepping
    · obtain rfl := hnone hphase
      exact h.cons (Moment.runs_of_phase hphase hy (by rw [hphase]; rintro _ _ ⟨⟩))
        fun hopen => ⟨hopen, rfl, Nat.lt_irrefl _⟩
    · exact h.cons (Moment.runs_eq_none hphase) fun hopen =>
        ⟨hopen, hgrows hphase, Nat.lt_irrefl _⟩

end Execution

end ManagementPlane
