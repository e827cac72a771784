import ManagementPlane.Machine.Run
import ManagementPlane.Proofs.Global.Work

/-!
# Proofs/Global/Upshot — how a step ends, whatever surrounds it

A standard step that stands in front of an operation's queue has an `Upshot`: it answers a value and
leaves a root, or it ends the pipeline.  The upshot depends on the step and on the root it finds,
not on the operation that it is a step of (`Ends`); so the step comes to the same in a composite and
by itself.  Every standard step has an upshot (`Composite.Drawn.ends`): that of a composite follows
from those of its steps, which run one after another in front of whatever was queued before
(`passes_through`).
-/

namespace ManagementPlane

/-- How a step ends. -/
inductive Upshot
  /-- It answers a value and leaves a root. -/
  | answered (v : Value) (root : Resource)
  /-- It ends the pipeline, fatally or not. -/
  | stopped (fatal : Bool)

/-- The upshot of work that answers a value and leaves a root, or fails. -/
def Upshot.ofWork : Except OperationError (Value × Resource) → Upshot
  | .ok (v, root) => answered v root
  | .error e => stopped e.isFatal

/-- How a pipeline ends that a step stopped. -/
def Ending.Stops (fatal : Bool) (e : Ending) : Prop :=
  if fatal then ∃ reason, e = .fatal reason else e = .failed

/-- The slot of a step that answered. -/
def ResponseSlot.answered (v : Value) : ResponseSlot := { result := v }

/-- The completion of a composite. -/
def Completion.Reports (c : Completion) : Prop := ∃ own slots, c = .reportSteps own slots

namespace Execution

/-! ## Turns of an operation that goes on by itself -/

/-- One turn that starts nothing and waits for nothing. -/
inductive Pass : Plane × Execution → Plane × Execution → Prop
  | going {p q : Plane} {x y : Execution} (hopen : ∀ answer, x.phase ≠ .ended answer)
      (h : x.advance p = { plane := q, next := .going y }) : Pass (p, x) (q, y)
  | returned {p q : Plane} {x y : Execution} {step : Step} {out : Except OperationError Unit}
      (hopen : ∀ answer, x.phase ≠ .ended answer)
      (h : x.advance p = { plane := q, next := .returned y step out }) :
    Pass (p, x) (q, y.afterStep step out)

/-- Some turns. -/
def Passes : Plane × Execution → Plane × Execution → Prop := Relation.ReflTransGen Pass

/-- The operation is between two steps of its first stage and sees `root`. -/
structure Going (r : Registration) (root : Resource) (p : Plane) (x : Execution) : Prop where
  registration : p.registration x.controller = r
  phase : x.phase = .stepping
  stage : x.context.stage = .model
  violation : x.context.violation = none
  rollbackOnly : x.context.rollbackOnly = false
  input : x.context.input.cancellation = none
  snapshot : x.context.snapshot = root

/-- The next step is `step`, and it has a fresh slot. -/
structure Poised (r : Registration) (root : Resource) (p : Plane) (x : Execution) (step : Step)
    (rest : List Step) : Prop extends Going r root p x where
  queue : x.context.queues.model = step :: rest
  slot : x.context.slots[step.slot]? = some {}
  intent : step.handler.writes = true → x.context.transaction.hasIntent = true

/-- The operation after steps that left `rest` to do. -/
def after (x : Execution) (rest : List Step) (slots : List ResponseSlot) (t : Transaction)
    (new : List Completion) : Execution :=
  { x with
    context := { x.context with
      queues := { x.context.queues with model := rest }
      slots
      transaction := t
      completed := new ++ x.context.completed
      active := none }
    phase := .stepping }

/-- What of an operation is still the same when its pipeline has ended. -/
structure Leaves (x y : Execution) : Prop where
  controller : y.controller = x.controller
  completions : y.context.completions = x.context.completions
  streams : y.context.streams = x.context.streams
  transaction : x.context.transaction.Worked y.context.transaction
  completed : ∃ new, y.context.completed = new ++ x.context.completed ∧
    ∀ c ∈ new, Completion.Reports c

variable {r : Registration} {root root' : Resource} {p : Plane} {x y z : Execution} {step : Step}
  {rest : List Step} {slots : List ResponseSlot} {t : Transaction} {new : List Completion}

theorem Leaves.trans (h : x.Leaves y) (h' : y.Leaves z) : x.Leaves z where
  controller := h'.controller.trans h.controller
  completions := h'.completions.trans h.completions
  streams := h'.streams.trans h.streams
  transaction := h.transaction.trans h'.transaction
  completed := by
    obtain ⟨new, hnew, hreports⟩ := h.completed
    obtain ⟨new', hnew', hreports'⟩ := h'.completed
    refine ⟨new' ++ new, by rw [hnew', hnew, List.append_assoc], fun c hc => ?_⟩
    exact (List.mem_append.mp hc).elim (hreports' c) (hreports c)

theorem leaves_after (ht : x.context.transaction.Worked t) (hnew : ∀ c ∈ new, c.Reports) :
    x.Leaves (x.after rest slots t new) := ⟨rfl, rfl, rfl, ht, new, rfl, hnew⟩

theorem after_after (rest' : List Step) (slots' : List ResponseSlot) (t' : Transaction)
    (new' : List Completion) :
    (x.after rest slots t new).after rest' slots' t' new'
      = x.after rest' slots' t' (new' ++ new) := by
  rw [after, after, after, List.append_assoc]

theorem Going.after (h : Going r root p x) (ht : t.root = root') :
    Going r root' p (x.after rest slots t new) :=
  ⟨h.registration, rfl, h.stage, h.violation, h.rollbackOnly, h.input, ht⟩

/-! ## One step -/

/-- The context of a step that has just begun. -/
def begun (x : Execution) (step : Step) (rest : List Step) : Context :=
  { x.context with
    queues := { x.context.queues with model := rest }
    active := some { address := step.address, slot := step.slot } }

/-- The turn of a step that runs here. -/
theorem work_deed {step : Step} {deed : Deed Unit}
    (hdeed : step.handler.deed? step.operation = some deed) :
    work p x step .begin =
      { plane := (deed.run.run ⟨p, x.controller, x.context⟩).2.plane
        next := .returned
          { x with context := (deed.run.run ⟨p, x.controller, x.context⟩).2.context } step
          (deed.run.run ⟨p, x.controller, x.context⟩).1 } := by
  have hscript : ∀ body, step.handler ≠ .script body := by
    intro body h
    rw [h] at hdeed
    cases hdeed
  have hforward : ∀ proxy, step.handler ≠ .forward proxy := by
    intro proxy h
    rw [h] at hdeed
    cases hdeed
  rw [work]
  split
  · rename_i body h
    exact absurd h (hscript body)
  · rename_i proxy h
    exact absurd h (hforward proxy)
  · rw [hdeed]
    rfl

/-- **The next step does the work of its handler** and ends. -/
theorem passes_step (h : Going r root p x) (hqueue : x.context.queues.model = step :: rest)
    {deed : Deed Unit} (hdeed : step.handler.deed? step.operation = some deed) {context : Context}
    {out : Except OperationError Unit}
    (hrun : deed.run.run ⟨p, x.controller, x.begun step rest⟩
      = (out, ⟨p, x.controller, context⟩)) :
    Passes (p, x) (p, { x with context }.afterStep step out) := by
  have hpick : x.advance p =
      { plane := p
        next := .going
          { x with context := x.begun step rest, phase := .handling step .begin } } := by
    have hnext : x.context.nextStep?
        = some (step, { x.context with queues := { x.context.queues with model := rest } }) := by
      have hget : x.context.queues.get x.context.stage = step :: rest := by
        rw [h.stage]
        exact hqueue
      have hset : x.context.queues.set rest x.context.stage
          = { x.context.queues with model := rest } := by
        rw [h.stage]
        rfl
      rw [Context.nextStep?, hget]
      dsimp only
      rw [hset]
    have hcancelled : p.isCancelled x.context.input.cancellation = false := by
      rw [h.input]
      rfl
    rw [advance, h.phase]
    dsimp only
    rw [pick, hnext, hcancelled]
    rfl
  have hwork : Execution.advance p
      { x with context := x.begun step rest, phase := .handling step .begin }
      = { plane := p
          next := .returned { x with context, phase := .handling step .begin } step out } := by
    rw [advance]
    dsimp only
    rw [work_deed hdeed, hrun]
  have hafter : Execution.afterStep { x with context, phase := .handling step .begin } step out
      = { x with context }.afterStep step out := by
    rw [afterStep, afterStep]
  rw [← hafter]
  refine .tail (.single (.going ?_ hpick)) (.returned ?_ hwork)
  · rw [h.phase]
    rintro _ ⟨⟩
  · rintro _ ⟨⟩

/-- A step that succeeds leaves its context, and the operation goes on. -/
theorem passes_ok (h : Going r root p x) (hqueue : x.context.queues.model = step :: rest)
    {deed : Deed Unit} (hdeed : step.handler.deed? step.operation = some deed) {context : Context}
    (hrun : deed.run.run ⟨p, x.controller, x.begun step rest⟩
      = (.ok (), ⟨p, x.controller, context⟩)) (hviolation : context.violation = none)
    (hrollback : context.rollbackOnly = false) :
    Passes (p, x)
      (p, { x with context := { context with active := none }, phase := .stepping }) := by
  have hend : context.endStep step (.ok ()) = (none, { context with active := none }) := by
    rw [Context.endStep]
    dsimp only
    split
    · rename_i v hv
      cases hviolation.symm.trans hv
    · rw [if_neg (by rw [hrollback]; decide)]
  have hpasses := passes_step h hqueue hdeed hrun
  rw [afterStep] at hpasses
  dsimp only at hpasses
  rw [hend] at hpasses
  exact hpasses

theorem modify_blank {slots : List ResponseSlot} {i : Nat} (h : slots[i]? = some {}) (v : Value) :
    slots.modify i ({ · with result := v }) = slots.set i (.answered v) := by
  refine List.ext_getElem? fun j => ?_
  rw [List.getElem?_modify, List.getElem?_set]
  obtain ⟨hi, -⟩ := List.getElem?_eq_some_iff.mp h
  split
  · rename_i hij
    subst hij
    rw [h]
    rfl
  · exact Option.map_id'

/-- How a step ends that finds `root`, whatever operation it is a step of. -/
def Ends (r : Registration) (handler : Handler) (operation : Value) (a : Address)
    (root : Resource) : Upshot → Prop
  | .answered v root' => ∀ p x i rest, Poised r root p x ⟨handler, operation, a, i⟩ rest →
    ∃ more t new, x.context.transaction.Worked t ∧ t.root = root' ∧ (∀ c ∈ new, c.Reports) ∧
      Passes (p, x) (p, x.after rest (x.context.slots.set i (.answered v) ++ more) t new)
  | .stopped fatal => ∀ p x i rest, Poised r root p x ⟨handler, operation, a, i⟩ rest →
    ∃ y e, Passes (p, x) (p, y) ∧ y.phase = .unwinding e ∧ e.Stops fatal ∧ x.Leaves y

/-- **A step that works at once** has an upshot. -/
theorem ends_of_comes {handler : Handler} {operation : Value} {a : Address}
    {out : Except OperationError (Value × Resource)}
    (h : handler.Comes r operation a root out) :
    Ends r handler operation a root (.ofWork out) := by
  obtain ⟨deed, hdeed, h⟩ := h
  have hsees : ∀ {p x i rest}, Poised r root p x ⟨handler, operation, a, i⟩ rest →
      (x.begun ⟨handler, operation, a, i⟩ rest).Sees a root := by
    intro p x i rest hx
    refine ⟨rfl, hx.stage, hx.snapshot, ?_⟩
    show ((x.context.slots[i]?).getD {}).result = .undefined
    rw [show x.context.slots[i]? = some {} from hx.slot]
    rfl
  cases out with
  | ok out =>
    obtain ⟨v, root'⟩ := out
    intro p x i rest hx
    obtain ⟨context, result, hrun, rfl, t, ht, hroot, hcontext⟩ :=
      h ⟨p, x.controller, x.begun ⟨handler, operation, a, i⟩ rest⟩ hx.registration (hsees hx)
        hx.intent
    refine ⟨[], t, [], ht, hroot, by rintro _ ⟨⟩, ?_⟩
    have hpasses := passes_ok hx.toGoing hx.queue hdeed hrun (by rw [hcontext]; exact hx.violation)
      (by rw [hcontext]; exact hx.rollbackOnly)
    rw [List.append_nil, ← modify_blank hx.slot]
    rw [hcontext] at hpasses
    exact hpasses
  | error e =>
    intro p x i rest hx
    obtain ⟨context, result, hrun, rfl, t, ht, hcontext⟩ :=
      h ⟨p, x.controller, x.begun ⟨handler, operation, a, i⟩ rest⟩ hx.registration (hsees hx)
        hx.intent
    have hpasses := passes_step hx.toGoing hx.queue hdeed hrun
    have hviolation : context.violation = none := by
      rw [hcontext]
      exact hx.violation
    have hcompleted : (context.active.map (·.completed)).getD false = false := by
      rw [hcontext]
      rfl
    rw [afterStep, Context.endStep] at hpasses
    dsimp only at hpasses
    rw [hviolation, hcompleted] at hpasses
    dsimp only at hpasses
    cases hfatal : e.isFatal with
    | true =>
      rw [hfatal] at hpasses
      refine ⟨_, _, hpasses, rfl, ⟨_, rfl⟩, ?_⟩
      subst hcontext
      exact ⟨rfl, rfl, rfl, ht, [], rfl, by rintro _ ⟨⟩⟩
    | false =>
      rw [hfatal] at hpasses
      refine ⟨_, _, hpasses, rfl, rfl, ?_⟩
      subst hcontext
      exact ⟨rfl, rfl, rfl, ht, [], rfl, by rintro _ ⟨⟩⟩

end Execution

/-! ## What a composite queues -/

namespace Composite

/-- The address that a planned operation carries. -/
def Planned.address (p : Planned) : Address :=
  match Operation.addressOf p.operation with
  | .ok a => a
  | .error _ => Address.root

/-- The step that a planned operation becomes. -/
def Planned.step (p : Planned) (slot : Nat) : Step :=
  { handler := p.handler, operation := p.operation, address := p.address, slot }

theorem Plans.accepts {r : Registration} {base : Address} {step : Value} {p : Planned}
    (h : Plans r base step p) : Operation.addressOf p.operation = .ok p.address ∧
      ∃ entry, r.Accepts base step p.address entry ∧
        p.operation = Operation.below base step ∧ p.handler = entry.handler := by
  obtain ⟨a, entry, haccepts, hoperation, hhandler⟩ := h
  have ha : Operation.addressOf p.operation = .ok a := by
    rw [hoperation, haccepts.1.below_eq, Operation.addressOf_set]
  have haddress : p.address = a := by rw [Planned.address, ha]
  rw [haddress]
  exact ⟨ha, entry, haccepts, hoperation, hhandler⟩

theorem allot_eq (ps : List Planned) (x : Context) :
    allot ps x = (ps.zipIdx x.slots.length,
      { x with slots := x.slots ++ List.replicate ps.length {} }) := by
  induction ps generalizing x with
  | nil =>
    rw [allot, List.length_nil, List.replicate_zero, List.append_nil]
    rfl
  | cons p ps ih =>
    rw [allot]
    dsimp only [Context.newSlot]
    rw [ih]
    dsimp only
    rw [List.zipIdx_cons, List.length_append, List.length_singleton, List.append_assoc,
      List.length_cons, List.replicate_succ]
    rfl

theorem run_allot (ps : List Planned) (x : Context) :
    (modifyGet (allot ps) : Act _).run.run x = (.ok (ps.zipIdx x.slots.length),
      { x with slots := x.slots ++ List.replicate ps.length {} }) := by
  show (Except.ok (allot ps x).1, (allot ps x).2) = _
  rw [allot_eq]

theorem run_queue {h : Handler} {operation : Value} {a : Address} {i : Nat} {x : Context}
    (hstage : x.stage = .model) (ha : Operation.addressOf operation = .ok a) :
    (Act.queue h operation .model i true).run.run x = (.ok (),
      { x with queues := { x.queues with model := ⟨h, operation, a, i⟩ :: x.queues.model } }) := by
  have hnot : ¬ Stage.model < x.stage := by
    rw [hstage]
    decide
  rw [Act.queue, Act.run_attempt, Context.queueStep, if_neg hnot, ha]
  rfl

theorem run_queueFront {l : List (Planned × Nat)} {x : Context} (hstage : x.stage = .model)
    (hl : ∀ q ∈ l, Operation.addressOf q.1.operation = .ok q.1.address) :
    (queueFront l).run.run x = (.ok (), { x with queues := { x.queues with
      model := l.map (fun q => q.1.step q.2) ++ x.queues.model } }) := by
  induction l with
  | nil => rfl
  | cons q l ih =>
    obtain ⟨hq, hl⟩ := List.forall_mem_cons.mp hl
    rw [queueFront, run_bind, ih hl]
    exact run_queue hstage hq

/-- The slots of planned operations under their labels. -/
def labelled (ps : List Planned) (n : Nat) : List (String × Nat) :=
  (ps.zipIdx n).map fun q => (q.1.label, q.2)

/-- The step that collects what the steps of a composite answered. -/
def collecting (ps : List Planned) (n : Nat) (a : Address) (slot : Nat) : Step where
  handler := .collect (labelled ps n)
  operation := Operation.build "collect-composite-results" a
  address := a
  slot := slot

/-- **A composite queues its steps** in front of the others, and behind them what collects their
answers. -/
theorem run_run {r : Registration} {operation : Value} {a : Address} {i : Nat} {x : Context}
    {ps : List Planned} (hstage : x.stage = .model)
    (hactive : x.active = some { address := a, slot := i }) (hplan : plan r a operation = .ok ps)
    (hps : ∀ p ∈ ps, Operation.addressOf p.operation = .ok p.address) :
    (run r operation).run.run x = (.ok (), { x with
      slots := x.slots ++ List.replicate ps.length {}
      queues := { x.queues with
        model := (ps.zipIdx x.slots.length).map (fun q => q.1.step q.2)
          ++ collecting ps x.slots.length a i :: x.queues.model }
      completed := .reportSteps i (labelled ps x.slots.length) :: x.completed
      active := some { address := a, slot := i, completed := true } }) := by
  have hcollect : Operation.addressOf (Operation.build "collect-composite-results" a) = .ok a :=
    Address.ofValue_toValue a
  have haddress : x.currentAddress = a := by rw [Context.currentAddress, hactive]; rfl
  have hslot : x.currentSlot = i := by rw [Context.currentSlot, hactive]; rfl
  have hadd : ∀ y : Context, y.stage = .model → y.currentSlot = i →
      (Act.addStepFirst (.collect (labelled ps x.slots.length))
        (Operation.build "collect-composite-results" a) .model).run.run y
      = (.ok (), { y with queues := { y.queues with
          model := collecting ps x.slots.length a i :: y.queues.model } }) := by
    intro y hy hi
    have hqueue := run_queue (h := .collect (labelled ps x.slots.length)) (i := i) hy hcollect
    rw [← hi] at hqueue
    exact hi ▸ hqueue
  have hfront : ∀ q ∈ ps.zipIdx x.slots.length,
      Operation.addressOf q.1.operation = .ok q.1.address := fun q hq =>
    hps q.1 (List.fst_mem_of_mem_zipIdx hq)
  rw [run, run_get]
  dsimp only
  rw [haddress, hplan]
  show ((modifyGet (allot ps) : Act _) >>= fun allotted =>
    Act.addStepFirst (.collect (allotted.map fun q => (q.1.label, q.2)))
      (Operation.build "collect-composite-results" a) .model >>= fun _ =>
    queueFront allotted >>= fun _ =>
    Act.complete (.reportSteps x.currentSlot (allotted.map fun q => (q.1.label, q.2)))).run.run x
    = _
  rw [run_bind, run_allot, hslot]
  dsimp only
  rw [← labelled, run_bind,
    hadd { x with slots := x.slots ++ List.replicate ps.length {} } hstage hslot]
  dsimp only
  rw [run_bind, run_queueFront (by exact hstage) hfront]
  show (Except.ok (), Context.complete _ _) = _
  rw [Context.complete]
  dsimp only
  rw [hactive]
  rfl

theorem run_refused {r : Registration} {operation : Value} {a : Address} {x : Context}
    {e : OperationError} (haddress : x.currentAddress = a) (hplan : plan r a operation = .error e) :
    (run r operation).run.run x = (.error e, x) := by
  rw [run, run_get]
  dsimp only
  rw [haddress, hplan]
  rfl

end Composite

namespace Execution

open Composite (Planned)

variable {r : Registration} {root root' : Resource} {p : Plane} {x : Execution}
  {ps : List Planned} {vs : List Value} {fatal : Bool} {before more : List ResponseSlot}
  {rest : List Step}

/-! ## Steps one after another -/

/-- Planned operations, each on the root that the one before left, all answer. -/
inductive Through (r : Registration) : List Planned → Resource → List Value → Resource → Prop
  | nil (root : Resource) : Through r [] root [] root
  | cons {o : Planned} {ps : List Planned} {root next root' : Resource} {v : Value}
      {vs : List Value} (h : Ends r o.handler o.operation o.address root (.answered v next))
      (hps : Through r ps next vs root') : Through r (o :: ps) root (v :: vs) root'

/-- One of the planned operations stops the pipeline. -/
inductive Halts (r : Registration) : List Planned → Resource → Bool → Prop
  | here {o : Planned} {ps : List Planned} {root : Resource} {fatal : Bool}
      (h : Ends r o.handler o.operation o.address root (.stopped fatal)) :
    Halts r (o :: ps) root fatal
  | later {o : Planned} {ps : List Planned} {root next : Resource} {v : Value} {fatal : Bool}
      (h : Ends r o.handler o.operation o.address root (.answered v next))
      (hps : Halts r ps next fatal) : Halts r (o :: ps) root fatal

theorem through_or_halts
    (h : ∀ o ∈ ps, ∀ root, ∃ u, Ends r o.handler o.operation o.address root u)
    (root : Resource) :
    (∃ vs root', Through r ps root vs root') ∨ ∃ fatal, Halts r ps root fatal := by
  induction ps generalizing root with
  | nil => exact .inl ⟨[], root, .nil root⟩
  | cons o ps ih =>
    obtain ⟨ho, hps⟩ := List.forall_mem_cons.mp h
    obtain ⟨u, hu⟩ := ho root
    cases u with
    | stopped fatal => exact .inr ⟨fatal, .here hu⟩
    | answered v next =>
      rcases ih hps next with ⟨vs, root', hthrough⟩ | ⟨fatal, hhalts⟩
      · exact .inl ⟨v :: vs, root', .cons hu hthrough⟩
      · exact .inr ⟨fatal, .later hu hhalts⟩

/-- The operation is about to run planned operations, whose slots are fresh. -/
structure Lined (r : Registration) (root : Resource) (p : Plane) (x : Execution)
    (ps : List Planned) (rest : List Step) (before more : List ResponseSlot) : Prop
    extends Going r root p x where
  intent : x.context.transaction.hasIntent = true
  queue : x.context.queues.model = (ps.zipIdx before.length).map (fun q => q.1.step q.2) ++ rest
  slots : x.context.slots = before ++ List.replicate ps.length ({} : ResponseSlot) ++ more

theorem Lined.poised {o : Planned}
    (h : Lined r root p x (o :: ps) rest before more) :
    Poised r root p x (o.step before.length)
      ((ps.zipIdx (before.length + 1)).map (fun q => q.1.step q.2) ++ rest) where
  toGoing := h.toGoing
  queue := h.queue
  slot := by
    rw [h.slots, List.length_cons, List.replicate_succ, List.append_assoc]
    show (before ++ _)[before.length]? = _
    rw [List.getElem?_append_right le_rfl, Nat.sub_self]
    rfl
  intent := fun _ => h.intent

/-- What is left in line after the first of the planned operations. -/
theorem Lined.next {o : Planned} (h : Lined r root p x (o :: ps) rest before more) {v : Value}
    {next : Resource} {t : Transaction} {new : List Completion} {added : List ResponseSlot}
    (ht : x.context.transaction.Worked t) (hroot : t.root = next) :
    Lined r next p (x.after ((ps.zipIdx (before.length + 1)).map (fun q => q.1.step q.2) ++ rest)
      (x.context.slots.set before.length (.answered v) ++ added) t new) ps rest
      (before ++ [.answered v]) (more ++ added) where
  toGoing := h.toGoing.after hroot
  intent := ht.hasIntent.trans h.intent
  queue := by
    rw [List.length_append]
    rfl
  slots := by
    show x.context.slots.set before.length _ ++ added = _
    rw [h.slots, List.length_cons, List.replicate_succ, List.append_assoc,
      List.set_append_right _ _ le_rfl, Nat.sub_self]
    simp only [List.cons_append, List.set_cons_zero, List.append_assoc, List.nil_append]

/-- **Operations that all answer** leave their answers in their slots, in front of whatever was
queued behind them. -/
theorem passes_through (hps : Through r ps root vs root')
    (hx : Lined r root p x ps rest before more) (hidle : x.context.active = none) :
    ∃ more' t new, x.context.transaction.Worked t ∧ t.root = root' ∧ (∀ c ∈ new, c.Reports) ∧
      Passes (p, x)
        (p, x.after rest (before ++ vs.map ResponseSlot.answered ++ more') t new) := by
  induction hps generalizing x before more with
  | nil root =>
    refine ⟨more, x.context.transaction, [], .refl _, hx.snapshot, by rintro _ ⟨⟩, ?_⟩
    have hself : x.after rest (before ++ [] ++ more) x.context.transaction [] = x := by
      have hqueue : x.context.queues.model = rest := hx.queue
      have hslots : x.context.slots = before ++ [] ++ more := hx.slots
      rw [← hqueue, ← hslots, after, ← hx.phase, ← hidle]
      rfl
    rw [List.map_nil, hself]
    exact .refl
  | cons ho hps ih =>
    obtain ⟨added, t, new, ht, hroot, hnew, hpasses⟩ := ho p x _ _ hx.poised
    obtain ⟨more', t', new', ht', hroot', hnew', hpasses'⟩ := ih (hx.next ht hroot) rfl
    refine ⟨more', t', new' ++ new, ht.trans ht', hroot', fun c hc => ?_, ?_⟩
    · exact (List.mem_append.mp hc).elim (hnew' c) (hnew c)
    · rw [after_after, List.append_assoc before] at hpasses'
      exact hpasses.trans hpasses'

/-- **An operation that stops** the pipeline stops it for those behind it as well. -/
theorem passes_halts (hps : Halts r ps root fatal) (hx : Lined r root p x ps rest before more) :
    ∃ y e, Passes (p, x) (p, y) ∧ y.phase = .unwinding e ∧ e.Stops fatal ∧ x.Leaves y := by
  induction hps generalizing x before more with
  | here ho => exact ho p x _ _ hx.poised
  | later ho hps ih =>
    obtain ⟨added, t, new, ht, hroot, hnew, hpasses⟩ := ho p x _ _ hx.poised
    obtain ⟨y, e, hpasses', hphase, hstops, hleaves⟩ := ih (hx.next ht hroot)
    exact ⟨y, e, hpasses.trans hpasses', hphase, hstops, (leaves_after ht hnew).trans hleaves⟩

/-! ## Composites -/

theorem slot_of_append {before more : List ResponseSlot} {s : ResponseSlot} {context : Context}
    (h : context.slots = before ++ s :: more) : context.slot before.length = s := by
  rw [Context.slot, h, List.getElem?_append_right le_rfl, Nat.sub_self]
  rfl

/-- What is collected are the answers under their labels. -/
theorem results_labelled {context : Context} (hlength : ps.length = vs.length)
    (h : context.slots = before ++ vs.map ResponseSlot.answered ++ more) :
    Composite.results context (Composite.labelled ps before.length)
      = .object ((ps.map (·.label)).zip (vs.map Response.success)) := by
  rw [Composite.results, Composite.labelled, List.map_map]
  congr 1
  induction ps generalizing vs before with
  | nil => rfl
  | cons o ps ih =>
    obtain _ | ⟨v, vs⟩ := vs
    · cases hlength
    · rw [List.map_cons, List.append_assoc, List.cons_append] at h
      have hslots : context.slots
          = (before ++ [.answered v]) ++ vs.map ResponseSlot.answered ++ more := by
        rw [h, List.append_assoc, List.append_assoc]
        rfl
      have hrest := ih (Nat.succ.inj hlength) hslots
      rw [List.length_append, List.length_singleton] at hrest
      rw [List.zipIdx_cons, List.map_cons, hrest, Function.comp_apply]
      dsimp only
      rw [slot_of_append h]
      rfl

theorem Through.length_eq (h : Through r ps root vs root') : ps.length = vs.length := by
  induction h with
  | nil => rfl
  | cons _ _ ih => exact congrArg Nat.succ ih

variable {operation : Value} {a : Address} {i : Nat}

/-- The operation after a composite in front of `rest` queued its steps. -/
def queued (x : Execution) (ps : List Planned) (a : Address) (i : Nat) (rest : List Step) :
    Execution :=
  x.after ((ps.zipIdx x.context.slots.length).map (fun q => q.1.step q.2)
      ++ Composite.collecting ps x.context.slots.length a i :: rest)
    (x.context.slots ++ List.replicate ps.length ({} : ResponseSlot)) x.context.transaction
    [.reportSteps i (Composite.labelled ps x.context.slots.length)]

theorem leaves_queued : x.Leaves (x.queued ps a i rest) :=
  leaves_after (.refl _) (List.forall_mem_singleton.mpr ⟨_, _, rfl⟩)

/-- **A composite with a plan** lines its steps up, and behind them what collects their answers. -/
theorem passes_composite (hx : Poised r root p x ⟨.global .composite, operation, a, i⟩ rest)
    (hplan : Composite.plan r a operation = .ok ps)
    (hps : ∀ o ∈ ps, Operation.addressOf o.operation = .ok o.address) :
    Passes (p, x) (p, x.queued ps a i rest) ∧ Lined r root p (x.queued ps a i rest) ps
      (Composite.collecting ps x.context.slots.length a i :: rest) x.context.slots [] := by
  have hdeed : (Handler.global .composite).deed? operation = some (do
      let s ← get
      Deed.act (GlobalOperation.run .composite (s.plane.registration s.controller) operation)) :=
    rfl
  have hrun := Deed.run_act (GlobalOperation.run .composite r operation)
    ⟨p, x.controller, x.begun ⟨.global .composite, operation, a, i⟩ rest⟩
  rw [GlobalOperation.run,
    Composite.run_run (x := x.begun ⟨.global .composite, operation, a, i⟩ rest) hx.stage rfl hplan
      hps] at hrun
  have hwork := ((run_get (fun s => Deed.act (GlobalOperation.run .composite
    (s.plane.registration s.controller) operation)) ⟨p, x.controller,
      x.begun ⟨.global .composite, operation, a, i⟩ rest⟩).trans
        (by rw [hx.registration]; rfl)).trans hrun
  have hpasses := passes_ok hx.toGoing hx.queue hdeed hwork hx.violation hx.rollbackOnly
  exact ⟨hpasses, hx.toGoing.after hx.snapshot, hx.intent rfl, rfl, (List.append_nil _).symm⟩

/-- **A composite whose steps all answer** answers with all their answers. -/
theorem ends_of_through (hplan : Composite.plan r a operation = .ok ps)
    (hps : ∀ o ∈ ps, Operation.addressOf o.operation = .ok o.address)
    (h : Through r ps root vs root') :
    Ends r (.global .composite) operation a root (.answered
      (.object ((ps.map (·.label)).zip (vs.map Response.success))) root') := by
  intro p x i rest hx
  obtain ⟨hpasses, hlined⟩ := passes_composite hx hplan hps
  obtain ⟨more, t, new, ht, hroot, hnew, hpasses'⟩ := passes_through h hlined rfl
  set z := (x.queued ps a i rest).after
    (Composite.collecting ps x.context.slots.length a i :: rest)
    (x.context.slots ++ vs.map ResponseSlot.answered ++ more) t new with hz
  have hresults : Composite.results
      (z.begun (Composite.collecting ps x.context.slots.length a i) rest)
      (Composite.labelled ps x.context.slots.length)
      = .object ((ps.map (·.label)).zip (vs.map Response.success)) :=
    results_labelled h.length_eq rfl
  have hgoing : Going r root' p z := hlined.toGoing.after hroot
  have hdeed : (Composite.collecting ps x.context.slots.length a i).handler.deed?
      (Composite.collecting ps x.context.slots.length a i).operation
      = some (Deed.onContext fun c => c.setResult (Composite.results c
        (Composite.labelled ps x.context.slots.length))) := rfl
  have hrun : ∀ s : Scene, (Deed.onContext fun c => c.setResult (Composite.results c
      (Composite.labelled ps x.context.slots.length))).run.run s = (.ok (), { s with
        context := s.context.setResult (Composite.results s.context
          (Composite.labelled ps x.context.slots.length)) }) := fun _ => rfl
  have hcollect := passes_ok hgoing rfl hdeed (hrun _) hgoing.violation hgoing.rollbackOnly
  dsimp only at hcollect
  rw [hresults] at hcollect
  obtain ⟨hi, -⟩ := List.getElem?_eq_some_iff.mp hx.slot
  have hblank : (x.context.slots ++ vs.map ResponseSlot.answered ++ more)[i]?
      = some ({} : ResponseSlot) := by
    rw [List.append_assoc, List.getElem?_append_left hi]
    exact hx.slot
  refine ⟨vs.map ResponseSlot.answered ++ more, t, new ++ [.reportSteps i
    (Composite.labelled ps x.context.slots.length)], ht, hroot, ?_,
    hpasses.trans (hpasses'.trans ?_)⟩
  · exact List.forall_mem_append.mpr ⟨hnew, List.forall_mem_singleton.mpr ⟨_, _, rfl⟩⟩
  · rw [← List.set_append_left _ _ hi, ← List.append_assoc, ← modify_blank hblank]
    have hafter : ∀ slots, x.after rest slots t (new ++ [.reportSteps i
        (Composite.labelled ps x.context.slots.length)]) = (x.queued ps a i rest).after rest slots t
          new := fun _ => (after_after _ _ _ _).symm
    rw [hafter]
    exact hcollect

/-- **A composite with a step that stops** stops. -/
theorem ends_of_halts (hplan : Composite.plan r a operation = .ok ps)
    (hps : ∀ o ∈ ps, Operation.addressOf o.operation = .ok o.address)
    (h : Halts r ps root fatal) :
    Ends r (.global .composite) operation a root (.stopped fatal) := by
  intro p x i rest hx
  obtain ⟨hpasses, hlined⟩ := passes_composite hx hplan hps
  obtain ⟨z, e, hpasses', hphase, hstops, hleaves⟩ := passes_halts h hlined
  exact ⟨z, e, hpasses.trans hpasses', hphase, hstops, leaves_queued.trans hleaves⟩

/-- A composite without a plan stops. -/
theorem ends_of_refused {e : OperationError} (hplan : Composite.plan r a operation = .error e) :
    Ends r (.global .composite) operation a root (.stopped e.isFatal) := by
  have hdeed : (Handler.global .composite).deed? operation = some (do
      let s ← get
      Deed.act (GlobalOperation.run .composite (s.plane.registration s.controller) operation)) :=
    rfl
  have hcomes : (Handler.global .composite).Comes r operation a root (.error e) := by
    refine ⟨_, hdeed, fun s hs hsees _ => ⟨s.context, .error e, ?_, rfl, _, .refl _, rfl⟩⟩
    rw [run_get, Deed.run_act, hs, GlobalOperation.run, Composite.run_refused hsees.address hplan]
  exact ends_of_comes hcomes

end Execution

namespace Composite

open Execution (Ends)

variable {r : Registration} {base : Address} {steps : List Value} {ps : List Planned}

/-- What is planned has upshots when the steps that it is planned for have them. -/
theorem ends_of_plans (hplans : List.Forall₂ (Plans r base) steps ps)
    (h : ∀ s ∈ steps, ∀ a entry, r.LeadsTo base s a entry → ∀ root, ∃ u,
      Ends r entry.handler (Operation.below base s) a root u) :
    ∀ o ∈ ps, ∀ root, ∃ u, Ends r o.handler o.operation o.address root u := by
  induction hplans with
  | nil => rintro _ ⟨⟩
  | cons hplan hplans ih =>
    obtain ⟨hs, hsteps⟩ := List.forall_mem_cons.mp h
    obtain ⟨-, entry, ⟨hleads, -⟩, hoperation, hhandler⟩ := hplan.accepts
    refine List.forall_mem_cons.mpr ⟨fun root => ?_, ih hsteps⟩
    rw [hoperation, hhandler]
    exact hs _ _ hleads root

theorem addressOf_of_plans (hplans : List.Forall₂ (Plans r base) steps ps) :
    ∀ o ∈ ps, Operation.addressOf o.operation = .ok o.address := by
  induction hplans with
  | nil => rintro _ ⟨⟩
  | cons hplan hplans ih => exact List.forall_mem_cons.mpr ⟨hplan.accepts.1, ih⟩

theorem stepsOf_below (base : Address) (step : Value) :
    stepsOf (Operation.below base step) = stepsOf step := by
  rw [Operation.below]
  split
  · rw [stepsOf, stepsOf, Value.get?_set, if_neg (by decide)]
  · rfl

/-- **Every standard step has an upshot.**  The induction is on how the step is drawn: a composite
is drawn from its steps. -/
theorem Drawn.ends (hr : r.Local) {step : Value} (h : Drawn r base step) :
    ∀ a entry, r.LeadsTo base step a entry → ∀ root, ∃ u,
      Ends r entry.handler (Operation.below base step) a root u := by
  induction h with
  | @intro base step standard steps ih =>
    intro a entry hleads root
    by_cases hcomposite : entry.handler = .global .composite
    · rw [hcomposite]
      cases hplan : plan r a (Operation.below base step) with
      | error e => exact ⟨_, Execution.ends_of_refused hplan⟩
      | ok ps =>
        have hfrom := planFrom_of_plan hplan
        rw [stepsOf_below] at hfrom
        have hplans := plans_of_planFrom hr (steps a entry hleads hcomposite) hfrom
        have hends := ends_of_plans hplans (ih a entry hleads hcomposite)
        rcases Execution.through_or_halts hends root with ⟨vs, root', hthrough⟩ | ⟨fatal, hhalts⟩
        · exact ⟨_, Execution.ends_of_through hplan (addressOf_of_plans hplans) hthrough⟩
        · exact ⟨_, Execution.ends_of_halts hplan (addressOf_of_plans hplans) hhalts⟩
    · obtain ⟨out, hcomes⟩ := Handler.comes_of_standard hr (standard a entry hleads) hcomposite
        (Operation.below base step)
      exact ⟨_, Execution.ends_of_comes hcomes⟩

end Composite

end ManagementPlane
