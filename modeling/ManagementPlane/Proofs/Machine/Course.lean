import ManagementPlane.Proofs.Machine.Turns
import ManagementPlane.Proofs.Value.Paths

/-!
# Proofs/Machine/Course — the turns of one operation

An operation takes its turns among others (`Execution.Course`): between two turns anything may
happen around it that a relation allows.  The turns tell what it did:

* which completions it registered, and what each of them was told (`registered`, `told`);
* whether a step broke its contract (`Moment.Breach`), or went well (`Moment.Smooth`);
* whether its model was committed (`Moment.Commits`).
-/

namespace ManagementPlane

/-- The operation that a turn goes on with; none when it broke down. -/
def Next.after? : Next → Option Execution
  | going x => some x
  | returned x step out => some (x.afterStep step out)
  | blocked x => some x
  | nesting x _ => some x
  | crashed _ => none

/-- A step returns with its contract broken: it completed twice, or reports a violation, or fails
after it completed. -/
def Context.Broken (x : Context) (out : Except OperationError Unit) : Prop :=
  x.violation.isSome ∨ ∃ e, out = .error e ∧ (e.isFatal = true ∨ ∃ a ∈ x.active, a.completed = true)

/-- An operation that is about to take a turn, and what is around it. -/
structure Moment where
  plane : Plane
  execution : Execution

namespace Moment

def turn (m : Moment) : Turn := m.execution.advance m.plane

/-- The instructions that the turn does. -/
def instructions (m : Moment) : List Instruction :=
  match m.execution.phase with
  | .handling _ w => w.instructions
  | .unwinding e =>
    match m.execution.context.completed with
    | c :: _ => c.instructions e.decision
    | [] => []
  | _ => []

/-- The completions that the turn registers, in order. -/
def registers (m : Moment) : List Completion :=
  match m.turn.next.after? with
  | some y =>
    let new := y.context.completed.length - m.execution.context.completed.length
    (y.context.completed.take new).reverse
  | none => []

/-- The completion that the turn tells the outcome. -/
def tells (m : Moment) : List (Completion × Decision) :=
  match m.execution.phase, m.execution.context.completed with
  | .unwinding e, c :: _ => [(c, e.decision)]
  | _, _ => []

/-- A step returns and has broken its contract. -/
def Breach (m : Moment) : Prop :=
  ∃ x step out, m.turn.next = .returned x step out ∧ x.context.Broken out

/-- When a step returns, it went well. -/
def Smooth (m : Moment) : Prop :=
  ∀ x step out, m.turn.next = .returned x step out →
    out = .ok () ∧ x.context.violation = none ∧ x.context.rollbackOnly = false

/-- The turn makes the response of a slot fail, other than by the failure of a step. -/
def FailsSlot (m : Moment) : Prop := ∃ label failure, .failSlot label failure ∈ m.instructions

instance (m : Moment) : Decidable m.FailsSlot :=
  decidable_of_iff (m.instructions.any fun i => match i with
    | .failSlot .. => true
    | _ => false) <| by
    rw [List.any_eq_true]
    constructor
    · rintro ⟨i, hi, hfails⟩
      cases i with
      | failSlot label failure => exact ⟨label, failure, hi⟩
      | _ => cases hfails
    · rintro ⟨label, failure, hi⟩
      exact ⟨_, hi, rfl⟩

/-- The operation is decided to be kept, after its last stage, and its model is committed. -/
structure Commits (m : Moment) : Prop where
  decided : ∃ h due, m.execution.phase = .deciding h due ∧
    (m.plane.handle h).outlook.effect? = some .keep
  commits : (m.execution.context.transaction.commit
    (m.plane.tree m.execution.controller)).1 = .ok ()
  empty : ∀ stage, m.execution.context.queues.get stage = []

end Moment

/-- The completions that the turns registered, the first one first; the turns are listed from the
last one on. -/
def registered : List Moment → List Completion
  | [] => []
  | m :: past => registered past ++ m.registers

/-- What the completions were told, in order. -/
def told : List Moment → List (Completion × Decision)
  | [] => []
  | m :: past => told past ++ m.tells

namespace Execution

/-- The course of one operation from `x₀` on.  It takes turns, which are kept in a list from the
last one on; and between them the plane changes as `around` allows, or an operation that runs on top
of it comes to its end. -/
inductive Course (around : Plane → Plane → Prop) (p₀ : Plane) (x₀ : Execution) :
    List Moment → Plane → Execution → Prop
  | start : Course around p₀ x₀ [] p₀ x₀
  | around {past : List Moment} {p q : Plane} {x : Execution} (h : Course around p₀ x₀ past p x)
      (hq : around p q) : Course around p₀ x₀ past q x
  | turn {past : List Moment} {p : Plane} {x y : Execution} (h : Course around p₀ x₀ past p x)
      (hopen : ∀ answer, x.phase ≠ .ended answer) (hy : (x.advance p).next.after? = some y) :
    Course around p₀ x₀ (⟨p, x⟩ :: past) (x.advance p).plane y
  | resume {past : List Moment} {p : Plane} {x : Execution} (h : Course around p₀ x₀ past p x)
      (answer : Answer) : Course around p₀ x₀ past (x.resume p answer).1 (x.resume p answer).2

end Execution

/-! ## Responses -/

namespace Response

theorem get?_finish {key : String} (h : Key.responseHeaders ≠ key) (p : Plane) (c : Nat)
    (response : Value) : (p.finish c response).get? key = response.get? key := by
  rw [Plane.finish]
  split
  · rw [Value.setPath_cons, Value.get?_update, if_neg h]
  · rfl

theorem isSuccess_finish (p : Plane) (c : Nat) (response : Value) :
    isSuccess (p.finish c response) = isSuccess response := by
  rw [isSuccess, isSuccess, get?_finish (by decide)]

theorem isSuccess_failure (description : Value) : isSuccess (failure description) = false := rfl

theorem isSuccess_toValue (s : ResponseSlot) (rolledBack : Bool) :
    isSuccess (s.toValue rolledBack) = s.failure.isNone := by
  rw [ResponseSlot.toValue]
  cases s.failure <;> rfl

end Response

/-! ## The next step -/

namespace Context

variable {x y : Context} {step : Step}

/-- The step that is next is taken out of its queue. -/
theorem nextStep?_eq_some (h : x.nextStep? = some (step, y)) :
    ∃ rest, x.queues.get x.stage = step :: rest ∧
      y = { x with queues := x.queues.set rest x.stage } := by
  rw [nextStep?] at h
  split at h
  · cases h
  · rename_i hqueue
    obtain ⟨rfl, rfl⟩ := Prod.mk.inj (Option.some.inj h)
    exact ⟨_, hqueue, rfl⟩

theorem nextStep?_eq_none (h : x.nextStep? = none) : x.queues.get x.stage = [] := by
  rw [nextStep?] at h
  split at h
  · assumption
  · cases h

end Context

/-! ## The end of a step -/

namespace Context

/-- What the end of a step makes of the context. -/
structure Rested (x y : Context) : Prop where
  active : y.active = none
  violation : y.violation = none
  completed : y.completed = x.completed
  transaction : y.transaction = x.transaction
  stage : y.stage = x.stage
  queues : y.queues = x.queues

theorem endStep_rested (x : Context) (step : Step) (out : Except OperationError Unit) :
    x.Rested (x.endStep step out).2 := by
  rw [endStep.eq_def]
  dsimp only
  split
  · exact ⟨rfl, rfl, rfl, rfl, rfl, rfl⟩
  · rename_i hviolation
    split
    · exact ⟨rfl, hviolation, rfl, rfl, rfl, rfl⟩
    · split
      · exact ⟨rfl, hviolation, rfl, rfl, rfl, rfl⟩
      · split
        · exact ⟨rfl, hviolation, rfl, rfl, rfl, rfl⟩
        · exact ⟨rfl, hviolation, rfl, rfl, rfl, rfl⟩

/-- **The three ends of a step**: all went well, the pipeline failed, or the contract is broken. -/
theorem endStep_cases (x : Context) (step : Step) (out : Except OperationError Unit) :
    ((x.endStep step out).1 = none ∧ out = .ok () ∧ x.violation = none ∧ x.rollbackOnly = false ∧
        (x.endStep step out).2 = { x with active := none }) ∨
      ((x.endStep step out).1 = some .failed ∧ ¬ x.Broken out) ∨
      ((∃ reason, (x.endStep step out).1 = some (.fatal reason)) ∧ x.Broken out) := by
  rw [endStep.eq_def]
  dsimp only
  split
  · rename_i v hv
    exact .inr (.inr ⟨⟨v, rfl⟩, .inl (by rw [hv]; rfl)⟩)
  · rename_i hv
    have hno : ¬ x.violation.isSome := by rw [hv]; exact Bool.false_ne_true
    split
    · cases hrollback : x.rollbackOnly
      · exact .inl ⟨rfl, rfl, hv, rfl, rfl⟩
      · refine .inr (.inl ⟨rfl, ?_⟩)
        rintro (h | ⟨e, he, -⟩)
        · exact hno h
        · cases he
    · rename_i e
      split
      · rename_i hfatal
        exact .inr (.inr ⟨⟨_, rfl⟩, .inr ⟨e, rfl, .inl hfatal⟩⟩)
      · rename_i hfatal
        split
        · rename_i hcompleted
          refine .inr (.inr ⟨⟨_, rfl⟩, .inr ⟨e, rfl, .inr ?_⟩⟩)
          cases ha : x.active with
          | none => simp [ha] at hcompleted
          | some a => exact ⟨a, rfl, by simpa [ha] using hcompleted⟩
        · rename_i hcompleted
          refine .inr (.inl ⟨rfl, ?_⟩)
          rintro (h | ⟨e', he, hbroken⟩)
          · exact hno h
          · obtain rfl : e = e' := Except.error.inj he
            rcases hbroken with h | ⟨a, ha, hac⟩
            · exact hfatal h
            · exact hcompleted (by rw [Option.mem_def.mp ha]; exact hac)

end Context

/-- Whether the pipeline has yet to come to its end. -/
def Phase.isRunning : Phase → Bool
  | opening | locking _ | stepping | handling .. => true
  | _ => false

/-- Whether the operation waits for its decision. -/
def Phase.isDeciding : Phase → Bool
  | deciding .. => true
  | _ => false

theorem Phase.exists_of_isDeciding {phase : Phase} (h : phase.isDeciding = true) :
    ∃ handle due, phase = .deciding handle due := by
  cases phase with
  | deciding handle due => exact ⟨handle, due, rfl⟩
  | _ => cases h

namespace Moment

variable {m : Moment} {y : Execution}

theorem registers_eq {new : List Completion} (hy : m.turn.next.after? = some y)
    (hnew : y.context.completed = new ++ m.execution.context.completed) :
    m.registers = new.reverse := by
  rw [Moment.registers, hy]
  dsimp only
  rw [hnew, List.length_append, Nat.add_sub_cancel, List.take_left]

theorem registers_eq_nil (hy : m.turn.next.after? = some y)
    (h : y.context.completed.length ≤ m.execution.context.completed.length) :
    m.registers = [] := by
  rw [Moment.registers, hy]
  dsimp only
  rw [Nat.sub_eq_zero_of_le h]
  rfl

theorem tells_eq_nil (h : ∀ e, m.execution.phase ≠ .unwinding e) : m.tells = [] := by
  rw [Moment.tells]
  split
  · rename_i e _ _ he _
    exact absurd he (h e)
  · rfl

/-- The turn neither tells nor commits anything. -/
structure Quiet (m : Moment) : Prop where
  tells : m.tells = []
  commits : ¬ m.Commits

theorem not_commits (h : ∀ handle due, m.execution.phase ≠ .deciding handle due) : ¬ m.Commits := by
  rintro ⟨⟨handle, due, hphase, -⟩, -, -⟩
  exact h handle due hphase

theorem quiet_of_isRunning (h : m.execution.phase.isRunning = true) : m.Quiet := by
  refine ⟨tells_eq_nil ?_, not_commits ?_⟩
  · intro e he
    rw [he] at h
    cases h
  · intro handle due hphase
    rw [hphase] at h
    cases h

theorem smooth_of_next {next : Next} (h : m.turn.next = next)
    (hnext : ∀ x step out, next ≠ .returned x step out) : m.Smooth := by
  intro x step out hm
  exact absurd (h.symm.trans hm) (hnext x step out)

theorem not_breach_of_next {next : Next} (h : m.turn.next = next)
    (hnext : ∀ x step out, next ≠ .returned x step out) : ¬ m.Breach := by
  rintro ⟨x, step, out, hm, -⟩
  exact hnext x step out (h.symm.trans hm)

theorem Smooth.not_breach (h : m.Smooth) : ¬ m.Breach := by
  rintro ⟨x, step, out, hm, hbroken⟩
  obtain ⟨rfl, hviolation, -⟩ := h x step out hm
  rcases hbroken with hv | ⟨e, he, -⟩
  · rw [hviolation] at hv
    exact Bool.false_ne_true hv
  · cases he

end Moment

end ManagementPlane
