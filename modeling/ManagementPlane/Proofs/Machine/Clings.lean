import ManagementPlane.Proofs.Global.Work
import ManagementPlane.Proofs.Machine.Transitions

/-!
# Proofs/Machine/Clings — what steps and completions leave as it was

What an operation is, its stage, and once the first stage is over its transaction too, are not
changed by what its steps and completions do (`Context.Clings`).  The only instruction that asks
for the write lock is refused in a later stage (`Instruction.stage_of_acquire`).
-/

namespace ManagementPlane

/-! ## Who asks for the lock -/

namespace Deed

variable {α β : Type} {P : α → Prop} {Q : β → Prop}

/-- What the deed answers, if it answers. -/
def Answers (P : α → Prop) (d : Deed α) : Prop := ∀ s a t, d.run.run s = (.ok a, t) → P a

theorem answers_pure {a : α} (h : P a) : Answers P (pure a) := by
  rintro s b t ⟨⟩
  exact h

theorem answers_throw (e : OperationError) : Answers P (throw e) := by rintro s a t ⟨⟩

/-- What the second deed answers is the answer. -/
theorem answers_bind {d : Deed α} {g : α → Deed β} (h : ∀ a, Answers Q (g a)) :
    Answers Q (d >>= g) := by
  intro s b t hrun
  rw [run_bind] at hrun
  split at hrun
  · exact h _ _ _ _ hrun
  · cases hrun

end Deed

namespace Instruction

variable {operation : Value} {i : Instruction} {s t : Scene}

/-- What is left to do once the instruction is done. -/
def effect : Instruction → Effect
  | acquire => .acquire
  | attempt body => .enter body
  | wait ms what => .pause ms what
  | nested operation => .nest operation
  | _ => .proceed

open Deed in
/-- **An instruction that succeeds leaves its effect to be done**, whatever it met with. -/
theorem answers_perform (operation : Value) (i : Instruction) :
    Answers (· = i.effect) (i.perform operation) := by
  have proceeds : ∀ {α : Type} {d : Deed α},
      Answers (· = .proceed) (d >>= fun _ => pure Effect.proceed) :=
    answers_bind fun _ => answers_pure rfl
  cases i with
  | acquire => exact answers_bind fun _ => answers_bind fun _ => answers_pure rfl
  | set | unset | touch | create | snapshot | resultCancelled | showResult | report | showSlot |
      info | settings | operations | input | showNote => exact answers_bind fun _ => proceeds
  | remove | read | note => exact answers_bind fun _ => answers_bind fun _ => proceeds
  | result | resultOperation | resultPath | header | slot | failSlot | complete | onRollback |
      rollbackOnly | log | unknown => exact proceeds
  | fail => exact answers_throw _
  | attempt | wait | nested => exact answers_pure rfl
  | step stage body other first label =>
    refine answers_bind fun x => ?_
    dsimp only
    split <;> exact proceeds
  | stream mime text asResult =>
    refine answers_bind fun id => ?_
    dsimp only
    split
    · exact proceeds
    · exact answers_pure rfl
  | cancel =>
    refine answers_bind fun x => ?_
    dsimp only
    split
    · exact proceeds
    · exact answers_pure rfl
  | process change =>
    cases change with
    | some change => exact answers_bind fun _ => proceeds
    | none => exact answers_bind fun _ => answers_pure rfl

/-- **Only the first stage is let ask for the lock.** -/
theorem stage_of_acquire (h : ((i.perform operation).run).run s = (.ok .acquire, t)) :
    s.context.stage = .model := by
  have heffect := answers_perform operation i _ _ _ h
  cases i with
  | acquire =>
    by_contra hstage
    have hrefused : ((acquire.perform operation).run).run s =
        (.error (.contractViolation
          ("acquiring write intent is only allowed in the MODEL stage, not "
            ++ s.context.stage.name)), s) := by
      show (Deed.orThrow (s.context.requireModelStage "acquiring write intent") >>= fun _ =>
        (pure Effect.acquire : Deed Effect)).run.run s = _
      rw [Context.requireModelStage, if_neg hstage]
      rfl
    cases hrefused.symm.trans h
  | _ => cases heffect

/-- Only what catches failures has a body of its own. -/
theorem eq_attempt_of_enter {body : Script}
    (h : ((i.perform operation).run).run s = (.ok (.enter body), t)) : i = .attempt body := by
  have heffect := answers_perform operation i _ _ _ h
  cases i with
  | attempt =>
    cases heffect
    rfl
  | _ => cases heffect

end Instruction

/-! ## What steps and completions leave as it was -/

namespace Context

/-- The same operation in the same stage, with the same hold on the lock; and past the first stage
its transaction is the same. -/
structure Clings (x y : Context) : Prop where
  id : y.id = x.id
  input : y.input = x.input
  stage : y.stage = x.stage
  writer : y.transaction.writer = x.transaction.writer
  intent : y.transaction.hasIntent = x.transaction.hasIntent
  holds : y.transaction.holdsLock = x.transaction.holdsLock
  later : x.stage ≠ .model → y.transaction = x.transaction

variable {x y z : Context}

theorem Clings.of_eq (hid : y.id = x.id) (hinput : y.input = x.input) (hstage : y.stage = x.stage)
    (htransaction : y.transaction = x.transaction) : x.Clings y :=
  ⟨hid, hinput, hstage, by rw [htransaction], by rw [htransaction], by rw [htransaction],
    fun _ => htransaction⟩

theorem Clings.refl (x : Context) : x.Clings x := .of_eq rfl rfl rfl rfl

/-- One change after another. -/
theorem Clings.trans (h : x.Clings y) (h' : y.Clings z) : x.Clings z :=
  ⟨h'.id.trans h.id, h'.input.trans h.input, h'.stage.trans h.stage, h'.writer.trans h.writer,
    h'.intent.trans h.intent, h'.holds.trans h.holds,
    fun hx => (h'.later (h.stage ▸ hx)).trans (h.later hx)⟩

/-- To complete concerns no lock. -/
theorem clings_complete (x : Context) (c : Completion) : x.Clings (x.complete c) := by
  rw [complete]
  split
  · split <;> exact .of_eq rfl rfl rfl rfl
  · exact .of_eq rfl rfl rfl rfl

theorem Does.clings {may : Instruction → Prop} (h : x.Does may y) : x.Clings y := by
  induction h with
  | refl => exact .refl x
  | @tail y z _ h ih =>
    refine ih.trans ?_
    cases h with
    | complete c _ => exact clings_complete _ c
    | write f hstage =>
      have hworked := y.transaction.worked_write f
      exact ⟨rfl, rfl, rfl, hworked.written.alongside.writer, hworked.hasIntent, hworked.lock,
        fun h => absurd hstage h⟩
    | _ => exact .of_eq rfl rfl rfl rfl

/-- The end of a step concerns no lock. -/
theorem clings_endStep (x : Context) (step : Step) (out : Except OperationError Unit) :
    x.Clings (x.endStep step out).2 := by
  have hrested := x.endStep_rested step out
  have hsame : (x.endStep step out).2.id = x.id ∧ (x.endStep step out).2.input = x.input := by
    rw [endStep.eq_def]
    dsimp only
    split
    · exact ⟨rfl, rfl⟩
    · split
      · exact ⟨rfl, rfl⟩
      · split
        · exact ⟨rfl, rfl⟩
        · split <;> exact ⟨rfl, rfl⟩
  exact .of_eq hsame.1 hsame.2 hrested.stage hrested.transaction

/-- What a participant prepared concerns no lock of the parent. -/
theorem clings_accept (x : Context) (f h : Nat) (response : Value) :
    x.Clings (Forwarding.accept x f h response) := by
  have haccepting : x.Clings { x.setResult (Response.result response) with
      completions := (x.setResult (Response.result response)).completions ++ [f] } :=
    .of_eq rfl rfl rfl rfl
  exact haccepting.trans (clings_complete _ _)

/-- A completion that is told concerns no lock. -/
theorem clings_told (x : Context) (c : Completion) (rest : List Completion) (d : Decision)
    (p : Plane) (k : Nat) : x.Clings (c.run d ⟨p, k, { x with completed := rest }⟩).context := by
  have htold : x.Clings { x with completed := rest } := .of_eq rfl rfl rfl rfl
  rcases c.context_run d ⟨p, k, { x with completed := rest }⟩ with hdoes | ⟨own, slots, hreport⟩
  · exact htold.trans hdoes.clings
  · rw [hreport]
    exact .of_eq rfl rfl rfl rfl

end Context

end ManagementPlane
