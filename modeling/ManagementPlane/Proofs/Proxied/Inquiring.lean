import ManagementPlane.Proofs.Global.Answering
import ManagementPlane.Proofs.Machine.Transitions
import ManagementPlane.Proofs.Proxied.Asking

/-!
# Proofs/Proxied/Inquiring — asking one participant after another

An operation whose first step left questions (`Inquiry.Arises`) asks them one after another.
`Inquiry.Stands` says for each phase how far that has come: which questions were asked, what was
heard of them, and what the slots hold.  Every turn keeps it (`Inquiry.stands_turn`), whatever goes
on around the operation.
-/

namespace ManagementPlane

namespace Moment

variable {m : Moment}

/-- What the turn asks of a participant.  An operation whose cancellation is seen asks nothing. -/
def asks (m : Moment) : List (Proxy × Value) :=
  match m.execution.phase with
  | .handling step .begin =>
    match step.handler with
    | .forward proxy =>
      if step.address.length < proxy.node.length ∨
        m.plane.overtakes m.execution.context.input.cancellation then []
      else [(proxy, step.operation.set Key.address
        (Address.toValue (step.address.drop proxy.node.length)))]
    | _ => []
  | _ => []

/-- The outcome that the turn hears of a participant, unless the wait for it is interrupted. -/
def hears (m : Moment) : List Outcome :=
  match m.execution.phase with
  | .handling step (.forwarding f due .delivered) =>
    if (m.execution.interruption? m.plane due (Forwarding.subject step.address)).isSome then []
    else (m.plane.forward f).outcome.toList
  | _ => []

theorem asks_eq_nil (h : ∀ step, m.execution.phase ≠ .handling step .begin) : m.asks = [] := by
  rw [asks]
  split
  · next step hphase => exact absurd hphase (h step)
  · rfl

theorem hears_eq_nil
    (h : ∀ step f due way, m.execution.phase ≠ .handling step (.forwarding f due way)) :
    m.hears = [] := by
  rw [hears]
  split
  · next step f due hphase => exact absurd hphase (h step f due .delivered)
  · rfl

section

variable {p : Plane} {x : Execution} {step : Step} {f due : Nat} {way : Delivery}
  (hphase : x.phase = .handling step (.forwarding f due way))

include hphase

/-- A turn hears nothing when nothing has come, or nobody reads it. -/
theorem hears_of_unread {e : OperationError}
    (h : x.interruption? p due (Forwarding.subject step.address) = some e ∨
      Forwarding.Silent p f way) : (⟨p, x⟩ : Moment).hears = [] := by
  rw [hears]
  dsimp only
  rw [hphase]
  cases way with
  | delivered =>
    dsimp only
    split
    · rfl
    · next hread =>
      rcases h with hinterrupted | hsilent
      · exact absurd (Option.isSome_of_eq_some hinterrupted) hread
      · exact congrArg Option.toList hsilent
  | _ => rfl

theorem hears_of_way (hway : way ≠ .delivered) : (⟨p, x⟩ : Moment).hears = [] := by
  rw [hears]
  dsimp only
  rw [hphase]
  cases way with
  | delivered => exact absurd rfl hway
  | _ => rfl

/-- The outcome that has come is heard. -/
theorem hears_of_outcome {o : Outcome} (hway : way = .delivered)
    (houtcome : (p.forward f).outcome = some o)
    (hread : x.interruption? p due (Forwarding.subject step.address) = none) :
    (⟨p, x⟩ : Moment).hears = [o] := by
  subst hway
  rw [hears]
  dsimp only
  rw [hphase]
  dsimp only
  rw [hread, houtcome]
  rfl

end

end Moment

/-- What was asked, the first question first; the turns are listed from the last one on. -/
def asked : List Moment → List (Proxy × Value)
  | [] => []
  | m :: past => asked past ++ m.asks

/-- What was heard of participants, in order. -/
def heard : List Moment → List Outcome
  | [] => []
  | m :: past => heard past ++ m.hears

namespace Response

theorem failureText?_finish (p : Plane) (c : Nat) (s : ResponseSlot) (text : String) :
    failureText?
        (p.finish c (ResponseSlot.toValue { s with failure := some (.string text) } true)) =
      some text := by
  rw [failureText?, get?_finish (by decide)]
  rfl

end Response

namespace Context

/-- Nothing has gone wrong so far, and whatever was completed waits for the decision. -/
structure Unharmed (x : Context) : Prop where
  violation : x.violation = none
  rollbackOnly : x.rollbackOnly = false
  firstFailure : x.firstFailure = none
  streams : x.streams = []
  unstaged : x.transaction.staging = none
  decisions : ∀ c ∈ x.completed, ∃ h, c = .decide h

/-- What a context keeps when the pipeline is over. -/
structure Settles (x y : Context) : Prop where
  slots : y.slots = x.slots
  firstFailure : y.firstFailure = x.firstFailure
  streams : y.streams = x.streams
  completed : ∀ c ∈ y.completed, c ∈ x.completed

theorem nextStep?_eq {x : Context} {step : Step} {rest : List Step} (hstage : x.stage = .model)
    (hqueues : x.queues = { model := step :: rest }) :
    x.nextStep? = some (step, { x with queues := { model := rest } }) := by
  rw [nextStep?, hstage, hqueues]
  rfl

end Context

namespace Execution

variable {p : Plane} {x y : Execution} {step : Step} {context : Context} {e : Ending}

/-- The turn of an operation that has a step to take. -/
theorem advance_of_step (hphase : x.phase = .stepping)
    (hstep : x.context.nextStep? = some (step, context)) :
    x.advance p = if p.isCancelled x.context.input.cancellation then
      { plane := p
        next := .going
          { x with context := context.interrupt step.slot, phase := .unwinding .failed } }
    else
      { plane := p
        next := .going { x with
          context := context.beginStep step, phase := .handling step .begin } } := by
  rw [advance, hphase]
  dsimp only
  rw [pick, hstep]

/-- A step that went well. -/
theorem afterStep_ok (x : Execution) (hviolation : context.violation = none)
    (hrollback : context.rollbackOnly = false) : { x with context }.afterStep step (.ok ()) =
      { x with context := { context with active := none }, phase := .stepping } := by
  have hend : context.endStep step (.ok ()) = (none, { context with active := none }) := by
    rw [Context.endStep]
    dsimp only
    rw [hviolation, hrollback]
    rfl
  rw [afterStep]
  dsimp only
  rw [hend]

/-- A step that failed before it completed. -/
theorem afterStep_failed {a : ActiveStep} {error : OperationError}
    (hviolation : x.context.violation = none) (hactive : x.context.active = some a)
    (hcompleted : a.completed = false) (herror : error.isFatal = false) :
    x.afterStep step (.error error) = { x with
      context := { { x.context with active := none }.recordFailure step.slot
        (.string error.message) with rollbackOnly := true }
      phase := .unwinding .failed } := by
  have hend : x.context.endStep step (.error error) = (some .failed,
      { { x.context with active := none }.recordFailure step.slot (.string error.message) with
        rollbackOnly := true }) := by
    rw [Context.endStep]
    dsimp only
    rw [hviolation, hactive, Option.map_some, hcompleted, herror]
    rfl
  rw [afterStep, hend]

/-- A step that failed ends the pipeline. -/
theorem unwinding_afterStep (x : Execution) (step : Step) (error : OperationError) :
    ∃ e, (e = .failed ∨ ∃ reason, e = .fatal reason) ∧
      (x.afterStep step (.error error)).phase = .unwinding e := by
  rcases x.context.endStep_cases step (.error error) with
    ⟨-, ⟨⟩, -⟩ | ⟨hfailed, -⟩ | ⟨⟨reason, hfatal⟩, -⟩
  · exact ⟨.failed, .inl rfl, by rw [afterStep_of_some hfailed]⟩
  · exact ⟨_, .inr ⟨reason, rfl⟩, by rw [afterStep_of_some hfatal]⟩

/-- **A step that works at once and goes well** returns to the pipeline. -/
theorem advance_of_deed {f : Deed Unit} (hphase : x.phase = .handling step .begin)
    (hdeed : step.handler.deed? step.operation = some f)
    (hrun : f.run.run ⟨p, x.controller, x.context⟩ = (.ok (), ⟨p, x.controller, context⟩)) :
    x.advance p = { plane := p, next := .returned { x with context } step (.ok ()) } := by
  have hadvance : x.advance p = work p x step .begin := by rw [advance, hphase]
  rw [hadvance, work_deed hdeed, hrun]

/-- The pipeline is over and ended this way. -/
def Closes (x : Execution) (e : Ending) : Prop :=
  x.phase = .unwinding e ∨ ∃ due, x.phase = .draining due e

/-- What an operation whose pipeline is over goes on to: it keeps what it answers, and it still ends
this way or has ended with the response of the ending. -/
def Closing (p : Plane) (x : Execution) (e : Ending) (y : Execution) : Prop :=
  y.controller = x.controller ∧ x.context.Settles y.context ∧ (y.Closes e ∨ y.phase = .ended
    ((e.response? x.context).map fun response =>
      (p.finish x.controller response, x.context.streams)))

theorem closing_unwinding (hphase : x.phase = .unwinding e)
    (hdecisions : ∀ c ∈ x.context.completed, ∃ h, c = .decide h)
    (hy : (x.advance p).next.after? = some y) : Closing p x e y := by
  rw [advance, hphase] at hy
  dsimp only at hy
  rw [unwind.eq_def] at hy
  cases hcompleted : x.context.completed with
  | nil =>
    rw [hcompleted] at hy
    obtain ⟨t, ht⟩ := unwound_next p x e
    rw [ht] at hy
    obtain rfl := Option.some.inj hy
    exact ⟨rfl, ⟨rfl, rfl, rfl, fun _ h => h⟩, .inl (.inr ⟨none, rfl⟩)⟩
  | cons c rest =>
    rw [hcompleted] at hy
    obtain ⟨h, rfl⟩ := hdecisions c (hcompleted ▸ List.mem_cons_self)
    obtain rfl := Option.some.inj hy
    refine ⟨rfl, ⟨rfl, rfl, rfl, fun c hc => ?_⟩, .inl (.inl hphase)⟩
    rw [hcompleted]
    exact List.mem_cons_of_mem _ hc

theorem closing_draining {due : Option Nat} (hphase : x.phase = .draining due e)
    (hy : (x.advance p).next.after? = some y) : Closing p x e y := by
  have hdrains : ∀ (completions : List Nat) (due : Option Nat), Closing p x e
      { x with context := { x.context with completions }, phase := .draining due e } :=
    fun _ due => ⟨rfl, ⟨rfl, rfl, rfl, fun _ h => h⟩, .inl (.inr ⟨due, rfl⟩)⟩
  rw [advance, hphase] at hy
  dsimp only at hy
  rw [drain] at hy
  dsimp only at hy
  split at hy
  · obtain rfl := Option.some.inj hy
    exact ⟨rfl, ⟨rfl, rfl, rfl, fun _ h => h⟩, .inr rfl⟩
  · split at hy
    · obtain rfl := Option.some.inj hy
      exact hdrains _ _
    · split at hy
      · obtain rfl := Option.some.inj hy
        exact hdrains x.context.completions _
      · split at hy
        · obtain rfl := Option.some.inj hy
          exact hdrains _ _
        · obtain rfl := Option.some.inj hy
          exact ⟨rfl, ⟨rfl, rfl, rfl, fun _ h => h⟩, .inl (.inr ⟨_, hphase⟩)⟩

/-- **What is left when the pipeline is over** changes no slot, and ends with the response of the
ending. -/
theorem closing_of_closes (hx : x.Closes e)
    (hdecisions : ∀ c ∈ x.context.completed, ∃ h, c = .decide h)
    (hy : (x.advance p).next.after? = some y) : Closing p x e y := by
  rcases hx with hphase | ⟨due, hphase⟩
  · exact closing_unwinding hphase hdecisions hy
  · exact closing_draining hphase hy

end Execution

namespace Inquiry

variable {I : Inquiry} {g : GlobalOperation} {operation : Value} {r : Registration}
  {root : Resource} {past : List Moment} {p : Plane} {x y : Execution} {m : Moment} {k : Nat}
  {rs : List (Nat × Value)} {d : Delegation} {e : Ending}

/-- A global operation at the address of the inquiry leads to it. -/
structure Arises (I : Inquiry) (g : GlobalOperation) (operation : Value) (r : Registration)
    (root : Resource) : Prop where
  follows : Act.Follows I.address root (g.run r operation) I.act
  sound : ∀ d ∈ I.questions, d.Sound

/-- The step that leads to the inquiry. -/
def first (I : Inquiry) (g : GlobalOperation) (operation : Value) : Step :=
  ⟨.global g, operation, I.address, Context.rootSlot⟩

/-- The results of participants that have prepared, each with its handle. -/
def answers (rs : List (Nat × Value)) : List Value := rs.map fun r => Response.result r.2

/-- What is heard of participants that prepare. -/
def outcomes (rs : List (Nat × Value)) : List Outcome := rs.map fun r => .prepared r.1 r.2

/-- The first `k` questions were asked, and some participants have prepared. -/
structure Noted (I : Inquiry) (past : List Moment) (k : Nat) (rs : List (Nat × Value)) : Prop where
  asked : asked past = (I.questions.take k).map Delegation.question
  heard : heard past = outcomes rs

/-- The inquiry goes on, with the answers so far in their slots. -/
structure Holds (I : Inquiry) (rs : List (Nat × Value)) (x : Context) : Prop
    extends x.Unharmed where
  stage : x.stage = .model
  slots : x.slots = I.slots (answers rs)

/-- The operation has yet to read what it answers. -/
structure Unread (I : Inquiry) (r : Registration) (root : Resource) (past : List Moment)
    (p : Plane) (x : Execution) : Prop extends x.context.Unharmed where
  registration : p.registration x.controller = r
  stage : x.context.stage = .model
  slots : x.context.slots = [({} : ResponseSlot)]
  snapshot : x.context.snapshot = root
  noted : I.Noted past 0 []

/-- The pipeline ended before the answer was complete: a participant failed, or the operation was
stopped in another way. -/
inductive Halted (I : Inquiry) (past : List Moment) (x : Context) : Ending → Prop
  | failed {rs : List (Nat × Value)} {d : Delegation} {response : Value}
      (hd : I.questions[rs.length]? = some d)
      (hasked : asked past = (I.questions.take (rs.length + 1)).map Delegation.question)
      (hheard : heard past = outcomes rs ++ [.failed response])
      (hfailure : x.firstFailure = some (.string (d.failure response)))
      (hroot : x.slot Context.rootSlot = .answered I.value) (hstreams : x.streams = []) :
    Halted I past x .failed
  | stopped {k : Nat} {rs : List (Nat × Value)} {e : Ending} (hnoted : I.Noted past k rs)
      (he : e = .failed ∨ ∃ reason, e = .fatal reason) : Halted I past x e

/-- The answer to an operation that was halted. -/
inductive Refused (I : Inquiry) (past : List Moment) (answer : Answer) : Prop
  | failed {rs : List (Nat × Value)} {d : Delegation} {response failed : Value}
      (hd : I.questions[rs.length]? = some d)
      (hasked : asked past = (I.questions.take (rs.length + 1)).map Delegation.question)
      (hheard : heard past = outcomes rs ++ [.failed response])
      (hanswer : answer = .ok (failed, [])) (hfails : Response.isSuccess failed = false)
      (hfailure : Response.failureText? failed = some (d.failure response))
  | stopped {k : Nat} {rs : List (Nat × Value)} (hnoted : I.Noted past k rs)
      (hanswer : ¬ Execution.Succeeds answer)

/-- **How far an inquiry has come.** -/
inductive Stands (I : Inquiry) (g : GlobalOperation) (operation : Value) (r : Registration)
    (root : Resource) (past : List Moment) (p : Plane) (x : Execution) : Prop
  | opened (hphase : x.phase = .stepping)
      (hqueues : x.context.queues = { model := [I.first g operation] })
      (h : I.Unread r root past p x)
  | reading (hphase : x.phase = .handling (I.first g operation) .begin)
      (hqueues : x.context.queues = {})
      (hactive : x.context.active = some { address := I.address, slot := 0 })
      (h : I.Unread r root past p x)
  /-- Some questions are answered. -/
  | turning (rs : List (Nat × Value)) (hle : rs.length ≤ I.questions.length)
      (hphase : x.phase = .stepping)
      (hqueues : x.context.queues = { model := I.steps rs.length }) (h : I.Holds rs x.context)
      (hnoted : I.Noted past rs.length rs)
  /-- The next one is about to be asked. -/
  | asking (rs : List (Nat × Value)) (d : Delegation) (hd : I.questions[rs.length]? = some d)
      (hphase : x.phase = .handling (d.step (rs.length + 1)) .begin)
      (hqueues : x.context.queues = { model := I.steps (rs.length + 1) })
      (hactive : x.context.active = some { address := d.address, slot := rs.length + 1 })
      (h : I.Holds rs x.context) (hnoted : I.Noted past rs.length rs)
  /-- Its participant has it. -/
  | waiting (rs : List (Nat × Value)) (d : Delegation) (f due : Nat) (way : Delivery)
      (hd : I.questions[rs.length]? = some d)
      (hphase : x.phase = .handling (d.step (rs.length + 1)) (.forwarding f due way))
      (hqueues : x.context.queues = { model := I.steps (rs.length + 1) })
      (hactive : x.context.active = some { address := d.address, slot := rs.length + 1 })
      (h : I.Holds rs x.context) (hnoted : I.Noted past (rs.length + 1) rs)
  /-- All are answered, and the answers are about to go to their places. -/
  | placing (rs : List (Nat × Value)) (hlength : rs.length = I.questions.length)
      (hphase : x.phase = .handling I.splicing .begin) (hqueues : x.context.queues = {})
      (hactive : x.context.active = some { address := I.address, slot := 0 })
      (h : I.Holds rs x.context) (hnoted : I.Noted past rs.length rs)
  /-- The answer is complete. -/
  | complete (rs : List (Nat × Value)) (hlength : rs.length = I.questions.length)
      (hphase : x.phase = .stepping ∨ ∃ h due, x.phase = .deciding h due)
      (hqueues : x.context.queues = {}) (h : x.context.Unharmed)
      (hroot : x.context.slot Context.rootSlot = .answered (I.result (answers rs)))
      (hnoted : I.Noted past rs.length rs)
  | closing (rs : List (Nat × Value)) (e : Ending) (hlength : rs.length = I.questions.length)
      (he : e = .kept ∨ ∃ failure, e = .rolledBack failure) (hphase : x.Closes e)
      (hdecisions : ∀ c ∈ x.context.completed, ∃ h, c = .decide h)
      (hroot : x.context.slot Context.rootSlot = .answered (I.result (answers rs)))
      (hstreams : x.context.streams = []) (hnoted : I.Noted past rs.length rs)
  | answered (rs : List (Nat × Value)) (answer : Answer)
      (hlength : rs.length = I.questions.length) (hphase : x.phase = .ended answer)
      (hanswer : (∃ q : Plane, answer =
          .ok (q.finish x.controller (Response.success (I.result (answers rs))), [])) ∨
        ¬ Execution.Succeeds answer) (hnoted : I.Noted past rs.length rs)
  | halting (e : Ending) (hphase : x.Closes e)
      (hdecisions : ∀ c ∈ x.context.completed, ∃ h, c = .decide h)
      (h : I.Halted past x.context e)
  | refused (answer : Answer) (hphase : x.phase = .ended answer) (h : I.Refused past answer)

/-! ## Turns -/

theorem asked_cons (hasks : m.asks = []) : asked (m :: past) = asked past := by
  rw [asked, hasks, List.append_nil]

theorem heard_cons (hhears : m.hears = []) : heard (m :: past) = heard past := by
  rw [heard, hhears, List.append_nil]

theorem Noted.cons (h : I.Noted past k rs) (hasks : m.asks = []) (hhears : m.hears = []) :
    I.Noted (m :: past) k rs :=
  ⟨(asked_cons hasks).trans h.asked, (heard_cons hhears).trans h.heard⟩

/-- A turn between steps asks and hears nothing. -/
theorem Noted.cons_of_phase (h : I.Noted past k rs)
    (hphase : ∀ step w, x.phase ≠ .handling step w) : I.Noted (⟨p, x⟩ :: past) k rs :=
  h.cons (Moment.asks_eq_nil fun step => hphase step _)
    (Moment.hears_eq_nil fun _ _ _ _ => hphase _ _)

theorem steps_of_lt (hd : I.questions[k]? = some d) :
    I.steps k = d.step (k + 1) :: I.steps (k + 1) := by
  obtain ⟨hk, rfl⟩ := List.getElem?_eq_some_iff.mp hd
  have hzip : k < (I.questions.zipIdx 1).length := by rwa [List.length_zipIdx]
  rw [steps, List.drop_eq_getElem_cons hzip, List.map_cons, List.cons_append, List.getElem_zipIdx,
    Nat.add_comm 1 k]
  rfl

theorem steps_length : I.steps I.questions.length = [I.splicing] := by
  rw [steps, List.drop_eq_nil_of_le (by rw [List.length_zipIdx])]
  rfl

/-- **The next step begins**, unless the operation was cancelled. -/
theorem stands_of_step {step : Step} {rest : List Step} (hphase : x.phase = .stepping)
    (hstage : x.context.stage = .model) (hqueues : x.context.queues = { model := step :: rest })
    (hdecisions : ∀ c ∈ x.context.completed, ∃ h, c = .decide h) (hnoted : I.Noted past k rs)
    (hstands : I.Stands g operation r root (⟨p, x⟩ :: past) p { x with
      context := { x.context with
        queues := { model := rest }, active := some { address := step.address, slot := step.slot } }
      phase := .handling step .begin })
    (hy : (x.advance p).next.after? = some y) :
    I.Stands g operation r root (⟨p, x⟩ :: past) (x.advance p).plane y := by
  have hadvance := Execution.advance_of_step (p := p) hphase (Context.nextStep?_eq hstage hqueues)
  rw [hadvance] at hy ⊢
  by_cases hcancelled : p.isCancelled x.context.input.cancellation = true
  · rw [if_pos hcancelled] at hy ⊢
    obtain rfl := Option.some.inj hy
    refine .halting .failed (.inl rfl) hdecisions (.stopped (hnoted.cons_of_phase ?_) (.inl rfl))
    rw [hphase]
    rintro _ _ ⟨⟩
  · rw [if_neg hcancelled] at hy ⊢
    obtain rfl := Option.some.inj hy
    exact hstands

theorem sees_of_unread (h : I.Unread r root past p x)
    (hactive : x.context.active = some { address := I.address, slot := 0 }) :
    x.context.Sees I.address root where
  address := by rw [Context.currentAddress, hactive]; rfl
  stage := h.stage
  snapshot := h.snapshot
  result := by rw [Context.result, Context.currentSlot, hactive, Context.slot, h.slots]; rfl

/-- The context when the value is read and the questions are left. -/
def posed (I : Inquiry) (x : Context) : Context :=
  { x with
    slots := I.slots []
    queues := { model := if I.questions = [] then [] else I.steps 0 } }

/-- The turn that reads the value and leaves the questions. -/
theorem advance_reading (harises : I.Arises g operation r root)
    (hphase : x.phase = .handling (I.first g operation) .begin) (hqueues : x.context.queues = {})
    (hactive : x.context.active = some { address := I.address, slot := 0 })
    (h : I.Unread r root past p x) : x.advance p =
      { plane := p
        next := .returned { x with context := I.posed x.context } (I.first g operation)
          (.ok ()) } := by
  have hact : (g.run r operation).run.run x.context = (.ok (), I.posed x.context) := by
    rw [harises.follows x.context (sees_of_unread h hactive),
      run_act harises.sound h.stage hactive h.slots (by rw [hqueues]), hqueues]
    rfl
  have hrun : (Deed.act (g.run r operation)).run.run ⟨p, x.controller, x.context⟩
      = (.ok (), ⟨p, x.controller, I.posed x.context⟩) := by
    refine (Deed.run_act _ _).trans ?_
    rw [hact]
  refine Execution.advance_of_deed (f := do
      let s ← get
      Deed.act (g.run (s.plane.registration s.controller) operation)) hphase rfl ?_
  refine (run_get _ _).trans ?_
  dsimp only
  rw [h.registration]
  exact hrun

theorem stands_reading (harises : I.Arises g operation r root)
    (hphase : x.phase = .handling (I.first g operation) .begin) (hqueues : x.context.queues = {})
    (hactive : x.context.active = some { address := I.address, slot := 0 })
    (h : I.Unread r root past p x) (hy : (x.advance p).next.after? = some y) :
    I.Stands g operation r root (⟨p, x⟩ :: past) (x.advance p).plane y := by
  have hnoted : I.Noted (⟨p, x⟩ :: past) 0 [] := by
    refine h.noted.cons ?_ (Moment.hears_eq_nil ?_)
    · rw [Moment.asks]
      dsimp only
      rw [hphase]
      rfl
    · rw [hphase]
      rintro _ _ _ _ ⟨⟩
  have hunharmed : (I.posed x.context).Unharmed := { h.toUnharmed with }
  rw [advance_reading harises hphase hqueues hactive h] at hy ⊢
  rw [Next.after?, Execution.afterStep_ok x hunharmed.violation hunharmed.rollbackOnly] at hy
  obtain rfl := Option.some.inj hy
  by_cases hnone : I.questions = []
  · refine .complete [] (by rw [hnone]; rfl) (.inl rfl) ?_ { hunharmed with } ?_ hnoted
    · show ({ model := if I.questions = [] then [] else I.steps 0 } : Queues) = {}
      rw [if_pos hnone]
    · refine (slot_root (show (I.posed x.context).slots = I.slots [] from rfl)).trans ?_
      rw [result, hnone]
      rfl
  · refine .turning [] (Nat.zero_le _) rfl ?_ ⟨{ hunharmed with }, h.stage, rfl⟩ hnoted
    show ({ model := if I.questions = [] then [] else I.steps 0 } : Queues) = { model := I.steps 0 }
    rw [if_neg hnone]

theorem stands_turning (hle : rs.length ≤ I.questions.length) (hphase : x.phase = .stepping)
    (hqueues : x.context.queues = { model := I.steps rs.length }) (h : I.Holds rs x.context)
    (hnoted : I.Noted past rs.length rs) (hy : (x.advance p).next.after? = some y) :
    I.Stands g operation r root (⟨p, x⟩ :: past) (x.advance p).plane y := by
  have hnoted' : I.Noted (⟨p, x⟩ :: past) rs.length rs := by
    refine hnoted.cons_of_phase ?_
    rw [hphase]
    rintro _ _ ⟨⟩
  rcases hle.lt_or_eq with hlt | hlength
  · have hd : I.questions[rs.length]? = some I.questions[rs.length] :=
      List.getElem?_eq_getElem hlt
    rw [steps_of_lt hd] at hqueues
    exact stands_of_step hphase h.stage hqueues h.decisions hnoted
      (.asking rs _ hd rfl rfl rfl ⟨{ h.toUnharmed with }, h.stage, h.slots⟩ hnoted') hy
  · rw [hlength, steps_length] at hqueues
    exact stands_of_step hphase h.stage hqueues h.decisions hnoted
      (.placing rs hlength rfl rfl rfl ⟨{ h.toUnharmed with }, h.stage, h.slots⟩ hnoted') hy

/-- The turn that hands a question over, unless the operation is found to be cancelled. -/
theorem advance_asking (hsound : d.Sound) {slot : Nat}
    (hphase : x.phase = .handling (d.step slot) .begin)
    (hy : (x.advance p).next.after? = some y) :
    ((⟨p, x⟩ : Moment).asks = [d.question] ∧
      ∃ f due way, y = { x with phase := .handling (d.step slot) (.forwarding f due way) }) ∨
    ((⟨p, x⟩ : Moment).asks = [] ∧ y = x.afterStep (d.step slot) (.error .cancelled)) := by
  have hbelow : ¬ (d.step slot).address.length < d.proxy.node.length := not_lt.mpr hsound.below
  have hadvance : x.advance p = Forwarding.start p x (d.step slot) d.proxy := by
    rw [Execution.advance, hphase]
    rfl
  rw [hadvance, Forwarding.start] at hy
  rw [Moment.asks]
  dsimp only at hy ⊢
  rw [if_neg hbelow] at hy
  rw [hphase]
  dsimp only [Delegation.step] at hy ⊢
  by_cases hovertaken : p.overtakes x.context.input.cancellation = true
  · rw [if_pos hovertaken] at hy
    exact .inr ⟨if_pos (.inr hovertaken), (Option.some.inj hy).symm⟩
  · rw [if_neg hovertaken] at hy
    refine .inl ⟨if_neg (not_or.mpr ⟨hbelow, hovertaken⟩), ?_⟩
    split at hy
    · exact ⟨_, _, _, (Option.some.inj hy).symm⟩
    · cases hy

/-- **A step that fails on its own** halts the inquiry. -/
theorem stands_stopped {step : Step} {error : OperationError}
    (hdecisions : ∀ c ∈ x.context.completed, ∃ h, c = .decide h) (hnoted : I.Noted past k rs) :
    I.Stands g operation r root past p (x.afterStep step (.error error)) := by
  obtain ⟨e, he, hunwinding⟩ := Execution.unwinding_afterStep x step error
  refine .halting e (.inl hunwinding) ?_ (.stopped hnoted he)
  rw [(Execution.rested_afterStep x _ _).completed]
  exact hdecisions

theorem stands_asking (hsound : d.Sound) (hd : I.questions[rs.length]? = some d)
    (hphase : x.phase = .handling (d.step (rs.length + 1)) .begin)
    (hqueues : x.context.queues = { model := I.steps (rs.length + 1) })
    (hactive : x.context.active = some { address := d.address, slot := rs.length + 1 })
    (h : I.Holds rs x.context) (hnoted : I.Noted past rs.length rs)
    (hy : (x.advance p).next.after? = some y) :
    I.Stands g operation r root (⟨p, x⟩ :: past) (x.advance p).plane y := by
  have hhears : (⟨p, x⟩ : Moment).hears = [] := by
    refine Moment.hears_eq_nil ?_
    rw [hphase]
    rintro _ _ _ _ ⟨⟩
  rcases advance_asking hsound hphase hy with ⟨hasks, f, due, way, rfl⟩ | ⟨hasks, rfl⟩
  · refine .waiting rs d f due way hd rfl hqueues hactive h ⟨?_, ?_⟩
    · rw [asked, hasks, hnoted.asked, List.take_add_one, hd, List.map_append]
      rfl
    · exact (heard_cons hhears).trans hnoted.heard
  · exact stands_stopped h.decisions (hnoted.cons hasks hhears)

theorem answers_concat (rs : List (Nat × Value)) (h : Nat) (response : Value) :
    answers (rs ++ [(h, response)]) = answers rs ++ [Response.result response] := by
  rw [answers, List.map_append]
  rfl

theorem length_answers (rs : List (Nat × Value)) : (answers rs).length = rs.length :=
  List.length_map _

/-- **A participant has prepared**: its answer goes to the slot of its question. -/
theorem holds_accept (hd : I.questions[rs.length]? = some d)
    (hactive : x.context.active = some { address := d.address, slot := rs.length + 1 })
    (h : I.Holds rs x.context) (f i : Nat) (response : Value) :
    I.Holds (rs ++ [(i, response)]) (Forwarding.accept x.context f i response) ∧
      (Forwarding.accept x.context f i response).queues = x.context.queues ∧
      (Forwarding.accept x.context f i response).input = x.context.input := by
  have hslot : x.context.currentSlot = (answers rs).length + 1 := by
    rw [Context.currentSlot, hactive, length_answers]
    rfl
  have hlength : (answers rs).length < I.questions.length := by
    rw [length_answers]
    exact (List.getElem?_eq_some_iff.mp hd).1
  rw [Forwarding.accept_eq f i response hactive rfl]
  refine ⟨⟨{ h.toUnharmed with decisions := ?_ }, h.stage, ?_⟩, rfl, rfl⟩
  · exact List.forall_mem_cons.mpr ⟨⟨i, rfl⟩, h.decisions⟩
  · rw [answers_concat, ← slots_concat hlength, ← h.slots, ← hslot]
    rfl

/-- **A participant has failed**: the operation fails, and remembers why. -/
theorem halted_conclude {response : Value} (hd : I.questions[rs.length]? = some d)
    (hasked : asked past = (I.questions.take (rs.length + 1)).map Delegation.question)
    (hheard : heard past = outcomes rs ++ [.failed response])
    (hactive : x.context.active = some { address := d.address, slot := rs.length + 1 })
    (h : I.Holds rs x.context) :
    I.Stands g operation r root past p
      (x.afterStep (d.step (rs.length + 1)) (.error (.failed (d.failure response)))) := by
  rw [Execution.afterStep_failed h.violation hactive rfl rfl]
  refine .halting .failed (.inl rfl) h.decisions (.failed hd hasked hheard ?_ ?_ h.streams)
  · show some (x.context.firstFailure.getD _) = _
    rw [h.firstFailure]
    rfl
  · rw [← slot_root h.slots, Context.slot, Context.slot]
    show ((x.context.slots.modify (rs.length + 1) _)[0]?).getD _ = _
    simp [Context.rootSlot]

/-- **The step of a participant that has prepared** is over, and the next one is in the queue. -/
theorem turns_accept (hd : I.questions[rs.length]? = some d)
    (hqueues : x.context.queues = { model := I.steps (rs.length + 1) })
    (hactive : x.context.active = some { address := d.address, slot := rs.length + 1 })
    (h : I.Holds rs x.context) (f i : Nat) (response : Value) : ∃ y : Execution,
    Execution.afterStep { x with context := Forwarding.accept x.context f i response }
      (d.step (rs.length + 1)) (.ok ()) = y ∧ y.phase = .stepping ∧
      (rs ++ [(i, response)]).length ≤ I.questions.length ∧
      y.context.queues = { model := I.steps (rs ++ [(i, response)]).length } ∧
      I.Holds (rs ++ [(i, response)]) y.context ∧ y.context.input = x.context.input := by
  obtain ⟨hholds, hsame, hinput⟩ := holds_accept hd hactive h f i response
  have hlength : (rs ++ [(i, response)]).length = rs.length + 1 := by simp
  rw [Execution.afterStep_ok x hholds.violation hholds.rollbackOnly, hlength]
  exact ⟨_, rfl, rfl, (List.getElem?_eq_some_iff.mp hd).1, hsame.trans hqueues,
    ⟨{ hholds.toUnharmed with }, hholds.stage, hholds.slots⟩, hinput⟩

theorem stands_waiting {f due : Nat} {way : Delivery} (hd : I.questions[rs.length]? = some d)
    (hphase : x.phase = .handling (d.step (rs.length + 1)) (.forwarding f due way))
    (hqueues : x.context.queues = { model := I.steps (rs.length + 1) })
    (hactive : x.context.active = some { address := d.address, slot := rs.length + 1 })
    (h : I.Holds rs x.context) (hnoted : I.Noted past (rs.length + 1) rs)
    (hy : (x.advance p).next.after? = some y) :
    I.Stands g operation r root (⟨p, x⟩ :: past) (x.advance p).plane y := by
  have hasks : (⟨p, x⟩ : Moment).asks = [] := by
    refine Moment.asks_eq_nil ?_
    rw [hphase]
    rintro _ ⟨⟩
  have hquiet : (⟨p, x⟩ : Moment).hears = [] → I.Noted (⟨p, x⟩ :: past) (rs.length + 1) rs :=
    hnoted.cons hasks
  have hadvance : x.advance p = Forwarding.advance p x (d.step (rs.length + 1)) f due way := by
    rw [Execution.advance, hphase]
    rfl
  have hadvances := Forwarding.advances p x (d.step (rs.length + 1)) f due way
  rw [hadvance] at hy ⊢
  generalize Forwarding.advance p x (d.step (rs.length + 1)) f due way = t at hadvances hy ⊢
  cases hadvances with
  | @goes way' q spawned happroaches =>
    obtain rfl := Option.some.inj hy
    exact .waiting rs d f due way' hd rfl hqueues hactive h
      (hquiet (Moment.hears_of_way hphase happroaches.ne_delivered))
  | @concludes o hway houtcome hread =>
    have hasked : asked (⟨p, x⟩ :: past) = (I.questions.take (rs.length + 1)).map _ :=
      (asked_cons hasks).trans hnoted.asked
    have hheard : heard (⟨p, x⟩ :: past) = outcomes rs ++ [o] := by
      rw [heard, hnoted.heard, Moment.hears_of_outcome hphase hway houtcome hread]
    cases o with
    | prepared i response =>
      obtain ⟨z, hz, hphase, hle, hsteps, hholds, -⟩ :=
        turns_accept hd hqueues hactive h f i response
      obtain rfl : z = y := hz.symm.trans (Option.some.inj hy)
      refine .turning (rs ++ [(i, response)]) hle hphase hsteps hholds ⟨by simpa using hasked, ?_⟩
      rw [hheard, outcomes, outcomes, List.map_append]
      rfl
    | failed response =>
      obtain rfl := Option.some.inj hy
      exact halted_conclude hd hasked hheard hactive h
  | waits hsilent =>
    obtain rfl := Option.some.inj hy
    exact .waiting rs d f due way hd hphase hqueues hactive h
      (hquiet (Moment.hears_of_unread hphase (e := .cancelled) (.inr hsilent)))
  | stops error _ hunread =>
    obtain rfl := Option.some.inj hy
    exact stands_stopped h.decisions (hquiet (Moment.hears_of_unread hphase hunread))

/-- The turn that puts the answers into their places. -/
theorem advance_placing (hlength : rs.length = I.questions.length)
    (hphase : x.phase = .handling I.splicing .begin)
    (hactive : x.context.active = some { address := I.address, slot := 0 })
    (h : I.Holds rs x.context) : x.advance p =
      { plane := p
        next := .returned { x with context := { x.context with
          slots := .answered (I.result (answers rs)) :: (answers rs).map .answered } } I.splicing
          (.ok ()) } := by
  have hslot : x.context.currentSlot = 0 := by rw [Context.currentSlot, hactive]; rfl
  rw [Execution.advance_of_deed (f := Deed.onContext (Delegation.splice I.parts)) hphase rfl rfl,
    splice_eq hslot h.slots ((length_answers rs).trans hlength)]

theorem stands_placing (hlength : rs.length = I.questions.length)
    (hphase : x.phase = .handling I.splicing .begin) (hqueues : x.context.queues = {})
    (hactive : x.context.active = some { address := I.address, slot := 0 })
    (h : I.Holds rs x.context) (hnoted : I.Noted past rs.length rs)
    (hy : (x.advance p).next.after? = some y) :
    I.Stands g operation r root (⟨p, x⟩ :: past) (x.advance p).plane y := by
  have hnoted' : I.Noted (⟨p, x⟩ :: past) rs.length rs := by
    refine hnoted.cons ?_ (Moment.hears_eq_nil ?_)
    · rw [Moment.asks]
      dsimp only
      rw [hphase]
      rfl
    · rw [hphase]
      rintro _ _ _ _ ⟨⟩
  rw [advance_placing hlength hphase hactive h] at hy ⊢
  rw [Next.after?, Execution.afterStep_ok x (by exact h.violation) (by exact h.rollbackOnly)] at hy
  obtain rfl := Option.some.inj hy
  exact .complete rs hlength (.inl rfl) hqueues { h.toUnharmed with } rfl hnoted'

end Inquiry

end ManagementPlane
