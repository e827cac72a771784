import ManagementPlane.Proofs.Proxied.Inquired

/-!
# Proofs/Proxied/Pursued — what comes of an inquiry

An operation that asks its participants one after another prepares with all answers in their places
or fails with the first failure that it hears.  It is never stuck: it waits for a participant or for
the decision, or it goes on by itself to the next question, to the decision or to its answer.
`Inquiry.Pursued` says all this of one moment, and it holds at every moment of the course
(`Inquiry.Stands.pursued`).
-/

namespace ManagementPlane

namespace Inquiry

variable {I : Inquiry} {g : GlobalOperation} {operation : Value} {r : Registration}
  {root : Resource} {past : List Moment} {p : Plane} {x y : Execution} {k : Nat}
  {rs : List (Nat × Value)} {d : Delegation} {e : Ending}

/-! ## Going on -/

/-- The operation has a turn to take for which it needs nobody else. -/
def Ready (p : Plane) (x : Execution) : Prop :=
  x.phase = .stepping ∨ (∃ step, x.phase = .handling step .begin) ∨
    ∃ step f due h response, x.phase = .handling step (.forwarding f due .delivered) ∧
      (p.forward f).outcome = some (.prepared h response) ∧
      x.interruption? p due (Forwarding.subject step.address) = none

/-- The next question is about to be asked, or all are answered and the operation has prepared. -/
def Proceeds (I : Inquiry) (k : Nat) (x : Execution) : Prop :=
  (∃ d, I.questions[k]? = some d ∧ x.phase = .handling (d.step (k + 1)) .begin) ∨
    k = I.questions.length ∧ ∃ h due, x.phase = .deciding h due

/-- The operation can go on by itself until it proceeds. -/
def GoesOn (I : Inquiry) (k : Nat) (p : Plane) (x : Execution) : Prop :=
  ∃ q y, Execution.Passes (p, x) (q, y) ∧ I.Proceeds k y

theorem GoesOn.of_pass {q : Plane} (hpass : Execution.Pass (p, x) (q, y)) (h : I.GoesOn k q y) :
    I.GoesOn k p x := by
  obtain ⟨q', z, hpasses, hproceeds⟩ := h
  exact ⟨q', z, .head hpass hpasses, hproceeds⟩

theorem pass_step {step : Step} {context : Context} (hphase : x.phase = .stepping)
    (hstep : x.context.nextStep? = some (step, context))
    (huncancelled : p.isCancelled x.context.input.cancellation = false) :
    Execution.Pass (p, x)
      (p, { x with context := context.beginStep step, phase := .handling step .begin }) := by
  refine .going (by rw [hphase]; rintro _ ⟨⟩) ?_
  rw [Execution.advance_of_step hphase hstep, huncancelled]
  rfl

/-- **An answer that is complete** is on its way to the decision. -/
theorem goesOn_complete (hphase : x.phase = .stepping) (hqueues : x.context.queues = {})
    (huncancelled : p.isCancelled x.context.input.cancellation = false) :
    I.GoesOn I.questions.length p x := by
  have hempty : ∀ stage, x.context.queues.get stage = [] := by
    intro stage
    rw [hqueues]
    cases stage <;> rfl
  obtain ⟨n, hn⟩ : ∃ n, n = 3 - x.context.stage.index := ⟨_, rfl⟩
  induction n generalizing p x with
  | zero =>
    have hlast : x.context.stage.next? = none := by
      revert hn
      cases x.context.stage <;> decide
    have hnone : x.context.nextStep? = none := by rw [Context.nextStep?, hempty]
    have hadvance : x.advance p = Execution.prepare p x := by
      rw [Execution.advance, hphase]
      dsimp only
      rw [Execution.pick, hnone, hlast, huncancelled]
      rfl
    refine ⟨_, _, .single (.going (by rw [hphase]; rintro _ ⟨⟩) hadvance), .inr ⟨rfl, _, _, rfl⟩⟩
  | succ n ih =>
    obtain ⟨stage, hnext, hindex⟩ : ∃ stage, x.context.stage.next? = some stage ∧
        n = 3 - stage.index := by
      revert hn
      cases x.context.stage <;> simp [Stage.index, Stage.next?]
    refine .of_pass (Execution.pass_stage hphase (hempty _) hnext) ?_
    exact ih hphase hqueues huncancelled hempty hindex

theorem goesOn_placing (hlength : rs.length = I.questions.length)
    (hphase : x.phase = .handling I.splicing .begin) (hqueues : x.context.queues = {})
    (hactive : x.context.active = some { address := I.address, slot := 0 })
    (h : I.Holds rs x.context)
    (huncancelled : p.isCancelled x.context.input.cancellation = false) :
    I.GoesOn I.questions.length p x := by
  have hpass := Execution.Pass.returned (by rw [hphase]; rintro _ ⟨⟩)
    (advance_placing (p := p) hlength hphase hactive h)
  rw [Execution.afterStep_ok _ (by exact h.violation) (by exact h.rollbackOnly)] at hpass
  exact .of_pass hpass (goesOn_complete rfl hqueues huncancelled)

theorem goesOn_turning (hle : rs.length ≤ I.questions.length) (hphase : x.phase = .stepping)
    (hqueues : x.context.queues = { model := I.steps rs.length }) (h : I.Holds rs x.context)
    (huncancelled : p.isCancelled x.context.input.cancellation = false) :
    I.GoesOn rs.length p x := by
  rcases hle.lt_or_eq with hlt | hlength
  · have hd : I.questions[rs.length]? = some I.questions[rs.length] :=
      List.getElem?_eq_getElem hlt
    rw [steps_of_lt hd] at hqueues
    exact ⟨_, _, .single (pass_step hphase (Context.nextStep?_eq h.stage hqueues) huncancelled),
      .inl ⟨_, hd, rfl⟩⟩
  · rw [hlength, steps_length] at hqueues
    rw [hlength]
    exact .of_pass (pass_step hphase (Context.nextStep?_eq h.stage hqueues) huncancelled)
      (goesOn_placing hlength rfl rfl rfl ⟨{ h.toUnharmed with }, h.stage, h.slots⟩ huncancelled)

theorem goesOn_reading (harises : I.Arises g operation r root)
    (hphase : x.phase = .handling (I.first g operation) .begin) (hqueues : x.context.queues = {})
    (hactive : x.context.active = some { address := I.address, slot := 0 })
    (h : I.Unread r root past p x)
    (huncancelled : p.isCancelled x.context.input.cancellation = false) : I.GoesOn 0 p x := by
  have hpass := Execution.Pass.returned (by rw [hphase]; rintro _ ⟨⟩)
    (advance_reading harises hphase hqueues hactive h)
  rw [Execution.afterStep_ok x (by exact h.violation) (by exact h.rollbackOnly)] at hpass
  refine .of_pass hpass ?_
  by_cases hnone : I.questions = []
  · have hcomplete : I.GoesOn I.questions.length p
        { x with context := { I.posed x.context with active := none }, phase := .stepping } := by
      refine goesOn_complete rfl ?_ huncancelled
      show ({ model := if I.questions = [] then [] else I.steps 0 } : Queues) = {}
      rw [if_pos hnone]
    rwa [hnone] at hcomplete
  · refine goesOn_turning (show ([] : List (Nat × Value)).length ≤ _ from Nat.zero_le _) rfl ?_
      ⟨{ h.toUnharmed with }, h.stage, rfl⟩ huncancelled
    show ({ model := if I.questions = [] then [] else I.steps 0 } : Queues) = { model := I.steps 0 }
    rw [if_neg hnone]

theorem goesOn_waiting {f due i : Nat} {response : Value} (hd : I.questions[rs.length]? = some d)
    (hphase : x.phase = .handling (d.step (rs.length + 1)) (.forwarding f due .delivered))
    (hqueues : x.context.queues = { model := I.steps (rs.length + 1) })
    (hactive : x.context.active = some { address := d.address, slot := rs.length + 1 })
    (h : I.Holds rs x.context) (houtcome : (p.forward f).outcome = some (.prepared i response))
    (hread : x.interruption? p due (Forwarding.subject (d.step (rs.length + 1)).address) = none)
    (huncancelled : p.isCancelled x.context.input.cancellation = false) :
    I.GoesOn (rs.length + 1) p x := by
  have hadvance : x.advance p =
      { plane := p
        next := .returned { x with context := Forwarding.accept x.context f i response }
          (d.step (rs.length + 1)) (.ok ()) } := by
    have hfollow : x.advance p =
        Forwarding.advance p x (d.step (rs.length + 1)) f due .delivered := by
      rw [Execution.advance, hphase]
      rfl
    rw [hfollow, Forwarding.advance, hread]
    dsimp only
    rw [Forwarding.follow, houtcome]
    rfl
  have hpass := Execution.Pass.returned (by rw [hphase]; rintro _ ⟨⟩) hadvance
  obtain ⟨y, hy, hphase, hle, hsteps, hholds, hinput⟩ :=
    turns_accept hd hqueues hactive h f i response
  rw [hy] at hpass
  refine .of_pass hpass ?_
  rw [show rs.length + 1 = (rs ++ [(i, response)]).length by simp]
  exact goesOn_turning hle hphase hsteps hholds (hinput ▸ huncancelled)

/-! ## The end -/

/-- The pipeline is about to end this way: the operation was decided, a participant has failed, the
wait for one is interrupted, or the completions are being told. -/
inductive Settled (p : Plane) (x : Execution) : Ending → Prop
  | decided {h : Nat} {due : Option Nat} {decision : Decision} (hphase : x.phase = .deciding h due)
      (hdecided : (p.handle h).outlook.effect? = some decision) : Settled p x decision.ending
  | failed {step : Step} {f due : Nat} {response : Value}
      (hphase : x.phase = .handling step (.forwarding f due .delivered))
      (houtcome : (p.forward f).outcome = some (.failed response)) : Settled p x .failed
  | interrupted {step : Step} {f due : Nat} {way : Delivery} {error : OperationError}
      (hphase : x.phase = .handling step (.forwarding f due way))
      (h : x.interruption? p due (Forwarding.subject step.address) = some error) :
    Settled p x .failed
  | unwinding {e : Ending} (hphase : x.phase = .unwinding e) : Settled p x e

/-- Every participant that the operation still waits for has given its final response. -/
def Attended (p : Plane) (x : Execution) : Prop :=
  ∀ f ∈ x.context.completions, (p.forward f).isComplete = true

/-- Told completions come to their end. -/
theorem passes_unwinding (hphase : x.phase = .unwinding e)
    (hdecisions : ∀ c ∈ x.context.completed, ∃ h, c = .decide h) :
    ∃ q y, Execution.Passes (p, x) (q, y) ∧ y.phase = .draining none e := by
  obtain ⟨completed, hcompleted⟩ : ∃ l, l = x.context.completed := ⟨_, rfl⟩
  induction completed generalizing p x with
  | nil =>
    have hadvance : x.advance p = Execution.unwound p x e := by
      rw [Execution.advance, hphase]
      dsimp only
      rw [Execution.unwind, ← hcompleted]
    have hunwound : ∃ q y, Execution.unwound p x e = { plane := q, next := .going y } ∧
        y.phase = .draining none e := by
      cases e <;> exact ⟨_, _, rfl, rfl⟩
    obtain ⟨q, y, hy, hdraining⟩ := hunwound
    refine ⟨q, y, .single (.going ?_ (hadvance.trans hy)), hdraining⟩
    rw [hphase]
    rintro _ ⟨⟩
  | cons c rest ih =>
    obtain ⟨⟨h, rfl⟩, hrest⟩ := List.forall_mem_cons.mp (hcompleted ▸ hdecisions)
    have hpass : Execution.Pass (p, x) (p.decideAndDrop h e.decision,
        { x with context := { x.context with completed := rest } }) := by
      have hadvance : x.advance p = Execution.unwind p x e := by rw [Execution.advance, hphase]
      refine .going (by rw [hphase]; rintro _ ⟨⟩) ?_
      rw [hadvance, Execution.unwind, ← hcompleted]
      rfl
    obtain ⟨q, y, hpasses, hdraining⟩ := ih (p := p.decideAndDrop h e.decision)
      (x := { x with context := { x.context with completed := rest } }) hphase hrest rfl
    exact ⟨q, y, .head hpass hpasses, hdraining⟩

theorem pass_decided {handle : Nat} {due : Option Nat} {decision : Decision}
    (hphase : x.phase = .deciding handle due)
    (hdecided : (p.handle handle).outlook.effect? = some decision) (h : x.context.Unharmed) :
    ∃ q t, Execution.Pass (p, x) (q, { x with
      context := { x.context with transaction := t }, phase := .unwinding decision.ending }) := by
  obtain ⟨q, t, happly⟩ := Execution.apply_of_unharmed h p handle decision
  refine ⟨q, t, .going (by rw [hphase]; rintro _ ⟨⟩) ?_⟩
  rw [Execution.advance, hphase, ← happly]
  dsimp only
  rw [Execution.decide.eq_def, hdecided]

/-- The turn that hears of a failure, or is interrupted. -/
theorem pass_failed {f due : Nat} {response : Value}
    (hphase : x.phase = .handling (d.step k) (.forwarding f due .delivered))
    (houtcome : (p.forward f).outcome = some (.failed response))
    (hread : x.interruption? p due (Forwarding.subject (d.step k).address) = none) :
    Execution.Pass (p, x)
      (p, x.afterStep (d.step k) (.error (.failed (d.failure response)))) := by
  have hfollow : x.advance p = Forwarding.advance p x (d.step k) f due .delivered := by
    rw [Execution.advance, hphase]
    rfl
  rw [Forwarding.advance, hread] at hfollow
  dsimp only at hfollow
  rw [Forwarding.follow, houtcome] at hfollow
  refine .returned ?_ hfollow
  rw [hphase]
  rintro _ ⟨⟩

theorem pass_interrupted {step : Step} {f due : Nat} {way : Delivery} {error : OperationError}
    (hphase : x.phase = .handling step (.forwarding f due way))
    (h : x.interruption? p due (Forwarding.subject step.address) = some error) :
    error.isFatal = false ∧ Execution.Pass (p, x)
      (Forwarding.abandon p f way, x.afterStep step (.error error)) := by
  have hadvance : x.advance p = Forwarding.stop p x step f way error := by
    rw [Execution.advance, hphase]
    show Forwarding.advance p x step f due way = _
    rw [Forwarding.advance, h]
  exact ⟨Execution.isFatal_of_interruption? h,
    .returned (by rw [hphase]; rintro _ ⟨⟩) hadvance⟩

/-- An operation that waits for a participant has asked it the next question. -/
theorem Stands.waits (h : I.Stands g operation r root past p x) {step : Step} {f due : Nat}
    {way : Delivery} (hphase : x.phase = .handling step (.forwarding f due way)) :
    ∃ (rs : List (Nat × Value)) (d : Delegation), step = d.step (rs.length + 1) ∧
      I.questions[rs.length]? = some d ∧
      x.context.queues = { model := I.steps (rs.length + 1) } ∧
      x.context.active = some { address := d.address, slot := rs.length + 1 } ∧
      I.Holds rs x.context ∧ I.Noted past (rs.length + 1) rs := by
  cases h with
  | waiting rs d f' due' way' hd hphase' hqueues hactive h hnoted =>
    cases hphase.symm.trans hphase'
    exact ⟨rs, d, rfl, hd, hqueues, hactive, h, hnoted⟩
  | _ => simp_all [Execution.Closes]

/-- An operation that waits for the decision has its answer. -/
theorem Stands.prepared (h : I.Stands g operation r root past p x) {handle : Nat}
    {due : Option Nat} (hphase : x.phase = .deciding handle due) :
    ∃ rs : List (Nat × Value), rs.length = I.questions.length ∧ x.context.Unharmed ∧
      x.context.slot Context.rootSlot = .answered (I.result (answers rs)) ∧
      I.Noted past rs.length rs := by
  cases h with
  | complete rs hlength _ _ h hroot hnoted => exact ⟨rs, hlength, h, hroot, hnoted⟩
  | _ => simp_all [Execution.Closes]

/-- **A pipeline that is about to end** tells its completions by itself. -/
theorem passes_settled (h : I.Stands g operation r root past p x) (hsettled : Settled p x e) :
    ∃ q y, Execution.Passes (p, x) (q, y) ∧ y.phase = .draining none e := by
  have hpasses : ∀ {q y e}, Execution.Pass (p, x) (q, y) → y.phase = .unwinding e →
      (∀ c ∈ y.context.completed, ∃ h, c = .decide h) →
        ∃ q y, Execution.Passes (p, x) (q, y) ∧ y.phase = .draining none e := by
    intro q y e hpass hphase hdecisions
    obtain ⟨q', z, hpasses, hdraining⟩ := passes_unwinding (p := q) hphase hdecisions
    exact ⟨q', z, .head hpass hpasses, hdraining⟩
  have hinterrupted : ∀ {step f due way error},
      x.phase = .handling step (.forwarding f due way) →
      x.interruption? p due (Forwarding.subject step.address) = some error →
        ∃ q y, Execution.Passes (p, x) (q, y) ∧ y.phase = .draining none .failed := by
    intro step f due way error hphase hinterruption
    obtain ⟨rs, d, rfl, -, -, hactive, hholds, -⟩ := h.waits hphase
    obtain ⟨herror, hpass⟩ := pass_interrupted hphase hinterruption
    rw [Execution.afterStep_failed hholds.violation hactive rfl herror] at hpass
    exact hpasses hpass rfl hholds.decisions
  cases hsettled with
  | decided hphase hdecided =>
    obtain ⟨rs, -, hunharmed, -⟩ := h.prepared hphase
    obtain ⟨q, t, hpass⟩ := pass_decided hphase hdecided hunharmed
    exact hpasses hpass rfl hunharmed.decisions
  | @failed step f due response hphase houtcome =>
    cases hread : x.interruption? p due (Forwarding.subject step.address) with
    | none =>
      obtain ⟨rs, d, rfl, -, -, hactive, hholds, -⟩ := h.waits hphase
      have hpass := pass_failed hphase houtcome hread
      rw [Execution.afterStep_failed hholds.violation hactive rfl rfl] at hpass
      exact hpasses hpass rfl hholds.decisions
    | some error => exact hinterrupted hphase hread
  | interrupted hphase hinterruption => exact hinterrupted hphase hinterruption
  | unwinding hphase =>
    refine passes_unwinding hphase ?_
    cases h <;> simp_all

theorem passes_draining {due : Option Nat} (hphase : x.phase = .draining due e)
    (hattended : Attended p x) : ∃ y, Execution.Passes (p, x) (p, y) ∧ y.phase = .ended
      ((e.response? x.context).map fun response =>
        (p.finish x.controller response, x.context.streams)) := by
  obtain ⟨completions, hcompletions⟩ : ∃ l, l = x.context.completions := ⟨_, rfl⟩
  induction completions generalizing x due with
  | nil => exact ⟨_, .single (Execution.pass_drain hphase hcompletions.symm), rfl⟩
  | cons f rest ih =>
    rw [Attended, ← hcompletions] at hattended
    obtain ⟨hf, hrest⟩ := List.forall_mem_cons.mp hattended
    have hpass : Execution.Pass (p, x) (p,
        { x with
          context := { x.context with completions := rest }
          phase := .draining none e }) := by
      have hadvance : x.advance p = Execution.drain p x due e := by rw [Execution.advance, hphase]
      refine .going (by rw [hphase]; rintro _ ⟨⟩) ?_
      rw [hadvance, Execution.drain, ← hcompletions]
      dsimp only
      rw [if_pos hf]
    obtain ⟨y, hpasses, hended⟩ := ih (x := { x with
      context := { x.context with completions := rest }, phase := .draining none e }) rfl hrest rfl
    exact ⟨y, .head hpass hpasses, hended⟩

/-! ## What comes of it -/

/-- All questions were asked, and all participants have prepared. -/
structure Complete (I : Inquiry) (past : List Moment) (rs : List (Nat × Value)) : Prop where
  asked : asked past = I.questions.map Delegation.question
  heard : heard past = outcomes rs
  length : rs.length = I.questions.length

/-- A participant has failed, after those before it had prepared, and those behind it were not
asked. -/
structure Failing (I : Inquiry) (past : List Moment) (text : String) (rs : List (Nat × Value))
    (d : Delegation) (response : Value) : Prop where
  question : I.questions[rs.length]? = some d
  asked : asked past = (I.questions.take (rs.length + 1)).map Delegation.question
  heard : heard past = outcomes rs ++ [.failed response]
  text : text = d.failure response

/-- The answer is a failure, for the reason. -/
def FailsWith (answer : Answer) (text : String) : Prop :=
  ∃ failed, answer = .ok (failed, []) ∧ Response.isSuccess failed = false ∧
    Response.failureText? failed = some text

/-- The operation waits for a participant or for the decision. -/
def Waits (p : Plane) (x : Execution) : Prop :=
  (∃ step f due way, x.phase = .handling step (.forwarding f due way) ∧
    (way = .delivered → (p.forward f).outcome = none)) ∨
  ∃ h due, x.phase = .deciding h due ∧ (p.handle h).outlook.effect? = none

/-- **What comes of an inquiry**, at some moment of its course. -/
structure Pursued (I : Inquiry) (past : List Moment) (p : Plane) (x : Execution) : Prop where
  /-- The questions are asked in their order, each once. -/
  asked : ∃ k, asked past = (I.questions.take k).map Delegation.question
  /-- The operation prepares with every answer at its place. -/
  prepares : ∀ h due, x.phase = .deciding h due → ∃ rs, I.Complete past rs ∧
    (x.context.slot Context.rootSlot).toValue false = Response.success (I.result (answers rs))
  /-- A success has every answer at its place. -/
  succeeds : ∀ answer, x.phase = .ended answer → Execution.Succeeds answer →
    ∃ rs, I.Complete past rs ∧ ∃ q : Plane, answer =
      .ok (q.finish x.controller (Response.success (I.result (answers rs))), [])
  /-- It fails with the first failure that it hears. -/
  fails : ∀ response, .failed response ∈ heard past →
    ∃ text rs d, I.Failing past text rs d response ∧
      ∀ answer, x.phase = .ended answer → FailsWith answer text
  /-- It is never stuck. -/
  stages : Ready p x ∨ Waits p x ∨ (∃ e, Settled p x e) ∨ (∃ due e, x.phase = .draining due e) ∨
    ∃ answer, x.phase = .ended answer
  /-- It goes on by itself to the next question or to the decision. -/
  goesOn : p.isCancelled x.context.input.cancellation = false → Ready p x →
    I.GoesOn (ManagementPlane.asked past).length p x
  /-- Once it was decided, or a step has failed, it tells its completions by itself. -/
  settles : ∀ e, Settled p x e →
    ∃ q y, Execution.Passes (p, x) (q, y) ∧ y.phase = .draining none e
  /-- It answers when the participants have given their final responses. -/
  returns : ∀ due e, x.phase = .draining due e → Attended p x → ∃ y answer,
    Execution.Passes (p, x) (p, y) ∧ y.phase = .ended answer ∧
    (e = .kept → ∃ rs, I.Complete past rs ∧ answer =
      .ok (p.finish x.controller (Response.success (I.result (answers rs))), [])) ∧
    ∀ text rs d response, I.Failing past text rs d response → FailsWith answer text

theorem Noted.complete (h : I.Noted past rs.length rs) (hlength : rs.length = I.questions.length) :
    I.Complete past rs where
  asked := by rw [h.asked, hlength, List.take_length]
  heard := h.heard
  length := hlength

theorem not_mem_outcomes (rs : List (Nat × Value)) (response : Value) :
    .failed response ∉ outcomes rs := by simp [outcomes]

theorem Noted.length_asked (h : I.Noted past k rs) (hle : k ≤ I.questions.length) :
    (ManagementPlane.asked past).length = k := by simp [h.asked, hle]

/-- Whatever was heard, it can be told whether the inquiry goes well. -/
theorem Stands.outcome (h : I.Stands g operation r root past p x) :
    (∃ k rs, I.Noted past k rs) ∨ ∃ text rs d response, I.Failing past text rs d response ∧
      ∀ answer, x.phase = .ended answer → FailsWith answer text := by
  cases h with
  | opened _ _ h => exact .inl ⟨_, _, h.noted⟩
  | reading _ _ _ h => exact .inl ⟨_, _, h.noted⟩
  | turning rs _ _ _ _ hnoted => exact .inl ⟨_, rs, hnoted⟩
  | asking rs _ _ _ _ _ _ hnoted => exact .inl ⟨_, rs, hnoted⟩
  | waiting rs _ _ _ _ _ _ _ _ _ hnoted => exact .inl ⟨_, rs, hnoted⟩
  | placing rs _ _ _ _ _ hnoted => exact .inl ⟨_, rs, hnoted⟩
  | complete rs _ _ _ _ _ hnoted => exact .inl ⟨_, rs, hnoted⟩
  | closing rs _ _ _ _ _ _ _ hnoted => exact .inl ⟨_, rs, hnoted⟩
  | answered rs _ _ _ _ hnoted => exact .inl ⟨_, rs, hnoted⟩
  | halting e hphase _ h =>
    cases h with
    | @failed rs d response hd hasked hheard _ _ _ =>
      refine .inr ⟨_, rs, d, response, ⟨hd, hasked, hheard, rfl⟩, fun answer hended => ?_⟩
      rcases hphase with hphase | ⟨due, hphase⟩ <;> cases hphase.symm.trans hended
    | stopped hnoted _ => exact .inl ⟨_, _, hnoted⟩
  | refused answer hphase h =>
    cases h with
    | @failed rs d response failed hd hasked hheard hanswer hfails hfailure =>
      refine .inr ⟨_, rs, d, response, ⟨hd, hasked, hheard, rfl⟩, fun answer' hended => ?_⟩
      cases hphase.symm.trans hended
      exact ⟨failed, hanswer, hfails, hfailure⟩
    | stopped hnoted _ => exact .inl ⟨_, _, hnoted⟩

/-- Only one failure was heard. -/
theorem Failing.text_eq {text text' : String} {rs' : List (Nat × Value)} {d' : Delegation}
    {response response' : Value} (h : I.Failing past text rs d response)
    (h' : I.Failing past text' rs' d' response') : text = text' := by
  obtain ⟨houtcomes, hlast⟩ := List.append_inj' (h.heard.symm.trans h'.heard) rfl
  obtain rfl : rs = rs' := by
    refine List.map_injective_iff.mpr ?_ houtcomes
    rintro ⟨_, _⟩ ⟨_, _⟩ ⟨⟩
    rfl
  obtain rfl : response = response' := by simpa using hlast
  obtain rfl : d = d' := Option.some.inj (h.question.symm.trans h'.question)
  rw [h.text, h'.text]

theorem Noted.not_failing {text : String} {rs' : List (Nat × Value)} {response : Value}
    (h : I.Noted past k rs) : ¬I.Failing past text rs' d response := by
  intro hfailing
  refine not_mem_outcomes rs response ?_
  rw [← h.heard, hfailing.heard]
  simp

theorem Refused.failsWith {answer : Answer} {text : String} {response : Value}
    (h : I.Refused past answer) (hfailing : I.Failing past text rs d response) :
    FailsWith answer text := by
  cases h with
  | failed hd hasked hheard hanswer hfails hfailure =>
    rw [hfailing.text_eq ⟨hd, hasked, hheard, rfl⟩]
    exact ⟨_, hanswer, hfails, hfailure⟩
  | stopped hnoted _ => exact absurd hfailing hnoted.not_failing

theorem Refused.not_succeeds {answer : Answer} (h : I.Refused past answer) :
    ¬Execution.Succeeds answer := by
  cases h with
  | failed _ _ _ hanswer hfails _ =>
    rintro ⟨response, streams, hresponse, hsuccess⟩
    obtain ⟨rfl, -⟩ := Prod.mk.inj (Except.ok.inj (hanswer.symm.trans hresponse))
    rw [hfails] at hsuccess
    cases hsuccess
  | stopped _ hanswer => exact hanswer

theorem Stands.stages (h : I.Stands g operation r root past p x) :
    Ready p x ∨ Waits p x ∨ (∃ e, Settled p x e) ∨ (∃ due e, x.phase = .draining due e) ∨
      ∃ answer, x.phase = .ended answer := by
  have hcloses : ∀ {e}, x.Closes e → (∃ e, Settled p x e) ∨ (∃ due e, x.phase = .draining due e) ∨
      ∃ answer, x.phase = .ended answer := by
    rintro e (hphase | ⟨due, hphase⟩)
    · exact .inl ⟨e, .unwinding hphase⟩
    · exact .inr (.inl ⟨due, e, hphase⟩)
  cases h with
  | opened hphase _ _ | turning _ _ hphase _ _ _ => exact .inl (.inl hphase)
  | reading hphase _ _ _ | asking _ _ _ hphase _ _ _ _ | placing _ _ hphase _ _ _ _ =>
    exact .inl (.inr (.inl ⟨_, hphase⟩))
  | waiting rs d f due way _ hphase _ _ _ _ =>
    match hread : x.interruption? p due (Forwarding.subject (d.step (rs.length + 1)).address) with
    | some error => exact .inr (.inr (.inl ⟨_, .interrupted hphase hread⟩))
    | none =>
      by_cases hway : way = .delivered
      · subst hway
        match houtcome : (p.forward f).outcome with
        | some (.prepared i response) =>
          exact .inl (.inr (.inr ⟨_, f, due, i, response, hphase, houtcome, hread⟩))
        | some (.failed response) => exact .inr (.inr (.inl ⟨_, .failed hphase houtcome⟩))
        | none => exact .inr (.inl (.inl ⟨_, f, due, _, hphase, fun _ => houtcome⟩))
      · exact .inr (.inl (.inl ⟨_, f, due, way, hphase, fun h => absurd h hway⟩))
  | complete _ _ hphase _ _ _ _ =>
    rcases hphase with hphase | ⟨handle, due, hphase⟩
    · exact .inl (.inl hphase)
    · match hdecided : (p.handle handle).outlook.effect? with
      | some decision => exact .inr (.inr (.inl ⟨_, .decided hphase hdecided⟩))
      | none => exact .inr (.inl (.inr ⟨_, _, hphase, hdecided⟩))
  | closing _ _ _ _ hphase _ _ _ _ => exact .inr (.inr (hcloses hphase))
  | halting _ hphase _ _ => exact .inr (.inr (hcloses hphase))
  | answered _ answer _ hphase _ _ | refused answer hphase _ =>
    exact .inr (.inr (.inr (.inr ⟨answer, hphase⟩)))

theorem Stands.goesOn (harises : I.Arises g operation r root)
    (h : I.Stands g operation r root past p x)
    (huncancelled : p.isCancelled x.context.input.cancellation = false) (hready : Ready p x) :
    I.GoesOn (ManagementPlane.asked past).length p x := by
  cases h with
  | opened hphase hqueues h =>
    rw [h.noted.length_asked (Nat.zero_le _)]
    refine .of_pass (pass_step hphase (Context.nextStep?_eq h.stage hqueues) huncancelled) ?_
    exact goesOn_reading harises rfl rfl rfl { h with decisions := h.decisions } huncancelled
  | reading hphase hqueues hactive h =>
    rw [h.noted.length_asked (Nat.zero_le _)]
    exact goesOn_reading harises hphase hqueues hactive h huncancelled
  | turning rs hle hphase hqueues h hnoted =>
    rw [hnoted.length_asked hle]
    exact goesOn_turning hle hphase hqueues h huncancelled
  | asking rs d hd hphase _ _ _ hnoted =>
    rw [hnoted.length_asked (List.getElem?_eq_some_iff.mp hd).1.le]
    exact ⟨p, x, .refl, .inl ⟨d, hd, hphase⟩⟩
  | waiting rs d f due way hd hphase hqueues hactive h hnoted =>
    rw [hnoted.length_asked (List.getElem?_eq_some_iff.mp hd).1]
    rcases hready with hready | ⟨_, hready⟩ | ⟨_, f', due', i, response, hready, houtcome, hread⟩
    · cases hphase.symm.trans hready
    · cases hphase.symm.trans hready
    · cases hphase.symm.trans hready
      exact goesOn_waiting hd hphase hqueues hactive h houtcome hread huncancelled
  | placing rs hlength hphase hqueues hactive h hnoted =>
    rw [hnoted.length_asked hlength.le, hlength]
    exact goesOn_placing hlength hphase hqueues hactive h huncancelled
  | complete rs hlength hphase hqueues _ _ hnoted =>
    rw [hnoted.length_asked hlength.le, hlength]
    rcases hphase with hphase | ⟨handle, due, hphase⟩
    · exact goesOn_complete hphase hqueues huncancelled
    · exact ⟨p, x, .refl, .inr ⟨rfl, handle, due, hphase⟩⟩
  | _ => rcases hready with _ | ⟨_, _⟩ | ⟨_, _, _, _, _, _, _, _⟩ <;> simp_all [Execution.Closes]

theorem Stands.succeeds (h : I.Stands g operation r root past p x) {answer : Answer}
    (hended : x.phase = .ended answer) (hsucceeds : Execution.Succeeds answer) :
    ∃ rs, I.Complete past rs ∧ ∃ q : Plane, answer =
      .ok (q.finish x.controller (Response.success (I.result (answers rs))), []) := by
  cases h with
  | answered rs answer' hlength hphase hanswer hnoted =>
    cases hphase.symm.trans hended
    obtain ⟨q, hq⟩ := hanswer.resolve_right (not_not_intro hsucceeds)
    exact ⟨rs, hnoted.complete hlength, q, hq⟩
  | refused answer' hphase h =>
    cases hphase.symm.trans hended
    exact absurd hsucceeds h.not_succeeds
  | _ => simp_all [Execution.Closes]

theorem Stands.fails (h : I.Stands g operation r root past p x) {response : Value}
    (hresponse : .failed response ∈ heard past) :
    ∃ text rs d, I.Failing past text rs d response ∧
      ∀ answer, x.phase = .ended answer → FailsWith answer text := by
  rcases h.outcome with ⟨k, rs, hnoted⟩ | ⟨text, rs, d, response', hfailing, hfails⟩
  · exact absurd (hnoted.heard ▸ hresponse) (not_mem_outcomes rs response)
  · obtain rfl : response = response' := by
      rw [hfailing.heard] at hresponse
      simpa [not_mem_outcomes] using hresponse
    exact ⟨text, rs, d, hfailing, hfails⟩

theorem Stands.returns {due : Option Nat} (h : I.Stands g operation r root past p x)
    (hphase : x.phase = .draining due e) (hattended : Attended p x) : ∃ y answer,
    Execution.Passes (p, x) (p, y) ∧ y.phase = .ended answer ∧
    (e = .kept → ∃ rs, I.Complete past rs ∧ answer =
      .ok (p.finish x.controller (Response.success (I.result (answers rs))), [])) ∧
    ∀ text rs d response, I.Failing past text rs d response → FailsWith answer text := by
  obtain ⟨y, hpasses, hended⟩ := passes_draining hphase hattended
  refine ⟨y, _, hpasses, hended, ?_⟩
  cases h with
  | closing rs e' hlength _ hclosing _ hroot hstreams hnoted =>
    refine ⟨?_, fun _ _ _ _ hfailing => absurd hfailing hnoted.not_failing⟩
    rintro rfl
    exact ⟨rs, hnoted.complete hlength, response_kept hroot hstreams⟩
  | halting e' hclosing _ h =>
    obtain rfl : e' = e := by
      rcases hclosing with hunwinding | ⟨due', hdraining⟩
      · cases hphase.symm.trans hunwinding
      · cases hphase.symm.trans hdraining
        rfl
    refine ⟨?_, fun _ _ _ _ hfailing => h.refused.failsWith hfailing⟩
    rintro rfl
    cases h with
    | stopped _ he => rcases he with he | ⟨_, he⟩ <;> cases he
  | _ => simp_all

/-- **What comes of an inquiry** holds at every moment of its course. -/
theorem Stands.pursued (harises : I.Arises g operation r root)
    (h : I.Stands g operation r root past p x) : I.Pursued past p x where
  asked := by
    rcases h.outcome with ⟨k, rs, hnoted⟩ | ⟨text, rs, d, response, hfailing, -⟩
    · exact ⟨k, hnoted.asked⟩
    · exact ⟨_, hfailing.asked⟩
  prepares handle due hphase := by
    obtain ⟨rs, hlength, -, hroot, hnoted⟩ := h.prepared hphase
    refine ⟨rs, hnoted.complete hlength, ?_⟩
    rw [hroot]
    rfl
  succeeds _ := h.succeeds
  fails _ := h.fails
  stages := h.stages
  goesOn := h.goesOn harises
  settles _ := passes_settled h
  returns _ _ := h.returns

end Inquiry

end ManagementPlane
