import ManagementPlane.Proofs.Proxied.Rest

/-!
# Proofs/Proxied/Chain — operations that wait, each for the next one

An operation that was handed on from controller to controller leaves a chain of operations behind
it, each of which waits for the end of the next one (`Plane.Chain`).  If the last one fails, so does
every other, for the same reason (`Chain.fails`); if it completes its pipeline, so does every other,
and the caller gets a success (`Chain.succeeds`).
-/

namespace ManagementPlane

open Execution (Pass Passes)
open Inquiry (FailsWith)

/-! ## What comes from a participant -/

namespace Delivery

/-- Whose end the participant tells that is reached this way, and to whom it hands its handle. -/
inductive Joins : Delivery → Origin → Control → Prop
  | linked (l : Nat) : Joins (.linked l) (.link l) (.relay l)
  | following (a e : Nat) : Joins (.following a e) (.exchange e) (.exchange e a)

/-- Nothing has come from the participant. -/
def Silent (p : Plane) : Delivery → Prop
  | linked l => l < p.links.length ∧ p.link l = {}
  | following a e => e < p.exchanges.length ∧ (p.actor a).isOpen = true ∧
      (p.exchange e).events = [] ∧ (p.exchange e).followed = true ∧ (p.exchange e).active = true
  | _ => False

/-- The participant has ended without having prepared. -/
def Ended (p : Plane) (response : Value) : Delivery → Prop
  | linked l => (p.link l).offer = none ∧ (p.link l).final = some (.answered response)
  | following _ e => (p.exchange e).events = [.completed response]
  | _ => False

/-- The participant has prepared. -/
def Offers (p : Plane) (response : Value) : Delivery → Prop
  | linked l => ∃ h, (p.link l).offer = some (h, response)
  | following _ e => (p.exchange e).Mute ∧ [.prepared response] <+: (p.exchange e).events
  | _ => False

variable {R : Reserve} {p q : Plane} {way : Delivery} {o : Origin} {control : Control}
  {response : Value} {f : Nat}

theorem Silent.kept (h : way.Silent p) (hway : way.Joins o control) (ho : R.told o)
    (hq : R.Kept p q) : way.Silent q := by
  cases hway with
  | linked l => exact ⟨h.1.trans_le hq.links, (hq.link l ho).trans h.2⟩
  | following a e =>
    obtain ⟨hlength, hopen, hrest⟩ := h
    refine ⟨hlength.trans_le hq.exchanges, hq.opens a hopen, ?_⟩
    rw [hq.exchange e ho]
    exact hrest

theorem Ended.kept (h : way.Ended p response) (hway : way.Joins o control) (ho : R.told o)
    (hq : R.Kept p q) : way.Ended q response := by
  cases hway with
  | linked l =>
    rw [Ended, hq.link l ho]
    exact h
  | following a e =>
    rw [Ended, hq.exchange e ho]
    exact h

theorem Offers.kept (h : way.Offers p response) (hway : way.Joins o control) (ho : R.read o)
    (hq : R.Kept p q) : way.Offers q response := by
  cases hway with
  | linked l =>
    rw [Offers, hq.offer l ho]
    exact h
  | following a e => exact ⟨hq.mute e h.1, h.2.trans (hq.events e ho)⟩

/-- **The end of a participant** comes to whoever waits for it. -/
theorem Silent.tell (h : way.Silent p) (hway : way.Joins o control) (answer : Answer) :
    ∃ response, way.Ended (o.tell p answer) response ∧
      ∀ failed streams, answer = .ok (failed, streams) → response = failed := by
  cases hway with
  | linked l =>
    obtain ⟨response, g, hg, hresponse, htell⟩ : ∃ response g,
        (∀ x : Link, g x = { x with final := some (.answered response) }) ∧
        (∀ failed streams, answer = .ok (failed, streams) → response = failed) ∧
        (Origin.link l).tell p answer = p.modifyLink l g :=
      ⟨_, _, fun _ => rfl, fun _ _ h => by rw [h], rfl⟩
    refine ⟨response, ?_, hresponse⟩
    rw [htell, Ended, Plane.link_modifyLink, if_pos ⟨rfl, h.1⟩, hg, h.2]
    exact ⟨rfl, rfl⟩
  | following a e =>
    obtain ⟨hlength, -, hevents, hfollowed, -⟩ := h
    obtain ⟨response, hresponse, htell⟩ : ∃ response,
        (∀ failed streams, answer = .ok (failed, streams) → response = failed) ∧
        (Origin.exchange e).tell p answer =
          p.modifyExchange e fun x => (x.send (.completed response)).close :=
      ⟨_, fun _ _ h => by rw [h], rfl⟩
    refine ⟨response, ?_, hresponse⟩
    rw [htell, Ended, Plane.exchange_modifyExchange, if_pos ⟨rfl, hlength⟩, Exchange.close,
      Exchange.send, if_pos hfollowed, hevents]
    rfl

end Delivery

/-! ## Operations that wait -/

/-- The operation has a single step to do, which runs. -/
structure Context.Poised (x : Context) : Prop extends x.Unharmed where
  stage : x.stage = .model
  queues : x.queues = {}
  slots : x.slots = [({} : ResponseSlot)]
  completed : x.completed = []
  completions : x.completions = []
  uncancelled : x.input.cancellation = none
  active : ∃ a, x.active = some { address := a, slot := Context.rootSlot }

/-- The operation waits for a participant, and not too long. -/
structure Execution.Awaits (p : Plane) (x : Execution) (f : Nat) (way : Delivery) : Prop where
  handling : ∃ step due, x.phase = .handling step (.forwarding f due way) ∧
    step.slot = Context.rootSlot ∧ p.now < due
  known : f < p.forwards.length
  listens : (p.forward f).Listens
  poised : x.context.Poised

namespace Execution

variable {R : Reserve} {p q : Plane} {x y : Execution} {f : Nat} {way : Delivery} {o : Origin}
  {control : Control} {response : Value} {text : String}

theorem Awaits.kept (h : x.Awaits p f way) (hf : R.heard f) (hq : R.Kept p q) :
    x.Awaits q f way where
  handling := by
    rw [hq.now]
    exact h.handling
  known := h.known.trans_le hq.forwards
  listens := hq.listens f hf h.listens
  poised := h.poised

theorem Awaits.open (h : x.Awaits p f way) (answer : Answer) : x.phase ≠ .ended answer := by
  obtain ⟨step, due, hphase, -⟩ := h.handling
  rw [hphase]
  rintro ⟨⟩

/-- Nothing interrupts the operation in time, since it is not cancelled. -/
theorem unhurried_of_poised (h : x.context.Poised) {due : Nat} (hdue : p.now < due)
    (what : String) : x.interruption? p due what = none := by
  refine interruption?_eq_none hdue ?_
  rw [h.uncancelled]
  rfl

theorem calm_of_poised (h : x.context.Poised) :
    p.overtakes x.context.input.cancellation = false := by
  refine Plane.overtakes_of_not_cancelled ?_
  rw [h.uncancelled]
  rfl

/-- **Who hears nothing** sleeps. -/
theorem Awaits.sleeps (h : x.Awaits p f way) (hsilent : way.Silent p) :
    (Task.operation [x] o).Sleeps p := by
  obtain ⟨step, due, hphase, -, hdue⟩ := h.handling
  have hwait : Forwarding.wait p x step f due way = { plane := p, next := .blocked x } := by
    rw [Forwarding.wait, if_neg hdue.not_ge, h.poised.uncancelled]
    rfl
  have hadvance : x.advance p = { plane := p, next := .blocked x } := by
    rw [advance, hphase]
    dsimp only
    rw [work]
    rw [Forwarding.advance_eq_follow (unhurried_of_poised h.poised hdue _),
      Forwarding.follow.eq_def]
    cases way with
    | linked l =>
      dsimp only
      rw [hsilent.2]
      exact hwait
    | following a e =>
      obtain ⟨-, -, hevents, -, hactive⟩ := hsilent
      have hnext : (p.exchange e).next.1 = .nothingYet := by
        rw [Exchange.next, hevents, hactive]
        rfl
      dsimp only
      rw [hnext]
      exact hwait
    | _ => cases hsilent
  have hprogress : ((Task.operation [x] o).advance p).progress = .blocked (.operation [x] o) := by
    rw [Task.advance, Task.advanceStack.eq_def]
    dsimp only
    split
    · next answer hended => exact absurd hended (h.open answer)
    · rw [hadvance]
  exact (Task.sleeps_of_blocked hprogress).1

theorem Awaits.canGo (h : x.Awaits p f way) (hcome : ∃ w ∈ way.waits f, w.holds p = true) :
    (Task.operation [x] o).canGo p = true := by
  obtain ⟨step, due, hphase, -⟩ := h.handling
  obtain ⟨w, hw, hholds⟩ := hcome
  refine List.any_eq_true.mpr ⟨w, ?_, hholds⟩
  rw [Task.waits, waits, hphase]
  exact List.mem_append_left _ hw

theorem Awaits.canGo_of_ended (h : x.Awaits p f way) (hended : way.Ended p response) :
    (Task.operation [x] o).canGo p = true := by
  refine h.canGo ?_
  cases way with
  | linked l => exact ⟨_, List.mem_cons_self, by rw [Wait.holds, hended.2]; simp⟩
  | following a e =>
    exact ⟨_, List.mem_cons_self, by rw [Wait.holds, Exchange.isReady, hended]; rfl⟩
  | _ => cases hended

theorem Awaits.canGo_of_offers (h : x.Awaits p f way) (hoffers : way.Offers p response) :
    (Task.operation [x] o).canGo p = true := by
  refine h.canGo ?_
  cases way with
  | linked l =>
    obtain ⟨handle, hoffer⟩ := hoffers
    exact ⟨_, List.mem_cons_self, by rw [Wait.holds, hoffer]; rfl⟩
  | following a e =>
    obtain ⟨rest, hrest⟩ := hoffers.2
    exact ⟨_, List.mem_cons_self, by rw [Wait.holds, Exchange.isReady, ← hrest]; rfl⟩
  | _ => cases hoffers

/-! ## A participant that fails -/

/-- An operation whose own slot failed fails with that text. -/
theorem failsWith_response {context : Context} (p : Plane) (c : Nat)
    (hroot : (context.slot Context.rootSlot).failure = some (.string text))
    (hstreams : context.streams = []) :
    FailsWith ((Ending.failed.response? context).map fun response =>
      (p.finish c response, context.streams)) text := by
  refine ⟨p.finish c (ResponseSlot.toValue { context.slot Context.rootSlot with
    failure := some (.string text) } true), ?_, ?_, Response.failureText?_finish ..⟩
  · rw [hstreams, Ending.response?.eq_def]
    dsimp only
    rw [hroot]
    rfl
  · rw [Response.isSuccess_finish, Response.isSuccess_toValue]
    rfl

/-- **A pipeline that failed** before anything was completed comes to its answer by itself. -/
theorem passes_failed (hphase : x.phase = .unwinding .failed)
    (hcompleted : x.context.completed = [])
    (hcompletions : x.context.completions = []) (hstreams : x.context.streams = [])
    (hroot : (x.context.slot Context.rootSlot).failure = some (.string text)) :
    ∃ tree y answer, Passes (p, x) (p.setTree x.controller tree, y) ∧ y.phase = .ended answer ∧
      FailsWith answer text := by
  have hunwind : x.advance p = unwound p x .failed := by
    rw [advance, hphase]
    dsimp only
    rw [unwind, hcompleted]
  have hpass := Pass.going (by rw [hphase]; rintro _ ⟨⟩) hunwind
  have hdrain := pass_drain (p := p.setTree x.controller
      (x.context.transaction.rollback (p.tree x.controller)).1)
    (x := { x.withTransaction (x.context.transaction.rollback (p.tree x.controller)).2 with
      phase := .draining none .failed }) rfl hcompletions
  exact ⟨_, _, _, .head hpass (.single hdrain), rfl, failsWith_response _ _ hroot hstreams⟩

/-- The operation after a step that failed before it completed. -/
theorem afterStep_of_error {step : Step} {a : ActiveStep} {e : OperationError}
    (hviolation : x.context.violation = none) (hactive : x.context.active = some a)
    (hcompleted : a.completed = false) (he : e.isFatal = false) :
    x.afterStep step (.error e) = { x with
      context :=
        { { x.context with active := none }.recordFailure step.slot (.string e.message) with
          rollbackOnly := true }
      phase := .unwinding .failed } := by
  have hend : x.context.endStep step (.error e) = (some .failed,
      { { x.context with active := none }.recordFailure step.slot (.string e.message) with
        rollbackOnly := true }) := by
    rw [Context.endStep]
    dsimp only
    rw [hviolation, hactive, Option.map_some, hcompleted, he]
    rfl
  rw [afterStep, hend]

/-- **A step that fails** while nothing was completed makes the operation fail with its text. -/
theorem passes_of_error {step : Step} {e : OperationError} (h : x.context.Poised)
    (hslot : step.slot = Context.rootSlot) (he : e.isFatal = false) :
    ∃ tree y answer, Passes (p, x.afterStep step (.error e)) (p.setTree x.controller tree, y) ∧
      y.phase = .ended answer ∧ FailsWith answer e.message := by
  obtain ⟨a, hactive⟩ := h.active
  rw [afterStep_of_error h.violation hactive rfl he, hslot]
  refine passes_failed rfl h.completed h.completions h.streams ?_
  show ((x.context.slots.modify 0 (·.fail (.string e.message)))[0]?.getD
    ({} : ResponseSlot)).failure = some (.string e.message)
  rw [h.slots]
  rfl

/-- The operation once its participant has all it needs. -/
def delivered (x : Execution) (step : Step) (f due : Nat) : Execution :=
  { x with phase := .handling step (.forwarding f due .delivered) }

theorem kept_reportOutcome (hlistens : (p.forward f).Listens) (hf : ¬R.heard f)
    (outcome : Outcome) :
    R.Kept p (p.reportOutcome f outcome) := by
  rw [Plane.reportOutcome_of_listens hlistens]
  exact Reserve.kept_modifyForward fun hheard => absurd hheard hf

theorem kept_failForward (hlistens : (p.forward f).Listens) (hf : ¬R.heard f) (response : Value) :
    R.Kept p (p.failForward f response) :=
  (kept_reportOutcome hlistens hf _).trans
    (Reserve.kept_modifyForward fun hheard => absurd hheard hf)

theorem outcome_reportOutcome (hlistens : (p.forward f).Listens) (hknown : f < p.forwards.length)
    (outcome : Outcome) : ((p.reportOutcome f outcome).forward f).outcome = some outcome := by
  rw [Plane.reportOutcome_of_listens hlistens, Plane.forward_modifyForward, if_pos ⟨rfl, hknown⟩]

theorem outcome_failForward (hlistens : (p.forward f).Listens) (hknown : f < p.forwards.length)
    (response : Value) :
    ((p.failForward f response).forward f).outcome = some (.failed response) := by
  have houtcome := outcome_reportOutcome hlistens hknown (.failed response)
  rw [Plane.failForward, Plane.forward_modifyForward]
  split <;> exact houtcome

/-- The failure of a participant reaches whoever waits for it. -/
theorem Awaits.advance_ended (h : x.Awaits p f way) (hway : way.Joins o control)
    (hended : way.Ended p response) (hf : ¬R.heard f) (htold : ¬R.told o) (hread : ¬R.read o)
    {step : Step} {due : Nat} (hphase : x.phase = .handling step (.forwarding f due way))
    (hdue : p.now < due) :
    ∃ q : Plane, x.advance p = { plane := q, next := .going (x.delivered step f due) } ∧
      (q.forward f).outcome = some (.failed response) ∧ R.Kept p q ∧ q.actors = p.actors := by
  have hadvance : x.advance p = Forwarding.follow p x step f due way := by
    rw [advance, hphase]
    exact Forwarding.advance_eq_follow (unhurried_of_poised h.poised hdue _)
  rw [hadvance, Forwarding.follow.eq_def]
  cases hway with
  | linked l =>
    obtain ⟨hoffer, hfinal⟩ := hended
    dsimp only
    rw [hoffer, hfinal]
    exact ⟨_, rfl, outcome_failForward h.listens h.known response,
      kept_failForward h.listens hf response, rfl⟩
  | following a e =>
    have hnext : (p.exchange e).next = (.event (.completed response),
        { p.exchange e with events := [] }) := by
      rw [Exchange.next, hended]
    dsimp only
    rw [hnext]
    have hleft : R.Kept p ((p.modifyExchange e fun _ => { p.exchange e with events := [] }
        ).modifyExchange e Exchange.leave) :=
      (Reserve.kept_modifyExchange htold hread p fun _ m hm => by cases hm).trans
        (Reserve.kept_modifyExchange htold hread _ fun _ m hm => by cases hm)
    refine ⟨_, rfl, outcome_failForward h.listens h.known response,
      hleft.trans (kept_failForward ?_ hf response), rfl⟩
    exact h.listens

/-- **Whoever hears that its participant failed** fails with the same text. -/
theorem Awaits.fails (h : x.Awaits p f way) (hway : way.Joins o control)
    (hended : way.Ended p response) (htext : Response.failureText? response = some text)
    (hf : ¬R.heard f) (htold : ¬R.told o) (hread : ¬R.read o) :
    ∃ q y answer, Passes (p, x) (q, y) ∧ y.phase = .ended answer ∧ FailsWith answer text ∧
      R.Kept p q ∧ q.actors = p.actors := by
  obtain ⟨step, due, hphase, hslot, hdue⟩ := h.handling
  obtain ⟨r, hadvance, houtcome, hkept, hactors⟩ :=
    h.advance_ended hway hended hf htold hread hphase hdue
  have hconclude : (x.delivered step f due).advance r =
      { plane := r, next := .returned (x.delivered step f due) step (.error (.failed text)) } := by
    have hfollow : (x.delivered step f due).advance r =
        Forwarding.follow r (x.delivered step f due) step f due .delivered :=
      Forwarding.advance_eq_follow (unhurried_of_poised h.poised (hkept.now ▸ hdue) _)
    rw [hfollow, Forwarding.follow, houtcome]
    dsimp only
    rw [Forwarding.conclude, htext]
    rfl
  have hreturn := Pass.returned (by rintro _ ⟨⟩) hconclude
  obtain ⟨tree, y, answer, hpasses, hphase, hfails⟩ :=
    passes_of_error (p := r) (x := x.delivered step f due) (e := .failed text) h.poised hslot rfl
  refine ⟨_, y, answer, .head (.going h.open hadvance) (.head hreturn hpasses), hphase, hfails, ?_,
    hactors⟩
  exact hkept.trans (Reserve.kept_setTree R _ _ _)

end Execution

/-! ## Chains -/

/-- An operation that waits, whom it tells, the forwarded step that it waits in, and whose end it
waits for. -/
structure Level where
  execution : Execution
  origin : Origin
  forward : Nat
  awaited : Origin

def Level.task (l : Level) : Task := .operation [l.execution] l.origin

/-- What operations that wait for each other need for themselves. -/
def Reserve.for (levels : List Level) : Reserve where
  told o := (∃ n, o = .ticket n) ∨ ∃ level ∈ levels, level.awaited = o
  read o := ∃ level ∈ levels, level.awaited = o
  heard f := ∃ level ∈ levels, level.forward = f

/-- **Operations that wait, each for the one before it**; the caller with the ticket waits for the
last one.  The first waits for an operation that tells `o` and that is controlled so. -/
inductive Plane.Chain (p : Plane) (n : Nat) : Origin → Control → List Level → Prop
  | top (known : n < p.tickets.length) (hnone : (p.ticket n).final = none) :
    Chain p n (.ticket n) (.decide .keep) []
  | level {x : Execution} {o o' : Origin} {control : Control} {levels : List Level} {f : Nat}
      {way : Delivery} (h : Chain p n o x.control levels) (hx : x.Awaits p f way)
      (hway : way.Joins o' control) (hsilent : way.Silent p)
      (hforward : ¬(Reserve.for levels).heard f) (htold : ¬(Reserve.for levels).told o') :
    Chain p n o' control (⟨x, o, f, o'⟩ :: levels)

namespace Reserve

variable {R R' : Reserve} {p q : Plane}

theorem covers_cons (level : Level) (levels : List Level) :
    (Reserve.for (level :: levels)).Covers (Reserve.for levels) where
  told _ := Or.imp_right fun ⟨l, hl, ho⟩ => ⟨l, List.mem_cons_of_mem _ hl, ho⟩
  read _ := fun ⟨l, hl, ho⟩ => ⟨l, List.mem_cons_of_mem _ hl, ho⟩
  heard _ := fun ⟨l, hl, hf⟩ => ⟨l, List.mem_cons_of_mem _ hl, hf⟩

theorem told_awaited (level : Level) (levels : List Level) :
    (Reserve.for (level :: levels)).told level.awaited := .inr ⟨level, List.mem_cons_self, rfl⟩

theorem read_awaited (level : Level) (levels : List Level) :
    (Reserve.for (level :: levels)).read level.awaited := ⟨level, List.mem_cons_self, rfl⟩

theorem heard_forward (level : Level) (levels : List Level) :
    (Reserve.for (level :: levels)).heard level.forward := ⟨level, List.mem_cons_self, rfl⟩

/-- What is left to the others of a chain when the first one has told its end. -/
def after (level : Level) (levels : List Level) : Reserve :=
  { Reserve.for (level :: levels) with told := (Reserve.for levels).told }

theorem covers_after (level : Level) (levels : List Level) :
    (Reserve.for (level :: levels)).Covers (after level levels) where
  told := (covers_cons level levels).told
  read _ := id
  heard _ := id

theorem after_covers (level : Level) (levels : List Level) :
    (after level levels).Covers (Reserve.for levels) where
  told _ := id
  read := (Reserve.covers_cons level levels).read
  heard := (Reserve.covers_cons level levels).heard

end Reserve

namespace Plane.Chain

variable {p q : Plane} {n : Nat} {o : Origin} {control : Control} {levels : List Level}

theorem kept (h : p.Chain n o control levels) (hq : (Reserve.for levels).Kept p q) :
    q.Chain n o control levels := by
  induction h with
  | top known hnone =>
    refine .top (known.trans_le hq.tickets) ?_
    rw [hq.ticket n (.inl ⟨n, rfl⟩)]
    exact hnone
  | level h hx hway hsilent hforward htold ih =>
    exact .level (ih (hq.mono (Reserve.covers_cons _ _))) (hx.kept (Reserve.heard_forward _ _) hq)
      hway (hsilent.kept hway (Reserve.told_awaited _ _) hq) hforward htold

theorem sleeps (h : p.Chain n o control levels) : ∀ s ∈ levels.map Level.task, s.Sleeps p := by
  induction h with
  | top known hnone => rintro _ ⟨⟩
  | level h hx hway hsilent hforward htold ih =>
    exact List.forall_mem_cons.mpr ⟨hx.sleeps hsilent, ih⟩

/-- The company does not mind who is told. -/
theorem company_tell {R : Reserve} {W : List Task} (hW : Company R p W) (o : Origin)
    (answer : Answer) : Company R (o.tell p answer) W := by
  have hkept := Reserve.kept_tell (R := .nothing) (o := o) id p answer
  have hactors : (o.tell p answer).actors = p.actors := by cases o <;> rfl
  refine hW.around hkept.mute fun a k ha => ?_
  rwa [Plane.actor, hactors]

/-- **If the last operation of a chain fails**, the caller is told so. -/
theorem fails {m : Machine} {x : Execution} {W : List Task} {answer : Answer} {text : String}
    (h : p.Chain n o control levels)
    (hm : m.Turns p (.operation [x] o) (levels.map Level.task ++ W))
    (hW : Company (Reserve.for levels) p W) (hphase : x.phase = .ended answer)
    (hfails : FailsWith answer text) : m.Delivers n (FailsWith · text) := by
  induction levels generalizing m p o control x W answer with
  | nil =>
    obtain ⟨m₁, hstep, hm₁⟩ := hm.finished (Task.advance_ended hphase)
    cases h with
    | top known hnone =>
      refine .of_step hstep ((company_tell hW _ answer).rests hm₁ ⟨?_, fun y hy => ?_, .inr ?_⟩)
      · exact known.trans_eq (List.length_modify _ _ _).symm
      · cases hW.winding _ hy with
        | operation hy ho => exact absurd (.inl ⟨n, rfl⟩) ho
      · exact ⟨answer, Answering.final_tell known, hfails⟩
  | cons level levels ih =>
    obtain ⟨m₁, hstep, hm₁⟩ := hm.finished (Task.advance_ended hphase)
    cases h with
    | @level x₁ o₁ _ _ _ f way h hx hway hsilent hforward htold =>
      obtain ⟨response, hended, hresponse⟩ := hsilent.tell hway answer
      have htell : (Reserve.after ⟨x₁, o₁, f, o⟩ levels).Kept p (o.tell p answer) :=
        Reserve.kept_tell (R := Reserve.after _ levels) htold p answer
      have hx' := hx.kept (Reserve.heard_forward _ _) htell
      have hchain := h.kept (htell.mono (Reserve.after_covers _ _))
      have htext : Response.failureText? response = some text := by
        obtain ⟨failed, rfl, -, htext⟩ := hfails
        rwa [hresponse _ _ rfl]
      obtain ⟨m₂, r, W', hleads, hm₂, hkept, hW'⟩ := (company_tell hW o answer).settles hm₁
        (fun r hr => (hx'.kept (Reserve.heard_forward _ _) hr).canGo_of_ended
          (hended.kept hway (Reserve.told_awaited _ _) hr))
        (fun r hr => (hchain.kept (hr.mono (Reserve.covers_cons _ _))).sleeps)
      obtain ⟨q, y, answer', hpasses, hphase', hfails', hkept', hactors⟩ :=
        (hx'.kept (Reserve.heard_forward _ _) hkept).fails hway
          (hended.kept hway (Reserve.told_awaited _ _) hkept) htext hforward htold
          (fun h => htold (.inr h))
      obtain ⟨m₃, hleads', hm₃⟩ := hm₂.passes hpasses
      have hchain' := (hchain.kept (hkept.mono (Reserve.covers_cons _ _))).kept hkept'
      have hW'' : Company (Reserve.for levels) q W' := by
        refine (hW'.mono (Reserve.covers_cons _ _)).around hkept'.mute fun a k ha => ?_
        rwa [Plane.actor, hactors]
      exact .of_step hstep (.of_leads (hleads.trans hleads') (ih hchain' hm₃ hW'' hphase' hfails'))

end Plane.Chain

end ManagementPlane
