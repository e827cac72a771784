import ManagementPlane.Proofs.Proxied.Destined
import ManagementPlane.Proofs.Proxied.Preparing
import ManagementPlane.Proofs.Registration.Refusing

/-!
# Proofs/Proxied/Arriving — an operation on one controller

What an operation comes to by itself on the controller that it gets to, when nothing holds the write
lock there: it fails (`FailsAlone`), it hands itself on to a proxy (`HandsOn`), or its handler
begins (`begins_of_accepted`).  A validation fails as the operation would, hands itself on as the
operation would, or has done all its steps (`CompletesAlone`).
-/

namespace ManagementPlane

open Execution (Pass Passes)
open Inquiry (FailsWith)

namespace Plane

variable {p q r : Plane} {c a : Nat}

/-- On the way only counts and tables grow: of operations, and of exchanges. -/
structure Unmoved (p q : Plane) : Prop where
  now : q.now = p.now
  controllers : q.controllers.length = p.controllers.length
  tree : ∀ c, q.tree c = p.tree c
  registration : ∀ c, q.registration c = p.registration c
  settings : ∀ c, q.settings c = p.settings c
  actor : ∀ a, ∃ n, q.actor a = { p.actor a with nextNumber := n }

theorem Unmoved.trans (h : p.Unmoved q) (h' : q.Unmoved r) : p.Unmoved r where
  now := h'.now.trans h.now
  controllers := h'.controllers.trans h.controllers
  tree c := (h'.tree c).trans (h.tree c)
  registration c := (h'.registration c).trans (h.registration c)
  settings c := (h'.settings c).trans (h.settings c)
  actor a := by
    obtain ⟨n, hn⟩ := h.actor a
    obtain ⟨k, hk⟩ := h'.actor a
    exact ⟨k, by rw [hk, hn]⟩

theorem unmoved_entering (c : Nat) (p : Plane) : p.Unmoved (Execution.entering c p) := by
  have hcontroller : ∀ i, ∃ n, (Execution.entering c p).controller i =
      { p.controller i with accepted := n } := by
    intro i
    have hmodify : (Execution.entering c p).controller i = (counting c p).controller i := rfl
    rw [hmodify, counting, controller_modifyController]
    split
    · next heq => exact ⟨_, rfl⟩
    · exact ⟨_, rfl⟩
  refine ⟨rfl, List.length_modify _ _ _, fun i => ?_, fun i => ?_, fun i => ?_, fun a => ⟨_, rfl⟩⟩
  all_goals
    obtain ⟨n, hn⟩ := hcontroller i
  · rw [tree, hn, tree]
  · rw [registration, hn, registration]
  · rw [settings, hn, settings]

end Plane

namespace Execution

variable {p q : Plane} {x y : Execution} {c : Nat} {operation target : Value} {name : String}
  {a b : Address} {resolved : Resolved} {e : OperationError} {entry : OperationEntry}
  {node : Registration} {proxy : Proxy} {step : Step}

/-! ## What can become of it -/

/-- The operation has been submitted to the controller, or handed on to it, and nobody can cancel
it. -/
def Fresh (c : Nat) (operation : Value) (x : Execution) : Prop :=
  ∃ control input sink, x = new c operation control input sink ∧ input.cancellation = none

/-- The operation comes to a step in its own slot, and has done nothing else. -/
structure Steps (x : Execution) (step : Step) (y : Execution) : Prop where
  phase : y.phase = .handling step .begin
  slot : step.slot = Context.rootSlot
  poised : y.context.Poised
  control : y.control = x.control
  controller : y.controller = x.controller

/-- The operation fails by itself, with this text. -/
def FailsAlone (p : Plane) (x : Execution) (text : String) : Prop :=
  ∃ q y answer, Passes (p, x) (q, y) ∧ y.phase = .ended answer ∧ FailsWith answer text ∧
    (∀ R : Reserve, R.Kept p q) ∧ q.actors = p.actors

/-- The operation comes to hand on another one, at an address that the proxy answers for. -/
def HandsOn (p : Plane) (x : Execution) (proxy : Proxy) (operation : Value) (a : Address) : Prop :=
  ∃ q y, Passes (p, x) (q, y) ∧
    x.Steps ⟨.forward proxy, operation, a, Context.rootSlot⟩ y ∧ p.Unmoved q ∧
    ∀ R : Reserve, R.Kept p q

/-- The operation does all its steps by itself. -/
def CompletesAlone (p : Plane) (x : Execution) : Prop :=
  ∃ q y, Passes (p, x) (q, y) ∧ y.Complete ∧ y.control = x.control ∧
    (∀ R : Reserve, R.Kept p q) ∧ q.actors = p.actors

/-! ## From the submission to the first step -/

theorem registration_counting (c : Nat) (p : Plane) :
    (Plane.counting c p).registration c = p.registration c :=
  (Plane.unmoved_entering c p).registration c

theorem kept_entering (R : Reserve) (c : Nat) (p : Plane) : R.Kept p (entering c p) :=
  { Reserve.Kept.refl R p with }

theorem failsWith_finish (p : Plane) (c : Nat) (text : String) :
    FailsWith (.ok (p.finish c (Response.failure text), [])) text := by
  refine ⟨_, rfl, ?_, ?_⟩
  · rw [Response.isSuccess_finish, Response.isSuccess_failure]
  · rw [Response.failureText?, Response.get?_finish (by decide)]
    rfl

theorem Fresh.failsAlone_of_unparsed (hx : x.Fresh c operation)
    (hparse : Operation.parse operation = .error e) : FailsAlone p x e.message := by
  obtain ⟨control, input, sink, rfl, -⟩ := hx
  have hbegin : begin p (new c operation control input sink) =
      reject p (new c operation control input sink) e := by
    have hfresh : (new c operation control input sink).operation = operation := rfl
    rw [begin, hfresh, hparse]
  exact ⟨_, _, _, .single (.going (by rintro _ ⟨⟩) hbegin), rfl, failsWith_finish p c e.message,
    fun R => .refl R p, rfl⟩

theorem Fresh.failsAlone_of_refused (hx : x.Fresh c operation)
    (hparse : Operation.parse operation = .ok (name, a))
    (hrefused : consulted (p.registration c) name a operation = .error e) :
    FailsAlone p x e.message := by
  obtain ⟨control, input, sink, rfl, -⟩ := hx
  rw [← registration_counting] at hrefused
  have hbegin := begin_of_error (x := new c operation control input sink) hparse hrefused
  exact ⟨_, _, _, .single (.going (by rintro _ ⟨⟩) hbegin), rfl, failsWith_finish _ c e.message,
    fun R => { Reserve.Kept.refl R p with }, rfl⟩

theorem consulted_of_unresolved {r : Registration} (hresolve : r.resolve a name = .error e) :
    consulted r name a operation = .error e := by
  rw [consulted, hresolve]
  rfl

theorem consulted_of_rejected {r : Registration}
    (hresolve : r.resolve a name = .ok (.here node entry))
    (hcheck : entry.definition.check operation = .error e) :
    consulted r name a operation = .error e := by
  rw [consulted, hresolve]
  show (entry.definition.check operation >>= fun _ => _) = _
  rw [hcheck]
  rfl

theorem consulted_of_proxied {r : Registration}
    (hresolve : r.resolve a name = .ok (.proxied proxy)) :
    consulted r name a operation = .ok (.proxied proxy) := by
  rw [consulted, hresolve]
  rfl

/-- An operation that is accepted at once begins its first step. -/
theorem passes_begin {control : Control} {input : Input} {sink : Sink}
    (hinput : input.cancellation = none) {t : Transaction} {id : Nat}
    (hbegin : begin p (new c operation control input sink) =
      { plane := q
        next := .going { (new c operation control input sink).opened id a t resolved.handler with
          phase := .stepping } }) :
    ∃ y, Passes (p, new c operation control input sink) (q, y) ∧
      y.phase = .handling ⟨resolved.handler, operation, a, Context.rootSlot⟩ .begin ∧
      y.controller = c ∧
      (t.staging = none → (new c operation control input sink).Steps
        ⟨resolved.handler, operation, a, Context.rootSlot⟩ y) := by
  have huncancelled : q.isCancelled input.cancellation = false := by rw [hinput]; rfl
  have hpass := Inquiry.pass_step (p := q)
    (x := { (new c operation control input sink).opened id a t
    resolved.handler with phase := .stepping }) rfl (Context.nextStep?_eq rfl rfl) huncancelled
  refine ⟨_, .head (.going (by rintro _ ⟨⟩) hbegin) (.single hpass), rfl, rfl, fun hstaging => ?_⟩
  refine ⟨rfl, rfl, ⟨⟨rfl, rfl, rfl, rfl, hstaging, by rintro _ ⟨⟩⟩, rfl, rfl, rfl, rfl, rfl,
    hinput, ⟨a, rfl⟩⟩, rfl, rfl⟩

theorem Fresh.passes_readOnly (hx : x.Fresh c operation)
    (hparse : Operation.parse operation = .ok (name, a))
    (hconsulted : consulted (p.registration c) name a operation = .ok resolved)
    (hread : resolved.isReadOnly = true) :
    ∃ y, Passes (p, x) (entering c p, y) ∧
      x.Steps ⟨resolved.handler, operation, a, Context.rootSlot⟩ y ∧ y.controller = c := by
  obtain ⟨control, input, sink, rfl, hinput⟩ := hx
  rw [← registration_counting] at hconsulted
  obtain ⟨y, hpasses, -, hcontroller, hsteps⟩ := passes_begin hinput
    (begin_of_readOnly (x := new c operation control input sink) hparse hconsulted hread)
  exact ⟨y, hpasses, hsteps rfl, hcontroller⟩

/-- **An operation that a proxy answers for** is handed on. -/
theorem Fresh.handsOn_of_proxied (hx : x.Fresh c operation)
    (hparse : Operation.parse operation = .ok (name, a))
    (hresolve : (p.registration c).resolve a name = .ok (.proxied proxy)) :
    HandsOn p x proxy operation a := by
  obtain ⟨y, hpasses, hsteps, -⟩ := hx.passes_readOnly hparse (consulted_of_proxied hresolve) rfl
  exact ⟨_, y, hpasses, hsteps, Plane.unmoved_entering c p, fun R => kept_entering R c p⟩

/-- **An operation that is accepted** begins its handler, if nobody holds the lock. -/
theorem Fresh.begins_of_accepted (hx : x.Fresh c operation)
    (hparse : Operation.parse operation = .ok (name, a))
    (hresolve : (p.registration c).resolve a name = .ok (.here node entry))
    (hcheck : entry.definition.check operation = .ok ()) (hfree : (p.tree c).lock = {}) :
    ∃ q y, Passes (p, x) (q, y) ∧
      y.phase = .handling ⟨entry.handler, operation, a, Context.rootSlot⟩ .begin ∧
      y.controller = c := by
  obtain ⟨control, input, sink, rfl, hinput⟩ := hx
  have hconsulted := consulted_eq_ok hresolve hcheck
  rw [← registration_counting] at hconsulted
  cases hread : entry.definition.readOnly with
  | true =>
    obtain ⟨y, hpasses, hphase, hcontroller, -⟩ := passes_begin hinput
      (begin_of_readOnly (x := new c operation control input sink) hparse hconsulted hread)
    exact ⟨_, y, hpasses, hphase, hcontroller⟩
  | false =>
    have hfree' : ((entering c p).tree c).lock = {} := by
      rw [(Plane.unmoved_entering c p).tree, hfree]
    obtain ⟨_, -, -, htake⟩ := Plane.takeLock?_of_free
      (x := transactionOn c (Plane.counting c p)) hfree' rfl
    obtain ⟨y, hpasses, hphase, hcontroller, -⟩ := passes_begin hinput
      (begin_of_taken (x := new c operation control input sink) hparse hconsulted hread htake)
    exact ⟨_, y, hpasses, hphase, hcontroller⟩

/-! ## Validations -/

section

variable {out : Except OperationError Unit} {context : Context}
  (hphase : x.phase = .handling step .begin) (hhandler : step.handler = .global .validate)
  (hrun : (GlobalOperation.validateAct (p.registration x.controller) step.operation).run.run
    x.context = (out, context))
include hphase hhandler hrun

/-- The turn of a validation. -/
theorem advance_validate :
    x.advance p = { plane := p, next := .returned { x with context } step out } := by
  have hdeed : step.handler.deed? step.operation = some (do
      let s ← get
      Deed.act (GlobalOperation.run .validate (s.plane.registration s.controller)
        step.operation)) := by
    rw [hhandler]
    rfl
  have hact := Deed.run_act
    (GlobalOperation.run .validate (p.registration x.controller) step.operation)
    ⟨p, x.controller, x.context⟩
  rw [GlobalOperation.run, hrun] at hact
  have hwork := (run_get (fun s : Scene => Deed.act (GlobalOperation.run .validate
    (s.plane.registration s.controller) step.operation)) ⟨p, x.controller, x.context⟩).trans hact
  have hbegin : x.advance p = work p x step .begin := by rw [advance, hphase]
  rw [hbegin, work_deed hdeed, hwork]

theorem pass_validate : Pass (p, x) (p, { x with context }.afterStep step out) :=
  .returned (by rw [hphase]; rintro _ ⟨⟩) (advance_validate hphase hhandler hrun)

end

section

variable (hx : x.Fresh c operation) (hoperation : Operation.Validates operation b target)
  (hserves : (p.registration c).resolve b GlobalOperation.validate.name =
    .ok (.here node GlobalOperation.validate.entry))
include hx hoperation hserves

/-- A validation begins wherever it is offered. -/
theorem Fresh.passes_validation : ∃ y, Passes (p, x) (entering c p, y) ∧
    x.Steps ⟨.global .validate, operation, b, Context.rootSlot⟩ y ∧
    (entering c p).registration y.controller = p.registration c := by
  obtain ⟨y, hpasses, hsteps, rfl⟩ := hx.passes_readOnly hoperation.parsed
    (consulted_eq_ok hserves hoperation.accepted) rfl
  exact ⟨y, hpasses, hsteps, (Plane.unmoved_entering _ p).registration _⟩

/-- **A validation fails** with what its handler finds. -/
theorem Fresh.failsAlone_of_invalid (he : e.isFatal = false)
    (hrun : ∀ x : Context, (GlobalOperation.validateAct (p.registration c) operation).run.run x =
      (.error e, x)) : FailsAlone p x e.message := by
  obtain ⟨y, hpasses, hsteps, hregistration⟩ := hx.passes_validation hoperation hserves
  have hpass := pass_validate hsteps.phase rfl (by rw [hregistration]; exact hrun y.context)
  obtain ⟨tree, z, answer, hfails, hphase, hanswer⟩ :=
    passes_of_error (p := entering c p) hsteps.poised hsteps.slot he
  exact ⟨_, z, answer, (hpasses.tail hpass).trans hfails, hphase, hanswer,
    fun R => (kept_entering R c p).trans (Reserve.kept_setTree R _ _ _), rfl⟩

/-- **A validation that finds nothing wrong** has done all its steps. -/
theorem Fresh.completesAlone_of_valid
    (hrun : ∀ x : Context, (GlobalOperation.validateAct (p.registration c) operation).run.run x =
      (.ok (), x)) : CompletesAlone p x := by
  obtain ⟨y, hpasses, hsteps, hregistration⟩ := hx.passes_validation hoperation hserves
  have hpass := pass_validate hsteps.phase rfl (by rw [hregistration]; exact hrun y.context)
  rw [afterStep_ok y hsteps.poised.violation hsteps.poised.rollbackOnly] at hpass
  refine ⟨_, _, hpasses.tail hpass,
    ⟨rfl, { hsteps.poised.toUnharmed with }, hsteps.poised.queues, ?_,
      hsteps.poised.uncancelled⟩, hsteps.control, fun R => kept_entering R c p, rfl⟩
  show (y.context.slots[0]?.getD ({} : ResponseSlot)).failure = none
  rw [hsteps.poised.slots]
  rfl

/-- **A validation of what a proxy answers for** is handed on itself. -/
theorem Fresh.handsOn_of_validation (hparse : Operation.parse target = .ok (name, a))
    (hresolve : (p.registration c).resolve a name = .ok (.proxied proxy)) :
    HandsOn p x proxy (Operation.validation proxy.node (proxy.relative target a)) proxy.node := by
  obtain ⟨y, hpasses, hsteps, hregistration⟩ := hx.passes_validation hoperation hserves
  have hrun := GlobalOperation.run_validate_proxied hoperation hparse hresolve hsteps.poised.stage
  have hpass := pass_validate hsteps.phase rfl (by rw [hregistration]; exact hrun)
  rw [afterStep_ok y (by exact hsteps.poised.violation)
    (by exact hsteps.poised.rollbackOnly)] at hpass
  obtain ⟨active, hactive⟩ := hsteps.poised.active
  have hslot : y.context.currentSlot = Context.rootSlot := by rw [Context.currentSlot, hactive]; rfl
  have huncancelled : (entering c p).isCancelled y.context.input.cancellation = false := by
    rw [hsteps.poised.uncancelled]
    rfl
  have hstep := Inquiry.pass_step (p := entering c p) (x := { y with
      context := { y.context with
        queues := { y.context.queues with
          model := GlobalOperation.validating proxy target a y.context.currentSlot ::
            y.context.queues.model }
        active := none }
      phase := .stepping }) rfl
    (Context.nextStep?_eq (by exact hsteps.poised.stage) (by rw [hsteps.poised.queues]))
    huncancelled
  rw [hslot] at hpass hstep
  refine ⟨_, _, (hpasses.tail hpass).tail hstep, ⟨rfl, rfl, ?_, hsteps.control, hsteps.controller⟩,
    Plane.unmoved_entering c p, fun R => kept_entering R c p⟩
  exact { hsteps.poised with queues := rfl, active := ⟨_, rfl⟩ }

end

end Execution

end ManagementPlane
