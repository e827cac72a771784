import ManagementPlane.Proofs.Proxied.Foretold

/-!
# Proofs/Proxied/Predicting — validations predict executions

On a federation that does nothing else the validation of an operation leaves every model as it is
and runs no step of the operation; and where operations have time to wait for each other, it
succeeds exactly when the operation gets to the handler that is registered for it, and otherwise
fails for the same reason (`validation_predicts`).

Without that time a validation gives up while the operation that it validates still gets there
(`validation_hasty`).
-/

namespace ManagementPlane

open Execution (Succeeds)
open Inquiry (FailsWith)
open Transaction (Keeps)

theorem Inquiry.FailsWith.not_succeeds {answer : Answer} {text : String}
    (h : FailsWith answer text) : ¬Succeeds answer := by
  obtain ⟨failed, rfl, hfailed, -⟩ := h
  rintro ⟨response, streams, heq, hsuccess⟩
  cases heq
  exact Bool.false_ne_true (hfailed.symm.trans hsuccess)

/-- An operation that a caller submits to a controller, to wait for its answer. -/
structure Submission where
  controller : Nat
  operation : Value
  input : Input := {}
  sink : Sink := .discard

namespace Submission

/-- The machine with the operation, on which tasks wait already. -/
def submitted (e : Submission) (p : Plane) (W : List Task) : Machine :=
  ((⟨p, [], W⟩ : Machine).submit e.controller e.operation (fun _ => .decide .keep) e.input
    e.sink).2

/-- The machine so many steps later, or once the caller has the answer. -/
def after (e : Submission) (p : Plane) (W : List Task) (fuel : Nat) : Machine :=
  (e.submitted p W).run (fun q => (q.ticket p.newTicket.1).final.isSome) none fuel

/-- The caller gets such an answer. -/
def Answers (e : Submission) (p : Plane) (W : List Task) (G : Answer → Prop) : Prop :=
  ∃ n, ∀ fuel, n ≤ fuel → ((e.after p W fuel).plane.ticket p.newTicket.1).Has G

/-- The handler that is registered for the operation is about to run. -/
def Reaches (e : Submission) (p : Plane) (W : List Task) (owner : Owner) : Prop :=
  ∃ fuel, (e.after p W fuel).Begins owner

/-- At some time the step runs on the controller. -/
def Runs (e : Submission) (p : Plane) (W : List Task) (c : Nat) (step : Step) : Prop :=
  ∃ fuel, ∃ x ∈ (e.after p W fuel).tasks.flatMap Task.stack,
    x.controller = c ∧ ∃ w, x.phase = .handling step w

variable {e : Submission} {p : Plane} {W : List Task} {G : Answer → Prop} {owner : Owner}

theorem Answers.false_of_apart {F : Answer → Prop} (h : e.Answers p W F) (h' : e.Answers p W G)
    (hapart : ∀ answer, F answer → ¬G answer) : False := by
  obtain ⟨n, hn⟩ := h
  obtain ⟨k, hk⟩ := h'
  obtain ⟨answer, hfinal, hF⟩ := hn (n + k) (Nat.le_add_right _ _)
  obtain ⟨answer', hfinal', hG⟩ := hk (n + k) (Nat.le_add_left _ _)
  cases hfinal.symm.trans hfinal'
  exact hapart answer hF hG

/-- The caller has the answer as soon as nothing is left to do. -/
theorem answers_of_rest {n : Nat} (hready : (e.after p W n).ready = [])
    (hhas : ((e.after p W n).plane.ticket p.newTicket.1).Has G) : e.Answers p W G := by
  have hstep : (e.after p W n).step? = none := by rw [Machine.step?.eq_def, hready]
  have hdone : ((e.after p W n).plane.ticket p.newTicket.1).final.isSome = true := by
    obtain ⟨answer, hfinal, -⟩ := hhas
    rw [hfinal]
    rfl
  refine ⟨n, fun fuel hfuel => ?_⟩
  obtain ⟨k, rfl⟩ := Nat.exists_eq_add_of_le hfuel
  have hstays : e.after p W (n + k) = e.after p W n := Machine.run_add rfl hstep hdone k
  rw [hstays]
  exact hhas

theorem answers_of_delivers (h : (e.submitted p W).Delivers p.newTicket.1 G) :
    e.Answers p W G := by
  obtain ⟨k, m, hrun, hready, hhas⟩ := h
  have hafter : e.after p W (0 + k) = m := hrun 0
  exact answers_of_rest (hafter ▸ hready) (hafter ▸ hhas)

theorem reaches_of_leads {m : Machine} (h : (e.submitted p W).Leads m) (hm : m.Begins owner) :
    e.Reaches p W owner := by
  obtain ⟨n, hn⟩ := h.run (fun q => (q.ticket p.newTicket.1).final.isSome) none
  refine ⟨0 + n, ?_⟩
  rw [after, hn]
  exact hm

/-- **An operation that has been submitted** is at its controller, and nobody else waits. -/
theorem bears_submitted (hp : p.Resting W) (hinput : e.input.cancellation = none) :
    (e.submitted p W).Bears p W p.newTicket.1 e.controller e.operation := by
  have hunmoved : p.Unmoved p.newTicket.2 :=
    ⟨rfl, rfl, fun _ => rfl, fun _ => rfl, fun _ => rfl, fun _ => ⟨_, rfl⟩⟩
  have hsleeps := hp.sleeps hunmoved
  have hticket : p.newTicket.2.ticket p.newTicket.1 = {} :=
    (Plane.getD_append _ _ _ _).trans (if_pos rfl)
  refine ⟨p.newTicket.2, _, _, [], ⟨⟨rfl, ⟨fun t ht => ⟨_, hsleeps t ht⟩,
    fun t ht => (hsleeps t ht).canGo⟩, .refl _⟩, [], rfl⟩, ⟨_, _, _, rfl, hinput⟩, .top ?_ ?_,
    hunmoved⟩
  · show p.tickets.length < (p.tickets ++ [_]).length
    simp
  · rw [hticket]

/-! ## What runs meanwhile -/

section

variable {V : Nat → Value → Prop} {H : Nat → Step → Prop} {c : Nat} {step : Step}
  (hp : p.Peaceful W) (hconfines : p.Confines V H) (hsubmits : V e.controller e.operation)
include hp hconfines hsubmits

theorem confined_after (fuel : Nat) : (e.after p W fuel).Confined p V H := by
  have hticket : p.Bides V p.newTicket.2 := Plane.Fair.bides_of_actors (.of_same rfl rfl rfl) rfl
  have hsubmitted : (e.submitted p W).Confined p V H := by
    refine ⟨hticket, List.forall_mem_cons.mpr ⟨.operation (.new hsubmits _ _ _), fun t ht => ?_⟩⟩
    obtain ⟨a, rfl, hidle⟩ := hp.idle t ht
    refine .serve ?_
    rw [Actor.inbox, hidle.requests, hidle.backlog]
    rfl
  exact hsubmitted.run hconfines _ _ fuel

theorem confined_runs (hruns : e.Runs p W c step) : H c step := by
  obtain ⟨fuel, x, hx, rfl, w, hphase⟩ := hruns
  obtain ⟨t, ht, hstack⟩ := List.mem_flatMap.mp hx
  cases (confined_after hp hconfines hsubmits fuel).tasks t ht with
  | operation hconfined =>
    obtain rfl := List.mem_singleton.mp hstack
    exact (hconfined.handled step w hphase).1
  | _ => cases hstack

end

end Submission

/-- **Validations predict executions.**  While nothing else goes on in the federation, the
validation of an operation leaves every model as it is and runs no step of that operation; an
operation that cannot be parsed, resolved or accepted runs no step but to be handed on.  Where
operations have time to wait for each other and nobody cancels them, the validation succeeds exactly
when the operation gets to the handler that is registered for it, and fails for the same reason
otherwise. -/
theorem validation_predicts {p : Plane} {W : List Task} {executed validated : Submission}
    {a : Address} {node : Registration} (hp : p.Peaceful W)
    (hknown : executed.controller < p.controllers.length)
    (hsame : validated.controller = executed.controller)
    (hvalidates : Operation.Validates validated.operation a executed.operation)
    (hserves : (p.registration validated.controller).resolve a GlobalOperation.validate.name =
      .ok (.here node GlobalOperation.validate.entry)) :
    (∀ fuel c, Keeps (p.tree c) ((validated.after p W fuel).plane.tree c)) ∧
    (∀ c step, validated.Runs p W c step →
      (step.handler = .global .validate ∨ ∃ proxy, step.handler = .forward proxy) ∧
      ∀ owner, p.Destined executed.controller executed.operation (.reached owner) →
        step.operation ≠ owner.operation) ∧
    (∀ text, p.Destined executed.controller executed.operation (.refused text) →
      ∀ c step, executed.Runs p W c step → ∃ proxy, step.handler = .forward proxy) ∧
    ((∀ c < p.controllers.length, 0 < (p.settings c).blocking) →
      executed.input.cancellation = none → validated.input.cancellation = none →
      (validated.Answers p W Succeeds ↔ ∃ owner,
        p.Destined executed.controller executed.operation (.reached owner) ∧
          executed.Reaches p W owner) ∧
      (∀ owner, p.Destined executed.controller executed.operation (.reached owner) →
        executed.Reaches p W owner) ∧
      ∀ text, p.Destined executed.controller executed.operation (.refused text) →
        validated.Answers p W (FailsWith · text) ∧ executed.Answers p W (FailsWith · text)) := by
  obtain ⟨fate, hfate⟩ := hp.federated.destined hknown executed.operation
  have hheads : p.Heads fate (executed.operation.get? Key.value) validated.controller
      executed.operation := hsame ▸ ⟨hknown, hfate, rfl⟩
  have hvalidating : p.Validating fate (executed.operation.get? Key.value) validated.controller
      validated.operation := ⟨a, _, node, hvalidates, hserves, hheads⟩
  have hconfines := hp.federated.confines_validation fate (executed.operation.get? Key.value)
  refine ⟨fun fuel c => ?_, fun c step hruns => ?_, fun text htext c step hruns => ?_,
    fun hpatient hexecuted hvalidated => ?_⟩
  · exact (Submission.confined_after hp hconfines hvalidating fuel).plane.tree c
  · have hstep := Submission.confined_runs hp hconfines hvalidating hruns
    refine ⟨?_, fun owner howner => hstep.operation_ne howner.carries⟩
    rcases hstep with ⟨hhandler, -⟩ | ⟨proxy, _, _, _, _, rfl, -⟩
    · exact .inl hhandler
    · exact .inr ⟨proxy, rfl⟩
  · obtain ⟨proxy, _, hhandler, -⟩ :=
      Submission.confined_runs hp (p.confines_refused text) htext hruns
    exact ⟨proxy, hhandler⟩
  · have hresting : p.Resting W := { hp with patient := hpatient }
    have hbears := Submission.bears_submitted hresting hvalidated
    rw [hsame] at hbears hserves
    have hreached : ∀ owner, p.Destined executed.controller executed.operation (.reached owner) →
        executed.Reaches p W owner := by
      intro owner howner
      obtain ⟨m, hleads, hbegins⟩ :=
        (Submission.bears_submitted hresting hexecuted).reached hresting hknown howner
      exact Submission.reaches_of_leads hleads hbegins
    have hrefused : ∀ text, p.Destined executed.controller executed.operation (.refused text) →
        validated.Answers p W (FailsWith · text) ∧ executed.Answers p W (FailsWith · text) :=
      fun text htext => ⟨
        Submission.answers_of_delivers
          (hbears.refused_validation hresting hknown hvalidates hserves htext),
        Submission.answers_of_delivers
          ((Submission.bears_submitted hresting hexecuted).refused hresting hknown htext)⟩
    refine ⟨⟨fun hsucceeds => ?_, fun ⟨owner, howner, _⟩ => ?_⟩, hreached, hrefused⟩
    · cases fate with
      | reached owner => exact ⟨owner, hfate, hreached owner hfate⟩
      | refused text =>
        exact (hsucceeds.false_of_apart (hrefused text hfate).1
          fun _ hsuccess hfails => hfails.not_succeeds hsuccess).elim
    · exact Submission.answers_of_delivers
        (hbears.reached_validation hresting hknown hvalidates hserves howner)

/-! ## Three controllers

The first one has a proxy for the second, and the second has one for the third, which an actor
serves. -/

/-- A registration with an operation of its own, and with proxies at their nodes. -/
def Registration.marking (proxies : List (Address × Delegate)) : Registration :=
  (root "").built ((GlobalOperation.all.map fun g => .operation [] g.entry) ++
    .operation [] { definition := { name := "mark", readOnly := true }
                    handler := .script [.log "marked"] } ::
      proxies.map fun (pattern, delegate) => .proxy pattern ⟨pattern, delegate⟩)

namespace Plane

def trio (blocking : Nat) : Plane where
  controllers := [
    { name := "main", registration := .marking [([⟨"host", "h"⟩], .controller 1)],
      tree := { root := {} }, settings := { blocking } },
    { name := "host", registration := .marking [([⟨"server", "s"⟩], .actor 0)],
      tree := { root := {} }, settings := { blocking } },
    { name := "server", registration := .marking [], tree := { root := {} },
      settings := { blocking } }]
  processes := [.running]
  actors := [{ controller := 2, capacity := 8 }]

theorem placed_marking (proxies : List (Address × Delegate)) :
    (Registration.marking proxies).Placed := by
  refine Registration.placed_built fun pattern owner h => ?_
  simp only [List.mem_append, List.mem_map, List.mem_cons, reduceCtorEq, and_false, exists_false,
    false_or, Prod.exists, Registration.Call.proxy.injEq] at h
  obtain ⟨_, _, -, rfl, rfl⟩ := h
  rfl

/-- The proxies of the registration are those. -/
theorem mem_of_marking {proxies : List (Address × Delegate)} {a b : Address} {proxy : Proxy}
    (h : (Registration.marking proxies).proxyFor? a = some (b, proxy)) :
    (proxy.node, proxy.delegate) ∈ proxies := by
  obtain ⟨pattern, node, hnode, hproxy, -⟩ := Registration.nodeAt?_of_proxyFor? h
  have hmem := Registration.mem_of_proxy hnode hproxy
  simp only [List.mem_append, List.mem_map, List.mem_cons, reduceCtorEq, and_false, exists_false,
    false_or, Prod.exists, Registration.Call.proxy.injEq] at hmem
  obtain ⟨pattern, delegate, hmem, rfl, rfl⟩ := hmem
  exact hmem

theorem forall_trio {blocking : Nat} {P : Nat → Prop} (hmain : P 0) (hhost : P 1) (hserver : P 2) :
    ∀ c < (trio blocking).controllers.length, P c
  | 0, _ => hmain
  | 1, _ => hhost
  | 2, _ => hserver

theorem peaceful_trio (blocking : Nat) : (trio blocking).Peaceful [.serve 0] where
  federated := {
    built := forall_trio ⟨_, _, rfl, placed_marking _⟩ ⟨_, _, rfl, placed_marking _⟩
      ⟨_, _, rfl, placed_marking _⟩
    validates := forall_trio ⟨_, rfl⟩ ⟨_, rfl⟩ ⟨_, rfl⟩
    joined := by
      refine forall_trio (fun a b proxy h => ?_) (fun a b proxy h => ?_) (fun a b proxy h => ?_)
      · obtain ⟨-, hdelegate⟩ := Prod.mk.inj (List.mem_singleton.mp (mem_of_marking h))
        exact ⟨1, Nat.one_lt_succ_succ _, by rw [hdelegate]; rfl⟩
      · obtain ⟨-, hdelegate⟩ := Prod.mk.inj (List.mem_singleton.mp (mem_of_marking h))
        exact ⟨2, Nat.lt_succ_self _, by rw [hdelegate]; rfl⟩
      · cases mem_of_marking h }
  free := forall_trio rfl rfl rfl
  idle := List.forall_mem_singleton.mpr
    ⟨0, rfl, rfl, Nat.zero_lt_one, Nat.zero_lt_succ _, rfl, rfl, rfl⟩
  nodup := List.nodup_singleton _
  served := by
    refine forall_trio (fun b d proxy a h hactor => ?_) (fun b d proxy a h hactor => ?_)
      (fun b d proxy a h hactor => ?_)
    · obtain ⟨-, hdelegate⟩ := Prod.mk.inj (List.mem_singleton.mp (mem_of_marking h))
      cases hactor.symm.trans hdelegate
    · obtain ⟨-, hdelegate⟩ := Prod.mk.inj (List.mem_singleton.mp (mem_of_marking h))
      cases hactor.symm.trans hdelegate
      exact List.mem_singleton_self _
    · cases mem_of_marking h

/-- An operation for the third controller. -/
def remote (name : String) : Value := Operation.build name [⟨"host", "h"⟩, ⟨"server", "s"⟩]

theorem parse_remote (name : String) (h : name.isEmpty = false) :
    Operation.parse (remote name) = .ok (name, [⟨"host", "h"⟩, ⟨"server", "s"⟩]) :=
  Operation.parse_eq_ok.mpr ⟨rfl, h, Address.ofValue_toValue _, rfl⟩

theorem reached_trio (blocking : Nat) : ∃ owner, owner.controller = 2 ∧
    (trio blocking).Destined 0 (remote "mark") (.reached owner) := by
  have hparse := parse_remote "mark" rfl
  exact ⟨_, rfl, .proxied hparse rfl rfl (.proxied (Proxy.parse_relative hparse) rfl rfl
    (.accepted (Proxy.parse_relative (Proxy.parse_relative hparse)) rfl rfl))⟩

theorem refused_trio (blocking : Nat) : ∃ text,
    (trio blocking).Destined 0 (remote "mork") (.refused text) := by
  have hparse := parse_remote "mork" rfl
  exact ⟨_, .proxied hparse rfl rfl (.proxied (Proxy.parse_relative hparse) rfl rfl
    (.unresolved (Proxy.parse_relative (Proxy.parse_relative hparse)) rfl))⟩

/-- The reason that a caller is told for a failure. -/
def failure? (t : Ticket) : Option String :=
  match t.final with
  | some (.answered (.ok (response, []))) =>
    if Response.isSuccess response then none else Response.failureText? response
  | _ => none

theorem has_of_failure? {t : Ticket} {text : String} (h : failure? t = some text) :
    t.Has (FailsWith · text) := by
  rw [failure?] at h
  split at h
  · next response hfinal =>
    split at h
    · cases h
    · next hfailed => exact ⟨_, hfinal, response, rfl, Bool.eq_false_iff.mpr hfailed, h⟩
  · cases h

def executing (name : String) : Submission where
  controller := 0
  operation := remote name

def validating (name : String) : Submission where
  controller := 0
  operation := Operation.validation [] (remote name)

theorem validates_validating (name : String) :
    Operation.Validates (validating name).operation [] (executing name).operation :=
  Operation.validates_validation rfl rfl

theorem validation_predicts_trio : (trio 1000).Peaceful [.serve 0] ∧
    (∃ owner, owner.controller = 2 ∧
      (executing "mark").Reaches (trio 1000) [.serve 0] owner) ∧
    (validating "mark").Answers (trio 1000) [.serve 0] Succeeds ∧
    ∃ text, (executing "mork").Answers (trio 1000) [.serve 0] (FailsWith · text) ∧
      (validating "mork").Answers (trio 1000) [.serve 0] (FailsWith · text) := by
  obtain ⟨owner, hcontroller, howner⟩ := reached_trio 1000
  obtain ⟨text, htext⟩ := refused_trio 1000
  have hpatient : ∀ c < (trio 1000).controllers.length, 0 < ((trio 1000).settings c).blocking :=
    forall_trio (Nat.zero_lt_succ _) (Nat.zero_lt_succ _) (Nat.zero_lt_succ _)
  obtain ⟨-, -, -, hmark⟩ := @validation_predicts (trio 1000) [.serve 0] (executing "mark")
    (validating "mark") [] _ (peaceful_trio 1000) (Nat.zero_lt_succ _) rfl
    (validates_validating "mark") rfl
  obtain ⟨-, -, -, hmork⟩ := @validation_predicts (trio 1000) [.serve 0] (executing "mork")
    (validating "mork") [] _ (peaceful_trio 1000) (Nat.zero_lt_succ _) rfl
    (validates_validating "mork") rfl
  obtain ⟨hsucceeds, hreaches, -⟩ := hmark hpatient rfl rfl
  obtain ⟨-, -, hfails⟩ := hmork hpatient rfl rfl
  exact ⟨peaceful_trio 1000, ⟨owner, hcontroller, hreaches owner howner⟩,
    hsucceeds.mpr ⟨owner, howner, hreaches owner howner⟩, text, (hfails text htext).symm⟩

/-- **Without time to wait** a validation gives up, while the operation gets to its handler. -/
theorem validation_hasty : (trio 0).Peaceful [.serve 0] ∧
    (∃ owner, (trio 0).Destined 0 (remote "mark") (.reached owner)) ∧
    ((executing "mark").after (trio 0) [.serve 0] 100).plane.log = ["marked"] ∧
    Operation.Validates (validating "mark").operation [] (executing "mark").operation ∧
    ¬(validating "mark").Answers (trio 0) [.serve 0] Succeeds := by
  obtain ⟨owner, -, howner⟩ := reached_trio 0
  refine ⟨peaceful_trio 0, ⟨owner, howner⟩, by decide +kernel, validates_validating "mark",
    fun hsucceeds => ?_⟩
  have hready : ((validating "mark").after (trio 0) [.serve 0] 100).ready.isEmpty = true := by
    decide +kernel
  have hfailure : failure? (((validating "mark").after (trio 0) [.serve 0] 100).plane.ticket
      (trio 0).newTicket.1) =
        some "Timed out after 0ns waiting for proxied controller at /host=h" := by
    decide +kernel
  refine hsucceeds.false_of_apart (Submission.answers_of_rest (List.isEmpty_iff.mp hready)
    (has_of_failure? hfailure)) ?_
  exact fun _ hsuccess hfails => hfails.not_succeeds hsuccess

end Plane

end ManagementPlane
