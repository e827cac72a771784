import ManagementPlane.Proofs.Machine.Atomic

/-!
# Proofs/Machine/Fair — what leaves controllers and cancellations as they are

Most of what goes on in a plane touches neither the controllers nor the numbers that transactions
are begun with, and nothing takes a cancellation back (`Plane.Fair`).  That holds of forwarding, of
the work of steps and completions, and of every task that is no operation (`Task.fair_advance`).
-/

namespace ManagementPlane

namespace Plane

variable {p q r : Plane}

/-- No cancellation is taken back. -/
def Recalls (p q : Plane) : Prop := ∀ c, p.isCancelled c = true → q.isCancelled c = true

theorem Recalls.trans (h : p.Recalls q) (h' : q.Recalls r) : p.Recalls r :=
  fun c hc => h' c (h c hc)

/-- To cancel takes back no cancellation, of this number or of another one. -/
theorem recalls_cancel (p : Plane) (c : Nat) : p.Recalls (p.cancel c) := by
  rintro (_ | d) hd
  · cases hd
  · show ((p.cancellations.set c true)[d]?).getD false = true
    rw [List.getElem?_set]
    split
    · next h =>
      subst h
      split
      · rfl
      · next hout =>
        rw [isCancelled, List.getElem?_eq_none (Nat.le_of_not_lt hout)] at hd
        exact hd
    · exact hd

/-- The controllers and the count of transactions stay, and no cancellation is taken back. -/
structure Fair (p q : Plane) : Prop where
  controllers : q.controllers = p.controllers
  writers : q.writers = p.writers
  recalls : p.Recalls q

theorem Fair.refl (p : Plane) : p.Fair p := ⟨rfl, rfl, fun _ h => h⟩

/-- One change after another. -/
theorem Fair.trans (h : p.Fair q) (h' : q.Fair r) : p.Fair r :=
  ⟨h'.controllers.trans h.controllers, h'.writers.trans h.writers, h.recalls.trans h'.recalls⟩

/-- Where the controllers stay, so do their trees. -/
theorem Fair.tree (h : p.Fair q) (c : Nat) : q.tree c = p.tree c := by
  rw [Plane.tree, Plane.controller, h.controllers]
  rfl

/-- A change of something else. -/
theorem Fair.of_same (hcontrollers : q.controllers = p.controllers)
    (hwriters : q.writers = p.writers) (hcancellations : q.cancellations = p.cancellations) :
    p.Fair q := by
  refine ⟨hcontrollers, hwriters, fun c hc => ?_⟩
  rw [isCancelled.eq_def, hcancellations]
  exact hc

/-- And a change that has nothing to do with it. -/
theorem Fair.same (h : p.Fair q) (hcontrollers : r.controllers = q.controllers)
    (hwriters : r.writers = q.writers) (hcancellations : r.cancellations = q.cancellations) :
    p.Fair r := h.trans (.of_same hcontrollers hwriters hcancellations)

/-- A change that is made for every item of a list. -/
theorem fair_foldl {α : Type} {f : Plane → α → Plane} (hf : ∀ q a, Fair q (f q a)) (l : List α)
    (h : p.Fair q) : p.Fair (l.foldl f q) := by
  induction l generalizing q with
  | nil => exact h
  | cons a l ih => exact ih (h.trans (hf q a))

/-! ## Handles, reports and channels -/

section Fair

variable (h : p.Fair q)

include h

theorem Fair.report (sink : Sink) (m : Message) : p.Fair (q.report sink m) := by
  cases sink <;> exact h.same rfl rfl rfl

/-- An outcome that comes too late is rolled back, and that is a matter of its handle. -/
theorem Fair.reportOutcome (f : Nat) (o : Outcome) : p.Fair (q.reportOutcome f o) := by
  rw [Plane.reportOutcome]
  dsimp only
  split
  · split <;> exact h.same rfl rfl rfl
  · exact h.same rfl rfl rfl

theorem Fair.newHandle (handle : Prepared) : p.Fair (q.newHandle handle).2 := h.same rfl rfl rfl

theorem Fair.modifyForward (f : Nat) (g : Forward → Forward) : p.Fair (q.modifyForward f g) :=
  h.same rfl rfl rfl

/-- A forwarded step that failed has its outcome and its response. -/
theorem Fair.failForward (f : Nat) (response : Value) : p.Fair (q.failForward f response) :=
  (h.reportOutcome f _).modifyForward f _

/-- However an operation makes known that it has prepared: to its decider, to a link, or to an
actor that may have stopped. -/
theorem Fair.announcePrepared (control : Control) (handle : Nat) (tentative : Value) :
    p.Fair (q.announcePrepared control handle tentative) := by
  cases control with
  | announce decisions =>
    have hlog : p.Fair (q.writeLog ("prepared: " ++ tentative.render)) := h.same rfl rfl rfl
    rw [Plane.announcePrepared]
    refine Fair.same (fair_foldl ?_ decisions hlog) rfl rfl rfl
    exact fun r d => .of_same rfl rfl rfl
  | relay l =>
    rw [Plane.announcePrepared]
    dsimp only
    split <;> exact h.same rfl rfl rfl
  | exchange e a =>
    rw [Plane.announcePrepared]
    dsimp only
    split
    · split <;> exact h.same rfl rfl rfl
    · exact h.same rfl rfl rfl
  | _ => exact h.same rfl rfl rfl

end Fair

end Plane

open Plane

/-! ## Steps and completions -/

/-- What a step does stays within the scene, except that it may cancel its own operation. -/
theorem Scene.Does.fair {may : Instruction → Prop} {s t : Scene} (h : s.Does may t) :
    s.plane.Fair t.plane := by
  refine ⟨h.beside.2.controllers, h.beside.2.writers, ?_⟩
  induction h with
  | refl => exact fun _ h => h
  | tail _ h ih =>
    refine ih.trans ?_
    cases h with
    | cancel c => exact recalls_cancel _ c
    | _ => exact fun _ h => h

/-- What a completion does, on either outcome. -/
theorem Completion.fair_run (c : Completion) (d : Decision) (s : Scene) :
    s.plane.Fair (c.run d s).plane := by
  have hscript : ∀ (body : Script) (line : String),
      s.plane.Fair (runScript body { s with plane := s.plane.writeLog line }).plane := by
    intro body line
    have hlog : s.plane.Fair (s.plane.writeLog line) := .of_same rfl rfl rfl
    exact hlog.trans (runScript_does body { s with plane := s.plane.writeLog line }).fair
  cases c with
  | script label ro body =>
    cases ro with
    | false => exact hscript body _
    | true =>
      rw [run]
      split
      · exact .of_same rfl rfl rfl
      · exact hscript body _
  | decide handle => exact .of_same rfl rfl rfl
  | reportSteps own slots =>
    rw [run]
    split <;> exact .of_same rfl rfl rfl
  | stopWorker name =>
    rw [run]
    split <;> exact .of_same rfl rfl rfl
  | restoreWorker name worker =>
    rw [run]
    split <;> exact .of_same rfl rfl rfl
  | reconfigureWorker name k =>
    rw [run]
    split
    · exact .of_same rfl rfl rfl
    · split <;> exact .of_same rfl rfl rfl

/-! ## Forwarding -/

namespace Forwarding

variable {p : Plane} {x : Execution} {step : Step}

/-- A participant that breaks the rules breaks those of forwarding. -/
theorem fair_unruly (p : Plane) (f : Nat) (name : String) (m : Misconduct) :
    p.Fair (unruly p f name m).2 := by
  have hnew : p.Fair (p.newHandle {}).2 := (Fair.refl p).newHandle {}
  cases m with
  | preparesTwice =>
    exact (((hnew.reportOutcome f _).newHandle {}).reportOutcome f _).modifyForward f _
  | failsAfterPreparing => exact (hnew.reportOutcome f _).failForward f _
  | preparesAfterFailing =>
    exact ((hnew.reportOutcome f _).reportOutcome f _).modifyForward f _
  | preparesLate ms => exact .refl p
  | neverCompletes => exact hnew.reportOutcome f (.prepared _ (Response.success name))
  | completesTwice => exact hnew.reportOutcome f (.prepared _ (Response.success name))
  | preparesDeaf => exact (((Fair.refl p).newHandle _).reportOutcome f _).modifyForward f _
  | failsBare => exact (Fair.refl p).failForward f _
  | failsStructured => exact (Fair.refl p).failForward f _
  | staysSilent => exact (Fair.refl p).modifyForward f _

/-- A participant that stands in for a controller answers at once, or never. -/
theorem fair_mock (p : Plane) (m f : Nat) (operation : Value) :
    p.Fair (mock p m f operation).2 := by
  have hmock : ∀ g, p.Fair (p.modifyMock m g) := fun _ => .of_same rfl rfl rfl
  rw [mock]
  dsimp only
  split
  · exact hmock _
  · next result _ _ =>
    exact ((hmock _).newHandle {}).reportOutcome f (.prepared _ (Response.success result))
  · exact (hmock _).failForward f _
  · exact hmock _

/-- However the operation gets to the child: over a link, through an actor, or to a participant
that stands in for it. -/
theorem fair_dispatch (p : Plane) (x : Execution) (proxy : Proxy) (operation : Value) (f : Nat) :
    p.Fair (dispatch p x proxy operation f).2.2 := by
  rw [dispatch]
  split
  · exact .of_same rfl rfl rfl
  · next a _ =>
    have hopen : p.Fair ((p.newExchange (p.actor a).nextNumber).2.modifyActor a fun k =>
        { k with nextNumber := k.nextNumber + 1 }) := .of_same rfl rfl rfl
    dsimp only
    split
    · exact .of_same rfl rfl rfl
    · exact hopen.failForward f _
  · next m _ =>
    have hmock := fair_mock p m f operation
    split <;> next h => rw [h] at hmock; exact hmock
  · exact fair_unruly p f _ _

/-- A step that is forwarded has a forward of its own, and whatever dispatching it takes. -/
theorem fair_start (proxy : Proxy) : p.Fair (start p x step proxy).plane := by
  rw [start]
  dsimp only
  split
  · exact .of_same rfl rfl rfl
  · split
    · exact .of_same rfl rfl rfl
    · have hdispatch := fair_dispatch p.newForward.2 x proxy
        (step.operation.set Key.address (Address.toValue (step.address.drop proxy.node.length)))
        p.newForward.1
      have hnew : p.Fair p.newForward.2 := .of_same rfl rfl rfl
      split <;> next h => rw [h] at hdispatch; exact (hnew.trans hdispatch).same rfl rfl rfl

/-- To give a forwarded step up lets go of the handle that it has not read. -/
theorem fair_abandon (p : Plane) (f : Nat) (delivery : Delivery) :
    p.Fair (abandon p f delivery) := by
  have hleave : ∀ q : Plane, q.Fair (leave q f delivery) := fun q => by
    cases delivery <;> exact .of_same rfl rfl rfl
  have hletGo : p.Fair (p.letGo (unread? p f delivery)) := by
    cases unread? p f delivery <;> exact .of_same rfl rfl rfl
  exact hletGo.trans (hleave _)

/-- One event on the way to the child. -/
theorem Approaches.fair {sink : Sink} {f : Nat} {d d' : Delivery} {q : Plane} {spawned : List Task}
    (h : Approaches p sink f d d' q spawned) : p.Fair q := by
  cases h with
  | sent => exact .of_same rfl rfl rfl
  | refused | ends | breaks => exact (Fair.refl p).failForward f _
  | @takes l =>
    have htake : p.Fair (p.modifyLink l Link.take) := .of_same rfl rfl rfl
    exact htake.reportOutcome f (.prepared _ _)
  | @hears a e =>
    have hseen : p.Fair (p.modifyExchange e fun _ => (p.exchange e).next.2) := .of_same rfl rfl rfl
    exact hseen.report _ _
  | @stands a e r q _ hq =>
    have hseen : p.Fair q := hq ▸ .of_same rfl rfl rfl
    exact ((hseen.newHandle {}).reportOutcome f _).same rfl rfl rfl
  | fails | closes =>
    refine Fair.failForward ?_ f _
    exact .of_same rfl rfl rfl

/-- **Forwarding is fair**, whether the step goes on, waits, or is stopped. -/
theorem fair_advance (f due : Nat) (d : Delivery) :
    p.Fair (advance p x step f due d).plane := by
  have hadvances := advances p x step f due d
  generalize advance p x step f due d = t at hadvances ⊢
  cases hadvances with
  | goes h => exact h.fair
  | concludes | waits => exact .of_same rfl rfl rfl
  | stops => exact fair_abandon p f d

end Forwarding

/-! ## The other tasks -/

/-- Whoever asked for the operation gets its answer. -/
theorem Origin.fair_tell (o : Origin) (p : Plane) (answer : Answer) : p.Fair (o.tell p answer) := by
  cases o <;> exact .of_same rfl rfl rfl

theorem Origin.fair_tellCrash (o : Origin) (p : Plane) (reason : String) :
    p.Fair (o.tellCrash p reason) := by
  cases o <;> exact .of_same rfl rfl rfl

namespace Task

/-- A task that follows an exchange passes on what it hears. -/
theorem fair_follow (p : Plane) (a e f : Nat) (sink : Sink) (state : Follow) :
    p.Fair (advanceFollow p a e f sink state).plane := by
  rw [advanceFollow.eq_def]
  dsimp only
  cases state with
  | deciding h =>
    dsimp only
    split
    · exact .of_same rfl rfl rfl
    · split <;> exact .of_same rfl rfl rfl
  | sending ticket r =>
    dsimp only
    split
    · exact .of_same rfl rfl rfl
    · split <;> exact .of_same rfl rfl rfl
  | replying r =>
    dsimp only
    split <;> exact .of_same rfl rfl rfl
  | finishing =>
    have hseen : p.Fair (p.modifyExchange e fun _ => (p.exchange e).next.2) := .of_same rfl rfl rfl
    dsimp only
    split
    · exact hseen.report _ _
    all_goals exact .of_same rfl rfl rfl

/-- An actor works off its queue and decides what it has enrolled. -/
theorem fair_serve (p : Plane) (a : Nat) : p.Fair (advanceServe p a).plane := by
  rw [advanceServe]
  split
  · exact .of_same rfl rfl rfl
  · have hpolled : p.Fair (p.modifyActor a fun _ => (p.actor a).poll.2) := .of_same rfl rfl rfl
    dsimp only
    split
    · exact .of_same rfl rfl rfl
    · exact .of_same rfl rfl rfl
    · exact .of_same rfl rfl rfl
    · exact .of_same rfl rfl rfl
    · refine fair_foldl ?_ _ hpolled
      exact fun q h => .of_same rfl rfl rfl
    · exact .of_same rfl rfl rfl

/-- **A task that is no operation is fair.** -/
theorem fair_advance {t : Task} (p : Plane) (ht : ∀ stack origin, t ≠ .operation stack origin) :
    p.Fair (t.advance p).plane := by
  cases t with
  | operation stack origin => exact absurd rfl (ht stack origin)
  | relay l f =>
    rw [advance]
    dsimp only
    split <;> exact .of_same rfl rfl rfl
  | follow a e f sink state => exact fair_follow p a e f sink state
  | serve a => exact fair_serve p a
  | expect m h f result =>
    rw [advance]
    dsimp only
    split <;> exact .of_same rfl rfl rfl
  | watch label h =>
    rw [advance]
    dsimp only
    split <;> exact .of_same rfl rfl rfl
  | prepareLate wake f response =>
    rw [advance]
    dsimp only
    split
    · exact (((Fair.refl p).newHandle {}).reportOutcome f (.prepared _ response)).modifyForward f _
    · exact .of_same rfl rfl rfl
  | completeTwice h f response =>
    rw [advance]
    dsimp only
    split <;> exact .of_same rfl rfl rfl
  | cancelAt wake c =>
    rw [advance]
    dsimp only
    split
    · exact ⟨rfl, rfl, recalls_cancel p c⟩
    · exact .of_same rfl rfl rfl

end Task

end ManagementPlane
