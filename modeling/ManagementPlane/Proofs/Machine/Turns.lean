import ManagementPlane.Machine.Run
import ManagementPlane.Proofs.Model.History
import ManagementPlane.Proofs.Pipeline.Frame

/-!
# Proofs/Machine/Turns — what a turn of a running step comes to

A running step goes on, returns, waits, or lets another operation run; `Execution.Continues` lists
these outcomes together with what became of the context, and `keeping_work` says that there are
no others.  For a forwarded step `Forwarding.Advances` tells them apart by what has come for it.
Meanwhile no model is published: every tree keeps its root and its version (`Plane.Steady`), and
forwarding does not touch the controllers at all (`Plane.Apart`).
-/

namespace ManagementPlane

open Transaction (Keeps)

namespace Plane

/-! ## Planes with the same models -/

/-- Controllers and processes are the same. -/
structure Apart (p q : Plane) : Prop where
  controllers : q.controllers = p.controllers
  processes : q.processes = p.processes

theorem Apart.refl (p : Plane) : p.Apart p := ⟨rfl, rfl⟩

/-- One change after another. -/
theorem Apart.trans {p q r : Plane} (h : p.Apart q) (h' : q.Apart r) : p.Apart r :=
  ⟨h'.controllers.trans h.controllers, h'.processes.trans h.processes⟩

/-- The controllers are the same but for their locks and their counts of operations, and no process
comes or goes. -/
structure Steady (p q : Plane) : Prop where
  length : q.controllers.length = p.controllers.length
  processes : q.processes.length = p.processes.length
  controller : ∀ c, ∃ tree accepted, q.controller c = { p.controller c with tree, accepted } ∧
    Keeps (p.tree c) tree

theorem Steady.tree {p q : Plane} (h : p.Steady q) (c : Nat) : Keeps (p.tree c) (q.tree c) := by
  obtain ⟨tree, accepted, hq, hkeeps⟩ := h.controller c
  show Keeps (p.tree c) (q.controller c).tree
  rw [hq]
  exact hkeeps

theorem Steady.refl (p : Plane) : p.Steady p := ⟨rfl, rfl, fun _ => ⟨_, _, rfl, rfl, rfl⟩⟩

/-- One change after another. -/
theorem Steady.trans {p q r : Plane} (h : p.Steady q) (h' : q.Steady r) : p.Steady r := by
  refine ⟨h'.length.trans h.length, h'.processes.trans h.processes, fun c => ?_⟩
  obtain ⟨tree, accepted, hq, hkeeps⟩ := h.controller c
  obtain ⟨tree', accepted', hr, hkeeps'⟩ := h'.controller c
  rw [hq] at hr
  refine ⟨tree', accepted', hr, ?_⟩
  have htree : q.tree c = tree := by rw [Plane.tree, hq]
  rw [htree] at hkeeps'
  exact ⟨hkeeps'.1.trans hkeeps.1, hkeeps'.2.trans hkeeps.2⟩

/-- A change of neither controllers nor the number of process states. -/
theorem steady_of_controllers {p q : Plane} (h : q.controllers = p.controllers)
    (h' : q.processes.length = p.processes.length) : p.Steady q := by
  refine ⟨by rw [h], h', fun c => ⟨(p.controller c).tree, (p.controller c).accepted, ?_, rfl, rfl⟩⟩
  rw [Plane.controller, h]
  rfl

theorem Apart.steady {p q : Plane} (h : p.Apart q) : p.Steady q :=
  steady_of_controllers h.controllers (by rw [h.processes])

theorem getD_modify {α : Type} (l : List α) (i j : Nat) (f : α → α) (d : α) :
    (l.modify i f)[j]?.getD d =
      if i = j ∧ j < l.length then f (l[j]?.getD d) else l[j]?.getD d := by
  rw [List.getElem?_modify]
  by_cases hj : j < l.length
  · rw [List.getElem?_eq_getElem hj]
    by_cases hi : i = j <;> simp [hi, hj]
  · rw [List.getElem?_eq_none (not_lt.mp hj)]
    simp [hj]

/-- A change of one controller spares the others. -/
theorem controller_modifyController (p : Plane) (c d : Nat) (f : Controller → Controller) :
    (p.modifyController c f).controller d =
      if c = d ∧ d < p.controllers.length then f (p.controller d) else p.controller d :=
  getD_modify ..

theorem steady_modifyController (p : Plane) (c : Nat) {f : Controller → Controller}
    (hf : ∃ tree accepted, f (p.controller c) = { p.controller c with tree, accepted } ∧
      Keeps (p.tree c) tree) : p.Steady (p.modifyController c f) := by
  refine ⟨List.length_modify _ _ _, rfl, fun d => ?_⟩
  rw [controller_modifyController]
  split
  · rename_i h
    exact h.1 ▸ hf
  · exact ⟨_, _, rfl, rfl, rfl⟩

/-- A tree that keeps what is published. -/
theorem steady_setTree (p : Plane) (c : Nat) {t : Tree} (h : Keeps (p.tree c) t) :
    p.Steady (p.setTree c t) := p.steady_modifyController c ⟨t, _, rfl, h⟩

theorem tree_setTree (p : Plane) {c : Nat} (hc : c < p.controllers.length) (t : Tree) :
    (p.setTree c t).tree c = t := by
  rw [Plane.tree, setTree, controller_modifyController, if_pos ⟨rfl, hc⟩]

/-! ## Forwarding keeps off the controllers -/

section Apart

variable {p q : Plane} (h : p.Apart q)

include h

theorem Apart.report (sink : Sink) (m : Message) : p.Apart (q.report sink m) := by
  cases sink <;> exact ⟨h.controllers, h.processes⟩

/-- An outcome that comes too late decides its handle. -/
theorem Apart.reportOutcome (f : Nat) (o : Outcome) : p.Apart (q.reportOutcome f o) := by
  rw [Plane.reportOutcome]
  dsimp only
  split
  · split <;> exact ⟨h.controllers, h.processes⟩
  · exact ⟨h.controllers, h.processes⟩

theorem Apart.newHandle (handle : Prepared) : p.Apart (q.newHandle handle).2 :=
  ⟨h.controllers, h.processes⟩

theorem Apart.modifyForward (f : Nat) (g : Forward → Forward) : p.Apart (q.modifyForward f g) :=
  ⟨h.controllers, h.processes⟩

theorem Apart.failForward (f : Nat) (response : Value) : p.Apart (q.failForward f response) :=
  (h.reportOutcome f _).modifyForward f _

theorem Apart.letGo (handle : Option Nat) : p.Apart (q.letGo handle) := by
  cases handle <;> exact ⟨h.controllers, h.processes⟩

end Apart

/-- To let go of a handle changes nothing but that handle. -/
theorem letGo_eq (p : Plane) (handle : Option Nat) :
    p.letGo handle = { p with handles := (p.letGo handle).handles } := by
  cases handle <;> rfl

/-- Only a cancelled operation is overtaken by its cancellation. -/
theorem isCancelled_of_overtakes {p : Plane} {c : Option Nat} (h : p.overtakes c = true) :
    p.isCancelled c = true := (Bool.and_eq_true _ _ |>.mp h).2

theorem overtakes_of_not_cancelled {p : Plane} {c : Option Nat} (h : p.isCancelled c = false) :
    p.overtakes c = false := by rw [overtakes, h, Bool.and_false]

end Plane

namespace Execution

variable {p : Plane} {x : Execution} {due : Nat} {what : String}

/-- A wait is interrupted only after its time, or when the operation was cancelled. -/
theorem of_interruption?_eq_some {e : OperationError} (h : x.interruption? p due what = some e) :
    due ≤ p.now ∨ p.isCancelled x.context.input.cancellation = true := by
  rw [interruption?] at h
  split at h
  · next hdue => exact .inl (by simpa using (Bool.and_eq_true _ _ |>.mp hdue).2)
  · split at h
    · next hovertakes => exact .inr (Plane.isCancelled_of_overtakes hovertakes)
    · cases h

/-- No interruption is fatal. -/
theorem isFatal_of_interruption? {e : OperationError}
    (h : x.interruption? p due what = some e) : e.isFatal = false := by
  rw [interruption?] at h
  split at h
  · obtain rfl := Option.some.inj h
    rfl
  · split at h
    · obtain rfl := Option.some.inj h
      rfl
    · cases h

/-- Before the deadline and without a cancellation nothing interrupts. -/
theorem interruption?_eq_none (hdue : p.now < due)
    (hcancelled : p.isCancelled x.context.input.cancellation = false) :
    x.interruption? p due what = none := by
  rw [interruption?, Plane.overtakes_of_not_cancelled hcancelled, if_neg (by simp [hdue]),
    if_neg Bool.false_ne_true]

end Execution

namespace Forwarding

open Plane

/-- Whoever is not interrupted reads what has come. -/
theorem advance_eq_follow {p : Plane} {x : Execution} {step : Step} {f due : Nat} {d : Delivery}
    (hread : x.interruption? p due (subject step.address) = none) :
    advance p x step f due d = follow p x step f due d := by rw [advance, hread]

/-- A participant that breaks the rules is none of the controllers of the process. -/
theorem apart_unruly (p : Plane) (f : Nat) (name : String) (m : Misconduct) :
    p.Apart (unruly p f name m).2 := by
  have hnew : p.Apart (p.newHandle {}).2 := (Apart.refl p).newHandle {}
  cases m with
  | preparesTwice =>
    exact (((hnew.reportOutcome f _).newHandle {}).reportOutcome f _).modifyForward f _
  | failsAfterPreparing => exact (hnew.reportOutcome f _).failForward f _
  | preparesAfterFailing =>
    exact ((hnew.reportOutcome f _).reportOutcome f _).modifyForward f _
  | preparesLate ms => exact .refl p
  | neverCompletes => exact hnew.reportOutcome f (.prepared _ (Response.success name))
  | completesTwice => exact hnew.reportOutcome f (.prepared _ (Response.success name))
  | preparesDeaf => exact (((Apart.refl p).newHandle _).reportOutcome f _).modifyForward f _
  | failsBare => exact (Apart.refl p).failForward f _
  | failsStructured => exact (Apart.refl p).failForward f _
  | staysSilent => exact (Apart.refl p).modifyForward f _

/-- Nor is one that stands in for a controller. -/
theorem apart_mock (p : Plane) (m f : Nat) (operation : Value) :
    p.Apart (mock p m f operation).2 := by
  have hmock : ∀ g, p.Apart (p.modifyMock m g) := fun _ => ⟨rfl, rfl⟩
  rw [mock]
  dsimp only
  split
  · exact hmock _
  · rename_i result rest h
    exact ((hmock _).newHandle {}).reportOutcome f (.prepared _ (Response.success result))
  · exact (hmock _).failForward f _
  · exact hmock _

/-- However an operation gets to the child, it changes no controller on its way. -/
theorem apart_dispatch (p : Plane) (x : Execution) (proxy : Proxy) (operation : Value) (f : Nat) :
    p.Apart (dispatch p x proxy operation f).2.2 := by
  rw [dispatch]
  split
  · exact ⟨rfl, rfl⟩
  · rename_i a ha
    have hopen : p.Apart ((p.newExchange (p.actor a).nextNumber).2.modifyActor a fun k =>
        { k with nextNumber := k.nextNumber + 1 }) := ⟨rfl, rfl⟩
    dsimp only
    split
    · exact ⟨rfl, rfl⟩
    · exact hopen.failForward f _
  · rename_i m hm
    have hmock := apart_mock p m f operation
    split <;> rename_i h <;> rw [h] at hmock <;> exact hmock
  · exact apart_unruly p f _ _

theorem apart_leave (p : Plane) (f : Nat) (delivery : Delivery) :
    p.Apart (leave p f delivery) := by
  cases delivery <;> exact ⟨rfl, rfl⟩

/-- To give a forwarded step up changes no controller. -/
theorem apart_abandon (p : Plane) (f : Nat) (delivery : Delivery) :
    p.Apart (abandon p f delivery) :=
  ((Apart.refl p).letGo _).trans (apart_leave _ f delivery)

/-! ## The turn of a forwarded step -/

variable {p : Plane} {sink : Sink} {f : Nat}

/-- Nothing has come for the step yet. -/
def Silent (p : Plane) (f : Nat) : Delivery → Prop
  | .sending a ticket _ => (p.actor a).isWaiting ticket = true ∧ (p.actor a).isOpen = true
  | .linked l => (p.link l).offer = none ∧ (p.link l).final = none
  | .following _ e => (p.exchange e).next.1 = .nothingYet
  | .delivered => (p.forward f).outcome = none

/-- The step comes closer to its participant, and what is on the way moves with it. -/
inductive Approaches (p : Plane) (sink : Sink) (f : Nat) :
    Delivery → Delivery → Plane → List Task → Prop
  | sent {a ticket e : Nat} (h : (p.actor a).isWaiting ticket = false) :
    Approaches p sink f (.sending a ticket e) (.following a e) p []
  | refused {a ticket e : Nat} (h : (p.actor a).isOpen = false) :
    Approaches p sink f (.sending a ticket e) .delivered
      (p.failForward f (Response.failure TransportError.actorClosed.message)) []
  | takes {l i : Nat} {r : Value} (h : (p.link l).offer = some (i, r)) :
    Approaches p sink f (.linked l) .delivered
      ((p.modifyLink l Link.take).reportOutcome f (.prepared i r)) [.relay l f]
  /-- The operation at the other end is over. -/
  | ends {l : Nat} {r : Value} (hoffer : (p.link l).offer = none)
      (hfinal : (p.link l).final = some (.answered r)) :
    Approaches p sink f (.linked l) .delivered (p.failForward f r) []
  | breaks {l : Nat} {reason : String} (hoffer : (p.link l).offer = none)
      (hfinal : (p.link l).final = some (.crashed reason)) :
    Approaches p sink f (.linked l) .delivered
      (p.failForward f (Response.failure ("proxied controller task failed: " ++ reason))) []
  | hears {a e : Nat} {m : Message} (h : (p.exchange e).next.1 = .event (.message m)) :
    Approaches p sink f (.following a e) (.following a e)
      ((p.modifyExchange e fun _ => (p.exchange e).next.2).report sink m) []
  /-- Whoever prepared elsewhere is represented by a new handle. -/
  | stands {a e : Nat} {r : Value} {q : Plane} (h : (p.exchange e).next.1 = .event (.prepared r))
      (hq : q = p.modifyExchange e fun _ => (p.exchange e).next.2) :
    Approaches p sink f (.following a e) .delivered
      (((q.newHandle {}).2.reportOutcome f (.prepared (q.newHandle {}).1 r)).modifyActor a fun k =>
        { k with clients := k.clients + 1 }) [.follow a e f sink (.deciding (q.newHandle {}).1)]
  | fails {a e : Nat} {r : Value} (h : (p.exchange e).next.1 = .event (.completed r)) :
    Approaches p sink f (.following a e) .delivered
      (((p.modifyExchange e fun _ => (p.exchange e).next.2).modifyExchange e
        Exchange.leave).failForward f r) []
  | closes {a e : Nat} (h : (p.exchange e).next.1 = .ended) :
    Approaches p sink f (.following a e) .delivered
      ((p.modifyExchange e fun _ => (p.exchange e).next.2).failForward f
        (Response.failure TransportError.exchangeClosed.message)) []

/-- What a turn of a forwarded step comes to. -/
inductive Advances (p : Plane) (x : Execution) (step : Step) (f due : Nat) (d : Delivery) :
    Turn → Prop
  | goes {d' : Delivery} {q : Plane} {spawned : List Task}
      (h : Approaches p x.context.sink f d d' q spawned) :
    Advances p x step f due d { plane := q, spawned, next := .going { x with
      phase := .handling step (.forwarding f due d') } }
  | concludes {o : Outcome} (hd : d = .delivered) (h : (p.forward f).outcome = some o)
      (hread : x.interruption? p due (subject step.address) = none) :
    Advances p x step f due d { plane := p, next := conclude x step f o }
  | waits (h : Silent p f d) (hdue : p.now < due)
      (hcancelled : p.isCancelled x.context.input.cancellation = false) :
    Advances p x step f due d { plane := p, next := .blocked x }
  /-- The time is over or the operation was cancelled, whatever has come meanwhile; or nobody is
  left who could report. -/
  | stops (e : OperationError) (hstop : due ≤ p.now ∨
        p.isCancelled x.context.input.cancellation = true ∨
        d = .delivered ∧ (p.forward f).outcome = none ∧ (p.forward f).reporters = 0)
      (hunread : x.interruption? p due (subject step.address) = some e ∨ Silent p f d) :
    Advances p x step f due d (stop p x step f d e)

/-- A forwarded step to which nothing has arrived waits, unless it is interrupted. -/
theorem advances_wait {x : Execution} {d : Delivery} (step : Step) (due : Nat) (h : Silent p f d) :
    Advances p x step f due d (wait p x step f due d) := by
  rw [wait]
  split
  · next hdue => exact .stops _ (.inl hdue) (.inr h)
  · next hdue =>
    split
    · next hcancelled => exact .stops _ (.inr (.inl hcancelled)) (.inr h)
    · next hcancelled => exact .waits h (not_le.mp hdue) (Bool.eq_false_iff.mpr hcancelled)

/-- A step without an outcome has nothing to let go of. -/
theorem abandon_of_silent (h : (p.forward f).outcome = none) :
    abandon p f .delivered = p.modifyForward f Forward.abandon := by
  rw [abandon, unread?, h]
  rfl

/-- A forwarded step that reads what has arrived. -/
theorem advances_follow {x : Execution} {step : Step} {due : Nat} (d : Delivery)
    (hread : x.interruption? p due (subject step.address) = none) :
    Advances p x step f due d (follow p x step f due d) := by
  rw [follow.eq_def]
  dsimp only
  cases d with
  | sending a ticket e =>
    dsimp only
    split
    · next hsent => exact .goes (.sent (Bool.not_eq_true' _ |>.mp hsent))
    · next hwaiting =>
      split
      · next hclosed => exact .goes (.refused (Bool.not_eq_true' _ |>.mp hclosed))
      · next hopen => exact advances_wait step due ⟨by simpa using hwaiting, by simpa using hopen⟩
  | linked l =>
    dsimp only
    split
    · next hoffer => exact .goes (.takes hoffer)
    · next hoffer hfinal => exact .goes (.ends hoffer hfinal)
    · next hoffer hfinal => exact .goes (.breaks hoffer hfinal)
    · next hoffer hfinal => exact advances_wait step due ⟨hoffer, hfinal⟩
  | following a e =>
    dsimp only
    split
    · next hsight => exact .goes (.hears hsight)
    · next hsight => exact .goes (.stands hsight rfl)
    · next hsight => exact .goes (.fails hsight)
    · next hsight => exact .goes (.closes hsight)
    · next hsight => exact advances_wait step due hsight
  | delivered =>
    dsimp only
    split
    · next houtcome => exact .concludes rfl houtcome hread
    · next houtcome =>
      have hsilent : Silent p f .delivered := houtcome
      split
      · next hnobody =>
        rw [← abandon_of_silent houtcome]
        exact .stops _ (.inr (.inr ⟨rfl, houtcome, hnobody⟩)) (.inr hsilent)
      · exact advances_wait step due hsilent

/-- **A forwarded step advances in one of the listed ways.** -/
theorem advances (p : Plane) (x : Execution) (step : Step) (f due : Nat) (d : Delivery) :
    Advances p x step f due d (advance p x step f due d) := by
  rw [advance]
  split
  · next hinterrupted =>
    have hstop := Execution.of_interruption?_eq_some hinterrupted
    exact .stops _ (hstop.imp_right .inl) (.inl hinterrupted)
  · next hread => exact advances_follow d hread

/-- Where everything is delivered, there is nothing left to approach. -/
theorem Approaches.ne_delivered {d d' : Delivery} {q : Plane} {spawned : List Task}
    (h : Approaches p sink f d d' q spawned) : d ≠ .delivered := by
  cases h <;> rintro ⟨⟩

/-- What happens on the way to the child changes no controller. -/
theorem Approaches.apart {d d' : Delivery} {q : Plane} {spawned : List Task}
    (h : Approaches p sink f d d' q spawned) : p.Apart q := by
  cases h with
  | sent => exact .refl p
  | refused | ends | breaks => exact (Apart.refl p).failForward f _
  | @takes l =>
    have htake : p.Apart (p.modifyLink l Link.take) := ⟨rfl, rfl⟩
    exact htake.reportOutcome f _
  | @hears a e =>
    have hseen : p.Apart (p.modifyExchange e fun _ => (p.exchange e).next.2) := ⟨rfl, rfl⟩
    exact hseen.report _ _
  | @stands a e r q _ hq =>
    have hseen : p.Apart q := hq ▸ ⟨rfl, rfl⟩
    exact ((hseen.newHandle {}).reportOutcome f _).trans ⟨rfl, rfl⟩
  | fails | closes =>
    refine Apart.failForward ?_ f _
    exact ⟨rfl, rfl⟩

end Forwarding

/-! ## The outcomes of a turn -/

/-- The instructions that the next turn of a step does. -/
def Work.instructions : Work → List Instruction
  | running (⟨_, i :: _⟩ :: _) => [i]
  | _ => []

/-- Whether nothing of a step was done here: it begins, or runs in another controller. -/
def Work.isFresh : Work → Bool
  | begin => true
  | forwarding .. => true
  | _ => false

/-- The forwarded step that is waited for. -/
def Work.forward? : Work → Option Nat
  | forwarding f .. => some f
  | _ => none

/-- What a completion does besides its own task. -/
def Completion.instructions (c : Completion) (d : Decision) : List Instruction :=
  match c with
  | script _ false body => body
  | script _ true body => if d = .keep then [] else body
  | _ => []

/-- A step worked on the context, and may have taken write intent on the tree `t` in the end. -/
inductive Context.Works (may : Instruction → Prop) (t : Tree) (x : Context) : Context → Prop
  | does {y : Context} (h : x.Does may y) : Works may t x y
  | stages {y : Context} (h : x.Does may y) :
    Works may t x { y with transaction := y.transaction.stage t }

namespace Execution

/-- How an operation goes on after a turn of its running step. -/
inductive Continues (p : Plane) (x : Execution) (step : Step) (w : Work) : Next → Prop
  | goes {y : Context} {w' : Work}
      (h : x.context.Works (· ∈ w.instructions) (p.tree x.controller) y)
      (hw' : w'.isFresh = false) (hw : w.forward? = none) :
    Continues p x step w (.going { x with context := y, phase := .handling step w' })
  | forwards {f due : Nat} {d : Delivery}
      (h : (∃ d', w = .forwarding f due d') ∨ w = .begin ∧ f = p.forwards.length) :
    Continues p x step w (.going { x with phase := .handling step (.forwarding f due d) })
  /-- A forwarded step returns this way when it failed or was abandoned. -/
  | returns {y : Context} {out : Except OperationError Unit}
      (h : x.context.Does (· ∈ w.instructions) y)
      (hout : w.forward? = none ∨ ∃ e, out = .error e) :
    Continues p x step w (.returned { x with context := y } step out)
  /-- The participant of a forwarded step has prepared. -/
  | concludes {f due h : Nat} {response : Value} (hw : w = .forwarding f due .delivered)
      (houtcome : (p.forward f).outcome = some (.prepared h response))
      (hread : x.interruption? p due (Forwarding.subject step.address) = none) :
    Continues p x step w (.returned
      { x with context := Forwarding.accept x.context f h response } step (.ok ()))
  | blocks : Continues p x step w (.blocked x)
  | nests {y : Context} {frames : List Frame} {operation : Value}
      (h : x.context.Does (· ∈ w.instructions) y) (hw : w.forward? = none) :
    Continues p x step w
      (.nesting { x with context := y, phase := .handling step (.nesting frames) } operation)
  | crashes {reason : String} (hw : w = .begin) : Continues p x step w (.crashed reason)

/-- A turn of a running step: the operation continues, the models stay, the states of processes
change on instruction only, and only forwarding hands anything to other operations. -/
structure Keeping (p : Plane) (x : Execution) (step : Step) (w : Work) (t : Turn) : Prop where
  continues : Continues p x step w t.next
  steady : p.Steady t.plane
  processes : (∀ change, .process (some change) ∉ w.instructions) →
    t.plane.processes = p.processes
  retains : w.isFresh = false → p.Retains t.plane ∧ t.spawned = []

variable {p : Plane} {x : Execution} {step : Step} {w : Work}

theorem Keeping.of_apart {t : Turn} (h : p.Apart t.plane) (hnext : Continues p x step w t.next)
    (hw : w.isFresh = true) : Keeping p x step w t :=
  ⟨hnext, h.steady, fun _ => h.processes, fun h' => by rw [hw] at h'; cases h'⟩

theorem Keeping.of_plane {next : Next} (hnext : Continues p x step w next) :
    Keeping p x step w { plane := p, next } :=
  ⟨hnext, .refl p, fun _ => rfl, fun _ => ⟨.refl p, rfl⟩⟩

theorem retains_setTree (p : Plane) (c : Nat) (t : Tree) : p.Retains (p.setTree c t) :=
  ⟨rfl, rfl, rfl, rfl, rfl⟩

/-- Whoever gets the lock may stage the published model. -/
theorem takeLock?_eq_some {c : Nat} {t t' : Transaction} {q : Plane}
    (h : p.takeLock? c t = some (q, t')) :
    p.Steady q ∧ q.processes = p.processes ∧ (t' = t ∨ t' = t.stage (p.tree c)) ∧
      p.Retains q := by
  obtain ⟨⟨tree, t''⟩, hacquire, hq⟩ := Option.map_eq_some_iff.mp h
  obtain ⟨rfl, rfl⟩ := Prod.mk.inj hq
  obtain ⟨hkeeps, ht⟩ := Transaction.acquire?_eq_some hacquire
  exact ⟨p.steady_setTree c hkeeps, rfl, ht, retains_setTree p c tree⟩

theorem steady_queueForLock (p : Plane) (c : Nat) (t : Transaction) :
    p.Steady (p.queueForLock c t) := p.steady_setTree c ⟨rfl, rfl⟩

theorem steady_leaveLock (p : Plane) (c : Nat) (t : Transaction) :
    p.Steady (p.leaveLock c t) := p.steady_setTree c ⟨rfl, rfl⟩

/-! ## Scripts -/

theorem keeping_recover {q : Plane} {y : Context} (h : x.context.Does (· ∈ w.instructions) y)
    (hq : p.Steady q) (hprocesses : (∀ change, .process (some change) ∉ w.instructions) →
      q.processes = p.processes) (hretains : p.Retains q) (hw : w.forward? = none)
    (frames : List Frame) (e : OperationError) :
    Keeping p x step w (recover q { x with context := y } step frames e) := by
  rw [recover]
  split
  · exact ⟨.goes (.does h) rfl hw, hq.trans (Plane.steady_of_controllers rfl rfl), hprocesses,
      fun _ => ⟨hretains.trans ⟨rfl, rfl, rfl, rfl, rfl⟩, rfl⟩⟩
  · exact ⟨.returns h (.inl hw), hq, hprocesses, fun _ => ⟨hretains, rfl⟩⟩

/-- **A script goes instruction by instruction.** -/
theorem keeping_runScript (frames : List Frame) :
    Keeping p x step (.running frames) (runScript p x step frames) := by
  match frames with
  | [] => exact .of_plane (.returns .refl (.inl rfl))
  | ⟨_, []⟩ :: rest => exact .of_plane (.goes (.does .refl) rfl rfl)
  | ⟨caught, i :: is⟩ :: rest =>
    have hmay : ∀ j, j = i → j ∈ (Work.running (⟨caught, i :: is⟩ :: rest)).instructions :=
      fun j hj => hj ▸ List.mem_singleton.mpr rfl
    have hscene := (i.perform_made step.operation ⟨p, x.controller, x.context⟩).mono hmay
    rw [runScript]
    generalize ((i.perform step.operation).run).run ⟨p, x.controller, x.context⟩ = out
      at hscene ⊢
    obtain ⟨out, ⟨q, c, y⟩⟩ := out
    have hdoes : x.context.Does _ y := hscene.context
    have hcontrollers : q.controllers = p.controllers := hscene.beside.2.controllers
    have hsteady : p.Steady q := Plane.steady_of_controllers hcontrollers hscene.length_processes
    have hretains : p.Retains q := hscene.beside.2.retains
    have htree : q.tree x.controller = p.tree x.controller := by
      rw [Plane.tree, Plane.controller, hcontrollers]
      rfl
    have hprocesses := hscene.processes
    dsimp only at hprocesses ⊢
    cases out with
    | error e => exact keeping_recover hdoes hsteady hprocesses hretains rfl _ e
    | ok effect =>
      cases effect with
      | proceed => exact ⟨.goes (.does hdoes) rfl rfl, hsteady, hprocesses,
          fun _ => ⟨hretains, rfl⟩⟩
      | enter body => exact ⟨.goes (.does hdoes) rfl rfl, hsteady, hprocesses,
          fun _ => ⟨hretains, rfl⟩⟩
      | pause ms what => exact ⟨.goes (.does hdoes) rfl rfl, hsteady, hprocesses,
          fun _ => ⟨hretains, rfl⟩⟩
      | nest operation => exact ⟨.nests hdoes rfl, hsteady, hprocesses, fun _ => ⟨hretains, rfl⟩⟩
      | acquire =>
        dsimp only
        split
        · rename_i q' t htake
          obtain ⟨hq', hprocesses', rfl | rfl, hretains'⟩ := takeLock?_eq_some htake
          · exact ⟨.goes (.does hdoes) rfl rfl, hsteady.trans hq',
              fun h => hprocesses'.trans (hprocesses h), fun _ => ⟨hretains.trans hretains', rfl⟩⟩
          · exact ⟨.goes (htree ▸ .stages hdoes) rfl rfl, hsteady.trans hq',
              fun h => hprocesses'.trans (hprocesses h), fun _ => ⟨hretains.trans hretains', rfl⟩⟩
        · exact ⟨.goes (.does hdoes) rfl rfl, hsteady.trans (steady_queueForLock _ _ _), hprocesses,
            fun _ => ⟨hretains.trans (retains_setTree _ _ _), rfl⟩⟩

/-- A step that waits for the lock changes nothing but the lock. -/
theorem keeping_acquire (deadline : Nat) (frames : List Frame) :
    Keeping p x step (.acquiring deadline frames) (acquire p x step deadline frames) := by
  rw [acquire]
  dsimp only
  split
  · rename_i q t htake
    obtain ⟨hq, hprocesses, rfl | rfl, hretains⟩ := takeLock?_eq_some htake
    · exact ⟨.goes (.does .refl) rfl rfl, hq, fun _ => hprocesses, fun _ => ⟨hretains, rfl⟩⟩
    · exact ⟨.goes (.stages .refl) rfl rfl, hq, fun _ => hprocesses, fun _ => ⟨hretains, rfl⟩⟩
  · split
    · exact keeping_recover .refl (steady_leaveLock _ _ _) (fun _ => rfl) (retains_setTree _ _ _)
        rfl frames _
    · exact .of_plane .blocks

/-- What a turn of a waiting script comes to. -/
inductive Pauses (p : Plane) (x : Execution) (step : Step) (wake due : Nat) (frames : List Frame) :
    Turn → Prop
  | wakes : Pauses p x step wake due frames
      { plane := p, next := .going { x with phase := .handling step (.running frames) } }
  /-- The time of the wait is over, or the operation was cancelled. -/
  | fails (e : OperationError)
      (h : due ≤ p.now ∨ p.isCancelled x.context.input.cancellation = true) :
    Pauses p x step wake due frames (recover p x step frames e)
  | waits (hwake : p.now < wake) (hdue : p.now < due)
      (hcancelled : p.isCancelled x.context.input.cancellation = false) :
    Pauses p x step wake due frames { plane := p, next := .blocked x }

/-- A pause ends by itself, is interrupted, or goes on. -/
theorem pauses (p : Plane) (x : Execution) (step : Step) (wake due : Nat) (what : String)
    (frames : List Frame) :
    Pauses p x step wake due frames (pause p x step wake due what frames) := by
  rw [pause]
  split
  · next hinterrupted => exact .fails _ (of_interruption?_eq_some hinterrupted)
  · split
    · exact .wakes
    · next hwake =>
      split
      · next hdue => exact .fails _ (.inl hdue)
      · next hdue =>
        split
        · next hcancelled => exact .fails _ (.inr hcancelled)
        · next hcancelled =>
          exact .waits (not_le.mp hwake) (not_le.mp hdue) (Bool.eq_false_iff.mpr hcancelled)

theorem keeping_pause (wake deadline : Nat) (what : String) (frames : List Frame) :
    Keeping p x step (.pausing wake deadline what frames)
      (pause p x step wake deadline what frames) := by
  have hpauses := pauses p x step wake deadline what frames
  generalize pause p x step wake deadline what frames = t at hpauses ⊢
  cases hpauses with
  | wakes => exact .of_plane (.goes (.does .refl) rfl rfl)
  | fails e => exact keeping_recover .refl (.refl p) (fun _ => rfl) (.refl p) rfl frames e
  | waits => exact .of_plane .blocks

/-! ## Forwarded steps -/

/-- A step that is forwarded waits for its participant. -/
theorem keeping_start (proxy : Proxy) :
    Keeping p x step .begin (Forwarding.start p x step proxy) := by
  rw [Forwarding.start]
  dsimp only
  split
  · exact .of_plane (.returns .refl (.inl rfl))
  · split
    · exact .of_plane (.returns .refl (.inl rfl))
    · have hdispatch := Forwarding.apart_dispatch p.newForward.2 x proxy
        (step.operation.set Key.address (Address.toValue (step.address.drop proxy.node.length)))
        p.newForward.1
      have hnew : p.Apart p.newForward.2 := ⟨rfl, rfl⟩
      split <;> rename_i h <;> rw [h] at hdispatch
      · exact .of_apart (hnew.trans hdispatch) (.forwards (.inr ⟨rfl, rfl⟩)) rfl
      · exact .of_apart ((hnew.trans hdispatch).modifyForward _ _) (.crashes rfl) rfl

/-- A forwarded step concludes, is stopped, or goes on. -/
theorem keeping_follow (f due : Nat) (d : Delivery) :
    Keeping p x step (.forwarding f due d) (Forwarding.advance p x step f due d) := by
  have hadvances := Forwarding.advances p x step f due d
  generalize Forwarding.advance p x step f due d = t at hadvances ⊢
  cases hadvances with
  | goes h => exact .of_apart h.apart (.forwards (.inl ⟨d, rfl⟩)) rfl
  | @concludes o hd houtcome hread =>
    subst hd
    cases o with
    | prepared h response => exact .of_plane (.concludes rfl houtcome hread)
    | failed response => exact .of_plane (.returns .refl (.inr ⟨_, rfl⟩))
  | waits => exact .of_plane .blocks
  | stops =>
    exact .of_apart (Forwarding.apart_abandon p f d) (.returns .refl (.inr ⟨_, rfl⟩)) rfl

/-- **A turn of a running step ends in one of the listed ways**, whatever the step does. -/
theorem keeping_work (p : Plane) (x : Execution) (step : Step) (w : Work) :
    Keeping p x step w (work p x step w) := by
  cases w with
  | begin =>
    rw [work]
    split
    · exact .of_plane (.goes (.does .refl) rfl rfl)
    · exact keeping_start _
    · split
      · rename_i deed hdeed
        have hscene : Scene.Does (· ∈ Work.begin.instructions) _ _ :=
          (Handler.deed?_made hdeed ⟨p, x.controller, x.context⟩).mono fun _ h => h.elim
        exact ⟨.returns hscene.context (.inl rfl), Plane.steady_of_controllers
          hscene.beside.2.controllers hscene.length_processes, hscene.processes,
          fun _ => ⟨hscene.beside.2.retains, rfl⟩⟩
      · exact .of_plane (.returns .refl (.inl rfl))
  | running frames => exact keeping_runScript frames
  | acquiring deadline frames => exact keeping_acquire deadline frames
  | pausing wake deadline what frames => exact keeping_pause wake deadline what frames
  | nesting frames => exact .of_plane .blocks
  | forwarding f due d => exact keeping_follow f due d

end Execution

end ManagementPlane
