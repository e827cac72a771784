import ManagementPlane.Proofs.Workers.Exact

/-!
# Proofs/Workers/Serial — operations on the workers, one after another

As long as operations on the workers do not overlap (`Plane.Tends`), each of them finds the workers
as its own account needs them: they mirror the published model after every one of them, whether it
has committed or not (`Tends.mirrors_published`), and at no time, also within an operation and on
its way back, are there more of them than there is room for (`Tends.within_capacity`).

When operations overlap neither holds.  A completion brings back what its own step has found,
whatever others have done to the workers since: a keep-alive that another operation has replaced
(`overlapping_writes`), or a worker whose room another one has taken (`overlapping_removals`).
-/

namespace ManagementPlane

open WorkerContainer

/-! ## Operations that overlap -/

namespace Operation

/-- Removes a worker. -/
def dismissing (name : String) : Value := build "remove" (Server.workerAddress name)

/-- Adds a worker with the standard keep-alive. -/
def hiring (name : String) : Value := build "add" (Server.workerAddress name)

/-- Gives a worker a keep-alive of so many seconds. -/
def retaining (name : String) (seconds : UInt64) : Value :=
  let keepAlive : KeepAlive := { time := seconds, unit := .seconds }
  ((build GlobalOperation.writeAttribute.name (Server.workerAddress name)).set
    Key.name (.string WorkerSteps.keepAliveKey)).set Key.value keepAlive.toValue

end Operation

namespace Machine

/-- Starts an operation on the first controller, which is held until it is decided, and lets
everything run. -/
def held (m : Machine) (operation : Value) : Machine :=
  run (fun _ => true) none 40 (m.submit 0 operation Control.hold {} .discard).2

/-- Commits a held operation, and lets everything run. -/
def kept (m : Machine) (ticket : Nat) : Machine :=
  run (fun _ => true) none 40 (m.resolve ticket (some .keep)).2

/-- Starts operations one after another and then commits them all, the latest first. -/
def overlapped (p : Plane) (operations : List Value) : Machine :=
  (List.range operations.length).reverse.foldl kept (operations.foldl held { plane := p })

end Machine

/-! ## One operation after another -/

namespace Plane

/-- Operations on the workers that come one after another lead from `p₀` to here, whether they
commit or not. -/
inductive Tends (around : Plane → Plane → Prop) (c : Nat) (p₀ : Plane) : Plane → Prop
  | start : Tends around c p₀ p₀
  | around {p q : Plane} (h : Tends around c p₀ p) (hq : around p q) : Tends around c p₀ q
  | next {p q : Plane} {past : List Moment} {x : Execution} {operation : Value} {control : Control}
      {input : Input} {sink : Sink} {answer : Answer} (h : Tends around c p₀ p)
      (hoperation : Operation.OnWorkers [] operation)
      (hcontrol : ∀ name d, control ≠ .stopWorker name d)
      (hcourse : Execution.Course around p (Execution.new c operation control input sink) past q x)
      (hended : x.phase = .ended answer) : Tends around c p₀ q

section Tends

variable {around : Plane → Plane → Prop} {c counter : Nat} {p₀ p q : Plane} {r₀ : Registration}

/-- Whatever came so far, the workers are in line with the published model and have the room that
they had. -/
theorem Tends.replaces (hr : (p₀.registration c).ServesWorkers) (hhosts : p₀.Hosts c)
    (hline : p₀.workers.InLine (p₀.tree c).root)
    (haround : ∀ q q', around q q' → q.LeavesAlone c q') (h : Tends around c p₀ p) :
    p.workers.Replaces p₀.workers (p.tree c).root ∧ p.Hosts c ∧
      p.registration c = p₀.registration c := by
  induction h with
  | start => exact ⟨⟨hline, rfl⟩, hhosts, rfl⟩
  | around _ hq ih =>
    obtain ⟨hreplaces, hhosts, hregistration⟩ := ih
    have hleaves := haround _ _ hq
    refine ⟨?_, hleaves.hosts hhosts, hleaves.registration.trans hregistration⟩
    rw [hleaves.workers, hleaves.keeps.1]
    exact hreplaces
  | next _ hoperation hcontrol hcourse hended ih =>
    obtain ⟨hreplaces, hhosts, hregistration⟩ := ih
    obtain ⟨hnext, hhosts', hregistration'⟩ := hcourse.replaces hhosts hreplaces.toInLine haround
      hoperation hcontrol (hregistration ▸ hr) hended
    exact ⟨⟨hnext.toInLine, hnext.capacity.trans hreplaces.capacity⟩, hhosts',
      hregistration'.trans hregistration⟩

/-- **As long as operations on the workers do not overlap**, the workers mirror the published model
after each of them. -/
theorem Tends.mirrors_published (hserver : Server.registration counter = .ok r₀)
    (hglobals : r₀.addGlobals = (none, p₀.registration c)) (hhosts : p₀.Hosts c)
    (hlisted : (p₀.tree c).root.Listed) (hmirrors : p₀.workers.Mirrors (p₀.tree c).root)
    (haround : ∀ q q', around q q' → q.LeavesAlone c q') (h : Tends around c p₀ p) :
    p.workers.Mirrors (p.tree c).root :=
  (h.replaces (Server.servesWorkers_registration hserver hglobals) hhosts ⟨hmirrors, hlisted⟩
    haround).1.toMirrors

/-- Workers are exchanged, and after that the removal of one of them is rolled back. -/
theorem mirrors_published_exchanged : ∃ p, Tends (fun _ _ => False) 0 staffed p ∧
    (p.tree 0).version = 1 ∧ p.workers.size = 2 ∧ p.workers.Mirrors (p.tree 0).root := by
  have hrun : ((Execution.alone staffed
      (.new 0 Operation.restaffing (.decide .keep) {} .discard) 39).bind fun first =>
        (Execution.alone first.2.1
          (.new 0 (Operation.dismissing "b") (.decide .rollback) {} .discard) 13).map
          (first, ·)).any
        (fun reached => reached.1.2.2.succeeded && reached.2.2.2.hasEnded &&
          (reached.2.2.1.tree 0).version == 1 && reached.2.2.1.workers.size == 2) = true := by
    decide +kernel
  obtain ⟨⟨first, second⟩, hcourses, hfacts⟩ := (Option.any_eq_true _ _).mp hrun
  obtain ⟨reached, hfirst, hpaired⟩ := Option.bind_eq_some_iff.mp hcourses
  obtain ⟨reached', hsecond, heq⟩ := Option.map_eq_some_iff.mp hpaired
  obtain ⟨rfl, rfl⟩ := Prod.mk.inj heq
  simp only [Bool.and_eq_true, beq_iff_eq] at hfacts
  obtain ⟨⟨⟨hsucceeded, hended⟩, hversion⟩, hsize⟩ := hfacts
  obtain ⟨answer, hphase, -⟩ := Execution.exists_of_succeeded hsucceeded
  obtain ⟨answer', hphase'⟩ := Execution.exists_of_hasEnded hended
  obtain ⟨r₀, hserver, hglobals⟩ := Server.exists_registration
  have hdismissing : Operation.OnWorkers [] (Operation.dismissing "b") :=
    .of_parse "remove" rfl (by decide) rfl
  have hone : Tends (fun _ _ => False) 0 staffed reached.2.1 :=
    .next .start Operation.onWorkers_restaffing (by rintro _ _ ⟨⟩) (Execution.course_alone hfirst)
      hphase
  have htwo : Tends (fun _ _ => False) 0 staffed reached'.2.1 :=
    .next hone hdismissing (by rintro _ _ ⟨⟩) (Execution.course_alone hsecond) hphase'
  exact ⟨_, htwo, hversion, hsize, htwo.mirrors_published hserver hglobals ⟨by decide, by decide⟩
    listed_staffed mirrors_staffed fun _ _ h => h.elim⟩

/-- Two writes to one worker overlap.  The later one is committed first, and then the earlier one
conflicts with it and takes the keep-alive back to what it was before both. -/
theorem overlapping_writes :
    let m := Machine.overlapped staffed [Operation.retaining "a" 10, Operation.retaining "a" 20]
    m.ready.isEmpty = true ∧ m.blocked.isEmpty = true ∧
      (m.plane.workers.get? "a").map (·.keepAlive) = some .standard ∧
      ((m.plane.tree 0).root.worker? "a").bind (·.keepAlive.toOption)
        = some { time := 20, unit := .seconds } ∧
      ¬ m.plane.workers.Mirrors (m.plane.tree 0).root := by
  intro m
  have hidle : m.ready.isEmpty = true ∧ m.blocked.isEmpty = true := by decide +kernel
  have hworker : (m.plane.workers.get? "a").map (·.keepAlive) = some .standard := by
    decide +kernel
  have hresource : ((m.plane.tree 0).root.worker? "a").bind (·.keepAlive.toOption)
      = some { time := 20, unit := .seconds } := by decide +kernel
  refine ⟨hidle.1, hidle.2, hworker, hresource, fun hmirrors => ?_⟩
  obtain ⟨w, hw, hstandard⟩ := Option.map_eq_some_iff.mp hworker
  obtain ⟨r, hr, hwritten⟩ := Option.bind_eq_some_iff.mp hresource
  have hsame := hmirrors.same "a"
  rw [hw, hr] at hsame
  have hasked : Except.ok w.keepAlive = r.keepAlive := Option.some.inj hsame
  rw [← hasked, hstandard] at hwritten
  cases hwritten

/-- **As long as operations on the workers do not overlap**, there is room for all workers at every
moment of each of them. -/
theorem Tends.within_capacity {past : List Moment} {x : Execution} {operation : Value}
    {control : Control} {input : Input} {sink : Sink}
    (hserver : Server.registration counter = .ok r₀)
    (hglobals : r₀.addGlobals = (none, p₀.registration c)) (hhosts : p₀.Hosts c)
    (hlisted : (p₀.tree c).root.Listed) (hmirrors : p₀.workers.Mirrors (p₀.tree c).root)
    (haround : ∀ q q', around q q' → q.LeavesAlone c q') (h : Tends around c p₀ p)
    (hoperation : Operation.OnWorkers [] operation)
    (hcontrol : ∀ name d, control ≠ .stopWorker name d)
    (hcourse : Execution.Course around p (Execution.new c operation control input sink) past q x) :
    q.workers.size ≤ q.workers.capacity ∧ q.workers.capacity = p₀.workers.capacity := by
  have hr := Server.servesWorkers_registration hserver hglobals
  obtain ⟨hreplaces, hhosts', hregistration⟩ := h.replaces hr hhosts ⟨hmirrors, hlisted⟩ haround
  obtain ⟨hx, -⟩ := hcourse.onWorkers hhosts' hreplaces.toInLine haround hoperation hcontrol
    (hregistration ▸ hr)
  obtain ⟨hfits, hcapacity⟩ := hx.fits hreplaces.toFits
  exact ⟨hfits.room, hcapacity.trans hreplaces.capacity⟩

/-- A worker is restarted and another one takes the rest of the room. -/
theorem within_capacity_restaffing : ∃ q : Plane, q.workers.size = 2 ∧
    q.workers.size ≤ q.workers.capacity ∧ q.workers.capacity = staffed.workers.capacity := by
  have hrun : (Execution.alone staffed
      (.new 0 Operation.restaffing (.decide .keep) {} .discard) 39).any
        (fun reached => reached.2.1.workers.size == 2) = true := by decide +kernel
  obtain ⟨⟨past, q, x⟩, hcourse, hsize⟩ := (Option.any_eq_true _ _).mp hrun
  obtain ⟨r₀, hserver, hglobals⟩ := Server.exists_registration
  have hstart : Tends (fun _ _ => False) 0 staffed staffed := .start
  exact ⟨q, beq_iff_eq.mp hsize, Tends.within_capacity hserver hglobals ⟨by decide, by decide⟩
    listed_staffed mirrors_staffed (fun _ _ h => h.elim) hstart Operation.onWorkers_restaffing
    (by rintro _ _ ⟨⟩) (Execution.course_alone hcourse)⟩

/-- There is room for one worker.  It is removed, another one is added, and it is removed once more;
all three are committed, the latest first.  The first removal conflicts with the last one, and takes
back a worker that there is no room for any more. -/
theorem overlapping_removals :
    let m := Machine.overlapped { staffed with workers := { staffed.workers with capacity := 1 } }
      [Operation.dismissing "a", Operation.hiring "b", Operation.dismissing "a"]
    m.ready.isEmpty = true ∧ m.blocked.isEmpty = true ∧ m.plane.workers.capacity = 1 ∧
      m.plane.workers.size = 2 := by
  decide +kernel

end Tends

end Plane

end ManagementPlane
