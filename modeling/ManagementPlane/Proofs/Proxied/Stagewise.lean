import ManagementPlane.Proofs.Proxied.Runs

/-!
# Proofs/Proxied/Stagewise — every operation keeps to its stages, and the lock to the first of them

In every world that is reached the turns of an operation keep to its stages (`Disciplined`), and
whatever number is on a write lock belongs to an operation whose first stage lasts.  So the lock is
neither held by an operation nor kept for it once it runs later steps, waits for its decision, has
returned or has broken down (`World.Stagewise`).

What an operation accepts by the time it prepares it has run.  Its completions can still queue steps
when it has, and those are accepted and never run (`World.accepted_never_run`).
-/

namespace ManagementPlane

open Plane Execution

/-- Who stands at a lock is in its first stage, and has neither committed nor rolled back. -/
theorem Execution.Orderly.first {x : Execution} (h : x.Orderly) (hgrip : x.grip ≠ .away) :
    x.context.stage = .model ∧ x.phase.isSettled = false := by
  refine ⟨?_, Bool.eq_false_iff.mpr fun hsettled => hgrip (h.away (.inl hsettled))⟩
  by_contra hstage
  rw [grip, h.later hstage] at hgrip
  split at hgrip
  · next hfalse => cases hfalse
  · split at hgrip
    · next hwaits => exact hstage (h.waits hwaits).2
    · exact hgrip rfl

namespace World

variable {w w' : World}

/-- The operations of a world keep to their stages, and the locks to the first one. -/
structure Stagewise (w : World) : Prop where
  disciplined : ∀ x ∈ w.executions, ∃ turns, Chronicle turns w.plane x ∧ turns.Sublist w.past ∧
    Disciplined turns x
  /-- No two operations that run have the same number. -/
  numbered : (w.executions.filterMap number?).Nodup
  /-- Only an operation whose first stage lasts is on a lock, and that is the one of its
  controller. -/
  locked : ∀ c, ∀ v ∈ (w.plane.tree c).lock.writers, ∃ x ∈ w.executions,
    x.number? = some v ∧ x.controller = c ∧ x.context.stage = .model ∧ x.phase.isSettled = false
  /-- So it is on none in a later stage, while it waits for its decision, and when it returned. -/
  free : ∀ x ∈ w.executions,
    (x.context.stage ≠ .model ∨ (∃ handle due, x.phase = .deciding handle due) ∨
      ∃ answer, x.phase = .ended answer) →
    x.context.transaction.holdsLock = false ∧
      ∀ v, x.number? = some v → ∀ c, v ∉ (w.plane.tree c).lock.writers
  /-- And whether it returned or broke down, it is on none ever after. -/
  returned : ∀ v < w.plane.writers,
    (∀ x ∈ w.executions, x.number? = some v → ∃ answer, x.phase = .ended answer) →
    ∀ w', w.FairLeads w' → ∀ c, v ∉ (w'.plane.tree c).lock.writers

theorem Guarded.locked {gone : Nat → Prop} (h : Guarded gone w) {c v : Nat}
    (hv : v ∈ (w.plane.tree c).lock.writers) : ∃ x ∈ w.executions, x.number? = some v ∧
      x.controller = c ∧ x.context.stage = .model ∧ x.phase.isSettled = false := by
  obtain ⟨x, hx, hc, hnumber, hgrip⟩ := h.heeds.locked.owned c v hv
  exact ⟨x, hx, hnumber, hc, (h.heeds.locked.orderly x hx).first hgrip⟩

theorem eq_of_number? {xs : List Execution} (h : (xs.filterMap number?).Nodup) {x y : Execution}
    (hx : x ∈ xs) (hy : y ∈ xs) {v : Nat} (hxv : x.number? = some v) (hyv : y.number? = some v) :
    x = y := by
  induction xs with
  | nil => cases hx
  | cons z xs ih =>
    have hrest : (xs.filterMap number?).Nodup :=
      h.sublist ((List.sublist_cons_self z xs).filterMap number?)
    have hnot : z.number? = some v → ∀ y ∈ xs, y.number? ≠ some v := by
      intro hz y hy hyv
      rw [List.filterMap_cons_some hz] at h
      exact (List.nodup_cons.mp h).1 (List.mem_filterMap.mpr ⟨y, hy, hyv⟩)
    rcases List.mem_cons.mp hx with rfl | hx' <;> rcases List.mem_cons.mp hy with rfl | hy'
    · rfl
    · exact absurd hyv (hnot hxv y hy')
    · exact absurd hxv (hnot hyv x hx')
    · exact ih hrest hx' hy'

/-- A machine with one controller and two operations: one has steps in two stages and leaves its
decision to a caller, and one waits in its only step. -/
def overlapping : Machine where
  plane := {
    controllers := [{
      name := "main"
      registration := { Registration.root "" with operations := [
        ("go", {
          definition := { name := "go" }
          handler := .script [
            .step .runtime [.log "applied"] none false none,
            .step .model [.set none "size" (.integer 2)] none false none,
            .step .model [.set none "size" (.integer 1)] none true none] }),
        ("stay", {
          definition := { name := "stay" }
          handler := .script [.wait 100 "a while"] })] }
      tree := { root := {} } }]
    processes := [.running] }
  ready := [
    .operation [Execution.new 0 (.object [(Key.operation, .string "go")]) (.hold 0) {} .discard]
      (.ticket 0),
    .operation [Execution.new 0 (.object [(Key.operation, .string "stay")]) (.decide .keep) {}
      .discard] (.ticket 1)]

/-- **Every operation keeps to its stages, and the lock to the first of them**, in every world that
is reached: whatever the steps do, whatever the other operations do, and whatever ends it. -/
theorem Attended.stagewise (h : w.Attended) : w.Stagewise := by
  have hguarded := h.guarded
  have hlocked := hguarded.heeds.locked
  constructor
  · intro x hx
    obtain ⟨turns, hturns, hsub⟩ := hguarded.heeds.chronicled x hx
    exact ⟨turns, hturns, hsub, hturns.disciplined⟩
  · exact hlocked.numbers
  · exact fun c v hv => hguarded.locked hv
  · intro x hx hlate
    have horderly := hlocked.orderly x hx
    have hpast : x.context.stage ≠ .model ∨ x.phase.isSettled = true := by
      rcases hlate with hstage | ⟨handle, due, hphase⟩ | ⟨answer, hphase⟩
      · exact .inl hstage
      · exact .inl (horderly.deciding handle due hphase)
      · exact .inr (by rw [hphase]; rfl)
    refine ⟨?_, fun v hxv c hv => ?_⟩
    · rcases hpast with hstage | hsettled
      · exact horderly.later hstage
      · exact not_holdsLock (horderly.settled hsettled)
    · obtain ⟨y, hy, hyv, -, hstage, hsettled⟩ := hguarded.locked hv
      obtain rfl := eq_of_number? hlocked.numbers hx hy hxv hyv
      rcases hpast with hlater | hclosed
      · exact hlater hstage
      · cases hsettled.symm.trans hclosed
  · intro v hlt hreturned w' hleads c hv
    have hretired : Guarded (· = v) w :=
      ⟨⟨hlocked, hguarded.heeds.chronicled, fun _ h => h ▸ hlt, fun _ h => h ▸ hreturned⟩,
        hguarded.nesting⟩
    have hlater := hretired.leads hleads
    obtain ⟨x, hx, hnumber, -, -, hsettled⟩ := hlater.locked hv
    obtain ⟨answer, hphase⟩ := hlater.heeds.returned v rfl x hx hnumber
    rw [hphase] at hsettled
    cases hsettled

/-- One operation waits for its decision, and the next one has the lock. -/
theorem stagewise_overlapping : ∃ w : World, w.Attended ∧
    (∃ x ∈ w.executions, x.number? = some 0 ∧ ∃ handle due, x.phase = .deciding handle due) ∧
    (w.plane.tree 0).lock.holder = some 1 ∧ w.Stagewise := by
  have hfresh : World.Fresh ⟨overlapping.plane, [], []⟩ := by
    refine ⟨rfl, rfl, fun k => ?_, rfl, rfl⟩
    cases k <;> rfl
  have hfree : ∀ c, (overlapping.plane.tree c).lock = {} := by
    rintro (_ | c) <;> rfl
  have hbegins : ∀ (tasks : List Task) (t : Task), (t.Begins fun _ => False) →
      FairStep ⟨overlapping.plane, tasks, []⟩ ⟨overlapping.plane, t :: tasks, []⟩ :=
    fun tasks t ht => .around (.begins ⟨_, tasks, []⟩ ht) ((Fair.refl _).respects _)
  have hbegun : FairLeads ⟨overlapping.plane, [], []⟩ (ofMachine overlapping []) :=
    (Relation.ReflTransGen.single (hbegins [] (.operation _ _) ⟨_, _, _, _, _, rfl⟩)).tail
      (hbegins [_] (.operation _ _) ⟨_, _, _, _, _, rfl⟩)
  obtain ⟨past, hleads⟩ := fairLeads_run (fun _ => true) none 40 overlapping []
  have hattended : (ofMachine (Machine.run (fun _ => true) none 40 overlapping) past).Attended :=
    ⟨_, hfresh, hfree, hbegun.trans hleads⟩
  have hrun : ((((Machine.run (fun _ => true) none 40 overlapping).ready ++
        (Machine.run (fun _ => true) none 40 overlapping).blocked).flatMap Task.stack).any
          fun x => decide (x.number? = some 0) && x.phase.isDeciding) = true ∧
      ((Machine.run (fun _ => true) none 40 overlapping).plane.tree 0).lock.holder = some 1 := by
    decide +kernel
  obtain ⟨x, hx, hdecides⟩ := List.any_eq_true.mp hrun.1
  obtain ⟨hnumber, hphase⟩ := Bool.and_eq_true_iff.mp hdecides
  exact ⟨_, hattended, ⟨x, hx, of_decide_eq_true hnumber, Phase.exists_of_isDeciding hphase⟩,
    hrun.2, Attended.stagewise hattended⟩

/-- An operation with one step, whose completion queues another one for the last stage. -/
def lingering : World where
  plane := {
    controllers := [{
      name := "main"
      registration := { Registration.root "" with operations := [
        ("go", {
          definition := { name := "go" }
          handler := .script [.complete "gone" [.step .done [.log "ran"] none false none]] })] }
      tree := { root := {} } }]
    processes := [.running] }
  tasks := [
    .operation [Execution.new 0 (.object [(Key.operation, .string "go")]) (.decide .keep) {}
      .discard] (.ticket 0)]

/-- **What an operation accepts once it has prepared is never run.**  A completion may queue a step
for the last stage, which is not over, but no step is picked any more. -/
theorem accepted_never_run : ∃ w : World, w.Attended ∧ w.tasks = [] ∧ (∃ k ∈ w.past, k.Decides) ∧
    (∃ m ∈ w.past, ∃ e, m.Accepts [e] ∧ e.stage = .done) ∧
    ∀ ran ∈ executed w.past, ran.1 ≠ .done := by
  have hfresh : World.Fresh ⟨lingering.plane, [], []⟩ := by
    refine ⟨rfl, rfl, fun k => ?_, rfl, rfl⟩
    cases k <;> rfl
  have hfree : ∀ c, (lingering.plane.tree c).lock = {} := by
    rintro (_ | c) <;> rfl
  have hbegun : FairLeads ⟨lingering.plane, [], []⟩ lingering := Relation.ReflTransGen.single
    (.around (.begins ⟨_, [], []⟩ (t := .operation _ _) ⟨_, _, _, _, _, rfl⟩)
      ((Fair.refl _).respects _))
  have hover : (turn^[15] lingering).tasks = [] ∧ (turn^[15] lingering).past.length = 14 ∧
      ∀ ran ∈ executed (turn^[15] lingering).past, ran.1 ≠ .done := by
    refine ⟨rfl, ?_⟩
    decide +kernel
  obtain ⟨htasks, hlength, hnever⟩ := hover
  refine ⟨_, ⟨_, hfresh, hfree, hbegun.trans (fair_turns 15 lingering)⟩, htasks, ?_, ?_, hnever⟩
  · exact ⟨_, List.getElem_mem (n := 3) (by rw [hlength]; decide), _, _, rfl⟩
  · -- the turn in which the completion is told
    refine ⟨_, List.getElem_mem (n := 2) (by rw [hlength]; decide),
      ⟨.done, ?queued, false⟩, ?accepts, rfl⟩
    case accepts =>
      intro y hy
      obtain rfl := Option.some.inj hy
      exact rfl

end World

end ManagementPlane
