import ManagementPlane.Proofs.Machine.Clings
import ManagementPlane.Proofs.Machine.Fair
import ManagementPlane.Proofs.Model.Lock

/-!
# Proofs/Machine/Grasps — where an operation stands at the write lock

An operation is away from the write lock of its controller, waits for it, or holds it
(`Execution.grip`), and only in the first stage is the lock waited for or held
(`Execution.Orderly`).  `Execution.Grasps` is what a turn may do about it: it moves the lock and the
operation together, in one of the ways of `WriteLock.Turns`, and leaves all other locks alone.
-/

namespace ManagementPlane

/-! ## The locks of a plane -/

namespace Plane

variable {p q r : Plane} {c : Nat} {l l' : WriteLock}

/-- The lock of controller `c` has become `l`, and all other locks are as they were. -/
structure Relocks (c : Nat) (l : WriteLock) (p q : Plane) : Prop where
  length : q.controllers.length = p.controllers.length
  recalls : p.Recalls q
  own : c < p.controllers.length → (q.tree c).lock = l
  others : ∀ d, d ≠ c ∨ p.controllers.length ≤ d → (q.tree d).lock = (p.tree d).lock

theorem Fair.relocks (h : p.Fair q) (c : Nat) : p.Relocks c (p.tree c).lock q :=
  ⟨by rw [h.controllers], h.recalls, fun _ => by rw [h.tree], fun d _ => by rw [h.tree]⟩

theorem Relocks.trans (h : p.Relocks c l q) (h' : q.Relocks c l' r) : p.Relocks c l' r :=
  ⟨h'.length.trans h.length, h.recalls.trans h'.recalls, fun hc => h'.own (h.length ▸ hc),
    fun d hd => (h'.others d (hd.imp_right (h.length ▸ ·))).trans (h.others d hd)⟩

theorem relocks_setTree (p : Plane) (c : Nat) (t : Tree) : p.Relocks c t.lock (p.setTree c t) := by
  refine ⟨List.length_modify _ _ _, fun _ h => h, fun hc => by rw [tree_setTree p hc], ?_⟩
  intro d hd
  rw [Plane.tree, setTree, controller_modifyController, if_neg]
  · rfl
  · rintro ⟨rfl, hlt⟩
    rcases hd with hd | hd
    · exact hd rfl
    · exact absurd hlt (Nat.not_lt_of_le hd)

end Plane

/-! ## Where an operation stands -/

namespace Phase

/-- Whether the operation waits for the lock. -/
def awaitsLock : Phase → Bool
  | locking _ | handling _ (.acquiring ..) => true
  | _ => false

/-- Whether the model is committed or rolled back. -/
def isSettled : Phase → Bool
  | unwinding .kept | unwinding (.rolledBack _) | draining .. | ended _ => true
  | _ => false

/-- Whether the operation works, or tells that it failed. -/
def isPlain : Phase → Bool
  | stepping | unwinding .failed | unwinding (.fatal _) => true
  | handling _ (.acquiring ..) => false
  | handling .. => true
  | _ => false

end Phase

namespace Execution

def grip (x : Execution) : Grip :=
  if x.context.transaction.holdsLock then .holding
  else if x.phase.awaitsLock then .waiting else .away

/-- The lock is for the first stage.  Its number an operation gets when it is accepted. -/
structure Orderly (x : Execution) : Prop where
  waits : x.phase.awaitsLock = true →
    x.context.transaction.hasIntent = false ∧ x.context.stage = .model
  later : x.context.stage ≠ .model → x.context.transaction.holdsLock = false
  opening : x.phase = .opening →
    x.context.transaction.hasIntent = false ∧ x.context.stage = .model ∧ x.context.id = 0
  deciding : ∀ h due, x.phase = .deciding h due → x.context.stage ≠ .model
  settled : x.phase.isSettled = true → x.context.transaction.hasIntent = false
  named : x.context.id = 0 → x.phase = .opening ∨ ∃ answer, x.phase = .ended answer

/-- What a turn makes of the lock of the operation's controller. -/
structure Grasps (p : Plane) (x : Execution) (q : Plane) (y : Execution) : Prop where
  orderly : y.Orderly
  controller : y.controller = x.controller
  lock : ∃ l, p.Relocks x.controller l q ∧
    WriteLock.Turns y.context.transaction.writer (p.tree x.controller).lock x.grip l y.grip
  /-- The number is a new one, or stays. -/
  number : q.writers = p.writers ∧ y.context.id = x.context.id ∧
      y.context.transaction.writer = x.context.transaction.writer ∨
    q.writers = p.writers + 1 ∧ x.context.id = 0 ∧ y.context.id ≠ 0 ∧
      y.context.transaction.writer = p.writers

variable {p q r : Plane} {x y : Execution} {z : Context} {phase : Phase}

theorem not_holdsLock {t : Transaction} (h : t.hasIntent = false) : t.holdsLock = false := by
  by_contra hholds
  rw [Transaction.hasIntent_of_holdsLock t (Bool.not_eq_false _ ▸ hholds)] at h
  cases h

theorem Orderly.away (h : x.Orderly) (hx : x.phase.isSettled = true ∨ x.context.id = 0) :
    x.grip = .away := by
  have hphase : x.context.transaction.hasIntent = false ∧ x.phase.awaitsLock = false := by
    rcases hx with hx | hx
    · refine ⟨h.settled hx, ?_⟩
      cases hphase : x.phase <;> rw [hphase] at hx <;> first | rfl | cases hx
    · rcases h.named hx with hphase | ⟨answer, hphase⟩
      · exact ⟨(h.opening hphase).1, by rw [hphase]; rfl⟩
      · exact ⟨h.settled (by rw [hphase]; rfl), by rw [hphase]; rfl⟩
  rw [grip, not_holdsLock hphase.1, hphase.2]
  rfl

theorem not_awaitsLock_of_isPlain (h : phase.isPlain = true) : phase.awaitsLock = false := by
  cases phase with
  | handling step w => cases w <;> first | rfl | cases h
  | _ => first | rfl | cases h

theorem not_isSettled_of_isPlain (h : phase.isPlain = true) : phase.isSettled = false := by
  cases phase with
  | unwinding e => cases e <;> first | rfl | cases h
  | _ => first | rfl | cases h

theorem Orderly.plain (h : x.Orderly) (hz : x.context.Clings z) (hid : x.context.id ≠ 0)
    (hphase : phase.isPlain = true) : Orderly { x with context := z, phase } := by
  refine ⟨fun hwaits => ?_, fun hstage => ?_, ?_, ?_, fun hsettled => ?_, fun h => ?_⟩
  · cases (not_awaitsLock_of_isPlain hphase).symm.trans hwaits
  · exact hz.holds.trans (h.later (hz.stage ▸ hstage))
  · rintro rfl
    cases hphase
  · rintro handle due rfl
    cases hphase
  · cases (not_isSettled_of_isPlain hphase).symm.trans hsettled
  · exact absurd (hz.id.symm.trans h) hid

theorem grip_of_clings (hz : x.context.Clings z) (h : phase.awaitsLock = x.phase.awaitsLock) :
    grip { x with context := z, phase } = x.grip := by
  rw [grip, grip, hz.holds, h]

/-- The lock stays as it is, and so does the operation. -/
theorem Grasps.of_stays (hy : y.Orderly) (hcontroller : y.controller = x.controller)
    (hq : p.Relocks x.controller (p.tree x.controller).lock q) (hwriters : q.writers = p.writers)
    (hid : y.context.id = x.context.id)
    (hwriter : y.context.transaction.writer = x.context.transaction.writer)
    (hgrip : y.grip = x.grip) : Grasps p x q y :=
  ⟨hy, hcontroller, ⟨_, hq, hgrip ▸ .stays⟩, .inl ⟨hwriters, hid, hwriter⟩⟩

/-- The operation goes on with its work. -/
theorem Orderly.goes (h : x.Orderly) (hq : p.Fair q) (hz : x.context.Clings z)
    (hid : x.context.id ≠ 0) (hx : x.phase.awaitsLock = false) (hphase : phase.isPlain = true) :
    Grasps p x q { x with context := z, phase } :=
  .of_stays (h.plain hz hid hphase) rfl (hq.relocks _) hq.writers hz.id hz.writer
    (grip_of_clings hz ((not_awaitsLock_of_isPlain hphase).trans hx.symm))

theorem Orderly.blocks (h : x.Orderly) : Grasps p x p x :=
  .of_stays h rfl ((Plane.Fair.refl p).relocks _) rfl rfl rfl rfl

/-- Before the turn there may be other work. -/
theorem Grasps.of_fair (hp : p.Fair q) (hz : x.context.Clings z)
    (h : Grasps q { x with context := z } r y) : Grasps p x r y := by
  obtain ⟨l, hr, hturns⟩ := h.lock
  rw [hp.tree, grip_of_clings hz rfl] at hturns
  refine ⟨h.orderly, h.controller, ⟨l, (hp.relocks _).trans hr, hturns⟩, ?_⟩
  rw [← hp.writers, ← hz.id, ← hz.writer]
  exact h.number

/-- And after it the step may end. -/
theorem Grasps.plain (h : Grasps p x q y) (hz : y.context.Clings z) (hid : y.context.id ≠ 0)
    (hy : y.phase.awaitsLock = false) (hphase : phase.isPlain = true) :
    Grasps p x q { y with context := z, phase } := by
  obtain ⟨l, hq, hturns⟩ := h.lock
  refine ⟨h.orderly.plain hz hid hphase, h.controller, ⟨l, hq, ?_⟩, ?_⟩
  · rw [grip_of_clings hz ((not_awaitsLock_of_isPlain hphase).trans hy.symm),
      show Context.transaction _ = z.transaction from rfl, hz.writer]
    exact hturns
  · show _ ∧ z.id = _ ∧ z.transaction.writer = _ ∨ _ ∧ _ ∧ z.id ≠ 0 ∧ z.transaction.writer = _
    rw [hz.id, hz.writer]
    exact h.number

theorem exists_afterStep (x : Execution) (step : Step) (out : Except OperationError Unit) :
    ∃ z phase, x.afterStep step out = { x with context := z, phase } ∧ x.context.Clings z ∧
      Phase.isPlain phase = true := by
  have hclings := x.context.clings_endStep step out
  rcases x.context.endStep_cases step out with ⟨hnone, -⟩ | ⟨hfailed, -⟩ | ⟨⟨reason, hfatal⟩, -⟩
  · exact ⟨_, _, afterStep_of_none hnone, hclings, rfl⟩
  · exact ⟨_, _, afterStep_of_some hfailed, hclings, rfl⟩
  · exact ⟨_, _, afterStep_of_some hfatal, hclings, rfl⟩

theorem Grasps.afterStep (h : Grasps p x q y) (hid : y.context.id ≠ 0)
    (hy : y.phase.awaitsLock = false) (step : Step) (out : Except OperationError Unit) :
    Grasps p x q (y.afterStep step out) := by
  obtain ⟨z, phase, heq, hz, hphase⟩ := y.exists_afterStep step out
  rw [heq]
  exact h.plain hz hid hy hphase

theorem Orderly.clings (h : x.Orderly) (hz : x.context.Clings z) :
    Orderly { x with context := z } where
  waits hwaits := ⟨hz.intent.trans (h.waits hwaits).1, hz.stage.trans (h.waits hwaits).2⟩
  later hstage := hz.holds.trans (h.later (hz.stage ▸ hstage))
  opening hphase := by
    obtain ⟨hintent, hstage, hid⟩ := h.opening hphase
    exact ⟨hz.intent.trans hintent, hz.stage.trans hstage, hz.id.trans hid⟩
  deciding handle due hphase := by
    rw [show Context.stage _ = z.stage from rfl, hz.stage]
    exact h.deciding handle due hphase
  settled hsettled := hz.intent.trans (h.settled hsettled)
  named hid := h.named (hz.id.symm.trans hid)

/-- What is fair changes nothing for the operation. -/
theorem Grasps.fair (h : Grasps p x q y) (hr : q.Fair r) : Grasps p x r y := by
  obtain ⟨l, hq, hturns⟩ := h.lock
  have hlock : x.controller < p.controllers.length → (r.tree x.controller).lock = l := fun hc => by
    rw [hr.tree]
    exact hq.own hc
  refine ⟨h.orderly, h.controller, ⟨l, ⟨?_, hq.recalls.trans hr.recalls, hlock, ?_⟩, hturns⟩, ?_⟩
  · rw [hr.controllers]
    exact hq.length
  · intro d hd
    rw [hr.tree]
    exact hq.others d hd
  · rw [hr.writers]
    exact h.number

/-! ## Taking the lock -/

theorem takeLock?_cases {c : Nat} {t t' : Transaction} (h : p.takeLock? c t = some (q, t')) :
    (t.hasIntent = true ∧ t' = t ∧ q = p.setTree c (p.tree c)) ∨
      (t' = t.stage (p.tree c) ∧ ((p.tree c).lock.request t.writer).holder = some t.writer ∧
        q = p.setTree c { p.tree c with lock := (p.tree c).lock.request t.writer }) := by
  obtain ⟨⟨tree, t''⟩, hacquire, hq⟩ := Option.map_eq_some_iff.mp h
  obtain ⟨rfl, rfl⟩ := Prod.mk.inj hq
  obtain ⟨hintent, rfl, rfl⟩ | ⟨-, hholder, rfl, rfl⟩ := Transaction.acquire?_cases hacquire
  · exact .inl ⟨hintent, rfl, rfl⟩
  · exact .inr ⟨rfl, hholder, rfl⟩

theorem takeLock?_eq_none {c : Nat} {t : Transaction} (h : p.takeLock? c t = none) :
    t.hasIntent = false ∧ ((p.tree c).lock.request t.writer).holder ≠ some t.writer :=
  Transaction.acquire?_eq_none (Option.map_eq_none_iff.mp h)

/-- The operation has the lock, or had it before. -/
theorem Orderly.takes {t : Transaction} (h : x.Orderly) (hstage : x.context.stage = .model)
    (hid : x.context.id ≠ 0) (hphase : phase.isPlain = true)
    (htake : p.takeLock? x.controller x.context.transaction = some (q, t)) :
    Grasps p x q { x.withTransaction t with phase } := by
  have hsame := p.relocks_setTree x.controller (p.tree x.controller)
  have horderly : Orderly { x.withTransaction t with phase } := by
    refine ⟨fun hwaits => ?_, fun hlater => absurd hstage hlater, ?_, ?_, fun hsettled => ?_,
      fun h => absurd h hid⟩
    · cases (not_awaitsLock_of_isPlain hphase).symm.trans hwaits
    · rintro rfl
      cases hphase
    · rintro handle due rfl
      cases hphase
    · cases (not_isSettled_of_isPlain hphase).symm.trans hsettled
  rcases takeLock?_cases htake with ⟨hintent, rfl, rfl⟩ | ⟨rfl, hholder, rfl⟩
  · -- with the intent to write there is nothing to wait for
    have hwaits : x.phase.awaitsLock = false := by
      by_contra hwaits
      cases hintent.symm.trans (h.waits (Bool.not_eq_false _ ▸ hwaits)).1
    exact .of_stays horderly rfl hsame rfl rfl rfl
      (grip_of_clings (.refl _) ((not_awaitsLock_of_isPlain hphase).trans hwaits.symm))
  · exact ⟨horderly, rfl, ⟨_, p.relocks_setTree _ _, .takes hholder⟩, .inl ⟨rfl, rfl, rfl⟩⟩

/-- The operation queues for the lock. -/
theorem Orderly.queues (h : x.Orderly) (hstage : x.context.stage = .model)
    (hid : x.context.id ≠ 0) (hphase : phase.awaitsLock = true)
    (htake : p.takeLock? x.controller x.context.transaction = none) :
    Grasps p x (p.queueForLock x.controller x.context.transaction) { x with phase } := by
  obtain ⟨hintent, -⟩ := takeLock?_eq_none htake
  have hgrip : grip { x with phase } = .waiting := by
    rw [grip, show Context.transaction _ = x.context.transaction from rfl, not_holdsLock hintent,
      show Execution.phase _ = phase from rfl, hphase]
    rfl
  refine ⟨⟨fun _ => ⟨hintent, hstage⟩, h.later, ?_, ?_, fun _ => hintent,
    fun h => absurd h hid⟩, rfl, ⟨_, p.relocks_setTree _ _, hgrip ▸ .queues⟩, .inl ⟨rfl, rfl, rfl⟩⟩
  · rintro rfl
    cases hphase
  · rintro handle due rfl
    cases hphase

/-- The operation waited long enough. -/
theorem Orderly.leaves (h : x.Orderly) (hx : x.phase.awaitsLock = true)
    (hphase : phase.isPlain = true ∨ ∃ answer, phase = .ended answer)
    (htake : p.takeLock? x.controller x.context.transaction = none) :
    Grasps p x (p.leaveLock x.controller x.context.transaction) { x with phase } := by
  obtain ⟨hintent, hholder⟩ := takeLock?_eq_none htake
  have hid : x.context.id ≠ 0 := by
    intro hid
    rcases h.named hid with hopening | ⟨answer, hended⟩
    · rw [hopening] at hx
      cases hx
    · rw [hended] at hx
      cases hx
  have hwaits : phase.awaitsLock = false := by
    rcases hphase with hplain | ⟨answer, rfl⟩
    · exact not_awaitsLock_of_isPlain hplain
    · rfl
  have hwaiting : x.grip = .waiting := by
    rw [grip, not_holdsLock hintent, hx]
    rfl
  have haway : grip { x with phase } = .away := by
    rw [grip, show Context.transaction _ = x.context.transaction from rfl, not_holdsLock hintent,
      show Execution.phase _ = phase from rfl, hwaits]
    rfl
  refine ⟨⟨fun h => ?_, h.later, ?_, ?_, fun _ => hintent, fun h => absurd h hid⟩, rfl,
    ⟨_, p.relocks_setTree _ _, ?_⟩, .inl ⟨rfl, rfl, rfl⟩⟩
  · cases hwaits.symm.trans h
  · rintro rfl
    rcases hphase with ⟨⟨⟩⟩ | ⟨answer, ⟨⟩⟩
  · rintro handle due rfl
    rcases hphase with ⟨⟨⟩⟩ | ⟨answer, ⟨⟩⟩
  · rw [hwaiting, haway]
    exact .leaves hholder

/-- The operation gives up the lock, if it has it, and stages no more. -/
theorem Grasps.of_releases {t : Tree} (hx : x.phase.awaitsLock = false)
    (hlock : t.lock = if x.context.transaction.holdsLock then (p.tree x.controller).lock.release
      else (p.tree x.controller).lock)
    (hy : y.Orderly) (hcontroller : y.controller = x.controller)
    (hyid : y.context.id = x.context.id)
    (hwriter : y.context.transaction.writer = x.context.transaction.writer)
    (haway : y.grip = .away) : Grasps p x (p.setTree x.controller t) y := by
  refine ⟨hy, hcontroller, ⟨t.lock, p.relocks_setTree _ _, ?_⟩, .inl ⟨rfl, hyid, hwriter⟩⟩
  rw [hlock, haway, grip, hx]
  cases x.context.transaction.holdsLock
  · exact .stays
  · exact .releases

end Execution

end ManagementPlane
