import ManagementPlane.Proofs.Machine.Discipline
import ManagementPlane.Proofs.Proxied.World

/-!
# Proofs/Proxied/Locks — whom the write locks belong to

Every number on a write lock is that of one operation, which runs on the controller of the lock and
has the lock or waits for it (`Plane.Locked`).  The turn of an operation keeps that, because it
moves only its own number (`Locked.grasps`); and whoever breaks down lets go of its lock.

It holds in all worlds that come about by `World.FairStep`: what happens from outside leaves the
locks alone and takes no cancellation back (`Plane.Respects`).  There every operation also has its
turns behind it, with nothing taken back in between (`World.Guarded`).
-/

namespace ManagementPlane

open Plane Execution

namespace Execution

/-- The number by which locks know the operation, once it is accepted. -/
def number? (x : Execution) : Option Nat :=
  if x.context.id = 0 then none else some x.context.transaction.writer

theorem number?_eq_some {x : Execution} {v : Nat} :
    x.number? = some v ↔ x.context.id ≠ 0 ∧ x.context.transaction.writer = v := by
  rw [number?]
  split <;> simp_all

end Execution

namespace Plane

variable {p q : Plane} {x y : Execution} {xs ys : List Execution}

/-- The locks of a plane and the operations that run there. -/
structure Locked (p : Plane) (xs : List Execution) : Prop where
  orderly : ∀ x ∈ xs, x.Orderly
  numbers : (xs.filterMap number?).Nodup
  below : ∀ x ∈ xs, ∀ v ∈ x.number?, v < p.writers
  sane : ∀ c, (p.tree c).lock.Sane
  owned : ∀ c, ∀ v ∈ (p.tree c).lock.writers,
    ∃ x ∈ xs, x.controller = c ∧ x.number? = some v ∧ x.grip ≠ .away
  owns : ∀ x ∈ xs, x.controller < p.controllers.length → x.grip = .holding →
    (p.tree x.controller).lock.holder = some x.context.transaction.writer

/-- What happens from outside while `xs` run: no lock changes, no transaction begins, no
cancellation is taken back, and controllers are added that no operation runs on. -/
structure Respects (xs : List Execution) (p q : Plane) : Prop where
  added : ∀ x ∈ xs, x.controller < q.controllers.length → x.controller < p.controllers.length
  locks : ∀ c, (q.tree c).lock = (p.tree c).lock
  writers : q.writers = p.writers
  recalls : p.Recalls q

theorem lock_of_le {c : Nat} (h : p.controllers.length ≤ c) : (p.tree c).lock = {} := by
  rw [Plane.tree, Plane.controller, List.getElem?_eq_none h]
  rfl

theorem Fair.respects (h : p.Fair q) (xs : List Execution) : Respects xs p q :=
  ⟨fun _ _ hx => h.controllers ▸ hx, fun c => by rw [h.tree], h.writers, h.recalls⟩

theorem locked_nil (h : ∀ c, (p.tree c).lock = {}) : p.Locked [] where
  orderly := by rintro x ⟨⟩
  numbers := List.nodup_nil
  below := by rintro x ⟨⟩
  sane c := by
    rw [h]
    exact ⟨List.nodup_nil, fun _ => rfl⟩
  owned c v hv := by
    rw [h] at hv
    cases hv
  owns := by rintro x ⟨⟩

theorem Locked.perm (h : p.Locked xs) (hperm : xs.Perm ys) : p.Locked ys where
  orderly x hx := h.orderly x (hperm.mem_iff.mpr hx)
  numbers := (hperm.filterMap number?).nodup_iff.mp h.numbers
  below x hx := h.below x (hperm.mem_iff.mpr hx)
  sane := h.sane
  owned c v hv := by
    obtain ⟨x, hx, hrest⟩ := h.owned c v hv
    exact ⟨x, hperm.mem_iff.mp hx, hrest⟩
  owns x hx := h.owns x (hperm.mem_iff.mpr hx)

theorem Locked.respects (h : p.Locked xs) (hq : Respects xs p q) : q.Locked xs where
  orderly := h.orderly
  numbers := h.numbers
  below := hq.writers ▸ h.below
  sane c := hq.locks c ▸ h.sane c
  owned c := hq.locks c ▸ h.owned c
  owns x hx hc := hq.locks x.controller ▸ h.owns x hx (hq.added x hx hc)

/-- An operation that did nothing yet joins. -/
theorem Locked.begins (h : p.Locked xs) (c : Nat) (operation : Value) (control : Control)
    (input : Input) (sink : Sink) :
    p.Locked (Execution.new c operation control input sink :: xs) where
  orderly := List.forall_mem_cons.mpr ⟨orderly_new c operation control input sink, h.orderly⟩
  numbers := h.numbers
  below := List.forall_mem_cons.mpr ⟨by rintro v ⟨⟩, h.below⟩
  sane := h.sane
  owned d v hv := by
    obtain ⟨x, hx, hrest⟩ := h.owned d v hv
    exact ⟨x, List.mem_cons_of_mem _ hx, hrest⟩
  owns := List.forall_mem_cons.mpr ⟨fun _ hgrip => (by cases hgrip), h.owns⟩

/-- An operation that is away from the lock leaves. -/
theorem Locked.ends (h : p.Locked (x :: xs)) (hx : x.grip = .away) : p.Locked xs where
  orderly := (List.forall_mem_cons.mp h.orderly).2
  numbers := by
    refine h.numbers.sublist ?_
    exact (List.sublist_cons_self x xs).filterMap number?
  below := (List.forall_mem_cons.mp h.below).2
  sane := h.sane
  owned c v hv := by
    obtain ⟨y, hy, hcontroller, hnumber, hgrip⟩ := h.owned c v hv
    rcases List.mem_cons.mp hy with rfl | hy
    · exact absurd hx hgrip
    · exact ⟨y, hy, hcontroller, hnumber, hgrip⟩
  owns := (List.forall_mem_cons.mp h.owns).2

/-- Operations that run at the same time have different numbers. -/
theorem Locked.number?_ne (h : p.Locked (x :: xs)) (hy : y ∈ xs) {v : Nat}
    (hx : x.number? = some v) : y.number? ≠ some v := by
  have hnodup := h.numbers
  rw [List.filterMap_cons_some hx] at hnodup
  exact fun hv => (List.nodup_cons.mp hnodup).1 (List.mem_filterMap.mpr ⟨y, hy, hv⟩)

/-- Nobody has a number yet that is still to be given. -/
theorem Locked.fresh (h : p.Locked xs) (c : Nat) : p.writers ∉ (p.tree c).lock.writers := by
  intro hv
  obtain ⟨x, hx, -, hnumber, -⟩ := h.owned c _ hv
  exact absurd (h.below x hx _ hnumber) (Nat.lt_irrefl _)

/-- An operation is on the lock of its own controller only. -/
theorem Locked.own (h : p.Locked (x :: xs)) {c v : Nat} (hx : x.number? = some v)
    (hv : v ∈ (p.tree c).lock.writers) : c = x.controller ∧ x.grip ≠ .away := by
  obtain ⟨y, hy, hcontroller, hnumber, hgrip⟩ := h.owned c v hv
  rcases List.mem_cons.mp hy with rfl | hy
  · exact ⟨hcontroller.symm, hgrip⟩
  · exact absurd hnumber (h.number?_ne hy hx)

/-- What one operation makes of the locks, seen from number `v`: it is on no lock but `c`'s, and no
other number comes or goes. -/
theorem Relocks.spec {c v : Nat} {l : WriteLock} {g g' : Grip} (hq : p.Relocks c l q)
    (hturns : WriteLock.Turns v (p.tree c).lock g l g') (hsane : ∀ d, (p.tree d).lock.Sane)
    (hwaits : ∀ d, v ∈ (p.tree d).lock.writers → d = c ∧ g ≠ .away)
    (hholds : c < p.controllers.length → g = .holding → (p.tree c).lock.holder = some v) :
    (∀ d, (q.tree d).lock.Sane ∧ (v ∈ (q.tree d).lock.writers → d = c ∧ g' ≠ .away) ∧
      (∀ u ≠ v, u ∈ (q.tree d).lock.writers → u ∈ (p.tree d).lock.writers) ∧
      ∀ u ≠ v, (p.tree d).lock.holder = some u → (q.tree d).lock.holder = some u) ∧
    (c < p.controllers.length → g' = .holding → (q.tree c).lock.holder = some v) := by
  by_cases hc : c < p.controllers.length
  · have hspec := hturns.spec (hsane c) (fun hv => (hwaits c hv).2) (hholds hc)
    rw [← hq.own hc] at hspec
    refine ⟨fun d => ?_, fun _ => hspec.2.2.1⟩
    by_cases hd : d = c
    · subst hd
      exact ⟨hspec.1, fun hv => ⟨rfl, hspec.2.1 hv⟩, hspec.2.2.2⟩
    · rw [hq.others d (.inl hd)]
      exact ⟨hsane d, fun hv => absurd (hwaits d hv).1 hd, fun _ _ h => h, fun _ _ h => h⟩
  · refine ⟨fun d => ?_, fun h => absurd h hc⟩
    have hsame : (q.tree d).lock = (p.tree d).lock := by
      by_cases hd : d = c
      · exact hq.others d (.inr (hd ▸ Nat.le_of_not_lt hc))
      · exact hq.others d (.inl hd)
    rw [hsame]
    refine ⟨hsane d, fun hv => ?_, fun _ _ h => h, fun _ _ h => h⟩
    -- there is no controller, so nobody is on its lock
    rw [(hwaits d hv).1, lock_of_le (Nat.le_of_not_lt hc)] at hv
    cases hv

/-- The turn of an operation that has a number, after it at least. -/
theorem Locked.turns (h : p.Locked (x :: xs)) (hy : Grasps p x q y) {v : Nat}
    (hv : y.number? = some v)
    (hx : x.number? = some v ∧ q.writers = p.writers ∨
      x.number? = none ∧ v = p.writers ∧ q.writers = p.writers + 1) : q.Locked (y :: xs) := by
  obtain ⟨hxorderly, horderly⟩ := List.forall_mem_cons.mp h.orderly
  obtain ⟨hxbelow, hbelow⟩ := List.forall_mem_cons.mp h.below
  obtain ⟨hxowns, howns⟩ := List.forall_mem_cons.mp h.owns
  obtain ⟨l, hq, hturns⟩ := hy.lock
  obtain ⟨-, hwriter⟩ := number?_eq_some.mp hv
  rw [hwriter] at hturns
  -- no other operation has the number
  have hothers : ∀ z ∈ xs, z.number? ≠ some v := by
    intro z hz hzv
    rcases hx with ⟨hx, -⟩ | ⟨-, rfl, -⟩
    · exact h.number?_ne hz hx hzv
    · exact Nat.lt_irrefl _ (hbelow z hz _ hzv)
  have hxv : ∀ u, x.number? = some u → u = v := by
    intro u hu
    rcases hx with ⟨hx, -⟩ | ⟨hx, -, -⟩
    · exact Option.some.inj (hu.symm.trans hx)
    · cases hx.symm.trans hu
  have hwaits : ∀ d, v ∈ (p.tree d).lock.writers → d = x.controller ∧ x.grip ≠ .away := by
    intro d hmem
    rcases hx with ⟨hx, -⟩ | ⟨-, rfl, -⟩
    · exact h.own hx hmem
    · exact absurd hmem (h.fresh d)
  have hholds : x.controller < p.controllers.length → x.grip = .holding →
      (p.tree x.controller).lock.holder = some v := by
    intro hc hholding
    rcases hx with ⟨hx, -⟩ | ⟨hx, -, -⟩
    · exact (number?_eq_some.mp hx).2 ▸ hxowns hc hholding
    · have hid : x.context.id = 0 := by
        by_contra hid
        cases hx.symm.trans (number?_eq_some.mpr ⟨hid, rfl⟩)
      cases hholding.symm.trans (hxorderly.away (.inr hid))
  have hlt : p.writers ≤ q.writers ∧ v < q.writers := by
    rcases hx with ⟨hx, hwriters⟩ | ⟨-, rfl, hwriters⟩
    · exact ⟨Nat.le_of_eq hwriters.symm, hwriters ▸ hxbelow v hx⟩
    · exact ⟨hwriters ▸ Nat.le_succ _, hwriters ▸ Nat.lt_succ_self _⟩
  obtain ⟨hlocks, hown⟩ := hq.spec hturns h.sane hwaits hholds
  constructor
  · exact List.forall_mem_cons.mpr ⟨hy.orderly, horderly⟩
  · rw [List.filterMap_cons_some hv]
    refine List.nodup_cons.mpr ⟨fun hmem => ?_, ?_⟩
    · obtain ⟨z, hz, hzv⟩ := List.mem_filterMap.mp hmem
      exact hothers z hz hzv
    · exact h.numbers.sublist ((List.sublist_cons_self x xs).filterMap number?)
  · refine List.forall_mem_cons.mpr ⟨fun u hu => ?_, fun z hz u hu => ?_⟩
    · obtain rfl := Option.some.inj (hv.symm.trans hu)
      exact hlt.2
    · exact Nat.lt_of_lt_of_le (hbelow z hz u hu) hlt.1
  · exact fun d => (hlocks d).1
  · intro d u hu
    by_cases huv : u = v
    · subst huv
      obtain ⟨rfl, hgrip⟩ := (hlocks d).2.1 hu
      exact ⟨y, List.mem_cons_self, hy.controller, hv, hgrip⟩
    · obtain ⟨z, hz, hzc, hznumber, hzgrip⟩ := h.owned d u ((hlocks d).2.2.1 u huv hu)
      rcases List.mem_cons.mp hz with rfl | hz
      · exact absurd (hxv u hznumber) huv
      · exact ⟨z, List.mem_cons_of_mem y hz, hzc, hznumber, hzgrip⟩
  · refine List.forall_mem_cons.mpr ⟨fun hc hholding => ?_, fun z hz hc hholding => ?_⟩
    · rw [hy.controller] at hc ⊢
      rw [hwriter]
      exact hown (hq.length ▸ hc) hholding
    · have hzid : z.context.id ≠ 0 := fun hid => by
        cases hholding.symm.trans ((horderly z hz).away (.inr hid))
      refine (hlocks _).2.2.2 _ (fun huv => ?_) (howns z hz (hq.length ▸ hc) hholding)
      exact hothers z hz (number?_eq_some.mpr ⟨hzid, huv⟩)

/-- Without a number there is nothing to do with the lock. -/
theorem Locked.unnamed (h : p.Locked (x :: xs)) (hy : Grasps p x q y) (hx : x.context.id = 0)
    (hid : y.context.id = 0) (hwriters : q.writers = p.writers) : q.Locked (y :: xs) := by
  obtain ⟨hxorderly, horderly⟩ := List.forall_mem_cons.mp h.orderly
  obtain ⟨-, hbelow⟩ := List.forall_mem_cons.mp h.below
  obtain ⟨-, howns⟩ := List.forall_mem_cons.mp h.owns
  obtain ⟨l, hq, hturns⟩ := hy.lock
  have haway := hy.orderly.away (.inr hid)
  have hlocks : ∀ d, (q.tree d).lock = (p.tree d).lock := by
    intro d
    rw [hxorderly.away (.inr hx), haway] at hturns
    cases hturns
    by_cases hd : d = x.controller ∧ x.controller < p.controllers.length
    · rw [hd.1, hq.own hd.2]
    · refine hq.others d ?_
      by_contra hnot
      obtain ⟨hd', hlt⟩ := not_or.mp hnot
      exact hd ⟨not_not.mp hd', not_not.mp hd' ▸ Nat.lt_of_not_le hlt⟩
  have hnone : ∀ {z : Execution}, z.context.id = 0 → z.number? = none := fun hz => if_pos hz
  constructor
  · exact List.forall_mem_cons.mpr ⟨hy.orderly, horderly⟩
  · rw [List.filterMap_cons_none (hnone hid)]
    exact h.numbers.sublist ((List.sublist_cons_self x xs).filterMap number?)
  · rw [hwriters]
    refine List.forall_mem_cons.mpr ⟨?_, hbelow⟩
    rw [hnone hid]
    rintro v ⟨⟩
  · exact fun d => hlocks d ▸ h.sane d
  · intro d v hv
    rw [hlocks] at hv
    obtain ⟨z, hz, hzc, hznumber, hzgrip⟩ := h.owned d v hv
    rcases List.mem_cons.mp hz with rfl | hz
    · cases (hnone hx).symm.trans hznumber
    · exact ⟨z, List.mem_cons_of_mem y hz, hzc, hznumber, hzgrip⟩
  · refine List.forall_mem_cons.mpr ⟨fun _ hholding => ?_, fun z hz hc hholding => ?_⟩
    · cases haway.symm.trans hholding
    · rw [hlocks]
      exact howns z hz (hq.length ▸ hc) hholding

/-- **The turn of an operation keeps the locks with their operations.** -/
theorem Locked.grasps (h : p.Locked (x :: xs)) (hy : Grasps p x q y) : q.Locked (y :: xs) := by
  rcases hy.number with ⟨hwriters, hid, hwriter⟩ | ⟨hwriters, hid, hid', hwriter⟩
  · by_cases hx : x.context.id = 0
    · exact h.unnamed hy hx (hid.trans hx) hwriters
    · exact h.turns hy (number?_eq_some.mpr ⟨hid ▸ hx, hwriter⟩)
        (.inl ⟨number?_eq_some.mpr ⟨hx, rfl⟩, hwriters⟩)
  · exact h.turns hy (number?_eq_some.mpr ⟨hid', hwriter⟩) (.inr ⟨if_pos hid, rfl, hwriters⟩)

end Plane

/-! ## Operations with their turns -/

namespace Execution

variable {p q : Plane} {x y : Execution} {turns : List Moment}

/-- The turns, the latest first, that brought an operation from its beginning to where it is, while
no cancellation was taken back. -/
def Chronicle (turns : List Moment) (p : Plane) (x : Execution) : Prop :=
  ∃ p₀ c operation control input sink, Course Recalls p₀
    (Execution.new c operation control input sink) turns p x

theorem Chronicle.around (h : Chronicle turns p x) (hq : p.Recalls q) : Chronicle turns q x := by
  obtain ⟨p₀, c, operation, control, input, sink, hcourse⟩ := h
  exact ⟨p₀, c, operation, control, input, sink, hcourse.around hq⟩

theorem Chronicle.turn (h : Chronicle turns p x) (hopen : ∀ answer, x.phase ≠ .ended answer)
    (hy : (x.advance p).next.after? = some y) :
    Chronicle (⟨p, x⟩ :: turns) (x.advance p).plane y := by
  obtain ⟨p₀, c, operation, control, input, sink, hcourse⟩ := h
  exact ⟨p₀, c, operation, control, input, sink, hcourse.turn hopen hy⟩

theorem Chronicle.resume (h : Chronicle turns p x) (answer : Answer) :
    Chronicle turns (x.resume p answer).1 (x.resume p answer).2 := by
  obtain ⟨p₀, c, operation, control, input, sink, hcourse⟩ := h
  exact ⟨p₀, c, operation, control, input, sink, hcourse.resume answer⟩

theorem Chronicle.lived (h : Chronicle turns p x) : Lived turns x := by
  obtain ⟨p₀, c, operation, control, input, sink, hcourse⟩ := h
  exact hcourse.lived (lived_new c operation control input sink)

theorem Chronicle.disciplined (h : Chronicle turns p x) : Disciplined turns x := by
  obtain ⟨p₀, c, operation, control, input, sink, hcourse⟩ := h
  exact hcourse.disciplined

/-- The operation waits for another one that runs on top of it. -/
def IsNesting (x : Execution) : Prop := ∃ step frames, x.phase = .handling step (.nesting frames)

theorem grasps_resume (h : x.Orderly) (p : Plane) (answer : Answer) :
    Grasps p x (x.resume p answer).1 (x.resume p answer).2 := by
  have horderly := h.resume p answer
  rw [resume.eq_def] at horderly ⊢
  split at horderly
  · next step frames hphase =>
    have hfair : p.Fair (x.resume p answer).1 := by
      rw [resume.eq_def]
      split <;> exact .of_same rfl rfl rfl
    rw [resume.eq_def, hphase] at hfair
    refine .of_stays horderly rfl (hfair.relocks _) hfair.writers rfl rfl ?_
    rw [grip, grip, hphase]
    rfl
  · exact h.blocks

theorem Grasps.recalls (h : Grasps p x q y) : p.Recalls q := by
  obtain ⟨l, hlock, -⟩ := h.lock
  exact hlock.recalls

theorem Grasps.writers (h : Grasps p x q y) : p.writers ≤ q.writers := by
  rcases h.number with ⟨hwriters, -⟩ | ⟨hwriters, -⟩
  · exact Nat.le_of_eq hwriters.symm
  · exact hwriters ▸ Nat.le_succ _

/-- No number is given twice. -/
theorem Grasps.number?_of_lt (h : Grasps p x q y) {v : Nat} (hv : v < p.writers)
    (hy : y.number? = some v) : x.number? = some v := by
  obtain ⟨hid, rfl⟩ := number?_eq_some.mp hy
  rcases h.number with ⟨-, hxid, hwriter⟩ | ⟨-, -, -, hwriter⟩
  · exact number?_eq_some.mpr ⟨hxid ▸ hid, hwriter.symm⟩
  · exact absurd hwriter (Nat.ne_of_lt hv)

end Execution

namespace Plane

variable {gone : Nat → Prop} {p q : Plane} {x y : Execution} {xs ys : List Execution}
  {past past' : List Moment}

/-- The locks are with the operations `xs`, each of which has its turns in the past; and operations
with the numbers in `gone` have returned. -/
structure Heeds (gone : Nat → Prop) (p : Plane) (xs : List Execution) (past : List Moment) :
    Prop where
  locked : p.Locked xs
  chronicled : ∀ x ∈ xs, ∃ turns, Chronicle turns p x ∧ turns.Sublist past
  below : ∀ v, gone v → v < p.writers
  returned : ∀ v, gone v → ∀ x ∈ xs, x.number? = some v → ∃ answer, x.phase = .ended answer

/-- The operations that take no turn. -/
theorem chronicled_around (h : ∀ x ∈ xs, ∃ turns, Chronicle turns p x ∧ turns.Sublist past)
    (hq : p.Recalls q) (hpast : past.Sublist past') :
    ∀ x ∈ xs, ∃ turns, Chronicle turns q x ∧ turns.Sublist past' := by
  intro x hx
  obtain ⟨turns, hturns, hsub⟩ := h x hx
  exact ⟨turns, hturns.around hq, hsub.trans hpast⟩

theorem Heeds.perm (h : Heeds gone p xs past) (hperm : xs.Perm ys) : Heeds gone p ys past where
  locked := h.locked.perm hperm
  chronicled x hx := h.chronicled x (hperm.mem_iff.mpr hx)
  below := h.below
  returned v hv x hx := h.returned v hv x (hperm.mem_iff.mpr hx)

theorem Heeds.respects (h : Heeds gone p xs past) (hq : Respects xs p q) :
    Heeds gone q xs past where
  locked := h.locked.respects hq
  chronicled := chronicled_around h.chronicled hq.recalls (.refl _)
  below := hq.writers ▸ h.below
  returned := h.returned

theorem Heeds.fair (h : Heeds gone p xs past) (hq : p.Fair q) : Heeds gone q xs past :=
  h.respects (hq.respects xs)

theorem Heeds.mono (h : Heeds gone p xs past) (hpast : past.Sublist past') :
    Heeds gone p xs past' :=
  ⟨h.locked, chronicled_around h.chronicled (fun _ h => h) hpast, h.below, h.returned⟩

theorem Heeds.begins (h : Heeds gone p xs past) (c : Nat) (operation : Value) (control : Control)
    (input : Input) (sink : Sink) :
    Heeds gone p (Execution.new c operation control input sink :: xs) past where
  locked := h.locked.begins c operation control input sink
  chronicled := List.forall_mem_cons.mpr
    ⟨⟨[], ⟨p, c, operation, control, input, sink, .start⟩, List.nil_sublist _⟩, h.chronicled⟩
  below := h.below
  returned v hv := List.forall_mem_cons.mpr ⟨by rintro ⟨⟩, h.returned v hv⟩

theorem Heeds.ends (h : Heeds gone p (x :: xs) past) (hx : x.grip = .away) :
    Heeds gone p xs past where
  locked := h.locked.ends hx
  chronicled := (List.forall_mem_cons.mp h.chronicled).2
  below := h.below
  returned v hv := (List.forall_mem_cons.mp (h.returned v hv)).2

/-- What one operation makes of the locks, while it goes on. -/
theorem Heeds.grasps (h : Heeds gone p (x :: xs) past) (hgrasps : Grasps p x q y)
    (hpast : past.Sublist past') (hy : ∃ turns, Chronicle turns q y ∧ turns.Sublist past')
    (hended : ∀ answer, x.phase = .ended answer → y.phase = .ended answer) :
    Heeds gone q (y :: xs) past' where
  locked := h.locked.grasps hgrasps
  chronicled := List.forall_mem_cons.mpr
    ⟨hy, chronicled_around (List.forall_mem_cons.mp h.chronicled).2 hgrasps.recalls hpast⟩
  below v hv := Nat.lt_of_lt_of_le (h.below v hv) hgrasps.writers
  returned v hv := by
    obtain ⟨hx, hxs⟩ := List.forall_mem_cons.mp (h.returned v hv)
    refine List.forall_mem_cons.mpr ⟨fun hnumber => ?_, hxs⟩
    obtain ⟨answer, hphase⟩ := hx (hgrasps.number?_of_lt (h.below v hv) hnumber)
    exact ⟨answer, hended answer hphase⟩

theorem Heeds.turn (h : Heeds gone p (x :: xs) past) (hopen : ∀ answer, x.phase ≠ .ended answer)
    (hy : (x.advance p).next.after? = some y) :
    Heeds gone (x.advance p).plane (y :: xs) (⟨p, x⟩ :: past) := by
  obtain ⟨⟨turns, hturns, hsub⟩, -⟩ := List.forall_mem_cons.mp h.chronicled
  exact h.grasps (grasps_advance (h.locked.orderly x List.mem_cons_self) hy)
    (List.sublist_cons_self _ _) ⟨_, hturns.turn hopen hy, hsub.cons_cons _⟩
    fun answer hphase => absurd hphase (hopen answer)

theorem Heeds.resumes (h : Heeds gone p (x :: xs) past) (answer : Answer) :
    Heeds gone (x.resume p answer).1 ((x.resume p answer).2 :: xs) past := by
  obtain ⟨⟨turns, hturns, hsub⟩, -⟩ := List.forall_mem_cons.mp h.chronicled
  refine h.grasps (grasps_resume (h.locked.orderly x List.mem_cons_self) p answer) (.refl _)
    ⟨turns, hturns.resume answer, hsub⟩ fun answer' hphase => ?_
  rw [resume.eq_def, hphase]
  exact hphase

/-- Operations that break down let go. -/
theorem Heeds.discards (h : Heeds gone p (xs ++ ys) past)
    (hxs : ∀ x ∈ xs, ∃ step w, x.phase = .handling step w ∧ x.phase.awaitsLock = false) :
    Heeds gone (xs.foldl (fun q x => x.discard q) p) ys past := by
  induction xs generalizing p with
  | nil => exact h
  | cons x xs ih =>
    obtain ⟨⟨step, w, hphase, hx⟩, hxs⟩ := List.forall_mem_cons.mp hxs
    have hid := (h.locked.orderly x List.mem_cons_self).id_ne_zero (by rw [hphase]; rintro ⟨⟩)
      (by rw [hphase]; rintro _ ⟨⟩)
    obtain ⟨y, haway, hgrasps⟩ := grasps_discard p hx hid
    have hrest := chronicled_around (List.forall_mem_cons.mp h.chronicled).2 hgrasps.recalls
      (.refl _)
    refine ih ⟨(h.locked.grasps hgrasps).ends haway, hrest, fun v hv => ?_, fun v hv => ?_⟩ hxs
    · exact Nat.lt_of_lt_of_le (h.below v hv) hgrasps.writers
    · exact (List.forall_mem_cons.mp (h.returned v hv)).2

end Plane

/-! ## Tasks -/

namespace Task

variable {gone : Nat → Prop} {p : Plane} {x : Execution} {rest xs : List Execution}
  {past : List Moment} {origin : Origin}

/-- What the step of a task makes of the locks; the other operations are `xs`. -/
structure Minds (gone : Nat → Prop) (t : Task) (p : Plane) (xs : List Execution)
    (past : List Moment) : Prop where
  heeds : Heeds gone (t.advance p).plane ((t.advance p).progress.remains.flatMap stack ++ xs)
    (t.moments p ++ past)
  nesting : ∀ s ∈ (t.advance p).progress.remains, ∀ x ∈ s.stack.tail, x.IsNesting
  spawned : ∀ s ∈ (t.advance p).spawned, ∃ late, s.Begins late

/-- What a turn starts did nothing yet. -/
theorem spawned_advance {turns : List Moment} (h : Lived turns x)
    (hopen : ∀ answer, x.phase ≠ .ended answer) :
    ∀ s ∈ (x.advance p).spawned, ∃ late, s.Begins late := by
  by_cases htells : ∃ h d, x.Tells h d
  · obtain ⟨i, d, htells⟩ := htells
    obtain ⟨-, -, -, -, -, -, hspawned⟩ := tells_advance (p := p) h htells
    rw [hspawned]
    rintro s ⟨⟩
  · cases turned_advance (p := p) h hopen fun i d hd => htells ⟨i, d, hd⟩ with
    | deals _ _ _ hspawned => exact fun s hs => ⟨_, hspawned s hs⟩
    | crashes _ _ _ hspawned =>
      rw [hspawned]
      rintro s ⟨⟩

theorem minds_after (h : Heeds gone p (x :: rest ++ xs) past)
    (hopen : ∀ answer, x.phase ≠ .ended answer) {y : Execution}
    (hy : (x.advance p).next.after? = some y) (hnesting : ∀ z ∈ rest, z.IsNesting) :
    Minds gone (operation (x :: rest) origin) p xs past := by
  obtain ⟨⟨turns, hturns, -⟩, -⟩ := List.forall_mem_cons.mp h.chronicled
  obtain ⟨hmoments, hspawned⟩ := advanceStack_of_open (p := p) rest origin hopen
  obtain ⟨hplane, hremains⟩ := advanceStack_of_after rest origin hopen hy
  have hturn := Heeds.turn h hopen hy
  constructor
  · rw [hplane, hmoments]
    rcases hremains with hremains | ⟨-, c, value, hremains⟩
    · simpa [hremains, stack] using hturn
    · simpa [hremains, stack] using hturn.begins c value (.decide .keep) {} .discard
  · rcases hremains with hremains | ⟨hnests, c, value, hremains⟩
    · rw [hremains]
      rintro t (_ | ⟨_, ⟨⟩⟩)
      exact hnesting
    · rw [hremains]
      rintro t (_ | ⟨_, ⟨⟩⟩)
      exact List.forall_mem_cons.mpr ⟨hnests, hnesting⟩
  · rw [hspawned]
    exact spawned_advance hturns.lived hopen

theorem minds_crashed (h : Heeds gone p (x :: rest ++ xs) past)
    (hopen : ∀ answer, x.phase ≠ .ended answer) (hafter : (x.advance p).next.after? = none)
    (hnesting : ∀ z ∈ rest, z.IsNesting) : Minds gone (operation (x :: rest) origin) p xs past := by
  obtain ⟨⟨turns, hturns, -⟩, -⟩ := List.forall_mem_cons.mp h.chronicled
  obtain ⟨hfair, hx⟩ := fair_of_crash hafter
  have hhandling : ∃ step w, x.phase = .handling step w := by
    by_contra hnot
    obtain ⟨y, hy, -⟩ := leads_advance (p := p) fun step w hphase => hnot ⟨step, w, hphase⟩
    cases hafter.symm.trans hy
  obtain ⟨step, w, hphase⟩ := hhandling
  obtain ⟨reason, hnext⟩ := Next.eq_crashed hafter
  obtain ⟨hmoments, hspawned⟩ := advanceStack_of_open (p := p) rest origin hopen
  obtain ⟨hplane, hremains⟩ := advanceStack_of_crashed rest origin hopen hnext
  constructor
  · rw [hplane, hremains, hmoments]
    refine Heeds.fair ?_ (origin.fair_tellCrash _ reason)
    have hbroken := (Heeds.fair h hfair).mono (List.sublist_cons_self ⟨p, x⟩ past)
    refine Heeds.discards hbroken (List.forall_mem_cons.mpr ⟨⟨step, w, hphase, hx⟩, ?_⟩)
    intro z hz
    obtain ⟨step', frames, hz⟩ := hnesting z hz
    exact ⟨step', _, hz, by rw [hz]; rfl⟩
  · rw [hremains]
    rintro t ⟨⟩
  · rw [hspawned]
    exact spawned_advance hturns.lived hopen

/-- **The step of a task keeps the locks with their operations.** -/
theorem minds {t : Task} (h : Heeds gone p (t.stack ++ xs) past)
    (hnesting : ∀ x ∈ t.stack.tail, x.IsNesting) : Minds gone t p xs past := by
  cases t.proceeds p with
  | rests => exact ⟨h, by rintro t ⟨⟩, by rintro s ⟨⟩⟩
  | @tells x origin answer hphase hadvance hmoments =>
    have hrest : Heeds gone p xs past :=
      Heeds.ends h ((h.locked.orderly x List.mem_cons_self).away (.inl (by rw [hphase]; rfl)))
    constructor
    · rw [hadvance, hmoments]
      exact hrest.fair (origin.fair_tell p answer)
    all_goals
      rw [hadvance]
      rintro t ⟨⟩
  | @resumes x y ys origin answer hphase hadvance hmoments =>
    have hrest : Heeds gone p (y :: ys ++ xs) past :=
      Heeds.ends h ((h.locked.orderly x List.mem_cons_self).away (.inl (by rw [hphase]; rfl)))
    constructor
    · rw [hadvance, hmoments]
      simpa [Progress.remains, stack] using Heeds.resumes hrest answer
    · rw [hadvance]
      rintro t (_ | ⟨_, ⟨⟩⟩) z hz
      exact hnesting z (List.mem_cons_of_mem y hz)
    · rw [hadvance]
      rintro t ⟨⟩
  | turns hopen hy => exact minds_after h hopen hy hnesting
  | crashes hopen hnext => exact minds_crashed h hopen (by rw [hnext]; rfl) hnesting
  | other ht hstack hmoments =>
    rw [hstack] at h
    have hmoved := moved_advance p ht
    have hstacks : (t.advance p).progress.remains.flatMap stack = [] :=
      List.flatMap_eq_nil_iff.mpr fun s hs => (hmoved.remains s hs).1
    constructor
    · rw [hstacks, hmoments]
      exact Heeds.fair h (fair_advance p ht)
    · intro s hs y hy
      rw [(hmoved.remains s hs).1] at hy
      cases hy
    · exact fun s hs => ⟨_, hmoved.spawned s hs⟩

end Task

/-! ## All together -/

namespace World

variable {gone : Nat → Prop} {w w' : World}

/-- A step on which whatever happens from outside respects the operations that run. -/
inductive FairStep : World → World → Prop
  | runs (p : Plane) (t : Task) (tasks : List Task) (past : List Moment) :
    FairStep ⟨p, t :: tasks, past⟩
      { plane := (t.advance p).plane
        tasks := (t.advance p).spawned ++ ((t.advance p).progress.remains ++ tasks)
        past := t.moments p ++ past }
  | around {w w' : World} (h : Step w w') (hq : Respects w.executions w.plane w'.plane) :
    FairStep w w'

theorem FairStep.step (h : FairStep w w') : Step w w' := by
  cases h with
  | runs p t tasks past => exact .runs p t tasks past
  | around h => exact h

/-- One world comes to be another, and nobody interferes with the locks. -/
abbrev FairLeads : World → World → Prop := Relation.ReflTransGen FairStep

theorem FairLeads.leads (h : w.FairLeads w') : w.Leads w' := by
  induction h with
  | refl => exact .refl
  | tail _ hstep ih => exact ih.tail hstep.step

/-- The world was reached from one where nothing had happened and all locks were free. -/
def Attended (w : World) : Prop :=
  ∃ w₀ : World, w₀.Fresh ∧ (∀ c, (w₀.plane.tree c).lock = {}) ∧ w₀.FairLeads w

/-- The locks are with their operations, and what has another operation on top waits for that. -/
structure Guarded (gone : Nat → Prop) (w : World) : Prop where
  heeds : Heeds gone w.plane w.executions w.past
  nesting : ∀ t ∈ w.tasks, ∀ x ∈ t.stack.tail, x.IsNesting

theorem Guarded.fresh (hw : w.Fresh) (hlocks : ∀ c, (w.plane.tree c).lock = {}) :
    Guarded (fun _ => False) w := by
  constructor
  · rw [executions, hw.tasks]
    exact ⟨locked_nil hlocks, by rintro x ⟨⟩, by rintro v ⟨⟩, by rintro v ⟨⟩⟩
  · rw [hw.tasks]
    rintro t ⟨⟩

/-- Tasks that did nothing yet join. -/
theorem heeds_spawned {p : Plane} {xs : List Execution} {past : List Moment} (ts : List Task)
    (h : Heeds gone p xs past) (hts : ∀ t ∈ ts, ∃ late, t.Begins late) :
    Heeds gone p (ts.flatMap Task.stack ++ xs) past ∧
      ∀ t ∈ ts, ∀ x ∈ t.stack.tail, x.IsNesting := by
  induction ts with
  | nil => exact ⟨h, by rintro t ⟨⟩⟩
  | cons t ts ih =>
    obtain ⟨⟨late, ht⟩, hts⟩ := List.forall_mem_cons.mp hts
    obtain ⟨hheeds, hnesting⟩ := ih hts
    cases t with
    | operation stack origin =>
      obtain ⟨c, operation, control, input, sink, rfl⟩ := ht
      exact ⟨hheeds.begins c operation control input sink,
        List.forall_mem_cons.mpr ⟨by rintro x ⟨⟩, hnesting⟩⟩
    | _ => exact ⟨hheeds, List.forall_mem_cons.mpr ⟨by rintro x ⟨⟩, hnesting⟩⟩

theorem Guarded.runs {p : Plane} {t : Task} {tasks : List Task} {past : List Moment}
    (h : Guarded gone ⟨p, t :: tasks, past⟩) : Guarded gone
      { plane := (t.advance p).plane
        tasks := (t.advance p).spawned ++ ((t.advance p).progress.remains ++ tasks)
        past := t.moments p ++ past } := by
  obtain ⟨hheeds, hnesting⟩ := h
  obtain ⟨hhead, htail⟩ := List.forall_mem_cons.mp hnesting
  have hminds : Task.Minds gone t p (tasks.flatMap Task.stack) past := Task.minds hheeds hhead
  obtain ⟨hjoined, hspawned⟩ := heeds_spawned _ hminds.heeds hminds.spawned
  constructor
  · refine hjoined.perm (.of_eq ?_)
    simp [executions]
  · intro s hs
    rcases List.mem_append.mp hs with hs | hs
    · exact hspawned s hs
    · rcases List.mem_append.mp hs with hs | hs
      · exact hminds.nesting s hs
      · exact htail s hs

/-- **Every step keeps the locks with their operations.** -/
theorem Guarded.step (hw : Guarded gone w) (h : FairStep w w') : Guarded gone w' := by
  cases h with
  | runs => exact hw.runs
  | around h hq =>
    cases h with
    | orders hperm =>
      exact ⟨hw.heeds.perm (hperm.flatMap_right _),
        fun t ht => hw.nesting t (hperm.mem_iff.mpr ht)⟩
    | runs => exact hw.runs
    | @begins w t ht =>
      obtain ⟨hjoined, hspawned⟩ := heeds_spawned [t] hw.heeds
        (List.forall_mem_singleton.mpr ⟨_, ht⟩)
      refine ⟨hjoined.perm (.of_eq ?_),
        List.forall_mem_cons.mpr ⟨hspawned t List.mem_cons_self, hw.nesting⟩⟩
      simp [executions]
    | outside => exact ⟨hw.heeds.respects hq, hw.nesting⟩

theorem Guarded.leads (hw : Guarded gone w) (h : w.FairLeads w') : Guarded gone w' := by
  induction h with
  | refl => exact hw
  | tail _ hstep ih => exact ih.step hstep

/-- **The locks are with their operations, in every world that is reached.** -/
theorem Attended.guarded (h : w.Attended) : Guarded (fun _ => False) w := by
  obtain ⟨w₀, hfresh, hlocks, hleads⟩ := h
  exact (Guarded.fresh hfresh hlocks).leads hleads

end World

end ManagementPlane
