import ManagementPlane.Proofs.Machine.Steady

/-!
# Proofs/Machine/Atomic — an operation happens as a whole or not at all

As long as nobody else commits on its controller (`Plane.Spares`), an operation that answers with a
success has published exactly what it staged, and one that answers with a failure, or breaks down
fatally, has published nothing; its completions are told accordingly (`Course.all_or_nothing`).

The invariant is `Execution.Settled`: while the pipeline lasts, the transaction is based on the
published root, so that the commit takes the root as it was staged.
-/

namespace ManagementPlane

open Transaction (Keeps)

namespace Moment

/-- The turn changes the state of a process on instruction only. -/
def Minds (m : Moment) : Prop :=
  (∀ change, .process (some change) ∉ m.instructions) →
    m.turn.plane.processes = m.plane.processes

/-- What the turn staged is the root of the tree `t'`, published after the root of `t` if anything
was written. -/
structure Publishes (m : Moment) (t t' : Tree) : Prop where
  root : t'.root = m.execution.context.transaction.root
  version : t'.version =
    t.version + if m.execution.context.transaction.isDirty then 1 else 0

theorem Publishes.of_keeps {m : Moment} {t t' t'' : Tree} (h : m.Publishes t t')
    (ht : Keeps t' t'') : m.Publishes t t'' :=
  ⟨ht.1.trans h.root, ht.2.trans h.version⟩

end Moment

namespace Execution

variable {p p₀ : Plane} {past : List Moment} {x y : Execution}

/-- What the turn that commits makes of the plane. -/
theorem plane_of_commits (h : (Moment.mk p x).Commits) : ∃ handle published z,
    x.context.transaction.commit (p.tree x.controller) = (.ok (), published, z) ∧
      (x.advance p).plane =
        (p.modifyHandle handle Prepared.leave).setTree x.controller published := by
  obtain ⟨⟨handle, due, hphase, heffect⟩, hcommit, -⟩ := h
  obtain ⟨published, z, hpublished⟩ : ∃ published z,
      x.context.transaction.commit (p.tree x.controller) = (.ok (), published, z) :=
    ⟨_, _, Prod.ext hcommit rfl⟩
  refine ⟨handle, published, z, hpublished, ?_⟩
  have hadvance : x.advance p = apply p x handle .keep := by
    rw [advance, hphase]
    dsimp only
    rw [decide.eq_def]
    rw [show (p.handle handle).outlook.effect? = some .keep from heffect]
  rw [hadvance, apply.eq_def]
  dsimp only
  rw [show (p.modifyHandle handle Prepared.leave).tree x.controller = p.tree x.controller from rfl,
    hpublished]

/-- The turn that commits publishes what is staged. -/
theorem publishes_of_commits {t : Tree} (h : (Moment.mk p x).Commits)
    (hhosts : p.Hosts x.controller) (ht : Keeps t (p.tree x.controller))
    (hbased : x.context.transaction.Based t) :
    (Moment.mk p x).Publishes t ((x.advance p).plane.tree x.controller) ∧
      (x.advance p).plane.Hosts x.controller ∧
      (x.advance p).plane.processes = p.processes := by
  obtain ⟨handle, published, z, hpublished, hplane⟩ := plane_of_commits h
  have hsteady : p.Steady (p.modifyHandle handle Prepared.leave) :=
    Plane.steady_of_controllers rfl rfl
  have hleft := hsteady.hosts hhosts
  obtain ⟨hroot, hversion⟩ := hbased.commit ht hpublished
  rw [hplane, Plane.tree_setTree _ hleft.controller]
  exact ⟨⟨hroot, hversion⟩, Plane.hosts_setTree hleft _, rfl⟩

/-- **Only a fatal end and instructions change the state of a process.** -/
theorem minds_advance (h : ∀ reason, x.phase ≠ .unwinding (.fatal reason)) :
    (Moment.mk p x).Minds := by
  intro hinstructions
  rw [Moment.instructions] at hinstructions
  show (x.advance p).plane.processes = p.processes
  rw [advance]
  split
  · exact (still_begin p x).processes
  · exact (still_awaitLock p x _).processes
  · exact (still_pick p x).processes
  · rename_i step w hphase
    rw [hphase] at hinstructions
    exact (keeping_work p x step w).processes hinstructions
  · rename_i handle due hphase
    have happly : ∀ d, (apply p x handle d).plane.processes = p.processes := by
      intro d
      rw [apply.eq_def]
      dsimp only
      split
      · split <;> rfl
      · rfl
    rw [decide.eq_def]
    split
    · exact happly _
    · split
      · split
        · exact happly _
        · rfl
      · rfl
  · rename_i e hphase
    rw [hphase] at hinstructions
    rw [unwind]
    split
    · cases e with
      | kept => rfl
      | rolledBack failure => rfl
      | failed => rfl
      | fatal reason => exact absurd hphase (h reason)
    · rename_i c rest hcompleted
      dsimp only at hinstructions
      rw [hcompleted] at hinstructions
      exact (steady_completion c e.decision
        ⟨p, x.controller, { x.context with completed := rest }⟩).2 hinstructions
  · rw [plane_drain]
  · rfl

/-- Whether the operation has told all its completions. -/
def isClosing (x : Execution) : Bool :=
  match x.phase with
  | .draining .. | .ended _ => true
  | _ => false

/-- What an operation has made of its controller, which was as in `p₀` when it began.  The process
that has to be reloaded stays degraded if `firm` says so. -/
structure Settled (firm : Prop) (p₀ : Plane) (c : Nat) (past : List Moment) (p : Plane)
    (x : Execution) : Prop where
  controller : x.controller = c
  hosts : p.Hosts c
  based : x.phase.isOpen = true → x.context.transaction.Based (p₀.tree c)
  unchanged : (∀ m ∈ past, ¬ m.Commits) → Keeps (p₀.tree c) (p.tree c)
  published : ∀ m ∈ past, m.Commits → m.Publishes (p₀.tree c) (p.tree c)
  minds : (∀ m ∈ past, ¬ m.Breach) → ∀ m ∈ past, m.Minds
  degraded : firm → x.isClosing = true → (∃ m ∈ past, m.Breach) →
    (p.processState c).isDegraded = true

variable {c : Nat} {firm : Prop}

theorem isClosing_afterStep (x : Execution) (step : Step) (out : Except OperationError Unit) :
    (x.afterStep step out).isClosing = false := by
  rw [afterStep]
  split <;> rfl

/-- Before the end a breach has just happened, and is not over yet. -/
theorem not_isClosing_of_breach (hsmooth : ∀ m ∈ past, m.Smooth)
    (hbreach : ∃ m ∈ (⟨p, x⟩ : Moment) :: past, m.Breach)
    (hy : (x.advance p).next.after? = some y) : y.isClosing = false := by
  obtain ⟨m, hm, hbroken⟩ := hbreach
  rcases List.mem_cons.mp hm with rfl | hm
  · obtain ⟨z, step, out, hz, -⟩ := hbroken
    rw [show (x.advance p).next = _ from hz] at hy
    obtain rfl := Option.some.inj hy
    exact isClosing_afterStep z step out
  · exact absurd hbroken (hsmooth m hm).not_breach

/-- The reload that a fatal end calls for is there when the operation closes. -/
theorem degraded_advance (hlived : Lived past x) (h : Settled firm p₀ c past p x)
    (hopen : ∀ answer, x.phase ≠ .ended answer) (hy : (x.advance p).next.after? = some y)
    (hfirm : firm) (hclosing : y.isClosing = true)
    (hbreach : ∃ m ∈ (⟨p, x⟩ : Moment) :: past, m.Breach) :
    ((x.advance p).plane.processState c).isDegraded = true := by
  have hahead : (∀ m ∈ past, m.Smooth) →
      ((x.advance p).plane.processState c).isDegraded = true := by
    intro hsmooth
    rw [not_isClosing_of_breach hsmooth hbreach hy] at hclosing
    cases hclosing
  -- neither the completions nor the participants break a contract
  have hearlier : (Moment.mk p x).Smooth → ∃ m ∈ past, m.Breach := by
    intro hsmooth
    obtain ⟨m, hm, hbroken⟩ := hbreach
    rcases List.mem_cons.mp hm with rfl | hm
    · exact absurd hbroken hsmooth.not_breach
    · exact ⟨m, hm, hbroken⟩
  cases hphase : x.phase with
  | opening =>
    rw [Lived, hphase] at hlived
    exact hahead hlived.1.smooth
  | locking deadline =>
    rw [Lived, hphase] at hlived
    exact hahead hlived.1.smooth
  | stepping =>
    rw [Lived, hphase] at hlived
    exact hahead hlived.1.smooth
  | handling step w =>
    rw [Lived, hphase] at hlived
    exact hahead hlived.1.smooth
  | deciding handle due =>
    rw [Lived, hphase] at hlived
    exact hahead hlived.1.smooth
  | unwinding e =>
    have hadvance : x.advance p = unwind p x e := by rw [advance, hphase]
    rw [Lived, hphase] at hlived
    rw [hadvance] at hy ⊢
    rw [unwind] at hy ⊢
    split at hy
    · rename_i hcompleted
      obtain ⟨z, hz⟩ := unwound_next p x e
      have hnext : (Moment.mk p x).turn.next = (unwound p x e).next := by
        rw [Moment.turn, hadvance, unwind, hcompleted]
      have hsmooth : (Moment.mk p x).Smooth :=
        Moment.smooth_of_next (hnext.trans hz) (by rintro _ _ _ ⟨⟩)
      obtain ⟨m, hm, hbroken⟩ := hearlier hsmooth
      cases e with
      | kept => exact absurd hbroken (hlived.1.1 m hm).not_breach
      | rolledBack failure => exact absurd hbroken (hlived.1.1 m hm).not_breach
      | failed => exact absurd hbroken (hlived.1.1 m hm)
      | fatal reason =>
        have hstill := still_rollback (p.changeProcess x.controller .reload) x
        have hhosts : p.Hosts x.controller := h.controller.symm ▸ h.hosts
        rw [← h.controller]
        exact (congrArg ProcessState.isDegraded (hstill.processState x.controller)).trans
          (Plane.isDegraded_reload hhosts)
    · obtain rfl := Option.some.inj hy
      rw [isClosing] at hclosing
      rw [show Execution.phase _ = _ from hphase] at hclosing
      cases hclosing
  | draining deadline e =>
    have hadvance : x.advance p = drain p x deadline e := by rw [advance, hphase]
    have hsmooth : (Moment.mk p x).Smooth :=
      Moment.smooth_of_next (congrArg Turn.next hadvance) (drain_not_returned p x deadline e)
    rw [hadvance, plane_drain]
    exact h.degraded hfirm (by rw [isClosing, hphase]) (hearlier hsmooth)
  | ended answer => exact absurd hphase (hopen answer)

/-- Nothing is committed before the end. -/
theorem Lived.uncommitted (h : Lived past x) (hphase : x.phase = .opening ∨ x.phase.isOpen = true) :
    ∀ m ∈ past, ¬ m.Commits := by
  rw [Lived] at h
  split at h
  · exact h.1.uncommitted
  · exact h.1.uncommitted
  · exact h.1.uncommitted
  · exact h.1.uncommitted
  · exact h.1.uncommitted
  all_goals
    rename_i hend
    rw [hend] at hphase
    rcases hphase with hphase | hphase <;> cases hphase

/-- **Every turn keeps what the operation has made of its controller.** -/
theorem settled_turn (hlived : Lived past x) (h : Settled firm p₀ c past p x)
    (hopen : ∀ answer, x.phase ≠ .ended answer) (hy : (x.advance p).next.after? = some y) :
    Settled firm p₀ c (⟨p, x⟩ :: past) (x.advance p).plane y := by
  have hclosing := degraded_advance hlived h hopen hy
  obtain ⟨rfl, hhosts, hbased, hunchanged, hpublished, hminds, -⟩ := h
  have hstays := stays_advance (fun hphase => hunchanged (hlived.uncommitted hphase)) hbased hy
  have hminds' : (∀ m ∈ (⟨p, x⟩ : Moment) :: past, ¬ m.Breach) →
      ∀ m ∈ (⟨p, x⟩ : Moment) :: past, m.Minds := by
    intro hbreach
    obtain ⟨-, hpast⟩ := List.forall_mem_cons.mp hbreach
    refine List.forall_mem_cons.mpr ⟨minds_advance fun reason hphase => ?_, hminds hpast⟩
    rw [Lived, hphase] at hlived
    obtain ⟨m, hm, hbroken⟩ := hlived.1.1
    exact hpast m hm hbroken
  by_cases hcommits : (Moment.mk p x).Commits
  · -- the turn that commits is the only one that does
    obtain ⟨handle, due, hphase, -⟩ := hcommits.decided
    have hopen' : x.phase.isOpen = true := by
      rw [show x.phase = _ from hphase]
      rfl
    have huncommitted := hlived.uncommitted (.inr hopen')
    obtain ⟨hpublishes, hhosts', -⟩ :=
      publishes_of_commits hcommits hhosts (hunchanged huncommitted) (hbased hopen')
    refine ⟨hstays.controller, hhosts', hstays.based, fun hnone => ?_, ?_, hminds', hclosing⟩
    · exact absurd hcommits (hnone _ List.mem_cons_self)
    · refine List.forall_mem_cons.mpr ⟨fun _ => hpublishes, fun m hm hmcommits => ?_⟩
      exact absurd hmcommits (huncommitted m hm)
  · have hsteady := steady_advance hlived hcommits
    have htree := hsteady.tree x.controller
    refine ⟨hstays.controller, hsteady.hosts hhosts, hstays.based, fun hnone => ?_, ?_, hminds',
      hclosing⟩
    · obtain ⟨hroot, hversion⟩ := hunchanged (List.forall_mem_cons.mp hnone).2
      exact ⟨htree.1.trans hroot, htree.2.trans hversion⟩
    · exact List.forall_mem_cons.mpr ⟨fun h => absurd h hcommits,
        fun m hm h => (hpublished m hm h).of_keeps htree⟩

theorem settled_around {q : Plane} (h : Settled firm p₀ c past p x) (hq : p.Spares c q)
    (hfirm : firm → (p.processState c).isDegraded = true → (q.processState c).isDegraded = true) :
    Settled firm p₀ c past q x where
  controller := h.controller
  hosts := hq.hosts h.hosts
  based := h.based
  unchanged hnone := by
    obtain ⟨hroot, hversion⟩ := h.unchanged hnone
    exact ⟨hq.keeps.1.trans hroot, hq.keeps.2.trans hversion⟩
  published m hm hcommits := (h.published m hm hcommits).of_keeps hq.keeps
  minds := h.minds
  degraded firm hclosing hbreach := hfirm firm (h.degraded firm hclosing hbreach)

theorem settled_resume (h : Settled firm p₀ c past p x) (answer : Answer) :
    Settled firm p₀ c past (x.resume p answer).1 (x.resume p answer).2 := by
  rw [resume.eq_def]
  split
  · rename_i step frames hphase
    exact { h with
      hosts := ⟨h.hosts.controller, h.hosts.process⟩
      based := fun _ => h.based (by rw [hphase]; rfl)
      degraded := by rintro - ⟨⟩ }
  · exact h

theorem settled_new {operation : Value} {control : Control} {input : Input} {sink : Sink}
    (h : p₀.Hosts c) : Settled firm p₀ c [] p₀ (Execution.new c operation control input sink) where
  controller := rfl
  hosts := h
  based := by rintro ⟨⟩
  unchanged _ := ⟨rfl, rfl⟩
  published := by rintro _ ⟨⟩
  minds _ := by rintro _ ⟨⟩
  degraded := by rintro - ⟨⟩

/-- **What an operation has made of its controller**, when nobody else commits there. -/
theorem Course.settled {around : Plane → Plane → Prop} {x₀ : Execution}
    (h : Course around p₀ x₀ past p x) (hspares : ∀ q q', around q q' → q.Spares c q')
    (hlived : Lived [] x₀)
    (h₀ : Settled (∀ q q', around q q' → (q.processState c).isDegraded = true →
      (q'.processState c).isDegraded = true) p₀ c [] p₀ x₀) :
    Settled (∀ q q', around q q' → (q.processState c).isDegraded = true →
      (q'.processState c).isDegraded = true) p₀ c past p x := by
  induction h with
  | start => exact h₀
  | around _ hq ih => exact settled_around ih (hspares _ _ hq) fun hfirm => hfirm _ _ hq
  | turn hcourse hopen hy ih => exact settled_turn (hcourse.lived hlived) ih hopen hy
  | resume _ answer ih => exact settled_resume ih answer

/-- The caller was told of a success. -/
def Succeeds (answer : Answer) : Prop :=
  ∃ response streams, answer = .ok (response, streams) ∧ Response.isSuccess response = true

/-- A success is told of a commit only. -/
theorem Lived.commits {answer : Answer} (h : Lived past x) (hphase : x.phase = .ended answer)
    (hanswer : Succeeds answer) : ∃ m ∈ past, m.Commits := by
  rw [Lived, hphase] at h
  obtain ⟨⟨e, hverdict, hanswers, -⟩, -⟩ := h
  obtain ⟨response, streams, rfl, hsuccess⟩ := hanswer
  have hfails : ¬ ∃ response' streams',
      (.ok (response, streams) : Answer) = .ok (response', streams') ∧
        Response.isSuccess response' = false := by
    rintro ⟨response', streams', heq, hfailure⟩
    cases heq
    cases hsuccess.symm.trans hfailure
  cases e with
  | kept => exact hverdict.2
  | rolledBack failure => exact absurd hanswers hfails
  | failed => exact absurd hanswers hfails
  | fatal reason => cases hanswers

/-- The caller was told of a fatal failure. -/
def IsFatal (answer : Answer) : Prop := ∃ reason, answer = .error (.fatal reason)

/-- What an operation that has ended, on controller `c` and with the given turns behind it, has made
of the plane `p₀` that it began in. -/
structure Whole (around : Plane → Plane → Prop) (c : Nat) (p₀ p : Plane) (past : List Moment)
    (answer : Answer) : Prop where
  /-- A success publishes exactly what was staged and tells every completion so, the latest
  first. -/
  kept : Succeeds answer → (∃ m ∈ past, m.Commits ∧ m.Publishes (p₀.tree c) (p.tree c)) ∧
    told past = (registered past).reverse.map (·, .keep)
  /-- Any other end publishes nothing, and every completion is rolled back, the latest first. -/
  undone : ¬ Succeeds answer → Keeps (p₀.tree c) (p.tree c) ∧
    told past = (registered past).reverse.map (·, .rollback)
  /-- The end is fatal exactly when a step broke its contract. -/
  fatal : IsFatal answer ↔ ∃ m ∈ past, m.Breach
  /-- After a fatal end the process is degraded, unless somebody else has reset it. -/
  degraded : IsFatal answer → (∀ q q', around q q' → (q.processState c).isDegraded = true →
    (q'.processState c).isDegraded = true) → (p.processState c).isDegraded = true
  /-- Otherwise only instructions change the state of a process. -/
  minds : (∃ response, answer = .ok response) → ∀ m ∈ past, m.Minds

/-! ### An operation by itself -/

/-- The turns of an operation that nothing happens around. -/
def alone (p₀ : Plane) (x₀ : Execution) : Nat → Option (List Moment × Plane × Execution)
  | 0 => some ([], p₀, x₀)
  | n + 1 =>
    (alone p₀ x₀ n).bind fun (past, p, x) =>
      match x.phase with
      | .ended _ => none
      | _ => ((x.advance p).next.after?).map fun y => (⟨p, x⟩ :: past, (x.advance p).plane, y)

theorem course_alone {around : Plane → Plane → Prop} {x₀ : Execution} {n : Nat}
    (h : alone p₀ x₀ n = some (past, p, x)) : Course around p₀ x₀ past p x := by
  induction n generalizing past p x with
  | zero =>
    cases h
    exact .start
  | succ n ih =>
    obtain ⟨⟨past', p', x'⟩, hn, h⟩ := Option.bind_eq_some_iff.mp h
    dsimp only at h
    split at h
    · cases h
    · rename_i hopen
      obtain ⟨y, hy, h⟩ := Option.map_eq_some_iff.mp h
      cases h
      exact (ih hn).turn hopen hy

/-- Whether an operation has ended. -/
def hasEnded (x : Execution) : Bool :=
  match x.phase with
  | .ended _ => true
  | _ => false

theorem exists_of_hasEnded (h : x.hasEnded = true) : ∃ answer, x.phase = .ended answer := by
  rw [hasEnded] at h
  split at h
  · rename_i answer hphase
    exact ⟨answer, hphase⟩
  · cases h

/-- Whether an operation has ended with a success. -/
def succeeded (x : Execution) : Bool :=
  match x.phase with
  | .ended (.ok (response, _)) => Response.isSuccess response
  | _ => false

theorem exists_of_succeeded (h : x.succeeded = true) :
    ∃ answer, x.phase = .ended answer ∧ Succeeds answer := by
  rw [succeeded] at h
  split at h
  · rename_i response streams hphase
    exact ⟨_, hphase, response, streams, rfl, h⟩
  · cases h

/-- A plane with one controller, which has one operation, `go`, with the given script. -/
def solo (body : Script) : Plane where
  controllers := [{
    name := "main"
    registration := { Registration.root "" with
      operations := [("go", { definition := { name := "go" }, handler := .script body })] }
    tree := { root := {} } }]
  processes := [.running]

/-- **All or nothing.**  An operation that comes to its end among others that commit nothing on its
controller, and whose steps fail by their errors only, has happened as a whole or not at all. -/
theorem Course.all_or_nothing {around : Plane → Plane → Prop} {operation : Value}
    {control : Control} {input : Input} {sink : Sink} {answer : Answer} (hhosts : p₀.Hosts c)
    (hspares : ∀ q q', around q q' → q.Spares c q')
    (h : Course around p₀ (Execution.new c operation control input sink) past p x)
    (hended : x.phase = .ended answer) (hslots : ∀ m ∈ past, ¬ m.FailsSlot) :
    Whole around c p₀ p past answer := by
  have hlived := h.lived (lived_new c operation control input sink)
  have hsettled := h.settled hspares (lived_new c operation control input sink) (settled_new hhosts)
  rw [Lived, hended] at hlived
  obtain ⟨⟨e, hverdict, hanswers, htold⟩, -⟩ := hlived
  have hclosing : x.isClosing = true := by rw [isClosing, hended]
  -- the two ways to fail differ in what went before, not in what they come to
  have hfails : (∀ m ∈ past, ¬ m.Breach) → (∀ m ∈ past, ¬ m.Commits) →
      told past = (registered past).reverse.map (·, .rollback) →
      (∃ response streams, answer = .ok (response, streams) ∧
        Response.isSuccess response = false) → Whole around c p₀ p past answer := by
    rintro hbreach huncommitted htold ⟨response, streams, rfl, hfailure⟩
    refine ⟨?_, fun _ => ⟨hsettled.unchanged huncommitted, htold⟩, ⟨?_, ?_⟩, ?_,
      fun _ => hsettled.minds hbreach⟩
    · rintro ⟨response', streams', heq, hsuccess⟩
      cases heq
      cases hfailure.symm.trans hsuccess
    · rintro ⟨reason, ⟨⟩⟩
    · rintro ⟨m, hm, hbroken⟩
      exact absurd hbroken (hbreach m hm)
    · rintro ⟨reason, ⟨⟩⟩
  cases e with
  | kept =>
    obtain ⟨response, streams, rfl, hsuccess⟩ := hanswers
    have hsucceeds : Succeeds (.ok (response, streams)) := ⟨_, _, rfl, hsuccess hslots⟩
    have hbreach : ∀ m ∈ past, ¬ m.Breach := fun m hm => (hverdict.1 m hm).not_breach
    obtain ⟨m, hm, hcommits⟩ := hverdict.2
    refine ⟨fun _ => ⟨⟨m, hm, hcommits, hsettled.published m hm hcommits⟩, htold⟩,
      fun hnot => absurd hsucceeds hnot, ⟨?_, ?_⟩, ?_, fun _ => hsettled.minds hbreach⟩
    · rintro ⟨reason, ⟨⟩⟩
    · rintro ⟨m, hm, hbroken⟩
      exact absurd hbroken (hbreach m hm)
    · rintro ⟨reason, ⟨⟩⟩
  | fatal reason =>
    obtain rfl : answer = .error (.fatal reason) := hanswers
    refine ⟨?_, fun _ => ⟨hsettled.unchanged hverdict.2, htold⟩, ⟨fun _ => hverdict.1,
      fun _ => ⟨reason, rfl⟩⟩, fun _ hfirm => hsettled.degraded hfirm hclosing hverdict.1, ?_⟩
    · rintro ⟨response, streams, ⟨⟩, -⟩
    · rintro ⟨response, ⟨⟩⟩
  | rolledBack failure =>
    exact hfails (fun m hm => (hverdict.1 m hm).not_breach) hverdict.2 htold hanswers
  | failed => exact hfails hverdict.1 hverdict.2 htold hanswers

/-- An operation that completes its step, writes and is kept. -/
theorem all_or_nothing_solo : ∃ past p answer, Succeeds answer ∧ registered past ≠ [] ∧
    Whole (fun _ _ => False) 0 (solo [.complete "done" [], .set none "a" (.string "b")]) p past
      answer := by
  have hrun : (alone (solo [.complete "done" [], .set none "a" (.string "b")])
      (Execution.new 0 (.object [(Key.operation, .string "go")]) (.decide .keep) {} .discard)
      15).any (fun (past, _, x) => x.succeeded && !(registered past).isEmpty &&
        past.all fun m => ¬ m.FailsSlot) = true := by decide
  obtain ⟨⟨past, p, x⟩, hcourse, hfacts⟩ := (Option.any_eq_true _ _).mp hrun
  simp only [Bool.and_eq_true, List.all_eq_true, decide_eq_true_eq] at hfacts
  obtain ⟨⟨hsucceeded, hregistered⟩, hslots⟩ := hfacts
  obtain ⟨answer, hphase, hsucceeds⟩ := exists_of_succeeded hsucceeded
  refine ⟨past, p, answer, hsucceeds, by simpa using hregistered, ?_⟩
  exact Course.all_or_nothing ⟨by decide, by decide⟩ (fun _ _ h => h.elim)
    (course_alone hcourse) hphase hslots

end Execution

end ManagementPlane
