import ManagementPlane.Proofs.Global.Upshot
import ManagementPlane.Proofs.Machine.Atomic
import ManagementPlane.Proofs.Model.Lock

/-!
# Proofs/Machine/Transitions — a turn, read off the phases

`Execution.Goes` lists what a turn makes of an operation and of the plane, phase by phase, and
`goes_advance` says that there is nothing else.  Whoever shows that an invariant is kept has one
case for each transition, and does not open the machine again.

What a running step does is left to its handler: `work_deed` for a step that runs here, and
`Forwarding.comes_start` and `comes_advance` for one that runs in another controller.
-/

namespace ManagementPlane

open Transaction (Keeps)

/-- Nothing is published, and no worker is touched. -/
structure Plane.Quiet (p q : Plane) : Prop where
  steady : p.Steady q
  workers : q.workers = p.workers

namespace Plane

variable {p q r : Plane}

theorem Quiet.refl (p : Plane) : p.Quiet p := ⟨.refl p, rfl⟩

theorem Quiet.trans (h : p.Quiet q) (h' : q.Quiet r) : p.Quiet r :=
  ⟨h.steady.trans h'.steady, h'.workers.trans h.workers⟩

/-- A tree that keeps what is published. -/
theorem quiet_setTree (p : Plane) (c : Nat) {t : Tree} (h : Keeps (p.tree c) t) :
    p.Quiet (p.setTree c t) := ⟨p.steady_setTree c h, rfl⟩

theorem Steady.registration (h : p.Steady q) (c : Nat) : q.registration c = p.registration c := by
  obtain ⟨tree, accepted, hq, -⟩ := h.controller c
  rw [Plane.registration, hq]
  rfl

theorem quiet_takeLock? {c : Nat} {t t' : Transaction} (h : p.takeLock? c t = some (q, t')) :
    p.Quiet q := by
  refine ⟨(Execution.takeLock?_eq_some h).1, ?_⟩
  obtain ⟨out, -, hq⟩ := Option.map_eq_some_iff.mp h
  obtain ⟨rfl, -⟩ := Prod.mk.inj hq
  rfl

end Plane

namespace Transaction

variable {t t' : Tree}

/-- The transaction has just begun, with or without the intent to write. -/
def Begun (t : Tree) (x : Transaction) : Prop :=
  ∃ writer lockTimeout, x = begin t writer lockTimeout ∨ x = (begin t writer lockTimeout).stage t

/-- A transaction begins in the same way on a tree with the same published model. -/
theorem begin_of_keeps (h : Keeps t t') (writer lockTimeout : Nat) :
    begin t' writer lockTimeout = begin t writer lockTimeout := by
  rw [begin, begin, h.1, h.2]

/-- And so does its staging. -/
theorem stage_of_keeps (h : Keeps t t') (x : Transaction) : x.stage t' = x.stage t := by
  rw [stage, stage, h.1, h.2]

end Transaction

namespace Execution

/-- **What a turn makes of an operation and of the plane.** -/
inductive Goes (p : Plane) (x : Execution) : Plane → Execution → Prop
  /-- The operation ends without having begun. -/
  | rejects {q : Plane} {answer : Answer}
      (hphase : x.phase = .opening ∨ ∃ due, x.phase = .locking due) (hq : p.Quiet q) :
    Goes p x q { x with phase := .ended answer }
  | opens {q : Plane} {name : String} {address : Address} {resolved : Resolved} {id : Nat}
      {t : Transaction} {phase : Phase} (hphase : x.phase = .opening)
      (hparse : Operation.parse x.operation = .ok (name, address))
      (hresolve : (p.registration x.controller).resolve address name = .ok resolved)
      (ht : Transaction.Begun (p.tree x.controller) t)
      (hnext : phase = .stepping ∨ ∃ due, phase = .locking due) (hq : p.Quiet q) :
    Goes p x q { x.opened id address t resolved.handler with phase }
  | locks {q : Plane} {due : Nat} {t : Transaction} (hphase : x.phase = .locking due)
      (ht : t = x.context.transaction ∨ t = x.context.transaction.stage (p.tree x.controller))
      (hq : p.Quiet q) : Goes p x q { x.withTransaction t with phase := .stepping }
  | picks {step : Step} {context : Context} (hphase : x.phase = .stepping)
      (hstep : x.context.nextStep? = some (step, context)) :
    Goes p x p { x with context := context.beginStep step, phase := .handling step .begin }
  | interrupts {context : Context} {slot : Nat} (hphase : x.phase = .stepping)
      (hcontext : context = x.context ∨ ∃ step, x.context.nextStep? = some (step, context)) :
    Goes p x p { x with context := context.interrupt slot, phase := .unwinding .failed }
  | passes {q : Plane} {stage : Stage} (hphase : x.phase = .stepping)
      (hempty : x.context.queues.get x.context.stage = [])
      (hnext : x.context.stage.next? = some stage) (hq : p.Quiet q) :
    Goes p x q { x with context := { x.context with
      stage, transaction := (x.context.transaction.releaseLock (p.tree x.controller)).2 } }
  /-- Whoever decides may stop a worker before that. -/
  | prepares {q : Plane} {h : Nat} {due : Option Nat} (hphase : x.phase = .stepping)
      (hempty : x.context.queues.get x.context.stage = [])
      (hlast : x.context.stage.next? = none) (hsteady : p.Steady q)
      (hworkers : (∀ name d, x.control ≠ .stopWorker name d) → q.workers = p.workers) :
    Goes p x q { x with phase := .deciding h due }
  | works {step : Step} {w : Work} {y : Execution} (hphase : x.phase = .handling step w)
      (hy : (work p x step w).next.after? = some y) : Goes p x (work p x step w).plane y
  | commits {h : Nat} {due : Option Nat} {tree : Tree} {t : Transaction}
      (hphase : x.phase = .deciding h due) (ht : t.staging = none)
      (hcommit : x.context.transaction.commit (p.tree x.controller) = (.ok (), tree, t)) :
    Goes p x ((p.modifyHandle h Prepared.leave).setTree x.controller tree)
      { x.withTransaction t with phase := .unwinding .kept }
  | reverts {q : Plane} {h : Nat} {due : Option Nat} {t : Transaction} {failure : String}
      (hphase : x.phase = .deciding h due) (ht : t.staging = none) (hq : p.Quiet q) :
    Goes p x q { x.withTransaction t with phase := .unwinding (.rolledBack failure) }
  | tells {e : Ending} {c : Completion} {rest : List Completion} (hphase : x.phase = .unwinding e)
      (hcompleted : x.context.completed = c :: rest) :
    Goes p x
      (c.run e.decision ⟨p, x.controller, { x.context with completed := rest }⟩).plane
      { x with context :=
          (c.run e.decision ⟨p, x.controller, { x.context with completed := rest }⟩).context }
  | unwinds {q : Plane} {e : Ending} {t : Transaction} (hphase : x.phase = .unwinding e)
      (hcompleted : x.context.completed = [])
      (ht : t = x.context.transaction ∨ t.staging = none) (hq : p.Quiet q) :
    Goes p x q { x.withTransaction t with phase := .draining none e }
  | drains {e : Ending} {due : Option Nat} {completions : List Nat} {phase : Phase}
      (hphase : x.phase = .draining due e)
      (hnext : (∃ due, phase = .draining due e) ∨ ∃ answer, phase = .ended answer) :
    Goes p x p { x with context := { x.context with completions }, phase }
  | blocks : Goes p x p x

/-- The operation goes on after the turn, by one of the transitions. -/
def Leads (p : Plane) (x : Execution) (t : Turn) : Prop :=
  ∃ y, t.next.after? = some y ∧ Goes p x t.plane y

variable {p q : Plane} {x y : Execution}

theorem leads_going (h : Goes p x q y) {spawned : List Task} :
    Leads p x { plane := q, spawned, next := .going y } := ⟨y, rfl, h⟩

theorem leads_blocked : Leads p x { plane := p, next := .blocked x } := ⟨x, rfl, .blocks⟩

/-- An operation that begins is refused, waits for the lock, or opens. -/
theorem leads_begin (hphase : x.phase = .opening) : Leads p x (begin p x) := by
  have haccepted : p.Quiet (p.modifyController x.controller
      ({ · with accepted := (p.controller x.controller).accepted + 1 })) :=
    ⟨p.steady_modifyController x.controller ⟨_, _, rfl, rfl, rfl⟩, rfl⟩
  have hwriters : ∀ {q : Plane}, p.Quiet q → p.Quiet { q with writers := q.writers + 1 } :=
    fun h => h.trans ⟨Plane.steady_of_controllers rfl rfl, rfl⟩
  rw [begin]
  split
  · exact leads_going (.rejects (.inl hphase) (.refl p))
  · rename_i name address hparse
    dsimp only
    have htree := haccepted.steady.tree x.controller
    rw [haccepted.steady.registration x.controller]
    cases hresolve : (p.registration x.controller).resolve address name with
    | error e => exact leads_going (.rejects (.inl hphase) haccepted)
    | ok resolved =>
      dsimp only [bind, Except.bind]
      cases hcheck : resolved.check x.operation with
      | error e =>
        simp only
        exact leads_going (.rejects (.inl hphase) haccepted)
      | ok =>
        simp only [pure, Except.pure]
        rw [Transaction.begin_of_keeps htree]
        split
        · exact leads_going (.opens hphase hparse hresolve ⟨_, _, .inl rfl⟩ (.inl rfl)
            (hwriters haccepted))
        · split
          · rename_i q t htake
            refine leads_going (.opens hphase hparse hresolve ?_ (.inl rfl)
              ((hwriters haccepted).trans (Plane.quiet_takeLock? htake)))
            obtain ⟨-, -, rfl | rfl, -⟩ := takeLock?_eq_some htake
            · exact ⟨_, _, .inl rfl⟩
            · exact ⟨_, _, .inr (Transaction.stage_of_keeps htree _)⟩
          · exact leads_going (.opens hphase hparse hresolve ⟨_, _, .inl rfl⟩ (.inr ⟨_, rfl⟩)
              ((hwriters haccepted).trans ⟨steady_queueForLock _ _ _, rfl⟩))

/-- Whoever waits for the lock opens, fails, or goes on waiting. -/
theorem leads_awaitLock {due : Nat} (hphase : x.phase = .locking due) :
    Leads p x (awaitLock p x due) := by
  rw [awaitLock]
  dsimp only
  split
  · rename_i q t htake
    exact leads_going (.locks hphase (takeLock?_eq_some htake).2.2.1 (Plane.quiet_takeLock? htake))
  · split
    · exact leads_going (.rejects (.inr ⟨due, hphase⟩) ⟨steady_leaveLock _ _ _, rfl⟩)
    · exact leads_blocked

/-- To prepare is no business of the workers, unless the caller makes it so. -/
theorem workers_prepare (h : ∀ name d, x.control ≠ .stopWorker name d) :
    (prepare p x).plane.workers = p.workers := by
  rw [prepare]
  dsimp only
  cases hcontrol : x.control with
  | decide d => rfl
  | announce decisions =>
    exact List.foldlRecOn (motive := fun q : Plane => q.workers = p.workers) decisions _ rfl
      fun q hq d _ => hq
  | hold t => rfl
  | relay l =>
    rw [Plane.announcePrepared]
    dsimp only
    split <;> rfl
  | exchange e a =>
    rw [Plane.announcePrepared]
    split
    · dsimp only
      split <;> rfl
    · rfl
  | stopWorker name d => exact absurd hcontrol (h name d)

/-- A step is picked, a stage passed, or the operation prepares. -/
theorem leads_pick (hphase : x.phase = .stepping) : Leads p x (pick p x) := by
  rw [pick]
  dsimp only
  split
  · rename_i step context hstep
    split
    · exact leads_going (.interrupts hphase (.inr ⟨step, hstep⟩))
    · exact leads_going (.picks hphase hstep)
  · rename_i hnone
    have hempty := Context.nextStep?_eq_none hnone
    split
    · rename_i stage hstage
      exact leads_going (.passes hphase hempty hstage
        (p.quiet_setTree x.controller (Transaction.keeps_releaseLock _ _)))
    · rename_i hlast
      split
      · exact leads_going (.interrupts hphase (.inl rfl))
      · exact ⟨_, rfl, .prepares hphase hempty hlast (still_prepare p x).steady workers_prepare⟩

/-- An operation that has prepared commits, rolls back, or waits. -/
theorem leads_decide {h : Nat} {due : Option Nat} (hphase : x.phase = .deciding h due) :
    Leads p x (decide p x h due) := by
  have hleft : p.Quiet (p.modifyHandle h Prepared.leave) :=
    ⟨Plane.steady_of_controllers rfl rfl, rfl⟩
  have happly : ∀ d, Leads p x (apply p x h d) := by
    intro d
    rw [apply.eq_def]
    dsimp only
    cases d with
    | keep =>
      dsimp only
      split
      · rename_i tree t hcommit
        refine leads_going (.commits (p := p) hphase ?_ hcommit)
        rw [show t = _ from (congrArg (Prod.snd ∘ Prod.snd) hcommit).symm]
        exact Transaction.staging_commit _ _
      · rename_i e tree t hcommit
        refine leads_going (.reverts hphase ?_
          (hleft.trans (Plane.quiet_setTree _ x.controller ?_)))
        · rw [show t = _ from (congrArg (Prod.snd ∘ Prod.snd) hcommit).symm]
          exact Transaction.staging_commit _ _
        have hfinish := Transaction.commit_of_error (congrArg Prod.fst hcommit)
        rw [hcommit] at hfinish
        rw [show tree = _ from congrArg Prod.fst hfinish]
        exact Transaction.keeps_finish _ _
    | rollback =>
      exact leads_going (.reverts hphase (Transaction.staging_finish _ _)
        (hleft.trans (Plane.quiet_setTree _ x.controller (Transaction.keeps_finish _ _))))
  rw [decide.eq_def]
  split
  · exact happly _
  · split
    · split
      · exact happly _
      · exact leads_blocked
    · exact leads_blocked

/-- A completion is told, or the operation drains. -/
theorem leads_unwind {e : Ending} (hphase : x.phase = .unwinding e) :
    Leads p x (unwind p x e) := by
  have hback : ∀ {q : Plane}, p.Quiet q → p.Quiet (q.setTree x.controller
      (x.context.transaction.rollback (q.tree x.controller)).1) :=
    fun hq => hq.trans (Plane.quiet_setTree _ _ (Transaction.keeps_finish _ _))
  rw [unwind]
  split
  · rename_i hcompleted
    have hunwinds : ∀ {q : Plane} {t : Transaction}, t = x.context.transaction ∨ t.staging = none →
        p.Quiet q → Leads p x
          ⟨q, [], .going { x.withTransaction t with phase := .draining none e }⟩ :=
      fun ht hq => leads_going (.unwinds hphase hcompleted ht hq)
    cases e with
    | kept => exact hunwinds (.inl rfl) (.refl p)
    | rolledBack failure => exact hunwinds (.inl rfl) (.refl p)
    | failed => exact hunwinds (.inr (Transaction.staging_finish _ _)) (hback (.refl p))
    | fatal reason =>
      exact hunwinds (.inr (Transaction.staging_finish _ _))
        (hback ⟨Plane.steady_of_controllers rfl (List.length_modify _ _ _), rfl⟩)
  · rename_i c rest hcompleted
    exact leads_going (.tells hphase hcompleted)

/-- An operation that drains waits, or ends. -/
theorem leads_drain {e : Ending} {due : Option Nat} (hphase : x.phase = .draining due e) :
    Leads p x (drain p x due e) := by
  have hgo : ∀ (completions : List Nat) {phase : Phase},
      (∃ due, phase = .draining due e) ∨ (∃ answer, phase = .ended answer) → Leads p x
        { plane := p, next := .going { x with
          context := { x.context with completions }, phase } } :=
    fun completions _ hnext => leads_going (.drains hphase hnext)
  rw [drain]
  dsimp only
  split
  · exact hgo x.context.completions (.inr ⟨_, rfl⟩)
  · split
    · exact hgo _ (.inl ⟨_, rfl⟩)
    · split
      · exact hgo x.context.completions (.inl ⟨_, rfl⟩)
      · split
        · exact hgo _ (.inl ⟨_, rfl⟩)
        · exact leads_blocked

/-- Nothing but a running step can break an operation down. -/
theorem leads_advance (h : ∀ step w, x.phase ≠ .handling step w) : Leads p x (x.advance p) := by
  rw [advance]
  split
  · rename_i hphase
    exact leads_begin hphase
  · rename_i due hphase
    exact leads_awaitLock hphase
  · rename_i hphase
    exact leads_pick hphase
  · rename_i step w hphase
    exact absurd hphase (h step w)
  · rename_i h due hphase
    exact leads_decide hphase
  · rename_i e hphase
    exact leads_unwind hphase
  · rename_i due e hphase
    exact leads_drain hphase
  · exact leads_blocked

/-- **A turn is one of the transitions.** -/
theorem goes_advance (hy : (x.advance p).next.after? = some y) :
    Goes p x (x.advance p).plane y := by
  by_cases hhandling : ∃ step w, x.phase = .handling step w
  · obtain ⟨step, w, hphase⟩ := hhandling
    rw [advance, hphase] at hy ⊢
    exact .works hphase hy
  · obtain ⟨z, hz, hgoes⟩ := leads_advance (p := p)
      fun step w hphase => hhandling ⟨step, w, hphase⟩
    cases hz.symm.trans hy
    exact hgoes

/-- No turn registers anything. -/
theorem Goes.registration (h : Goes p x q y) :
    q.registration x.controller = p.registration x.controller := by
  cases h with
  | commits =>
    rw [Plane.registration, Plane.setTree, Plane.controller_modifyController]
    split <;> rfl
  | rejects _ hq => exact hq.steady.registration _
  | opens _ _ _ _ _ hq => exact hq.steady.registration _
  | locks _ _ hq => exact hq.steady.registration _
  | passes _ _ _ hq => exact hq.steady.registration _
  | prepares _ _ _ hq => exact hq.registration _
  | works => exact (keeping_work p x _ _).steady.registration _
  | reverts _ _ hq => exact hq.steady.registration _
  | @tells e c rest =>
    exact (steady_completion c e.decision
      ⟨p, x.controller, { x.context with completed := rest }⟩).1.registration _
  | unwinds _ _ _ hq => exact hq.steady.registration _
  | picks => rfl
  | interrupts => rfl
  | drains => rfl
  | blocks => rfl

/-- An operation that breaks down has published nothing. -/
theorem steady_of_crash (h : (x.advance p).next.after? = none) :
    p.Steady (x.advance p).plane := by
  revert h
  rw [advance]
  split
  · exact fun _ => (still_begin p x).steady
  · exact fun _ => (still_awaitLock p x _).steady
  · exact fun _ => (still_pick p x).steady
  · exact fun _ => (keeping_work p x _ _).steady
  · rename_i h due hphase
    intro hnone
    have happly : ∀ d, (apply p x h d).next.after? ≠ none := by
      intro d
      rw [apply.eq_def]
      dsimp only
      split
      · split <;> rintro ⟨⟩
      · rintro ⟨⟩
    rw [decide.eq_def] at hnone
    split at hnone
    · exact absurd hnone (happly _)
    · split at hnone
      · split at hnone
        · exact absurd hnone (happly _)
        · cases hnone
      · cases hnone
  · exact fun _ => steady_unwind p x _
  · rw [plane_drain]
    exact fun _ => .refl p
  · exact fun _ => .refl p

/-! ## Running steps -/

/-- After a step that went well the operation goes on, or else its completions are told. -/
theorem phase_afterStep (x : Execution) (step : Step) (out : Except OperationError Unit) :
    (out = .ok () ∧ (x.afterStep step out).phase = .stepping) ∨
      ∃ e, (x.afterStep step out).phase = .unwinding e ∧ e.decision = .rollback := by
  rw [afterStep]
  split
  · rename_i context h
    refine .inl ⟨?_, rfl⟩
    rcases x.context.endStep_cases step out with ⟨-, hout, -⟩ | ⟨hfailed, -⟩ | ⟨⟨reason, hfatal⟩, -⟩
    · exact hout
    · rw [h] at hfailed
      cases hfailed
    · rw [h] at hfatal
      cases hfatal
  · rename_i e context h
    refine .inr ⟨e, rfl, ?_⟩
    rcases x.context.endStep_cases step out with ⟨hnone, -⟩ | ⟨hfailed, -⟩ | ⟨⟨reason, hfatal⟩, -⟩
    · rw [h] at hnone
      cases hnone
    · rw [h] at hfailed
      obtain rfl := Option.some.inj hfailed
      rfl
    · rw [h] at hfatal
      obtain rfl := Option.some.inj hfatal
      rfl

theorem controller_afterStep (x : Execution) (step : Step) (out : Except OperationError Unit) :
    (x.afterStep step out).controller = x.controller := by
  rw [afterStep]
  split <;> rfl

theorem rested_afterStep (x : Execution) (step : Step) (out : Except OperationError Unit) :
    x.context.Rested (x.afterStep step out).context := by
  have hrested := x.context.endStep_rested step out
  rw [afterStep]
  split
  all_goals
    rename_i context h
    rw [h] at hrested
    exact hrested

end Execution

namespace Forwarding

variable {p : Plane} {x : Execution} {step : Step}

/-- What a turn makes of a step that runs in another controller. -/
inductive Comes (x : Execution) (step : Step) : Next → Prop
  | follows {f due : Nat} {d : Delivery} :
    Comes x step (.going { x with phase := .handling step (.forwarding f due d) })
  | fails {e : OperationError} : Comes x step (.returned x step (.error e))
  | concludes {f h : Nat} {response : Value} :
    Comes x step (.returned { x with context := accept x.context f h response } step (.ok ()))
  | blocks : Comes x step (.blocked x)
  | crashes {reason : String} : Comes x step (.crashed reason)

/-- A step that is forwarded is under way, or over. -/
theorem comes_start (proxy : Proxy) : Comes x step (start p x step proxy).next := by
  rw [start]
  dsimp only
  split
  · exact .fails
  · split
    · exact .fails
    · split
      · exact .follows
      · exact .crashes

/-- A forwarded step goes on, waits, or is over. -/
theorem comes_advance (f due : Nat) (d : Delivery) :
    Comes x step (advance p x step f due d).next := by
  have hadvances := advances p x step f due d
  generalize advance p x step f due d = t at hadvances ⊢
  cases hadvances with
  | goes => exact .follows
  | @concludes o =>
    cases o with
    | prepared h response => exact .concludes
    | failed response => exact .fails
  | waits => exact .blocks
  | stops => exact .fails

end Forwarding

end ManagementPlane
