import ManagementPlane.Proofs.Machine.Transitions
import ManagementPlane.Proofs.Workers.Serving

/-!
# Proofs/Workers/Exact — an operation on the workers, from its beginning to its end

An operation on the workers that runs while nobody else touches its controller or the workers is
exact (`Execution.Course.workers_exact`).  If it commits, the workers mirror the model that it has
published; if it ends in any other way, they are the workers of the beginning.  At no time on the
way are there more of them than there is room for (`Execution.OnWorkers.fits`).

The invariant `Execution.OnWorkers` goes through the phases.  While the pipeline lasts the context
is ready for its next step; when the operation has prepared nothing is queued any more, so that the
workers follow what is staged, which is what a commit publishes; and from then on either the workers
mirror the published root, or what is still to be told takes them back.
-/

namespace ManagementPlane

open WorkerContainer

/-- What goes on around an operation commits nothing on its controller and touches no worker. -/
structure Plane.LeavesAlone (c : Nat) (p q : Plane) : Prop extends p.Spares c q where
  registration : q.registration c = p.registration c
  workers : q.workers = p.workers

namespace Completion

/-- A commit leaves the workers as they are. -/
theorem workers_run_keep {k : Completion} (hk : k.IsUndo) (s : Scene) :
    (k.run .keep s).plane.workers = s.plane.workers := by
  cases k with
  | stopWorker name => rfl
  | restoreWorker name w => rfl
  | reconfigureWorker name k => rfl
  | reportSteps own slots => rfl
  | _ => exact hk.elim

/-- **A completion that is told** leaves the workers as they are, or takes them back one change. -/
theorem workers_told {c₀ : WorkerContainer} {s : Scene} {e : Ending} {k : Completion}
    {rest : List Completion}
    (h : (e = .kept ∧ (∀ other ∈ k :: rest, other.IsUndo) ∧
        s.plane.workers.Replaces c₀ (s.plane.tree s.controller).root) ∨
      (e.decision = .rollback ∧ Undoes c₀ (k :: rest) s.plane.workers)) :
    (e = .kept ∧ (∀ other ∈ rest, other.IsUndo) ∧ (k.run e.decision s).plane.workers.Replaces c₀
        ((k.run e.decision s).plane.tree s.controller).root) ∨
      (e.decision = .rollback ∧ Undoes c₀ rest (k.run e.decision s).plane.workers) := by
  rcases h with ⟨rfl, hundo, h⟩ | ⟨he, h⟩
  · obtain ⟨hk, hrest⟩ := List.forall_mem_cons.mp hundo
    refine .inl ⟨rfl, hrest, ?_⟩
    rw [((Execution.steady_completion k _ s).1.tree s.controller).1]
    exact (workers_run_keep hk s).symm ▸ h
  · rw [he]
    exact .inr ⟨rfl, h.next⟩

end Completion

theorem Transaction.Begun.root {x : Transaction} {t : Tree} (h : x.Begun t) : x.root = t.root := by
  obtain ⟨writer, lockTimeout, rfl | rfl⟩ := h <;> rfl

namespace Context

variable {c₀ c : WorkerContainer} {x y : Context} {t : Transaction}

theorem Ready.of_rested (h : x.Ready c₀ c) (hy : x.Rested y) : y.Ready c₀ c := by
  obtain ⟨-, -, hcompleted, htransaction, -, hqueues⟩ := hy
  obtain ⟨transaction, queues, completed⟩ := y
  cases hcompleted
  cases htransaction
  cases hqueues
  exact { h with }

/-- Only what is staged matters of the transaction. -/
theorem Ready.of_root (h : x.Ready c₀ c) (ht : t.root = x.transaction.root) :
    Ready c₀ c { x with transaction := t } :=
  { h with
    listed := ht ▸ h.listed
    plans := ht ▸ h.plans }

/-- A step that was taken out of its queue is put back. -/
theorem putBack_of_nextStep? {step : Step} (h : x.nextStep? = some (step, y)) :
    y.putBack step = x := by
  have hqueues : ∀ (q : Queues) (stage : Stage) (rest : List Step), q.get stage = step :: rest →
      (q.set rest stage).set (step :: (q.set rest stage).get stage) stage = q := by
    rintro ⟨model, runtime, verify, done⟩ stage rest hget
    cases stage <;> cases hget <;> rfl
  obtain ⟨rest, hqueue, rfl⟩ := nextStep?_eq_some h
  exact congrArg (fun queues => { x with queues }) (hqueues _ _ _ hqueue)

/-- **Nothing is queued any more**: the workers are in line with what is staged. -/
theorem Ready.inLine (h : x.Ready c₀ c) (hempty : ∀ stage, x.queues.get stage = []) :
    c.InLine x.transaction.root := by
  have hplans := h.plans
  rw [show x.queues.runtime = [] from hempty .runtime,
    show x.queues.verify = [] from hempty .verify] at hplans
  exact ⟨hplans.awaits.mirrors, h.listed⟩

end Context

theorem Ending.Verdict.uncommitted {e : Ending} {past : List Moment} (h : e.Verdict past)
    (he : e.decision = .rollback) : ∀ m ∈ past, ¬ m.Commits := by
  cases e with
  | kept => cases he
  | rolledBack failure => exact h.2
  | failed => exact h.2
  | fatal reason => exact h.2

/-! ## Phases -/

namespace Execution

/-- What an operation on the workers has come to, phase by phase.  It began in `p₀`. -/
def OnWorkers (p₀ : Plane) (past : List Moment) (p : Plane) (x : Execution) : Prop :=
  match x.phase with
  | .opening => Operation.OnWorkers [] x.operation ∧ p.workers = p₀.workers
  | .locking _ => x.context.transaction.root = (p₀.tree x.controller).root ∧
    x.context.Ready p₀.workers p.workers
  | .stepping | .deciding _ _ => x.context.Ready p₀.workers p.workers
  | .handling step w => w = .begin ∧ (x.context.putBack step).Ready p₀.workers p.workers
  | .unwinding e | .draining _ e =>
    (e = .kept ∧ (∀ k ∈ x.context.completed, k.IsUndo) ∧
      p.workers.Replaces p₀.workers (p.tree x.controller).root) ∨
    (e.decision = .rollback ∧ Undoes p₀.workers x.context.completed p.workers)
  | .ended _ =>
    ((∃ m ∈ past, m.Commits) ∧ p.workers.Replaces p₀.workers (p.tree x.controller).root) ∨
    ((∀ m ∈ past, ¬ m.Commits) ∧ Undoes p₀.workers [] p.workers)

variable {p₀ p q : Plane} {past : List Moment} {x y : Execution} {r : Registration} {c : Nat}
  {firm : Prop}

/-- An operation that has begun has its first step before it. -/
theorem ready_opened (id : Nat) {address : Address} {t : Transaction} {handler : Handler}
    (hline : p₀.workers.InLine t.root) (hcompleted : x.context.completed = [])
    (hfirst : Step.OnModel ⟨handler, x.operation, address, Context.rootSlot⟩) :
    (x.opened id address t handler).context.Ready p₀.workers p₀.workers where
  listed := hline.listed
  plans := (hline.awaits []).plans
  tracks := by
    show Tracks p₀.workers x.context.completed p₀.workers
    rw [hcompleted]
    exact hline.tracks
  model := List.forall_mem_singleton.mpr hfirst
  runtime := by rintro _ ⟨⟩
  verify := by rintro _ ⟨⟩
  done := rfl

/-- The end of a step, whether it went well or not. -/
theorem onWorkers_afterStep {step : Step} {out : Except OperationError Unit}
    (hready : out = .ok () → x.context.Ready p₀.workers p.workers)
    (hundoes : Undoes p₀.workers x.context.completed p.workers) :
    (x.afterStep step out).OnWorkers p₀ past p := by
  have hrested := x.rested_afterStep step out
  rcases x.phase_afterStep step out with ⟨hout, hphase⟩ | ⟨e, hphase, he⟩
  · rw [OnWorkers, hphase]
    exact (hready hout).of_rested hrested
  · rw [OnWorkers, hphase]
    exact .inr ⟨he, hrested.completed ▸ hundoes⟩

section Handling

variable {step : Step} (hr : r.ServesWorkers) (hregistration : p.registration x.controller = r)
  (hlived : x.context.Ahead past ∧ x.context.Busy step .begin)
  (h : (x.context.putBack step).Ready p₀.workers p.workers)
include hr hregistration hlived h

/-- The running step is one that runs here, and its work keeps to the invariant. -/
theorem exists_deed : ∃ deed, step.handler.deed? step.operation = some deed ∧
    deed.Comes p₀.workers (fun _ t => t.context.Ready p₀.workers t.plane.workers)
      ⟨p, x.controller, x.context⟩ := by
  obtain ⟨hahead, ⟨a, ha, haddress, -, hfresh⟩, -⟩ := hlived
  have hcurrent : x.context.currentAddress = step.address := by
    rw [Context.currentAddress, Option.mem_def.mp ha]
    exact haddress
  exact Step.works (s := ⟨p, x.controller, x.context⟩) hr hregistration hcurrent
    ⟨a, ha, hfresh rfl⟩ hahead.passed h

/-- **A running step** returns on its first turn. -/
theorem onWorkers_work (hy : (work p x step .begin).next.after? = some y) :
    y.OnWorkers p₀ (⟨p, x⟩ :: past) (work p x step .begin).plane ∧ y.control = x.control := by
  obtain ⟨deed, hdeed, hcomes⟩ := exists_deed hr hregistration hlived h
  rw [work_deed hdeed] at hy ⊢
  rw [Deed.Comes] at hcomes
  obtain rfl := Option.some.inj hy
  generalize deed.run.run ⟨p, x.controller, x.context⟩ = result at hcomes ⊢
  obtain ⟨out, s⟩ := result
  refine ⟨?_, ?_⟩
  · cases out with
    | ok => exact onWorkers_afterStep (fun _ => hcomes) hcomes.tracks.toUndoes
    | error e => exact onWorkers_afterStep (by rintro ⟨⟩) hcomes
  · rw [afterStep]
    split <;> rfl

end Handling

/-- **An operation on the workers does not break down**: it goes on after every turn. -/
theorem OnWorkers.goes_on (h : x.OnWorkers p₀ past p) (hr : r.ServesWorkers)
    (hregistration : p.registration x.controller = r) (hlived : Lived past x) :
    ∃ y, (x.advance p).next.after? = some y := by
  by_cases hhandling : ∃ step w, x.phase = .handling step w
  · obtain ⟨step, w, hphase⟩ := hhandling
    rw [OnWorkers, hphase] at h
    rw [Lived, hphase] at hlived
    obtain ⟨rfl, h⟩ := h
    obtain ⟨deed, hdeed, -⟩ := exists_deed hr hregistration hlived h
    rw [advance, hphase]
    exact ⟨_, congrArg (·.next.after?) (work_deed hdeed)⟩
  · obtain ⟨y, hy, -⟩ := leads_advance (p := p)
      fun step w hphase => hhandling ⟨step, w, hphase⟩
    exact ⟨y, hy⟩

/-- A turn that decides nothing commits nothing. -/
theorem Lived.uncommitted_cons (h : Lived past x)
    (hphase : x.phase = .opening ∨ x.phase.isOpen = true)
    (hdeciding : ∀ handle due, x.phase ≠ .deciding handle due) :
    ∀ m ∈ (⟨p, x⟩ : Moment) :: past, ¬ m.Commits :=
  List.forall_mem_cons.mpr ⟨Moment.not_commits hdeciding, h.uncommitted hphase⟩

/-- What the turns have come to matters at the end only. -/
theorem OnWorkers.cons (h : x.OnWorkers p₀ past p) (hopen : ∀ answer, x.phase ≠ .ended answer)
    (m : Moment) : x.OnWorkers p₀ (m :: past) p := by
  rw [OnWorkers] at h ⊢
  split at h
  all_goals
    rename_i hphase
    first | exact absurd hphase (hopen _) | exact h

/-- Until the decision is taken, what has been done so far can be undone. -/
theorem OnWorkers.undoes (h : x.OnWorkers p₀ past p) (hlived : Lived past x) {root : Resource}
    (hline : p₀.workers.InLine root)
    (hphase : x.phase = .opening ∨ x.phase.isOpen = true) :
    Undoes p₀.workers x.context.completed p.workers := by
  obtain ⟨controller, operation, control, context, phase⟩ := x
  cases phase with
  | opening =>
    obtain ⟨-, -, hcompleted, -⟩ := hlived
    rw [hcompleted, h.2]
    exact hline.tracks.toUndoes
  | locking due => exact h.2.tracks.toUndoes
  | stepping => exact h.tracks.toUndoes
  | handling step w => exact h.2.tracks.toUndoes
  | deciding handle due => exact h.tracks.toUndoes
  | _ => rcases hphase with hphase | hphase <;> cases hphase

/-- **The workers fit at all times**, also on the way back. -/
theorem OnWorkers.fits (h : x.OnWorkers p₀ past p) (hline : p₀.workers.Fits) :
    p.workers.Fits ∧ p.workers.capacity = p₀.workers.capacity := by
  have hready : ∀ {y : Context}, y.Ready p₀.workers p.workers →
      p.workers.Fits ∧ p.workers.capacity = p₀.workers.capacity :=
    fun hy => ⟨hy.tracks.fits, hy.tracks.capacity⟩
  obtain ⟨controller, operation, control, context, phase⟩ := x
  cases phase with
  | opening =>
    obtain ⟨-, hworkers⟩ := h
    rw [hworkers]
    exact ⟨hline, rfl⟩
  | locking due => exact hready h.2
  | stepping => exact hready h
  | handling step w => exact hready h.2
  | deciding handle due => exact hready h
  | unwinding e =>
    rcases h with ⟨-, -, h⟩ | ⟨-, h⟩
    · exact ⟨h.toFits, h.capacity⟩
    · exact ⟨h.fits, h.capacity⟩
  | draining due e =>
    rcases h with ⟨-, -, h⟩ | ⟨-, h⟩
    · exact ⟨h.toFits, h.capacity⟩
    · exact ⟨h.fits, h.capacity⟩
  | ended answer =>
    rcases h with ⟨-, h⟩ | ⟨-, h⟩
    · exact ⟨h.toFits, h.capacity⟩
    · exact ⟨h.fits, h.capacity⟩

/-! ## Transitions -/

section Transitions

variable (hx : x.OnWorkers p₀ past p) (hlived : Lived past x)
include hx hlived

/-- Whoever is turned away has done nothing. -/
theorem onWorkers_rejected {answer : Answer} {root : Resource}
    (hline : p₀.workers.InLine root)
    (hphase : x.phase = .opening ∨ ∃ due, x.phase = .locking due) (hq : p.Quiet q) :
    OnWorkers p₀ (⟨p, x⟩ :: past) q { x with phase := .ended answer } := by
  obtain ⟨hearly, hcompleted, hdeciding⟩ : (x.phase = .opening ∨ x.phase.isOpen = true) ∧
      x.context.completed = [] ∧ ∀ handle due, x.phase ≠ .deciding handle due := by
    rcases hphase with hphase | ⟨due, hphase⟩ <;> rw [Lived, hphase] at hlived
    · exact ⟨.inl hphase, hlived.2.2.1, by rw [hphase]; rintro _ _ ⟨⟩⟩
    · exact ⟨.inr (hphase ▸ rfl), hlived.2.2, by rw [hphase]; rintro _ _ ⟨⟩⟩
  have hundoes := hx.undoes hlived hline hearly
  rw [hcompleted, ← hq.workers] at hundoes
  exact .inr ⟨hlived.uncommitted_cons hearly hdeciding, hundoes⟩

/-- **A commit publishes what the workers are in line with.** -/
theorem onWorkers_committed {handle : Nat} {due : Option Nat} {tree : Tree} {t : Transaction}
    (hsettled : Settled firm p₀ x.controller past p x) (hphase : x.phase = .deciding handle due)
    (hcommit : x.context.transaction.commit (p.tree x.controller) = (.ok (), tree, t)) :
    OnWorkers p₀ (⟨p, x⟩ :: past)
      ((p.modifyHandle handle Prepared.leave).setTree x.controller tree)
      { x.withTransaction t with phase := .unwinding .kept } := by
  have hopen : x.phase.isOpen = true := hphase ▸ rfl
  have hpublished := (hsettled.based hopen).commit
    (hsettled.unchanged (hlived.uncommitted (.inr hopen))) hcommit
  have htree : ((p.modifyHandle handle Prepared.leave).setTree x.controller tree).tree x.controller
      = tree := by
    rw [Plane.tree, Plane.setTree, Plane.controller_modifyController,
      if_pos ⟨rfl, hsettled.hosts.controller⟩]
  rw [OnWorkers, hphase] at hx
  rw [Lived, hphase] at hlived
  refine .inl ⟨rfl, hx.tracks.undo, ?_⟩
  show p.workers.Replaces p₀.workers (Plane.tree _ x.controller).root
  rw [htree, hpublished.1]
  exact ⟨hx.inLine hlived.2.2, hx.tracks.capacity⟩

theorem onWorkers_told {e : Ending} {k : Completion} {rest : List Completion}
    (hphase : x.phase = .unwinding e) (hcompleted : x.context.completed = k :: rest) :
    OnWorkers p₀ (⟨p, x⟩ :: past)
      (k.run e.decision ⟨p, x.controller, { x.context with completed := rest }⟩).plane
      { x with context :=
          (k.run e.decision ⟨p, x.controller, { x.context with completed := rest }⟩).context } := by
  rw [OnWorkers, hphase] at hx
  rw [Lived, hphase] at hlived
  rw [hcompleted] at hx
  have hleft := (k.run_idle e.decision ⟨p, x.controller, { x.context with completed := rest }⟩
    hlived.2.1).2
  rw [OnWorkers, show Execution.phase _ = .unwinding e from hphase]
  dsimp only
  rw [hleft]
  exact Completion.workers_told (s := ⟨p, x.controller, { x.context with completed := rest }⟩) hx

/-- When nothing is left to be told, the workers are where they ought to be. -/
theorem onWorkers_drained {e : Ending} {due : Option Nat} {completions : List Nat} {answer : Answer}
    (hphase : x.phase = .draining due e) :
    OnWorkers p₀ (⟨p, x⟩ :: past) p
      { x with context := { x.context with completions }, phase := .ended answer } := by
  rw [OnWorkers, hphase] at hx
  have hcommits : ¬ (Moment.mk p x).Commits := Moment.not_commits (by rw [hphase]; rintro _ _ ⟨⟩)
  rw [Lived, hphase] at hlived
  rcases hx with ⟨rfl, -, hx⟩ | ⟨he, hx⟩
  · obtain ⟨m, hm, hm'⟩ := hlived.1.2
    exact .inl ⟨⟨m, List.mem_cons_of_mem _ hm, hm'⟩, hx⟩
  · rw [hlived.2.2.2] at hx
    exact .inr ⟨List.forall_mem_cons.mpr ⟨hcommits, hlived.1.uncommitted he⟩, hx⟩

end Transitions

/-- **Every transition carries the phases on**, as long as the published root is that of the
beginning. -/
theorem Goes.onWorkers (hr : r.ServesWorkers)
    (hline : p₀.workers.InLine (p₀.tree c).root) (h : Goes p x q y)
    (hx : x.OnWorkers p₀ past p) (hlived : Lived past x)
    (hsettled : Settled firm p₀ c past p x) (hregistration : p.registration x.controller = r)
    (hcontrol : ∀ name d, x.control ≠ .stopWorker name d)
    (hopen : ∀ answer, x.phase ≠ .ended answer) :
    y.OnWorkers p₀ (⟨p, x⟩ :: past) q ∧ y.control = x.control := by
  obtain rfl := hsettled.controller
  have hroot : (x.phase = .opening ∨ x.phase.isOpen = true) →
      (p.tree x.controller).root = (p₀.tree x.controller).root :=
    fun hphase => (hsettled.unchanged (hlived.uncommitted hphase)).1
  cases h with
  | rejects hphase hq => exact ⟨onWorkers_rejected hx hlived hline hphase hq, rfl⟩
  | @opens _ _ address resolved id t phase hphase hparse hresolve ht hnext hq =>
    refine ⟨?_, rfl⟩
    have hbegun : t.root = (p₀.tree x.controller).root :=
      ht.root.trans (hroot (.inl hphase))
    rw [OnWorkers, hphase] at hx
    rw [Lived, hphase] at hlived
    have hfirst := hr.onModel hx.1 hparse (hregistration ▸ hresolve)
      (Operation.parse_eq_ok.mp hparse).2.2.1 rfl Context.rootSlot
    have hready : (x.opened id address t resolved.handler).context.Ready p₀.workers q.workers := by
      rw [hq.workers, hx.2]
      exact ready_opened id (hbegun ▸ hline) hlived.2.2.1 hfirst
    rcases hnext with rfl | ⟨due, rfl⟩
    · exact hready
    · exact ⟨hbegun, hready⟩
  | locks hphase ht hq =>
    refine ⟨?_, rfl⟩
    rw [OnWorkers, hphase] at hx
    show Context.Ready _ q.workers _
    rw [hq.workers]
    refine hx.2.of_root ?_
    rcases ht with rfl | rfl
    · rfl
    · exact (hroot (.inr (by rw [hphase]; rfl))).trans hx.1.symm
  | @picks step context hphase hstep =>
    rw [OnWorkers, hphase] at hx
    have hready : (context.putBack step).Ready p₀.workers p.workers := by
      rw [Context.putBack_of_nextStep? hstep]
      exact hx
    exact ⟨⟨rfl, { hready with }⟩, rfl⟩
  | @interrupts context slot hphase hcontext =>
    refine ⟨.inr ⟨rfl, ?_⟩, rfl⟩
    have hcompleted : context.completed = x.context.completed := by
      rcases hcontext with rfl | ⟨step, hstep⟩
      · rfl
      · show (context.putBack step).completed = _
        rw [Context.putBack_of_nextStep? hstep]
    show Undoes _ context.completed _
    rw [hcompleted]
    exact hx.undoes hlived hline (.inr (hphase ▸ rfl))
  | passes hphase hempty hnext hq =>
    refine ⟨?_, rfl⟩
    rw [OnWorkers, hphase] at hx
    rw [OnWorkers, show Execution.phase _ = .stepping from hphase, hq.workers]
    exact { hx.of_root (x.context.transaction.root_releaseLock (p.tree x.controller)) with }
  | prepares hphase hempty hlast hsteady hworkers =>
    refine ⟨?_, rfl⟩
    rw [OnWorkers, hphase] at hx
    show Context.Ready _ q.workers _
    rw [hworkers hcontrol]
    exact hx
  | works hphase hy =>
    rw [OnWorkers, hphase] at hx
    rw [Lived, hphase] at hlived
    obtain ⟨rfl, hx⟩ := hx
    exact onWorkers_work hr hregistration hlived hx hy
  | commits hphase ht hcommit =>
    exact ⟨onWorkers_committed hx hlived hsettled hphase hcommit, rfl⟩
  | reverts hphase ht hq =>
    refine ⟨.inr ⟨rfl, ?_⟩, rfl⟩
    rw [hq.workers]
    exact hx.undoes hlived hline (.inr (hphase ▸ rfl))
  | tells hphase hcompleted => exact ⟨onWorkers_told hx hlived hphase hcompleted, rfl⟩
  | @unwinds _ e t hphase hcompleted ht hq =>
    refine ⟨?_, rfl⟩
    rw [OnWorkers, hphase] at hx
    show (e = .kept ∧ (∀ k ∈ x.context.completed, k.IsUndo) ∧
      q.workers.Replaces p₀.workers (q.tree x.controller).root) ∨ (e.decision = .rollback ∧
      Undoes p₀.workers x.context.completed q.workers)
    rw [hq.workers, (hq.steady.tree x.controller).1]
    exact hx
  | drains hphase hnext =>
    rcases hnext with ⟨due, rfl⟩ | ⟨answer, rfl⟩
    · refine ⟨?_, rfl⟩
      rw [OnWorkers, hphase] at hx
      exact hx
    · exact ⟨onWorkers_drained hx hlived hphase, rfl⟩
  | blocks => exact ⟨hx.cons hopen _, rfl⟩

/-! ## Runs -/

theorem onWorkers_around (h : x.OnWorkers p₀ past p) (hq : p.LeavesAlone x.controller q) :
    x.OnWorkers p₀ past q := by
  rw [OnWorkers] at h ⊢
  rw [hq.workers, hq.keeps.1]
  exact h

/-- No operation runs on top of an operation on the workers. -/
theorem OnWorkers.resume_eq (h : x.OnWorkers p₀ past p) (answer : Answer) :
    x.resume p answer = (p, x) := by
  rw [Execution.resume.eq_def]
  split
  · rename_i step frames hphase
    rw [OnWorkers, hphase] at h
    cases h.1
  · rfl

section Run

variable {around : Plane → Plane → Prop} {operation : Value} {control : Control} {input : Input}
  {sink : Sink} (hhosts : p₀.Hosts c) (hline : p₀.workers.InLine (p₀.tree c).root)
  (haround : ∀ q q', around q q' → q.LeavesAlone c q')
  (hoperation : Operation.OnWorkers [] operation)
  (hcontrol : ∀ name d, control ≠ .stopWorker name d)
  (h : Course around p₀ (Execution.new c operation control input sink) past p x)
include hhosts hline haround hoperation hcontrol h

/-- **The whole run goes through the phases**, and the registration stays. -/
theorem Course.onWorkers (hr : (p₀.registration c).ServesWorkers) :
    x.OnWorkers p₀ past p ∧ p.registration c = p₀.registration c ∧ x.control = control := by
  induction h with
  | start => exact ⟨⟨hoperation, rfl⟩, rfl, rfl⟩
  | @around past p q x hprev hq ih =>
    obtain ⟨hx, hregistration, hsame⟩ := ih
    have hcontroller := (hprev.settled (fun q q' hq => (haround q q' hq).toSpares)
      (lived_new c operation control input sink) (settled_new hhosts)).controller
    have hleaves := haround _ _ hq
    exact ⟨onWorkers_around hx (hcontroller.symm ▸ hleaves),
      hleaves.registration.trans hregistration, hsame⟩
  | @turn past p x y hprev hopen hy ih =>
    obtain ⟨hx, hregistration, hsame⟩ := ih
    have hlived := hprev.lived (lived_new c operation control input sink)
    have hsettled := hprev.settled (fun q q' hq => (haround q q' hq).toSpares)
      (lived_new c operation control input sink) (settled_new hhosts)
    have hgoes := goes_advance hy
    have hcontroller := hsettled.controller
    obtain ⟨hx', hsame'⟩ := hgoes.onWorkers hr hline hx hlived hsettled
      (by rw [hcontroller]; exact hregistration) (by rw [hsame]; exact hcontrol) hopen
    refine ⟨hx', ?_, hsame'.trans hsame⟩
    rw [← hregistration, ← hcontroller]
    exact hgoes.registration
  | resume hprev answer ih =>
    rw [ih.1.resume_eq answer]
    exact ih

/-- However the operation ends, it leaves everything as the next one needs it. -/
theorem Course.replaces (hr : (p₀.registration c).ServesWorkers) {answer : Answer}
    (hended : x.phase = .ended answer) : p.workers.Replaces p₀.workers (p.tree c).root ∧
      p.Hosts c ∧ p.registration c = p₀.registration c := by
  obtain ⟨hx, hregistration, -⟩ := h.onWorkers hhosts hline haround hoperation hcontrol hr
  have hsettled := h.settled (fun q q' hq => (haround q q' hq).toSpares)
    (lived_new c operation control input sink) (settled_new hhosts)
  refine ⟨?_, hsettled.hosts, hregistration⟩
  rw [OnWorkers, hended, hsettled.controller] at hx
  rcases hx with ⟨-, hx⟩ | ⟨huncommitted, hx⟩
  · exact hx
  · rw [(hsettled.unchanged huncommitted).1]
    exact ⟨hx.inLine hline, hx.capacity⟩

end Run

/-- **An operation on the workers is exact.**  It runs on the controller of the server, from a state
in which the workers mirror the published model, while nobody else touches either.  It never breaks
down, and it comes to its end in whatever way.  If it commits, the workers mirror the model that is
published now; if not, they are the workers of the beginning, with the keep-alives and in the states
that they had. -/
theorem Course.workers_exact {around : Plane → Plane → Prop} {counter : Nat} {r₀ : Registration}
    {operation : Value} {control : Control} {input : Input} {sink : Sink}
    (hserver : Server.registration counter = .ok r₀)
    (hglobals : r₀.addGlobals = (none, p₀.registration c)) (hhosts : p₀.Hosts c)
    (hlisted : (p₀.tree c).root.Listed) (hmirrors : p₀.workers.Mirrors (p₀.tree c).root)
    (haround : ∀ q q', around q q' → q.LeavesAlone c q')
    (hoperation : Operation.OnWorkers [] operation)
    (hcontrol : ∀ name d, control ≠ .stopWorker name d)
    (h : Course around p₀ (Execution.new c operation control input sink) past p x) :
    (∃ y, (x.advance p).next.after? = some y) ∧
      ∀ answer, x.phase = .ended answer →
        ((∃ m ∈ past, m.Commits) → p.workers.Mirrors (p.tree c).root) ∧
          ((∀ m ∈ past, ¬ m.Commits) → p.workers.capacity = p₀.workers.capacity ∧
            p.workers.workers.Perm p₀.workers.workers) := by
  have hr := Server.servesWorkers_registration hserver hglobals
  obtain ⟨hx, hregistration, -⟩ :=
    h.onWorkers hhosts ⟨hmirrors, hlisted⟩ haround hoperation hcontrol hr
  have hcontroller := (h.settled (fun q q' hq => (haround q q' hq).toSpares)
    (lived_new c operation control input sink) (settled_new hhosts)).controller
  refine ⟨hx.goes_on hr (hcontroller.symm ▸ hregistration)
    (h.lived (lived_new c operation control input sink)), fun answer hended => ?_⟩
  rw [OnWorkers, hended, hcontroller] at hx
  rcases hx with ⟨⟨m, hm, hcommits⟩, hx⟩ | ⟨huncommitted, hx⟩
  · exact ⟨fun _ => hx.toMirrors, fun hnone => absurd hcommits (hnone m hm)⟩
  · exact ⟨fun ⟨m, hm, hcommits⟩ => absurd hcommits (huncommitted m hm),
      fun _ => ⟨hx.capacity, hx.perm hmirrors.nodup⟩⟩

end Execution

/-! ## A server with one worker -/

/-- The registration of the server, with the global operations. -/
def Server.served : Registration :=
  match Server.registration 0 with
  | .ok r => r.addGlobals.2
  | .error _ => .root ""

/-- A plane with the server, which has one worker and room for another. -/
def Plane.staffed : Plane where
  controllers := [{
    name := "server"
    registration := Server.served
    tree := { root := Resource.empty.putChild ⟨Server.workerName, "a"⟩ .empty } }]
  processes := [.running]
  workers := { capacity := 2, workers := [("a", { keepAlive := .standard, state := .running })] }

/-- Restarts the worker, adds another one, and gives that one a keep-alive of its own. -/
def Operation.restaffing : Value :=
  let keepAlive : KeepAlive := { time := 5, unit := .minutes }
  (build GlobalOperation.composite.name Address.root).set Key.steps (.list
    [build "remove" (Server.workerAddress "a"), build "add" (Server.workerAddress "a"),
      build "add" (Server.workerAddress "b"),
      ((build GlobalOperation.writeAttribute.name (Server.workerAddress "b")).set
        Key.name (.string WorkerSteps.keepAliveKey)).set Key.value keepAlive.toValue])

theorem Operation.onWorkers_restaffing : OnWorkers [] restaffing := by
  refine .of_steps (a := []) (by decide) ?_
  refine List.forall_mem_cons.mpr ⟨.of_parse "remove" rfl (by decide) rfl, ?_⟩
  refine List.forall_mem_cons.mpr ⟨.of_parse "add" rfl (by decide) rfl, ?_⟩
  refine List.forall_mem_cons.mpr ⟨.of_parse "add" rfl (by decide) rfl, ?_⟩
  exact List.forall_mem_singleton.mpr (.of_parse _ rfl (by decide) rfl)

theorem Server.exists_registration : ∃ r₀, registration 0 = .ok r₀ ∧
    r₀.addGlobals = (none, Plane.staffed.registration 0) := by
  have hcheck : ((registration 0).toOption.map (·.addGlobals.1)) = some none := by decide +kernel
  obtain ⟨r₀, hr₀, hglobals⟩ := Option.map_eq_some_iff.mp hcheck
  cases hregistration : registration 0 with
  | error e =>
    rw [hregistration] at hr₀
    cases hr₀
  | ok r =>
    rw [hregistration] at hr₀
    obtain rfl := Option.some.inj hr₀
    refine ⟨r, rfl, Prod.ext hglobals ?_⟩
    show _ = served
    rw [served, hregistration]

theorem Plane.listed_staffed : (staffed.tree 0).root.Listed := by
  have hempty : Resource.empty.Orderly :=
    ⟨List.nodup_nil, by rintro _ ⟨⟩, List.nodup_nil, by rintro _ ⟨⟩, by rintro _ ⟨⟩⟩
  exact (hempty.putChild ⟨Server.workerName, "a"⟩ hempty).listed

theorem WorkerContainer.mirrors_staffed :
    Plane.staffed.workers.Mirrors (Plane.staffed.tree 0).root where
  nodup := List.nodup_singleton _
  room := by decide
  same name := by
    have hworker : (Plane.staffed.tree 0).root.worker? name
        = if name = "a" then some .empty else none := Resource.worker?_putChild _ _ _ _
    rw [hworker]
    show (if "a" = name then _ else _ : Option Worker).map _ = _
    by_cases hname : "a" = name
    · rw [if_pos hname, if_pos hname.symm]
      rfl
    · rw [if_neg hname, if_neg (Ne.symm hname)]
      rfl
  running name w hw := by
    change (if "a" = name then _ else _) = _ at hw
    split at hw
    · exact Option.some.inj hw ▸ rfl
    · cases hw

namespace Execution

/-- The worker is restarted and another one is added, and the workers mirror what was published. -/
theorem workers_exact_restaffing : ∃ p past answer x, Course (fun _ _ => False) .staffed
    (Execution.new 0 Operation.restaffing (.decide .keep) {} .discard) past p x ∧
      x.phase = .ended answer ∧ (p.workers.get? "b").isSome ∧
      p.workers.Mirrors (p.tree 0).root := by
  have hrun : (alone .staffed
      (Execution.new 0 Operation.restaffing (.decide .keep) {} .discard) 39).any
        (fun reached => reached.2.2.succeeded && (reached.2.1.workers.get? "b").isSome) = true := by
    decide +kernel
  obtain ⟨⟨past, p, x⟩, hcourse, hfacts⟩ := (Option.any_eq_true _ _).mp hrun
  obtain ⟨hsucceeded, hstarted⟩ := Bool.and_eq_true_iff.mp hfacts
  obtain ⟨answer, hphase, hsucceeds⟩ := exists_of_succeeded hsucceeded
  have hcourse' : Course (fun _ _ => False) _ _ past p x := course_alone hcourse
  have hcommits := (hcourse'.lived (lived_new _ _ _ _ _)).commits hphase hsucceeds
  obtain ⟨r₀, hserver, hglobals⟩ := Server.exists_registration
  refine ⟨p, past, answer, x, hcourse', hphase, hstarted, ?_⟩
  have hexact := Course.workers_exact hserver hglobals ⟨by decide, by decide⟩
    Plane.listed_staffed WorkerContainer.mirrors_staffed (fun _ _ h => h.elim)
    Operation.onWorkers_restaffing (by rintro _ _ ⟨⟩) hcourse'
  exact (hexact.2 answer hphase).1 hcommits

end Execution

end ManagementPlane
