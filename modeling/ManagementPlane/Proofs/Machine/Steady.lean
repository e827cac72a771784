import ManagementPlane.Proofs.Machine.Ending

/-!
# Proofs/Machine/Steady — turns that commit nothing

As long as nobody else commits on its controller (`Plane.Spares`), the transaction of an operation
is based on the root that is published (`Transaction.Based`): a turn that does not commit leaves the
published roots alone (`steady_advance`), and what it makes of the transaction is still based on
them (`stays_advance`).
-/

namespace ManagementPlane

open Transaction (Keeps)

/-! ## Transactions on a tree that stays -/

namespace Transaction

variable {x y : Transaction} {t t' : Tree}

/-- The transaction works on the root that the tree has. -/
structure Based (x : Transaction) (t : Tree) : Prop where
  base : x.base = t.root
  began : x.began = t.version
  clean : x.Clean

/-- A transaction is based on the root it began with. -/
theorem based_begin (h : Keeps t t') (writer lockTimeout : Nat) :
    (begin t' writer lockTimeout).Based t :=
  ⟨h.1, h.2, by rintro s ⟨⟩⟩

/-- To stage a model copies the published one. -/
theorem based_stage (h : Keeps t t') (x : Transaction) : (x.stage t').Based t := by
  refine ⟨h.1, h.2, fun s hs _ => ?_⟩
  rw [← Option.some.inj hs]
  rfl

/-- To write leaves the base as it is. -/
theorem Written.based (h : Written x y) (hx : x.Based t) : y.Based t :=
  ⟨h.alongside.base.trans hx.base, h.alongside.began.trans hx.began, h.clean hx.clean⟩

theorem root_releaseLock (x : Transaction) (t : Tree) : (x.releaseLock t).2.root = x.root := by
  rw [releaseLock]
  cases hs : x.staging with
  | none => rfl
  | some s =>
    dsimp only
    split
    · rw [root, root, hs]
      rfl
    · rfl

/-- To release the lock leaves the base as it is. -/
theorem Based.releaseLock (h : x.Based t) (t' : Tree) : (x.releaseLock t').2.Based t := by
  have halong := x.alongside_releaseLock t'
  refine ⟨halong.base.trans h.base, halong.began.trans h.began, ?_⟩
  rw [Transaction.releaseLock]
  split
  · rename_i s hs
    split
    · intro s' hs' hdirty
      rw [← Option.some.inj hs'] at hdirty ⊢
      exact h.clean s hs hdirty
    · exact h.clean
  · exact h.clean

/-- **A commit on the root that the transaction is based on** publishes what is staged. -/
theorem Based.commit (h : x.Based t) (ht : Keeps t t') {published : Tree}
    (hc : x.commit t' = (.ok (), published, y)) :
    published.root = x.root ∧ published.version = t.version + if x.isDirty then 1 else 0 := by
  have hunstaged : ∀ {z : Tree × Transaction}, z = x.finish t' → z = (published, y) →
      x.root = x.base → x.isDirty = false →
      published.root = x.root ∧ published.version = t.version + if x.isDirty then 1 else 0 := by
    rintro z rfl hz hroot hdirty
    obtain rfl : (x.finish t').1 = published := congrArg Prod.fst hz
    obtain ⟨hkeep, hversion⟩ := x.keeps_finish t'
    rw [hkeep, hversion, hroot, hdirty, h.base]
    exact ⟨ht.1, ht.2⟩
  rw [Transaction.commit.eq_def] at hc
  split at hc
  · rename_i s hs
    have hroot : x.root = s.root := by rw [Transaction.root, hs]; rfl
    have hdirty : x.isDirty = s.dirty := by rw [isDirty, hs]; rfl
    split at hc
    · rename_i hs'
      rw [Tree.publish, if_pos (ht.2.trans h.began.symm)] at hc
      obtain ⟨hroot', hversion'⟩ := keeps_finish
        { x with base := s.root, began := t'.version + 1 }
        { t' with root := s.root, version := t'.version + 1 }
      obtain rfl := congrArg (Prod.fst ∘ Prod.snd) hc
      refine ⟨hroot'.trans hroot.symm, hversion'.trans ?_⟩
      rw [hdirty, hs', ht.2]
      rfl
    · rename_i hs'
      have hclean : s.dirty = false := by simpa using hs'
      exact hunstaged rfl (congrArg Prod.snd hc) (hroot.trans (h.clean s hs hclean))
        (hdirty.trans hclean)
  · rename_i hs
    exact hunstaged rfl (congrArg Prod.snd hc) (by rw [Transaction.root, hs]; rfl)
      (by rw [isDirty, hs]; rfl)

end Transaction

/-! ## What else goes on -/

/-- The controller is there, and so is its process. -/
structure Plane.Hosts (p : Plane) (c : Nat) : Prop where
  controller : c < p.controllers.length
  process : (p.controller c).process < p.processes.length

/-- What goes on around an operation commits nothing on its controller. -/
structure Plane.Spares (c : Nat) (p q : Plane) : Prop where
  hosts : p.Hosts c → q.Hosts c
  keeps : Keeps (p.tree c) (q.tree c)

/-- The controllers are the same but for their locks and their counts of operations, and processes
are in the same states. -/
structure Plane.Still (p q : Plane) : Prop where
  steady : p.Steady q
  processes : q.processes = p.processes

theorem Plane.Still.refl (p : Plane) : p.Still p := ⟨.refl p, rfl⟩

/-- One change after another. -/
theorem Plane.Still.trans {p q r : Plane} (h : p.Still q) (h' : q.Still r) : p.Still r :=
  ⟨h.steady.trans h'.steady, h'.processes.trans h.processes⟩

/-- A change of neither controllers nor process states. -/
theorem Plane.still_of_controllers {p q : Plane} (h : q.controllers = p.controllers)
    (h' : q.processes = p.processes) : p.Still q :=
  ⟨Plane.steady_of_controllers h (by rw [h']), h'⟩

theorem Plane.Steady.hosts {p q : Plane} {c : Nat} (h : p.Steady q) (hp : p.Hosts c) :
    q.Hosts c := by
  obtain ⟨tree, accepted, hq, -⟩ := h.controller c
  refine ⟨h.length ▸ hp.controller, ?_⟩
  rw [h.processes, hq]
  exact hp.process

/-- Another tree on a controller is no other controller. -/
theorem Plane.hosts_setTree {p : Plane} {c : Nat} (h : p.Hosts c) (t : Tree) :
    (p.setTree c t).Hosts c := by
  refine ⟨(List.length_modify _ _ _).symm ▸ h.controller, ?_⟩
  rw [Plane.setTree, Plane.controller_modifyController, if_pos ⟨rfl, h.controller⟩]
  exact h.process

theorem Plane.Still.processState {p q : Plane} (h : p.Still q) (c : Nat) :
    q.processState c = p.processState c := by
  obtain ⟨tree, accepted, hq, -⟩ := h.steady.controller c
  rw [Plane.processState, Plane.processState, h.processes, hq]

/-- A process that has to be reloaded is degraded. -/
theorem Plane.isDegraded_reload {p : Plane} {c : Nat} (h : p.Hosts c) :
    ((p.changeProcess c .reload).processState c).isDegraded = true := by
  have hprocess := List.getElem?_eq_getElem h.process
  show (((p.processes.modify (p.controller c).process _)[(p.controller c).process]?).getD
    .running).isDegraded = true
  rw [List.getElem?_modify_eq, hprocess]
  exact ProcessState.isDegraded_requireReload _

/-- Whether the operation has begun and its transaction is still open. -/
def Phase.isOpen : Phase → Bool
  | locking _ | stepping | handling .. | deciding .. => true
  | _ => false

/-! ## Turns that commit nothing -/

namespace Execution

variable {p p₀ : Plane} {past : List Moment} {x y : Execution}

/-- To take the lock publishes nothing. -/
theorem still_takeLock? {c : Nat} {t t' : Transaction} {q : Plane}
    (h : p.takeLock? c t = some (q, t')) : p.Still q :=
  ⟨(takeLock?_eq_some h).1, (takeLock?_eq_some h).2.1⟩

/-- To begin an operation counts it and may take the lock. -/
theorem still_begin (p : Plane) (x : Execution) : p.Still (begin p x).plane := by
  have haccepted : p.Still (p.modifyController x.controller
      ({ · with accepted := (p.controller x.controller).accepted + 1 })) :=
    ⟨p.steady_modifyController x.controller ⟨_, _, rfl, rfl, rfl⟩, rfl⟩
  have hwriters : ∀ {q : Plane}, p.Still q → p.Still { q with writers := q.writers + 1 } :=
    fun h => h.trans (Plane.still_of_controllers rfl rfl)
  rw [begin]
  split
  · exact .refl p
  · dsimp only
    split
    · exact haccepted
    · split
      · exact hwriters haccepted
      · split
        · rename_i q t htake
          exact (hwriters haccepted).trans (still_takeLock? htake)
        · exact (hwriters haccepted).trans ⟨steady_queueForLock _ _ _, rfl⟩

/-- To wait for the lock publishes nothing. -/
theorem still_awaitLock (p : Plane) (x : Execution) (deadline : Nat) :
    p.Still (awaitLock p x deadline).plane := by
  rw [awaitLock]
  dsimp only
  split
  · rename_i q t htake
    exact still_takeLock? htake
  · split
    · exact ⟨steady_leaveLock _ _ _, rfl⟩
    · exact .refl p

/-- To make known that one has prepared is a matter of handles and channels. -/
theorem apart_announcePrepared (p : Plane) (control : Control) (h : Nat) (tentative : Value) :
    p.Apart (p.announcePrepared control h tentative) := by
  cases control with
  | decide d => exact ⟨rfl, rfl⟩
  | announce decisions =>
    have hlog : p.Apart (p.writeLog ("prepared: " ++ tentative.render)) := ⟨rfl, rfl⟩
    have hdrop : ∀ q : Plane, q.Apart (q.modifyHandle h Prepared.drop) := fun _ => ⟨rfl, rfl⟩
    refine .trans ?_ (hdrop _)
    exact List.foldlRecOn (motive := p.Apart) decisions _ hlog fun q hq d _ =>
      ⟨hq.controllers, hq.processes⟩
  | hold t => exact ⟨rfl, rfl⟩
  | relay l =>
    rw [Plane.announcePrepared]
    dsimp only
    split <;> exact ⟨rfl, rfl⟩
  | exchange e a =>
    rw [Plane.announcePrepared]
    split
    · dsimp only
      split <;> exact ⟨rfl, rfl⟩
    · exact ⟨rfl, rfl⟩
  | stopWorker name d => exact ⟨rfl, rfl⟩

theorem still_prepare (p : Plane) (x : Execution) : p.Still (prepare p x).plane := by
  have hnew : p.Apart (p.newHandle {}).2 := (Plane.Apart.refl p).newHandle {}
  have hannounced := hnew.trans (apart_announcePrepared _ x.control (p.newHandle {}).1
    ((x.context.slot Context.rootSlot).toValue false))
  exact ⟨hannounced.steady, hannounced.processes⟩

/-- To pick a step may release the lock, and that is all. -/
theorem still_pick (p : Plane) (x : Execution) : p.Still (pick p x).plane := by
  rw [pick]
  dsimp only
  split
  · split <;> exact .refl p
  · split
    · exact ⟨p.steady_setTree x.controller (Transaction.keeps_releaseLock _ _), rfl⟩
    · split
      · exact .refl p
      · exact still_prepare p x

/-- To roll a transaction back gives up its lock. -/
theorem still_rollback (p : Plane) (x : Execution) :
    p.Still (p.setTree x.controller (x.context.transaction.rollback (p.tree x.controller)).1) :=
  ⟨p.steady_setTree x.controller (Transaction.keeps_finish _ _), rfl⟩

/-- A completion commits nothing, and changes the state of a process on instruction only. -/
theorem steady_completion (c : Completion) (d : Decision) (s : Scene) :
    s.plane.Steady (c.run d s).plane ∧
      ((∀ change, .process (some change) ∉ c.instructions d) →
        (c.run d s).plane.processes = s.plane.processes) := by
  have hscript : ∀ (body : Script) (t : Scene), s.plane.Still t.plane →
      s.plane.Steady (Completion.runScript body t).plane ∧
        ((∀ change, .process (some change) ∉ body) →
          (Completion.runScript body t).plane.processes = s.plane.processes) := fun body t h =>
    have hdoes := Completion.runScript_does body t
    ⟨h.steady.trans (Plane.steady_of_controllers hdoes.beside.2.controllers
      hdoes.length_processes), fun hbody => (hdoes.processes hbody).trans h.processes⟩
  have hsame : ∀ {q : Plane}, q.controllers = s.plane.controllers →
      q.processes = s.plane.processes → s.plane.Steady q ∧
        ((∀ change, .process (some change) ∉ c.instructions d) →
          q.processes = s.plane.processes) :=
    fun h h' => ⟨Plane.steady_of_controllers h (by rw [h']), fun _ => h'⟩
  cases c with
  | script label ro body =>
    cases ro with
    | false => exact hscript body _ (Plane.still_of_controllers rfl rfl)
    | true =>
      by_cases hd : d = .keep
      · rw [Completion.run, if_pos hd]
        exact hsame rfl rfl
      · rw [Completion.run, if_neg hd, Completion.instructions, if_neg hd]
        exact hscript body _ (Plane.still_of_controllers rfl rfl)
  | decide handle => exact hsame rfl rfl
  | reportSteps own slots =>
    rw [Completion.run]
    split <;> exact hsame rfl rfl
  | stopWorker name =>
    rw [Completion.run]
    split <;> exact hsame rfl rfl
  | restoreWorker name worker =>
    rw [Completion.run]
    split <;> exact hsame rfl rfl
  | reconfigureWorker name k =>
    rw [Completion.run]
    split
    · exact hsame rfl rfl
    · split <;> exact hsame rfl rfl

/-- To unwind tells completions, and they may change the state of the process. -/
theorem steady_unwind (p : Plane) (x : Execution) (e : Ending) :
    p.Steady (unwind p x e).plane := by
  rw [unwind]
  split
  · cases e with
    | kept => exact .refl p
    | rolledBack failure => exact .refl p
    | failed => exact (still_rollback p x).steady
    | fatal reason =>
      have hprocess : p.Steady (p.changeProcess x.controller .reload) :=
        Plane.steady_of_controllers rfl (List.length_modify _ _ _)
      exact hprocess.trans (still_rollback _ x).steady
  · rename_i c rest hcompleted
    exact (steady_completion c e.decision
      ⟨p, x.controller, { x.context with completed := rest }⟩).1

theorem drain_not_returned (p : Plane) (x : Execution) (deadline : Option Nat) (e : Ending) :
    ∀ y step out, (drain p x deadline e).next ≠ .returned y step out := by
  intro y step out
  rw [drain]
  dsimp only
  split
  · rintro ⟨⟩
  · split
    · rintro ⟨⟩
    · split
      · rintro ⟨⟩
      · split <;> rintro ⟨⟩

/-- To drain is to wait. -/
theorem plane_drain (p : Plane) (x : Execution) (deadline : Option Nat) (e : Ending) :
    (drain p x deadline e).plane = p := by
  rw [drain]
  dsimp only
  split
  · rfl
  · split
    · rfl
    · split
      · rfl
      · split <;> rfl

/-- **Only a commit publishes.** -/
theorem steady_advance (h : Lived past x) (hcommits : ¬ (Moment.mk p x).Commits) :
    p.Steady (x.advance p).plane := by
  rw [advance]
  split
  · exact (still_begin p x).steady
  · exact (still_awaitLock p x _).steady
  · exact (still_pick p x).steady
  · exact (keeping_work p x _ _).steady
  · rename_i handle due hphase
    have hleft : p.Steady (p.modifyHandle handle Prepared.leave) :=
      Plane.steady_of_controllers rfl rfl
    have happly : ∀ d, (p.handle handle).outlook.effect?.getD .rollback = d →
        p.Steady (apply p x handle d).plane := by
      intro d hd
      rw [apply.eq_def]
      dsimp only
      split
      · split
        · rename_i tree t hcommit
          refine absurd ⟨⟨handle, due, hphase, ?_⟩, congrArg Prod.fst hcommit, ?_⟩ hcommits
          · cases heffect : (p.handle handle).outlook.effect? with
            | none =>
              rw [heffect] at hd
              cases hd
            | some d' =>
              rw [heffect] at hd
              exact congrArg some hd
          · rw [Lived, hphase] at h
            exact h.2.2
        · rename_i e tree t hcommit
          refine hleft.trans (Plane.steady_setTree _ x.controller ?_)
          have hfinish := Transaction.commit_of_error (congrArg Prod.fst hcommit)
          rw [hcommit] at hfinish
          rw [show tree = _ from congrArg Prod.fst hfinish]
          exact Transaction.keeps_finish _ _
      · exact hleft.trans (still_rollback _ x).steady
    rw [decide.eq_def]
    split
    · rename_i d hd
      exact happly d (by rw [hd]; rfl)
    · rename_i heffect
      split
      · split
        · exact happly .rollback (by rw [heffect]; rfl)
        · exact .refl p
      · exact .refl p
  · exact steady_unwind p x _
  · rw [plane_drain]
    exact .refl p
  · exact .refl p

/-! ## The transaction of an operation -/

/-- The operation stays on its controller, and as long as its transaction is open it is based on
`t`. -/
structure Stays (t : Tree) (x y : Execution) : Prop where
  controller : y.controller = x.controller
  based : y.phase.isOpen = true → y.context.transaction.Based t

variable {t : Tree}

theorem based_takeLock? {c : Nat} {z z' : Transaction} {q q' : Plane} (hz : z.Based t)
    (h : q.takeLock? c z = some (q', z')) (ht : Keeps t (q.tree c)) : z'.Based t := by
  obtain ⟨-, -, rfl | rfl⟩ := takeLock?_eq_some h
  · exact hz
  · exact Transaction.based_stage ht z

/-- An operation that begins is based on the root that it finds. -/
theorem stays_begin (ht : Keeps t (p.tree x.controller))
    (hy : (begin p x).next.after? = some y) : Stays t x y := by
  have hreject : ∀ {q : Plane} {e : OperationError}, (reject q x e).next.after? = some y →
      Stays t x y := by
    intro q e h
    obtain rfl := Option.some.inj h
    exact ⟨rfl, by rintro ⟨⟩⟩
  have haccepted := p.steady_modifyController x.controller (f := fun k =>
    { k with accepted := (p.controller x.controller).accepted + 1 }) ⟨_, _, rfl, rfl, rfl⟩
  have htree := haccepted.tree x.controller
  have ht' : Keeps t ((p.modifyController x.controller fun k =>
      { k with accepted := (p.controller x.controller).accepted + 1 }).tree x.controller) :=
    ⟨htree.1.trans ht.1, htree.2.trans ht.2⟩
  rw [begin] at hy
  split at hy
  · exact hreject hy
  · dsimp only at hy
    split at hy
    · exact hreject hy
    · split at hy
      · obtain rfl := Option.some.inj hy
        exact ⟨rfl, fun _ => Transaction.based_begin ht' _ _⟩
      · split at hy
        · rename_i q z htake
          obtain rfl := Option.some.inj hy
          exact ⟨rfl, fun _ => based_takeLock? (Transaction.based_begin ht' _ _) htake ht'⟩
        · obtain rfl := Option.some.inj hy
          exact ⟨rfl, fun _ => Transaction.based_begin ht' _ _⟩

theorem stays_pick (h : x.context.transaction.Based t) (hy : (pick p x).next.after? = some y) :
    Stays t x y := by
  rw [pick] at hy
  dsimp only at hy
  split at hy
  · rename_i step context hstep
    split at hy
    · obtain rfl := Option.some.inj hy
      exact ⟨rfl, by rintro ⟨⟩⟩
    · obtain rfl := Option.some.inj hy
      refine ⟨rfl, fun _ => ?_⟩
      obtain ⟨rest, -, rfl⟩ := Context.nextStep?_eq_some hstep
      exact h
  · split at hy
    · obtain rfl := Option.some.inj hy
      exact ⟨rfl, fun _ => h.releaseLock _⟩
    · split at hy
      · obtain rfl := Option.some.inj hy
        exact ⟨rfl, by rintro ⟨⟩⟩
      · obtain rfl := Option.some.inj hy
        exact ⟨rfl, fun _ => h⟩

/-- A step that is over leaves the transaction to the operation. -/
theorem stays_afterStep {step : Step} {out : Except OperationError Unit} {z : Context}
    (h : z.transaction.Based t) : Stays t x ({ x with context := z }.afterStep step out) := by
  have hrested := z.endStep_rested step out
  rw [afterStep]
  split
  · rename_i context hcontext
    rw [hcontext] at hrested
    refine ⟨rfl, fun _ => ?_⟩
    show context.transaction.Based t
    rw [hrested.transaction]
    exact h
  · exact ⟨rfl, by rintro ⟨⟩⟩

/-- A step that works may be the first that stages. -/
theorem stays_work {step : Step} {w : Work} (ht : Keeps t (p.tree x.controller))
    (h : x.context.transaction.Based t) (hy : (work p x step w).next.after? = some y) :
    Stays t x y := by
  have hcontinues := (keeping_work p x step w).continues
  generalize (work p x step w).next = next at hcontinues hy
  have hdoes : ∀ {z : Context}, x.context.Does (· ∈ w.instructions) z → z.transaction.Based t :=
    fun hz => hz.worked.transaction.based h
  cases hcontinues with
  | goes hz hw =>
    obtain rfl := Option.some.inj hy
    cases hz with
    | does hz => exact ⟨rfl, fun _ => hdoes hz⟩
    | stages hz => exact ⟨rfl, fun _ => Transaction.based_stage ht _⟩
  | forwards hf =>
    obtain rfl := Option.some.inj hy
    exact ⟨rfl, fun _ => h⟩
  | returns hz =>
    obtain rfl := Option.some.inj hy
    exact stays_afterStep (hdoes hz)
  | @concludes f due handle response hw houtcome =>
    obtain rfl := Option.some.inj hy
    refine stays_afterStep ?_
    rw [Forwarding.accept, Context.complete]
    split
    · split <;> exact h
    · exact h
  | blocks =>
    obtain rfl := Option.some.inj hy
    exact ⟨rfl, fun _ => h⟩
  | nests hz =>
    obtain rfl := Option.some.inj hy
    exact ⟨rfl, fun _ => hdoes hz⟩
  | crashes => cases hy

/-- To decide an operation either ends its transaction or leaves it alone. -/
theorem stays_decide {handle : Nat} {due : Option Nat} (h : x.context.transaction.Based t)
    (hy : (decide p x handle due).next.after? = some y) : Stays t x y := by
  have happly : ∀ {d : Decision}, (apply p x handle d).next.after? = some y → Stays t x y := by
    intro d hy
    rw [apply.eq_def] at hy
    dsimp only at hy
    split at hy
    · split at hy
      · obtain rfl := Option.some.inj hy
        exact ⟨rfl, by rintro ⟨⟩⟩
      · obtain rfl := Option.some.inj hy
        exact ⟨rfl, by rintro ⟨⟩⟩
    · obtain rfl := Option.some.inj hy
      exact ⟨rfl, by rintro ⟨⟩⟩
  have hblocked : (Next.blocked x).after? = some y → Stays t x y := by
    intro hy
    obtain rfl := Option.some.inj hy
    exact ⟨rfl, fun _ => h⟩
  rw [decide.eq_def] at hy
  split at hy
  · exact happly hy
  · split at hy
    · split at hy
      · exact happly hy
      · exact hblocked hy
    · exact hblocked hy

theorem stays_unwind {e : Ending} (hphase : x.phase = .unwinding e)
    (hy : (unwind p x e).next.after? = some y) : Stays t x y := by
  rw [unwind] at hy
  split at hy
  · obtain ⟨z, hz⟩ := unwound_next p x e
    rw [hz] at hy
    obtain rfl := Option.some.inj hy
    exact ⟨rfl, by rintro ⟨⟩⟩
  · obtain rfl := Option.some.inj hy
    refine ⟨rfl, fun hopen => ?_⟩
    rw [show Execution.phase _ = _ from hphase] at hopen
    cases hopen

theorem stays_drain {deadline : Option Nat} {e : Ending} (hphase : x.phase = .draining deadline e)
    (hy : (drain p x deadline e).next.after? = some y) : Stays t x y := by
  have hwait : ∀ {z : Context} {due : Option Nat},
      some { x with context := z, phase := .draining due e } = some y → Stays t x y := by
    intro z due hz
    obtain rfl := Option.some.inj hz
    exact ⟨rfl, by rintro ⟨⟩⟩
  rw [drain] at hy
  dsimp only at hy
  split at hy
  · obtain rfl := Option.some.inj hy
    exact ⟨rfl, by rintro ⟨⟩⟩
  · split at hy
    · exact hwait hy
    · split at hy
      · exact hwait hy
      · split at hy
        · exact hwait hy
        · obtain rfl := Option.some.inj hy
          refine ⟨rfl, fun hopen => ?_⟩
          rw [hphase] at hopen
          cases hopen

/-- **An open transaction stays based** on a tree that stays. -/
theorem stays_advance (ht : x.phase = .opening ∨ x.phase.isOpen = true →
    Keeps t (p.tree x.controller)) (h : x.phase.isOpen = true → x.context.transaction.Based t)
    (hy : (x.advance p).next.after? = some y) : Stays t x y := by
  rw [advance] at hy
  split at hy
  · rename_i hphase
    exact stays_begin (ht (.inl hphase)) hy
  · rename_i deadline hphase
    have ht := ht (.inr (by rw [hphase]; rfl))
    have hbased := h (by rw [hphase]; rfl)
    rw [awaitLock] at hy
    dsimp only at hy
    split at hy
    · rename_i q z htake
      obtain rfl := Option.some.inj hy
      exact ⟨rfl, fun _ => based_takeLock? hbased htake ht⟩
    · split at hy
      · obtain rfl := Option.some.inj hy
        exact ⟨rfl, by rintro ⟨⟩⟩
      · obtain rfl := Option.some.inj hy
        exact ⟨rfl, fun _ => hbased⟩
  · rename_i hphase
    exact stays_pick (h (by rw [hphase]; rfl)) hy
  · rename_i step w hphase
    exact stays_work (ht (.inr (by rw [hphase]; rfl))) (h (by rw [hphase]; rfl)) hy
  · rename_i handle due hphase
    exact stays_decide (h (by rw [hphase]; rfl)) hy
  · rename_i e hphase
    exact stays_unwind hphase hy
  · rename_i deadline e hphase
    exact stays_drain hphase hy
  · obtain rfl := Option.some.inj hy
    exact ⟨rfl, h⟩

end Execution

end ManagementPlane
