import ManagementPlane.Proofs.Machine.Grasps

/-!
# Proofs/Machine/Intent — the write lock, turn by turn

Every turn of an operation moves the write lock of its controller in one of the ways of
`Execution.Grasps` (`Execution.grasps_advance`).  The lock is for the first stage: an operation
leaves the stage by releasing it, and whatever its steps do later, they do not ask for it again.
-/

namespace ManagementPlane

namespace Execution

variable {p q r : Plane} {x y : Execution} {z : Context} {phase : Phase}

/-! ## Phase by phase -/

/-- An operation that is rejected before it begins has nothing to give back. -/
theorem Orderly.rejects (h : x.Orderly) (hphase : x.phase = .opening) (answer : Answer) :
    Orderly { x with phase := .ended answer } := by
  obtain ⟨hintent, hstage, -⟩ := h.opening hphase
  exact ⟨by rintro ⟨⟩, fun hlater => absurd hstage hlater, by rintro ⟨⟩, by rintro _ _ ⟨⟩,
    fun _ => hintent, fun _ => .inr ⟨answer, rfl⟩⟩

/-- An operation that was accepted. -/
theorem orderly_opened {id : Nat} {address : Address} {handler : Handler} {t : Transaction}
    (h : x.context.stage = .model) (hid : id ≠ 0)
    (hphase : phase = .stepping ∨ t.hasIntent = false ∧ ∃ due, phase = .locking due) :
    Orderly { x.opened id address t handler with phase } := by
  refine ⟨fun hwaits => ⟨?_, h⟩, fun hlater => absurd h hlater, ?_, ?_, fun hsettled => ?_,
    fun h => absurd h hid⟩
  · rcases hphase with rfl | ⟨hintent, -⟩
    · cases hwaits
    · exact hintent
  · rintro rfl
    rcases hphase with ⟨⟨⟩⟩ | ⟨-, due, ⟨⟩⟩
  · rintro handle due rfl
    rcases hphase with ⟨⟨⟩⟩ | ⟨-, due, ⟨⟩⟩
  · rcases hphase with rfl | ⟨-, due, rfl⟩ <;> cases hsettled

/-- An operation that begins asks for the lock, takes it, or goes without it. -/
theorem grasps_begin (h : x.Orderly) (hphase : x.phase = .opening)
    (hy : (begin p x).next.after? = some y) : Grasps p x (begin p x).plane y := by
  obtain ⟨hintent, hstage, hid⟩ := h.opening hphase
  have haway : x.grip = .away := h.away (.inr hid)
  -- the operation is counted, and so is its transaction
  have hcounted : ∀ {f : Controller → Controller}, (∀ k, (f k).tree = k.tree) →
      p.Relocks x.controller (p.tree x.controller).lock (p.modifyController x.controller f) ∧
        (p.modifyController x.controller f).tree x.controller = p.tree x.controller ∧
          (p.modifyController x.controller f).writers = p.writers := by
    intro f hf
    have htree : ∀ d, (p.modifyController x.controller f).tree d = p.tree d := by
      intro d
      rw [Plane.tree, Plane.controller_modifyController]
      split
      · exact hf _
      · rfl
    exact ⟨⟨List.length_modify _ _ _, fun _ h => h, fun _ => by rw [htree],
      fun d _ => by rw [htree]⟩, htree _, rfl⟩
  have hreject : ∀ {q : Plane} {e : OperationError},
      p.Relocks x.controller (p.tree x.controller).lock q → q.writers = p.writers →
      (reject q x e).next.after? = some y → Grasps p x q y := by
    intro q e hq hwriters hy
    obtain rfl := Option.some.inj hy
    have hrejected := h.rejects hphase
      (.ok (q.finish x.controller (Response.failure e.message), []))
    exact .of_stays hrejected rfl hq hwriters rfl rfl
      ((hrejected.away (.inr hid)).trans haway.symm)
  obtain ⟨turn, hturn⟩ : ∃ turn, begin p x = turn := ⟨_, rfl⟩
  rw [hturn] at hy ⊢
  rw [begin] at hturn
  split at hturn
  · subst hturn
    exact hreject ((Plane.Fair.refl p).relocks _) rfl hy
  · next name address hparse =>
    obtain ⟨hrelocks, htree, hwriters⟩ := hcounted
      (f := ({ · with accepted := (p.controller x.controller).accepted + 1 })) fun _ => rfl
    dsimp only at hturn
    generalize p.modifyController x.controller _ = p₁ at hrelocks htree hwriters hturn
    have hbegun : p.Relocks x.controller (p.tree x.controller).lock
        { p₁ with writers := p₁.writers + 1 } := ⟨hrelocks.length, hrelocks.recalls, hrelocks.own,
      hrelocks.others⟩
    split at hturn
    · subst hturn
      exact hreject hrelocks hwriters hy
    · next resolved hresolved =>
      have hid' : (p.controller x.controller).accepted + 1 ≠ 0 := Nat.succ_ne_zero _
      split at hturn
      · subst hturn
        obtain rfl := Option.some.inj hy
        refine ⟨orderly_opened hstage hid' (.inl rfl), rfl, ⟨_, hbegun, ?_⟩,
          .inr ⟨congrArg (· + 1) hwriters, hid, hid', hwriters⟩⟩
        rw [haway]
        exact .stays
      · split at hturn
        · next q t htake =>
          subst hturn
          obtain rfl := Option.some.inj hy
          rcases takeLock?_cases htake with ⟨⟨⟩, -⟩ | ⟨rfl, hholder, rfl⟩
          refine ⟨orderly_opened hstage hid' (.inl rfl), rfl,
            ⟨_, hbegun.trans (Plane.relocks_setTree _ _ _), ?_⟩,
            .inr ⟨congrArg (· + 1) hwriters, hid, hid', hwriters⟩⟩
          exact htree ▸ .takes hholder
        · next htake =>
          subst hturn
          obtain rfl := Option.some.inj hy
          refine ⟨orderly_opened hstage hid' (.inr ⟨rfl, _, rfl⟩), rfl,
            ⟨_, hbegun.trans (Plane.relocks_setTree _ _ _), ?_⟩,
            .inr ⟨congrArg (· + 1) hwriters, hid, hid', hwriters⟩⟩
          exact htree ▸ .queues

/-- An operation that has begun has a number. -/
theorem Orderly.id_ne_zero (h : x.Orderly) (hopening : x.phase ≠ .opening)
    (hended : ∀ answer, x.phase ≠ .ended answer) : x.context.id ≠ 0 := by
  intro hid
  rcases h.named hid with hphase | ⟨answer, hphase⟩
  · exact hopening hphase
  · exact hended answer hphase

/-- Whoever waits for the lock takes it, withdraws, or goes on waiting. -/
theorem grasps_awaitLock {due : Nat} (h : x.Orderly) (hphase : x.phase = .locking due)
    (hy : (awaitLock p x due).next.after? = some y) : Grasps p x (awaitLock p x due).plane y := by
  have hwaits : x.phase.awaitsLock = true := by rw [hphase]; rfl
  have hid := h.id_ne_zero (by rw [hphase]; rintro ⟨⟩) (by rw [hphase]; rintro _ ⟨⟩)
  obtain ⟨turn, hturn⟩ : ∃ turn, awaitLock p x due = turn := ⟨_, rfl⟩
  rw [hturn] at hy ⊢
  rw [awaitLock] at hturn
  dsimp only at hturn
  split at hturn
  · next q t htake =>
    subst hturn
    obtain rfl := Option.some.inj hy
    exact h.takes (h.waits hwaits).2 hid rfl htake
  · next htake =>
    split at hturn
    · subst hturn
      obtain rfl := Option.some.inj hy
      exact h.leaves hwaits (.inr ⟨_, rfl⟩) htake
    · subst hturn
      obtain rfl := Option.some.inj hy
      exact h.blocks

/-- To pass to the next stage may release the lock. -/
theorem grasps_pick (h : x.Orderly) (hphase : x.phase = .stepping)
    (hy : (pick p x).next.after? = some y) : Grasps p x (pick p x).plane y := by
  have hwaits : x.phase.awaitsLock = false := by rw [hphase]; rfl
  have hid := h.id_ne_zero (by rw [hphase]; rintro ⟨⟩) (by rw [hphase]; rintro _ ⟨⟩)
  obtain ⟨turn, hturn⟩ : ∃ turn, pick p x = turn := ⟨_, rfl⟩
  rw [hturn] at hy ⊢
  rw [pick] at hturn
  dsimp only at hturn
  split at hturn
  · next step context hstep =>
    have hcontext : x.context.Clings context := by
      obtain ⟨rest, -, rfl⟩ := Context.nextStep?_eq_some hstep
      exact .of_eq rfl rfl rfl rfl
    split at hturn
    · subst hturn
      obtain rfl := Option.some.inj hy
      exact h.goes (.refl p) (hcontext.trans (.of_eq rfl rfl rfl rfl)) hid hwaits rfl
    · subst hturn
      obtain rfl := Option.some.inj hy
      exact h.goes (.refl p) (hcontext.trans (.of_eq rfl rfl rfl rfl)) hid hwaits rfl
  · split at hturn
    · next stage hstage =>
      subst hturn
      obtain rfl := Option.some.inj hy
      have hfree := x.context.transaction.holdsLock_unlocked
      rw [← x.context.transaction.releaseLock_snd (p.tree x.controller)] at hfree
      have hpassed : Orderly { x with context := { x.context with
          stage
          transaction := (x.context.transaction.releaseLock (p.tree x.controller)).2 } } := by
        refine ⟨fun h => ?_, fun _ => hfree, fun h => ?_, fun handle due h => ?_, fun h => ?_,
          fun h => absurd h hid⟩
        · cases hwaits.symm.trans h
        · cases hphase.symm.trans h
        · cases hphase.symm.trans h
        · rw [show Execution.phase _ = x.phase from rfl, hphase] at h
          cases h
      refine .of_releases hwaits (Transaction.lock_releaseLock _ _) hpassed rfl rfl
        (x.context.transaction.alongside_releaseLock _).writer ?_
      rw [grip, show Context.transaction _ = (x.context.transaction.releaseLock _).2 from rfl,
        hfree, show Execution.phase _ = x.phase from rfl, hwaits]
      rfl
    · next hlast =>
      split at hturn
      · subst hturn
        obtain rfl := Option.some.inj hy
        exact h.goes (.refl p) (.of_eq rfl rfl rfl rfl) hid hwaits rfl
      · subst hturn
        obtain rfl := Option.some.inj hy
        have hdone := next?_eq_none hlast
        have hfair : p.Fair (prepare p x).plane :=
          ((Plane.Fair.refl p).newHandle {}).announcePrepared x.control _ _
        refine .of_stays ⟨by rintro ⟨⟩, h.later, by rintro ⟨⟩, fun _ _ _ => ?_, by rintro ⟨⟩,
          fun h => absurd h hid⟩ rfl (hfair.relocks _) hfair.writers rfl rfl
          (grip_of_clings (.refl _) hwaits.symm)
        rw [hdone]
        rintro ⟨⟩

/-- A commit publishes and releases the lock. -/
theorem grasps_decide {handle : Nat} {due : Option Nat} (h : x.Orderly)
    (hphase : x.phase = .deciding handle due) (hy : (decide p x handle due).next.after? = some y) :
    Grasps p x (decide p x handle due).plane y := by
  have hid := h.id_ne_zero (by rw [hphase]; rintro ⟨⟩) (by rw [hphase]; rintro _ ⟨⟩)
  have hfree := h.later (h.deciding handle due hphase)
  have haway : ∀ {z : Execution}, z.context.transaction.holdsLock = false →
      z.phase.awaitsLock = false → z.grip = .away := by
    intro z hz hwaits
    rw [grip, hz, hwaits]
    rfl
  have hleft : p.Fair (p.modifyHandle handle Prepared.leave) := .of_same rfl rfl rfl
  have hfinished : ∀ {tree : Tree} {t : Transaction} {e : Ending},
      tree.lock = (p.tree x.controller).lock → t.staging = none →
      t.writer = x.context.transaction.writer →
      Grasps p x ((p.modifyHandle handle Prepared.leave).setTree x.controller tree)
        { x.withTransaction t with phase := .unwinding e } := by
    intro tree t e hlock hstaging hwriter
    have hintent : t.hasIntent = false := by rw [Transaction.hasIntent, hstaging]; rfl
    have hrelocks := (hleft.relocks x.controller).trans
      (Plane.relocks_setTree _ x.controller tree)
    rw [hlock] at hrelocks
    refine .of_stays ⟨by rintro ⟨⟩, fun _ => not_holdsLock hintent, by rintro ⟨⟩,
      by rintro _ _ ⟨⟩, fun _ => hintent, fun h => absurd h hid⟩ rfl hrelocks rfl rfl hwriter ?_
    rw [haway (not_holdsLock hintent) rfl, haway hfree (by rw [hphase]; rfl)]
  have happly : ∀ d, (apply p x handle d).next.after? = some y →
      Grasps p x (apply p x handle d).plane y := by
    intro d hy
    have hlock := x.context.transaction.lock_commit (p.tree x.controller)
    rw [hfree] at hlock
    have hstaging := x.context.transaction.staging_commit (p.tree x.controller)
    have hwriter := x.context.transaction.writer_commit (p.tree x.controller)
    obtain ⟨turn, hturn⟩ : ∃ turn, apply p x handle d = turn := ⟨_, rfl⟩
    rw [hturn] at hy ⊢
    rw [apply.eq_def] at hturn
    dsimp only at hturn
    cases d with
    | keep =>
      have htree : (p.modifyHandle handle Prepared.leave).tree x.controller =
          p.tree x.controller := rfl
      dsimp only at hturn
      rw [htree] at hturn
      split at hturn <;> next hcommit =>
        subst hturn
        obtain rfl := Option.some.inj hy
        rw [hcommit] at hlock hstaging hwriter
        exact hfinished hlock hstaging hwriter
    | rollback =>
      subst hturn
      obtain rfl := Option.some.inj hy
      refine hfinished ?_ (Transaction.staging_finish _ _) ?_
      · show (x.context.transaction.releaseLock _).1.lock = _
        rw [Transaction.lock_releaseLock, hfree]
        rfl
      · show (x.context.transaction.finish _).2.writer = _
        rw [Transaction.finish_snd]
  obtain ⟨turn, hturn⟩ : ∃ turn, decide p x handle due = turn := ⟨_, rfl⟩
  rw [hturn] at hy ⊢
  rw [decide.eq_def] at hturn
  have hblocks : { plane := p, next := .blocked x } = turn → Grasps p x turn.plane y := by
    rintro rfl
    obtain rfl := Option.some.inj hy
    exact h.blocks
  split at hturn
  · subst hturn
    exact happly _ hy
  · split at hturn
    · split at hturn
      · subst hturn
        exact happly _ hy
      · exact hblocks hturn
    · exact hblocks hturn

/-- The lock is released when everything is told. -/
theorem grasps_unwind {e : Ending} (h : x.Orderly) (hphase : x.phase = .unwinding e)
    (hy : (unwind p x e).next.after? = some y) : Grasps p x (unwind p x e).plane y := by
  have hid := h.id_ne_zero (by rw [hphase]; rintro ⟨⟩) (by rw [hphase]; rintro _ ⟨⟩)
  have hwaits : x.phase.awaitsLock = false := by rw [hphase]; rfl
  -- after the last completion
  have hdrains : ∀ {t : Transaction} {e : Ending}, t.hasIntent = false →
      Orderly { x.withTransaction t with phase := .draining none e } := fun hintent =>
    ⟨by rintro ⟨⟩, fun _ => not_holdsLock hintent, by rintro ⟨⟩, by rintro _ _ ⟨⟩,
      fun _ => hintent, fun h => absurd h hid⟩
  have hkeeps : x.context.transaction.hasIntent = false → ∀ e,
      Grasps p x p { x with phase := .draining none e } := fun hintent e =>
    .of_stays (hdrains hintent) rfl ((Plane.Fair.refl p).relocks _) rfl rfl rfl
      (grip_of_clings (.refl _) hwaits.symm)
  have hreleases : ∀ {q : Plane}, p.Fair q → ∀ e, Grasps p x
      (q.setTree x.controller (x.context.transaction.rollback (q.tree x.controller)).1)
      { x.withTransaction (x.context.transaction.rollback (q.tree x.controller)).2 with
        phase := .draining none e } := by
    intro q hq e
    have hfinish : (x.context.transaction.rollback (q.tree x.controller)).2 =
        { x.context.transaction with staging := none } := Transaction.finish_snd _ _
    rw [hfinish]
    refine .of_fair hq (.refl _) ?_
    exact .of_releases hwaits (Transaction.lock_releaseLock _ _) (hdrains rfl) rfl rfl rfl rfl
  rw [unwind] at hy ⊢
  split at hy
  · cases e with
    | kept =>
      obtain rfl := Option.some.inj hy
      exact hkeeps (h.settled (by rw [hphase]; rfl)) _
    | rolledBack failure =>
      obtain rfl := Option.some.inj hy
      exact hkeeps (h.settled (by rw [hphase]; rfl)) _
    | failed =>
      obtain rfl := Option.some.inj hy
      exact hreleases (.refl p) _
    | fatal reason =>
      obtain rfl := Option.some.inj hy
      exact hreleases (q := p.changeProcess x.controller .reload) (.of_same rfl rfl rfl) _
  · next c rest hcompleted =>
    obtain rfl := Option.some.inj hy
    have htold := x.context.clings_told c rest e.decision p x.controller
    have hfair := c.fair_run e.decision ⟨p, x.controller, { x.context with completed := rest }⟩
    exact .of_stays (h.clings htold) rfl (hfair.relocks _) hfair.writers htold.id htold.writer
      (grip_of_clings htold rfl)

/-- An operation that drains has no lock any more. -/
theorem grasps_drain {e : Ending} {due : Option Nat} (h : x.Orderly)
    (hphase : x.phase = .draining due e) (hy : (drain p x due e).next.after? = some y) :
    Grasps p x (drain p x due e).plane y := by
  have hid := h.id_ne_zero (by rw [hphase]; rintro ⟨⟩) (by rw [hphase]; rintro _ ⟨⟩)
  have hsettled : x.phase.isSettled = true := by rw [hphase]; rfl
  have hintent := h.settled hsettled
  have hgoes : ∀ {phase : Phase} (completions : List Nat),
      (∃ due, phase = .draining due e) ∨ (∃ answer, phase = .ended answer) →
      Grasps p x p { x with context := { x.context with completions }, phase } := by
    intro phase completions hnext
    have hclosed : phase.awaitsLock = false ∧ phase.isSettled = true := by
      rcases hnext with ⟨due, rfl⟩ | ⟨answer, rfl⟩ <;> exact ⟨rfl, rfl⟩
    have hy : Orderly { x with context := { x.context with completions }, phase } := by
      refine ⟨fun h => ?_, h.later, ?_, ?_, fun _ => hintent, fun h => absurd h hid⟩
      · cases hclosed.1.symm.trans h
      · rintro rfl
        cases hclosed.2
      · rintro handle due rfl
        cases hclosed.2
    refine .of_stays hy rfl ((Plane.Fair.refl p).relocks _) rfl rfl rfl ?_
    rw [h.away (.inl hsettled), hy.away (.inl hclosed.2)]
  rw [plane_drain]
  rw [drain] at hy
  dsimp only at hy
  split at hy
  · obtain rfl := Option.some.inj hy
    exact hgoes _ (.inr ⟨_, rfl⟩)
  · split at hy
    · obtain rfl := Option.some.inj hy
      exact hgoes _ (.inl ⟨_, rfl⟩)
    · split at hy
      · obtain rfl := Option.some.inj hy
        exact hgoes _ (.inl ⟨_, rfl⟩)
      · split at hy
        · obtain rfl := Option.some.inj hy
          exact hgoes _ (.inl ⟨_, rfl⟩)
        · obtain rfl := Option.some.inj hy
          exact h.blocks

/-! ### Steps -/

section Steps

variable {step : Step} {w : Work}

/-- A step fails, or goes on where its failure is caught. -/
theorem grasps_recover {x' : Execution} {frames : List Frame} {e : OperationError}
    (h : ∀ phase : Phase, phase.isPlain = true → Grasps p x q { x' with phase })
    (hid : x'.context.id ≠ 0) (hy : (recover q x' step frames e).next.after? = some y) :
    Grasps p x (recover q x' step frames e).plane y := by
  rw [recover] at hy ⊢
  split at hy
  · obtain rfl := Option.some.inj hy
    exact (h _ rfl).fair (.of_same rfl rfl rfl)
  · obtain rfl := Option.some.inj hy
    exact (h .stepping rfl).afterStep hid rfl step (.error e)

/-- A step that runs in another controller. -/
theorem Orderly.comes {next : Next} (h : x.Orderly) (hid : x.context.id ≠ 0)
    (hplain : x.phase.isPlain = true) (hq : p.Fair q) (hnext : Forwarding.Comes x step next)
    (hy : next.after? = some y) : Grasps p x q y := by
  have hwaits := not_awaitsLock_of_isPlain hplain
  have hreturns : ∀ {z : Context} {out : Except OperationError Unit}, x.context.Clings z →
      Grasps p x q ({ x with context := z }.afterStep step out) := fun hz =>
    (h.goes hq hz hid hwaits hplain).afterStep (hz.id ▸ hid) hwaits step _
  cases hnext with
  | follows =>
    obtain rfl := Option.some.inj hy
    exact h.goes hq (.refl _) hid hwaits rfl
  | fails =>
    obtain rfl := Option.some.inj hy
    exact hreturns (.refl _)
  | concludes =>
    obtain rfl := Option.some.inj hy
    exact hreturns (Context.clings_accept _ _ _ _)
  | blocks =>
    obtain rfl := Option.some.inj hy
    exact h.goes hq (.refl _) hid hwaits hplain
  | crashes => cases hy

/-- An instruction may ask for the lock, and no other thing that it does concerns it. -/
theorem grasps_runScript {frames : List Frame} (h : x.Orderly)
    (hphase : x.phase = .handling step (.running frames))
    (hy : (runScript p x step frames).next.after? = some y) :
    Grasps p x (runScript p x step frames).plane y := by
  have hid := h.id_ne_zero (by rw [hphase]; rintro ⟨⟩) (by rw [hphase]; rintro _ ⟨⟩)
  have hwaits : x.phase.awaitsLock = false := by rw [hphase]; rfl
  have hplain : x.phase.isPlain = true := by rw [hphase]; rfl
  match frames with
  | [] =>
    obtain rfl := Option.some.inj hy
    exact (h.goes (.refl p) (.refl _) hid hwaits hplain).afterStep hid hwaits step (.ok ())
  | ⟨_, []⟩ :: rest =>
    obtain rfl := Option.some.inj hy
    exact h.goes (.refl p) (.refl _) hid hwaits rfl
  | ⟨caught, i :: is⟩ :: rest =>
    have hmade := i.perform_made step.operation ⟨p, x.controller, x.context⟩
    have hmodel : ∀ t, ((i.perform step.operation).run).run ⟨p, x.controller, x.context⟩ =
        (.ok .acquire, t) → x.context.stage = .model := fun t => Instruction.stage_of_acquire
    obtain ⟨turn, hturn⟩ : ∃ turn, runScript p x step (⟨caught, i :: is⟩ :: rest) = turn :=
      ⟨_, rfl⟩
    rw [hturn] at hy ⊢
    rw [runScript] at hturn
    generalize ((i.perform step.operation).run).run ⟨p, x.controller, x.context⟩ = out
      at hmade hmodel hturn
    obtain ⟨out, ⟨q, c, z⟩⟩ := out
    have hfair : p.Fair q := hmade.fair
    have hz : x.context.Clings z := hmade.context.clings
    have hgoes : ∀ {phase : Phase}, phase.isPlain = true →
        Grasps p x q { x with context := z, phase } := h.goes hfair hz hid hwaits
    dsimp only at hturn
    cases out with
    | error e =>
      subst hturn
      exact grasps_recover (fun phase hphase => hgoes hphase) (hz.id ▸ hid) hy
    | ok effect =>
      cases effect with
      | proceed =>
        subst hturn
        obtain rfl := Option.some.inj hy
        exact hgoes rfl
      | enter body =>
        subst hturn
        obtain rfl := Option.some.inj hy
        exact hgoes rfl
      | pause ms what =>
        subst hturn
        obtain rfl := Option.some.inj hy
        exact hgoes rfl
      | nest operation =>
        subst hturn
        obtain rfl := Option.some.inj hy
        exact hgoes rfl
      | acquire =>
        have hstage := hz.stage.trans (hmodel _ rfl)
        dsimp only at hturn
        split at hturn
        · next htake =>
          subst hturn
          obtain rfl := Option.some.inj hy
          exact .of_fair hfair hz ((h.clings hz).takes hstage (hz.id ▸ hid) rfl htake)
        · next htake =>
          subst hturn
          obtain rfl := Option.some.inj hy
          exact .of_fair hfair hz ((h.clings hz).queues hstage (hz.id ▸ hid) rfl htake)

/-- A step that asked for the lock takes it, withdraws, or goes on waiting. -/
theorem grasps_acquire {due : Nat} {frames : List Frame} (h : x.Orderly)
    (hphase : x.phase = .handling step (.acquiring due frames))
    (hy : (acquire p x step due frames).next.after? = some y) :
    Grasps p x (acquire p x step due frames).plane y := by
  have hid := h.id_ne_zero (by rw [hphase]; rintro ⟨⟩) (by rw [hphase]; rintro _ ⟨⟩)
  have hwaits : x.phase.awaitsLock = true := by rw [hphase]; rfl
  obtain ⟨turn, hturn⟩ : ∃ turn, acquire p x step due frames = turn := ⟨_, rfl⟩
  rw [hturn] at hy ⊢
  rw [acquire] at hturn
  dsimp only at hturn
  split at hturn
  · next htake =>
    subst hturn
    obtain rfl := Option.some.inj hy
    exact h.takes (h.waits hwaits).2 hid rfl htake
  · next htake =>
    split at hturn
    · subst hturn
      exact grasps_recover (fun phase hplain => h.leaves hwaits (.inl hplain) htake) hid hy
    · subst hturn
      obtain rfl := Option.some.inj hy
      exact h.blocks

theorem grasps_pause {wake due : Nat} {what : String} {frames : List Frame} (h : x.Orderly)
    (hphase : x.phase = .handling step (.pausing wake due what frames))
    (hy : (pause p x step wake due what frames).next.after? = some y) :
    Grasps p x (pause p x step wake due what frames).plane y := by
  have hid := h.id_ne_zero (by rw [hphase]; rintro ⟨⟩) (by rw [hphase]; rintro _ ⟨⟩)
  have hwaits : x.phase.awaitsLock = false := by rw [hphase]; rfl
  have hgoes : ∀ phase : Phase, phase.isPlain = true → Grasps p x p { x with phase } :=
    fun phase => h.goes (.refl p) (.refl _) hid hwaits
  have hpauses := pauses p x step wake due what frames
  generalize pause p x step wake due what frames = t at hpauses hy ⊢
  cases hpauses with
  | wakes =>
    obtain rfl := Option.some.inj hy
    exact hgoes _ rfl
  | fails => exact grasps_recover hgoes hid hy
  | waits =>
    obtain rfl := Option.some.inj hy
    exact h.blocks

/-- **A step touches the lock only where it asks for it.** -/
theorem grasps_work (h : x.Orderly) (hphase : x.phase = .handling step w)
    (hy : (work p x step w).next.after? = some y) : Grasps p x (work p x step w).plane y := by
  have hid := h.id_ne_zero (by rw [hphase]; rintro ⟨⟩) (by rw [hphase]; rintro _ ⟨⟩)
  cases w with
  | begin =>
    have hplain : x.phase.isPlain = true := by rw [hphase]; rfl
    have hwaits := not_awaitsLock_of_isPlain hplain
    obtain ⟨turn, hturn⟩ : ∃ turn, work p x step .begin = turn := ⟨_, rfl⟩
    rw [hturn] at hy ⊢
    rw [work] at hturn
    split at hturn
    · subst hturn
      obtain rfl := Option.some.inj hy
      exact h.goes (.refl p) (.refl _) hid hwaits rfl
    · subst hturn
      exact h.comes hid hplain (Forwarding.fair_start _) (Forwarding.comes_start _) hy
    · split at hturn
      · next deed hdeed =>
        subst hturn
        obtain rfl := Option.some.inj hy
        have hmade := Handler.deed?_made hdeed ⟨p, x.controller, x.context⟩
        have hz := hmade.context.clings
        exact (h.goes hmade.fair hz hid hwaits hplain).afterStep (hz.id ▸ hid) hwaits step _
      · subst hturn
        obtain rfl := Option.some.inj hy
        exact (h.goes (.refl p) (.refl _) hid hwaits hplain).afterStep hid hwaits step _
  | running frames => exact grasps_runScript h hphase hy
  | acquiring due frames => exact grasps_acquire h hphase hy
  | pausing wake due what frames => exact grasps_pause h hphase hy
  | nesting frames =>
    obtain rfl := Option.some.inj hy
    exact h.blocks
  | forwarding f due d =>
    exact h.comes hid (by rw [hphase]; rfl) (Forwarding.fair_advance f due d)
      (Forwarding.comes_advance f due d) hy

end Steps

/-- **Every turn keeps to the lock**: only the operation's own lock changes, as it stands with
it. -/
theorem grasps_advance (h : x.Orderly) (hy : (x.advance p).next.after? = some y) :
    Grasps p x (x.advance p).plane y := by
  rw [advance] at hy ⊢
  split at hy
  · next hphase => exact grasps_begin h hphase hy
  · next due hphase => exact grasps_awaitLock h hphase hy
  · next hphase => exact grasps_pick h hphase hy
  · next step w hphase => exact grasps_work h hphase hy
  · next handle due hphase => exact grasps_decide h hphase hy
  · next e hphase => exact grasps_unwind h hphase hy
  · next due e hphase => exact grasps_drain h hphase hy
  · obtain rfl := Option.some.inj hy
    exact h.blocks

/-- Only a forwarded step breaks down, when it has just begun. -/
theorem fair_of_crash (h : (x.advance p).next.after? = none) :
    p.Fair (x.advance p).plane ∧ x.phase.awaitsLock = false := by
  by_cases hhandling : ∃ step w, x.phase = .handling step w
  · obtain ⟨step, w, hphase⟩ := hhandling
    have hcontinues := (keeping_work p x step w).continues
    have hbegun : w = .begin := by
      rw [advance, hphase] at h
      generalize (Execution.work p x step w).next = next at hcontinues h
      cases hcontinues with
      | crashes hw => exact hw
      | _ => cases h
    subst hbegun
    refine ⟨?_, by rw [hphase]; rfl⟩
    rw [advance, hphase]
    dsimp only
    rw [work]
    split
    · exact .refl p
    · exact Forwarding.fair_start _
    · split
      · next deed hdeed =>
        exact (Handler.deed?_made hdeed ⟨p, x.controller, x.context⟩).fair
      · exact .refl p
  · obtain ⟨y, hy, -⟩ := leads_advance (p := p) fun step w hphase => hhandling ⟨step, w, hphase⟩
    cases h.symm.trans hy

/-- Who lets go of all that it holds lets go of the lock. -/
theorem grasps_discard (p : Plane) (hx : x.phase.awaitsLock = false) (hid : x.context.id ≠ 0) :
    ∃ y, y.grip = .away ∧ Grasps p x (x.discard p) y := by
  have hdropped : ∀ q : Plane, q.Fair ((x.context.completed.filterMap Completion.handle?).foldl
      (fun q h => q.modifyHandle h Prepared.drop) q) := by
    refine fun q => Plane.fair_foldl ?_ _ (.refl q)
    exact fun q h => .of_same rfl rfl rfl
  refine ⟨{ x.withTransaction { x.context.transaction with staging := none } with
    phase := .draining none .failed }, rfl, ?_⟩
  refine Grasps.fair ?_ (hdropped (p.setTree x.controller
    (x.context.transaction.rollback (p.tree x.controller)).1))
  refine .of_releases hx (Transaction.lock_releaseLock _ _) ?_ rfl rfl rfl rfl
  exact ⟨by rintro ⟨⟩, fun _ => rfl, by rintro ⟨⟩, by rintro _ _ ⟨⟩, fun _ => rfl,
    fun h => absurd h hid⟩

end Execution

end ManagementPlane
