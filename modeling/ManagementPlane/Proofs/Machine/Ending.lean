import ManagementPlane.Proofs.Machine.Lived

/-!
# Proofs/Machine/Ending — what an operation has come to in the end

Once the pipeline is over there is a verdict on its turns (`Ending.Verdict`): it was kept, and then
every step went well and the model was committed, or it was not, and then nothing was.  It stays
while the completions are told of it, in the reverse order of their registration and each of them
once, and it is what the caller is answered.  `Course.lived` puts this together with the phases
before the end.
-/

namespace ManagementPlane

theorem Ending.Verdict.cons {past : List Moment} {m : Moment} {e : Ending} (h : e.Verdict past)
    (hsmooth : m.Smooth) (hcommits : ¬ m.Commits) : e.Verdict (m :: past) := by
  cases e with
  | kept =>
    obtain ⟨hpast, k, hk, hkcommits⟩ := h
    exact ⟨List.forall_mem_cons.mpr ⟨hsmooth, hpast⟩, k, List.mem_cons_of_mem _ hk, hkcommits⟩
  | rolledBack failure =>
    exact ⟨List.forall_mem_cons.mpr ⟨hsmooth, h.1⟩, List.forall_mem_cons.mpr ⟨hcommits, h.2⟩⟩
  | failed =>
    exact ⟨List.forall_mem_cons.mpr ⟨hsmooth.not_breach, h.1⟩,
      List.forall_mem_cons.mpr ⟨hcommits, h.2⟩⟩
  | fatal reason =>
    obtain ⟨⟨k, hk, hbreach⟩, huncommitted⟩ := h
    exact ⟨⟨k, List.mem_cons_of_mem _ hk, hbreach⟩,
      List.forall_mem_cons.mpr ⟨hcommits, huncommitted⟩⟩

/-- Outside of a step a completion completes nothing. -/
theorem Completion.run_idle (c : Completion) (d : Decision) (s : Scene)
    (hactive : s.context.active = none) :
    (c.run d s).context.active = none ∧ (c.run d s).context.completed = s.context.completed := by
  rcases c.context_run d s with hdoes | ⟨own, slots, hreport⟩
  · exact hdoes.worked.idle hactive
  · rw [hreport]
    exact ⟨hactive, rfl⟩

/-- A completion that is told of a commit makes no slot fail, unless its script does. -/
theorem Completion.run_unfailed (c : Completion) (s : Scene)
    (h : ∀ label failure, .failSlot label failure ∉ c.instructions .keep)
    (hs : s.context.Unfailed) : (c.run .keep s).context.Unfailed := by
  cases c with
  | script label ro body =>
    cases ro with
    | false => exact (runScript_does body _).context.unfailed h hs
    | true => exact hs
  | _ => exact hs

namespace Execution

variable {p : Plane} {past : List Moment} {x y : Execution}

/-- A decision is applied once, and what was published depends on it. -/
theorem lived_apply {h : Nat} {due : Option Nat} {d : Decision} (hphase : x.phase = .deciding h due)
    (hlived : Lived past x) (hd : (p.handle h).outlook.effect?.getD .rollback = d)
    (hnext : (x.advance p).next = (apply p x h d).next)
    (hy : (x.advance p).next.after? = some y) : Lived (⟨p, x⟩ :: past) y := by
  rw [Lived, hphase] at hlived
  obtain ⟨hahead, hidle, hempty⟩ := hlived
  have htells : (Moment.mk p x).tells = [] := by
    refine Moment.tells_eq_nil ?_
    rw [hphase]
    rintro _ ⟨⟩
  have htold : told (⟨p, x⟩ :: past) = [] := by
    rw [told, hahead.untold, htells, List.append_nil]
  have hfinished : ∀ {t : Transaction} {e : Ending},
      (x.advance p).next = .going { x.withTransaction t with phase := .unwinding e } →
      ((Moment.mk p x).Smooth → e.Verdict (⟨p, x⟩ :: past)) → Lived (⟨p, x⟩ :: past) y := by
    intro t e hgoing hverdict
    rw [hgoing] at hy
    obtain rfl := Option.some.inj hy
    have hafter : (Moment.mk p x).turn.next.after? =
        some { x.withTransaction t with phase := .unwinding e } := by
      rw [Moment.turn, hgoing]
      rfl
    refine ⟨hverdict (Moment.smooth_of_next hgoing (by rintro _ _ _ ⟨⟩)), hidle.active, ?_, ?_,
      fun _ => hahead.clear.cons fun _ h => h⟩
    · rw [htold, registered, Moment.registers_eq_nil hafter le_rfl, List.append_nil]
      exact hahead.completed
    · rw [htold]
      rintro t ⟨⟩
  have hrolledBack : ∀ {failure : String}, ¬ (Moment.mk p x).Commits → (Moment.mk p x).Smooth →
      Ending.Verdict (⟨p, x⟩ :: past) (.rolledBack failure) := fun hcommits hsmooth =>
    ⟨List.forall_mem_cons.mpr ⟨hsmooth, hahead.smooth⟩,
      List.forall_mem_cons.mpr ⟨hcommits, hahead.uncommitted⟩⟩
  rw [apply.eq_def] at hnext
  dsimp only at hnext
  cases d with
  | keep =>
    dsimp only at hnext
    have htree : (p.modifyHandle h Prepared.leave).tree x.controller = p.tree x.controller := rfl
    rw [htree] at hnext
    split at hnext
    · rename_i tree t hcommit
      refine hfinished hnext fun hsmooth => ⟨List.forall_mem_cons.mpr ⟨hsmooth, hahead.smooth⟩,
        ⟨p, x⟩, List.mem_cons_self, ⟨h, due, hphase, ?_⟩, by rw [hcommit], hempty⟩
      cases heffect : (p.handle h).outlook.effect? with
      | none =>
        rw [heffect] at hd
        cases hd
      | some d =>
        rw [heffect] at hd
        exact congrArg some hd
    · rename_i e tree t hcommit
      refine hfinished hnext (hrolledBack ?_)
      rintro ⟨-, hcommits, -⟩
      cases (congrArg Prod.fst hcommit).symm.trans hcommits
  | rollback =>
    refine hfinished hnext (hrolledBack ?_)
    rintro ⟨⟨h', due', hphase', heffect⟩, -, -⟩
    cases hphase.symm.trans hphase'
    rw [heffect] at hd
    cases hd

/-- An operation that has prepared waits, or is decided. -/
theorem lived_decide {h : Nat} {due : Option Nat} (hphase : x.phase = .deciding h due)
    (hlived : Lived past x) (hy : (x.advance p).next.after? = some y) :
    Lived (⟨p, x⟩ :: past) y := by
  have hadvance : x.advance p = decide p x h due := by rw [advance, hphase]
  have hblocked : (p.handle h).outlook.effect? = none →
      x.advance p = { plane := p, next := .blocked x } → Lived (⟨p, x⟩ :: past) y := by
    intro heffect hturn
    have hnext := congrArg Turn.next hturn
    rw [hnext] at hy
    obtain rfl := Option.some.inj hy
    have hquiet : (Moment.mk p x).Quiet := by
      refine ⟨Moment.tells_eq_nil ?_, ?_⟩
      · rw [hphase]
        rintro _ ⟨⟩
      · rintro ⟨⟨h', due', hphase', heffect'⟩, -, -⟩
        cases hphase.symm.trans hphase'
        cases heffect.symm.trans heffect'
    have hlived' := hlived
    simp only [Lived, hphase] at hlived' ⊢
    obtain ⟨hahead, hidle, hempty⟩ := hlived'
    refine ⟨ahead_cons [] hahead hquiet ?_ ?_ rfl hahead.passed fun _ h => h, hidle, hempty⟩
    · rw [Moment.turn, hnext]
      rfl
    · exact Moment.smooth_of_next hnext (by rintro _ _ _ ⟨⟩)
  rw [decide.eq_def] at hadvance
  split at hadvance
  · rename_i d hd
    exact lived_apply hphase hlived (by rw [hd]; rfl) (congrArg Turn.next hadvance) hy
  · rename_i heffect
    split at hadvance
    · split at hadvance
      · exact lived_apply hphase hlived (by rw [heffect]; rfl) (congrArg Turn.next hadvance) hy
      · exact hblocked heffect hadvance
    · exact hblocked heffect hadvance

theorem unwound_next (p : Plane) (x : Execution) (e : Ending) :
    ∃ t, (unwound p x e).next = .going { x.withTransaction t with phase := .draining none e } := by
  cases e with
  | kept => exact ⟨x.context.transaction, rfl⟩
  | rolledBack failure => exact ⟨x.context.transaction, rfl⟩
  | failed => exact ⟨_, rfl⟩
  | fatal reason => exact ⟨_, rfl⟩

/-- A completion is told what those before it were told. -/
theorem lived_unwind {e : Ending} (hphase : x.phase = .unwinding e) (h : Lived past x)
    (hy : (x.advance p).next.after? = some y) : Lived (⟨p, x⟩ :: past) y := by
  rw [Lived, hphase] at h
  obtain ⟨hverdict, hactive, horder, hdecision, hclear⟩ := h
  have hcommits : ¬ (Moment.mk p x).Commits := by
    refine Moment.not_commits ?_
    rw [hphase]
    rintro _ _ ⟨⟩
  have hadvance : x.advance p = unwind p x e := by rw [advance, hphase]
  rw [unwind] at hadvance
  split at hadvance
  · rename_i hcompleted
    obtain ⟨t, hnext⟩ := unwound_next p x e
    rw [← hadvance] at hnext
    rw [hnext] at hy
    obtain rfl := Option.some.inj hy
    have hafter : (Moment.mk p x).turn.next.after? =
        some { x.withTransaction t with phase := .draining none e } := by
      rw [Moment.turn, hnext]
      rfl
    have hsmooth : (Moment.mk p x).Smooth := Moment.smooth_of_next hnext (by rintro _ _ _ ⟨⟩)
    have htells : (Moment.mk p x).tells = [] := by rw [Moment.tells, hphase, hcompleted]
    refine ⟨hverdict.cons hsmooth hcommits, ?_, fun he => (hclear he).cons fun _ h => h,
      hcompleted⟩
    rw [hcompleted, List.append_nil] at horder
    rw [told, registered, htells, Moment.registers_eq_nil hafter le_rfl, List.append_nil,
      List.append_nil, ← horder, List.map_map]
    refine (List.map_id _).symm.trans (List.map_congr_left fun t ht => ?_)
    exact Prod.ext rfl (hdecision t ht)
  · rename_i c rest hcompleted
    have hidle := c.run_idle e.decision ⟨p, x.controller, { x.context with completed := rest }⟩
      hactive
    have hnext := congrArg Turn.next hadvance
    rw [hnext] at hy
    obtain rfl := Option.some.inj hy
    have hsmooth : (Moment.mk p x).Smooth := Moment.smooth_of_next hnext (by rintro _ _ _ ⟨⟩)
    have htells : (Moment.mk p x).tells = [(c, e.decision)] := by
      rw [Moment.tells, hphase, hcompleted]
    have hregisters : (Moment.mk p x).registers = [] := by
      refine Moment.registers_eq_nil (by rw [Moment.turn, hnext]; rfl) ?_
      dsimp only
      rw [hidle.2, hcompleted]
      exact Nat.le_succ _
    simp only [Lived, hphase]
    refine ⟨hverdict.cons hsmooth hcommits, hidle.1, ?_, ?_, ?_⟩
    · rw [told, registered, htells, hregisters, List.append_nil, List.map_append, hidle.2,
        ← horder, hcompleted, List.append_assoc]
      rfl
    · rw [told, htells]
      exact List.forall_mem_append.mpr ⟨hdecision, List.forall_mem_singleton.mpr rfl⟩
    · rintro rfl
      refine (hclear rfl).cons fun hm hx => c.run_unfailed _ (fun label failure hi => ?_) hx
      refine hm ⟨label, failure, ?_⟩
      rw [Moment.instructions, hphase]
      dsimp only
      rw [hcompleted]
      exact hi

/-- The response says how the operation ended. -/
theorem answers_response (e : Ending) (x : Context) (hclear : e = .kept → x.Clear past) (c : Nat)
    (streams : List ResultStream) :
    e.Answers past ((e.response? x).map fun response => (p.finish c response, streams)) := by
  have hfailure : ∀ (s : ResponseSlot) (failure : Value), Response.isSuccess
      (p.finish c (ResponseSlot.toValue { s with failure := some failure } true)) = false := by
    intro s failure
    rw [Response.isSuccess_finish, Response.isSuccess_toValue]
    rfl
  cases e with
  | kept =>
    refine ⟨_, _, rfl, fun hpast => ?_⟩
    rw [Response.isSuccess_finish, Response.isSuccess_toValue, (hclear rfl hpast).slot]
    rfl
  | rolledBack failure => exact ⟨_, _, rfl, hfailure _ _⟩
  | failed => exact ⟨_, _, rfl, hfailure _ _⟩
  | fatal reason => rfl

/-- An operation that drains knows its response. -/
theorem lived_drain {deadline : Option Nat} {e : Ending} (hphase : x.phase = .draining deadline e)
    (h : Lived past x) (hy : (x.advance p).next.after? = some y) : Lived (⟨p, x⟩ :: past) y := by
  rw [Lived, hphase] at h
  obtain ⟨hverdict, htold, hclear, hcompleted⟩ := h
  have hadvance : x.advance p = drain p x deadline e := by rw [advance, hphase]
  have hcommits : ¬ (Moment.mk p x).Commits := by
    refine Moment.not_commits ?_
    rw [hphase]
    rintro _ _ ⟨⟩
  have htells : (Moment.mk p x).tells = [] := by
    refine Moment.tells_eq_nil ?_
    rw [hphase]
    rintro _ ⟨⟩
  -- whatever the operation waits for, nothing more is completed or told
  have hstill : ∀ {z : Execution} {next : Next}, (x.advance p).next = next → next.after? = some z →
      (∀ y step out, next ≠ .returned y step out) → z.context.completed = x.context.completed →
      e.Verdict (⟨p, x⟩ :: past) ∧
        told (⟨p, x⟩ :: past) = (registered (⟨p, x⟩ :: past)).reverse.map (·, e.decision) := by
    intro z next hnext hz hreturned hcompleted
    have hregisters : (Moment.mk p x).registers = [] :=
      Moment.registers_eq_nil (by rw [Moment.turn, hnext]; exact hz)
        (le_of_eq (congrArg List.length hcompleted))
    refine ⟨hverdict.cons (Moment.smooth_of_next hnext hreturned) hcommits, ?_⟩
    rw [told, registered, htells, hregisters, List.append_nil, List.append_nil, htold]
  have hclear' : e = .kept → x.context.Clear (⟨p, x⟩ :: past) :=
    fun he => (hclear he).cons fun _ h => h
  rw [drain] at hadvance
  dsimp only at hadvance
  split at hadvance
  · have hnext := congrArg Turn.next hadvance
    rw [hnext] at hy
    obtain rfl := Option.some.inj hy
    obtain ⟨hverdict', htold'⟩ := hstill hnext rfl (by rintro _ _ _ ⟨⟩) rfl
    exact ⟨⟨e, hverdict', answers_response e x.context hclear' x.controller _, htold'⟩, hcompleted⟩
  · have hwait : ∀ {rest : List Nat} {due : Option Nat},
        (x.advance p).next = .going { x with
          context := { x.context with completions := rest }, phase := .draining due e } →
        Lived (⟨p, x⟩ :: past) y := by
      intro rest due hnext
      rw [hnext] at hy
      obtain rfl := Option.some.inj hy
      obtain ⟨hverdict', htold'⟩ := hstill hnext rfl (by rintro _ _ _ ⟨⟩) rfl
      exact ⟨hverdict', htold', hclear', hcompleted⟩
    split at hadvance
    · exact hwait (congrArg Turn.next hadvance)
    · split at hadvance
      · exact hwait (congrArg Turn.next hadvance)
      · split at hadvance
        · exact hwait (congrArg Turn.next hadvance)
        · have hnext := congrArg Turn.next hadvance
          rw [hnext] at hy
          obtain rfl := Option.some.inj hy
          obtain ⟨hverdict', htold'⟩ := hstill hnext rfl (by rintro _ _ _ ⟨⟩) rfl
          simp only [Lived, hphase]
          exact ⟨hverdict', htold', hclear', hcompleted⟩

/-- **Every turn carries the phases on**, whatever it finds around the operation. -/
theorem lived_turn (h : Lived past x) (hopen : ∀ answer, x.phase ≠ .ended answer)
    (hy : (x.advance p).next.after? = some y) : Lived (⟨p, x⟩ :: past) y := by
  cases hphase : x.phase with
  | opening => exact lived_begin hphase h hy
  | locking deadline => exact lived_awaitLock hphase h hy
  | stepping => exact lived_pick hphase h hy
  | handling step w => exact lived_work hphase h hy
  | deciding handle due => exact lived_decide hphase h hy
  | unwinding e => exact lived_unwind hphase h hy
  | draining deadline e => exact lived_drain hphase h hy
  | ended answer => exact absurd hphase (hopen answer)

/-- A nested operation that ends is no turn of its parent. -/
theorem lived_resume (h : Lived past x) (p : Plane) (answer : Answer) :
    Lived past (x.resume p answer).2 := by
  rw [resume.eq_def]
  split
  · rename_i step frames hphase
    rw [Lived, hphase] at h
    obtain ⟨hahead, ⟨a, ha, haddress, hslot, -⟩, hviolation⟩ := h
    exact ⟨hahead, ⟨a, ha, haddress, hslot, by rintro ⟨⟩⟩, hviolation⟩
  · exact h

/-- An operation that did nothing yet. -/
theorem lived_new (c : Nat) (operation : Value) (control : Control) (input : Input) (sink : Sink) :
    Lived [] (Execution.new c operation control input sink) :=
  ⟨{ smooth := by rintro _ ⟨⟩
     uncommitted := by rintro _ ⟨⟩
     untold := rfl
     completed := rfl
     passed := fun s hs => absurd hs (not_lt_model s)
     clear := fun _ => List.forall_mem_singleton.mpr rfl }, ⟨rfl, rfl⟩, rfl, rfl⟩

/-- **What an operation has come to is what its turns have come to**, whoever else is around. -/
theorem Course.lived {around : Plane → Plane → Prop} {p₀ p : Plane} {x₀ x : Execution}
    (h : Course around p₀ x₀ past p x) (h₀ : Lived [] x₀) : Lived past x := by
  induction h with
  | start => exact h₀
  | around _ _ ih => exact ih
  | turn _ hopen hy ih => exact lived_turn ih hopen hy
  | resume _ answer ih => exact lived_resume ih _ answer

end Execution

end ManagementPlane
