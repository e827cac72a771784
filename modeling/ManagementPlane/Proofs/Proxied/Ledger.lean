import ManagementPlane.Proofs.Proxied.Stories

/-!
# Proofs/Proxied/Ledger — the plane accounts for what was decided

A plane `Accounts` for the operations that run and for the turns of the past when every decision on
an accepted handle was told by an operation with a story (`Told`), and when nothing that was told is
lost.  Every turn of an operation keeps the accounts, and so does whatever moves around it.
-/

namespace ManagementPlane

open Plane Execution

/-- The participants that the turn tells. -/
def Moment.informs (m : Moment) : List Nat := m.tells.filterMap (·.1.handle?)

theorem Moment.mem_informs {m : Moment} {h : Nat} :
    h ∈ m.informs ↔ ∃ d, (.decide h, d) ∈ m.tells := by
  constructor
  · intro hh
    obtain ⟨⟨c, d⟩, ht, hc⟩ := List.mem_filterMap.mp hh
    exact ⟨d, Completion.eq_decide hc ▸ ht⟩
  · intro ⟨d, ht⟩
    exact List.mem_filterMap.mpr ⟨_, ht, rfl⟩

/-- An operation told the participant on one of its turns. -/
def Told (past : List Moment) (h : Nat) (d : Decision) : Prop :=
  ∃ turns m, Story turns m.plane m.execution ∧ (m :: turns).Sublist past ∧ (.decide h, d) ∈ m.tells

/-- What the past has left in the plane. -/
structure Recorded (p : Plane) (past : List Moment) : Prop where
  outcome : ∀ m ∈ past, ∀ {f o}, (m.plane.forward f).outcome = some o →
    (p.forward f).outcome = some o
  told : ∀ {f h d}, p.Accepts f h → (p.handle h).decision = some d → Told past h d
  decided : ∀ m ∈ past, ∀ {h d}, (.decide h, d) ∈ m.tells → (p.handle h).decision = some d
  once : (past.flatMap Moment.informs).Nodup

/-- Every operation has a story in the past. -/
def Storied (past : List Moment) (p : Plane) (xs : List Execution) : Prop :=
  ∀ x ∈ xs, ∃ turns, Story turns p x ∧ turns.Sublist past

/-- The plane accounts for all operations, and for the past. -/
structure Plane.Accounts (p : Plane) (xs : List Execution) (late : List Nat) (past : List Moment) :
    Prop where
  sound : p.Sound (xs.map stance) late
  recorded : Recorded p past
  storied : Storied past p xs

variable {p q : Plane} {past : List Moment} {x y : Execution} {xs ys : List Execution}
  {late : List Nat} {h : Nat} {d : Decision}

/-! ## Records -/

theorem Told.cons (ht : Told past h d) (m : Moment) : Told (m :: past) h d := by
  obtain ⟨turns, k, hstory, hsub, htells⟩ := ht
  exact ⟨turns, k, hstory, hsub.cons m, htells⟩

theorem Recorded.grows (hp : Recorded p past) (hq : Grows p q) : Recorded q past where
  outcome m hm _ _ ho := hq.outcome (hp.outcome m hm ho)
  told ha hd := hp.told (hq.untold ha hd).1 (hq.untold ha hd).2
  decided m hm _ _ ht := hq.firm (hp.decided m hm ht)
  once := hp.once

/-- A turn on which nobody is told. -/
theorem Recorded.note (hp : Recorded p past) (hnot : ∀ h d, ¬ x.Tells h d) :
    Recorded p (⟨p, x⟩ :: past) := by
  have hnobody : ∀ {h d}, (.decide h, d) ∉ (Moment.mk p x).tells := fun ht =>
    hnot _ _ (mem_tells.mp ht)
  have hinforms : (Moment.mk p x).informs = [] := by
    refine List.eq_nil_iff_forall_not_mem.mpr fun h hh => ?_
    obtain ⟨d, ht⟩ := Moment.mem_informs.mp hh
    exact hnobody ht
  constructor
  · exact List.forall_mem_cons.mpr ⟨fun ho => ho, hp.outcome⟩
  · exact fun ha hd => (hp.told ha hd).cons _
  · exact List.forall_mem_cons.mpr ⟨fun ht => absurd ht hnobody, hp.decided⟩
  · rw [List.flatMap_cons, hinforms]
    exact hp.once

/-- A turn on which a participant is told. -/
theorem Recorded.tell (hp : Recorded p past) (hx : x.Tells h d)
    (hstory : ∃ turns, Story turns p x ∧ turns.Sublist past) (hlt : h < p.handles.length)
    (hundecided : (p.handle h).decision = none) :
    Recorded (p.decideAndDrop h d) (⟨p, x⟩ :: past) := by
  obtain ⟨turns, hstory, hsub⟩ := hstory
  have hpersists := persists_decideAndDrop p h d
  have htells : (.decide h, d) ∈ (Moment.mk p x).tells := mem_tells.mpr hx
  have hself : ((p.decideAndDrop h d).handle h).decision = some d := by
    rw [handle_decideAndDrop, if_pos ⟨rfl, hlt⟩]
    refine (Prepared.decision_resolve _ d).trans ?_
    rw [hundecided]
    rfl
  have htold : ∀ {i e}, (.decide i, e) ∈ (Moment.mk p x).tells → i = h ∧ e = d := by
    intro i e hi
    obtain ⟨e₁, rest, hphase, hcompleted, rfl⟩ := mem_tells.mp hi
    obtain ⟨e₂, rest', hphase', hcompleted', rfl⟩ := hx
    cases hphase.symm.trans hphase'
    cases hcompleted.symm.trans hcompleted'
    exact ⟨rfl, rfl⟩
  have hinforms : (Moment.mk p x).informs = [h] := by
    obtain ⟨e, rest, hphase, hcompleted, -⟩ := hx
    simp [Moment.informs, Moment.tells, hphase, hcompleted, Completion.handle?]
  constructor
  · exact List.forall_mem_cons.mpr ⟨fun ho => ho, hp.outcome⟩
  · intro f i e ha he
    by_cases hi : i = h
    · subst hi
      obtain rfl := Option.some.inj (he.symm.trans hself)
      exact ⟨turns, ⟨p, x⟩, hstory, hsub.cons_cons _, htells⟩
    · rw [handle_decideAndDrop, if_neg fun hih => hi hih.1.symm] at he
      exact (hp.told ha he).cons _
  · refine List.forall_mem_cons.mpr ⟨fun ht => ?_, fun m hm i e ht => ?_⟩
    · obtain ⟨rfl, rfl⟩ := htold ht
      exact hself
    · exact hpersists.firm (hp.decided m hm ht)
  · rw [List.flatMap_cons, hinforms]
    refine List.nodup_cons.mpr ⟨fun hh => ?_, hp.once⟩
    obtain ⟨m, hm, hh⟩ := List.mem_flatMap.mp hh
    obtain ⟨e, he⟩ := Moment.mem_informs.mp hh
    cases hundecided.symm.trans (hp.decided m hm he)

/-! ## Stories -/

theorem Storied.mono {past' : List Moment} (h : Storied past p xs) (hsub : past.Sublist past')
    (q : Plane) : Storied past' q xs := by
  intro x hx
  obtain ⟨turns, hstory, hturns⟩ := h x hx
  exact ⟨turns, hstory.around q, hturns.trans hsub⟩

theorem Storied.turn (h : Storied past p (x :: xs)) (hopen : ∀ answer, x.phase ≠ .ended answer)
    (hy : (x.advance p).next.after? = some y) :
    Storied (⟨p, x⟩ :: past) (x.advance p).plane (y :: xs) := by
  obtain ⟨⟨turns, hstory, hturns⟩, hrest⟩ := List.forall_mem_cons.mp h
  refine List.forall_mem_cons.mpr ⟨⟨⟨p, x⟩ :: turns, hstory.turn hopen hy, hturns.cons_cons _⟩, ?_⟩
  exact Storied.mono hrest (List.sublist_cons_self _ _) _

/-! ## Accounts -/

namespace Plane

theorem Accounts.perm (hp : p.Accounts xs late past) (hperm : xs.Perm ys) :
    p.Accounts ys late past where
  sound := hp.sound.perm (hperm.map _)
  recorded := hp.recorded
  storied x hx := hp.storied x (hperm.mem_iff.mpr hx)

theorem Accounts.mono {late' : List Nat} (hp : p.Accounts xs late past) (hlate : late' ⊆ late) :
    p.Accounts xs late' past :=
  { hp with sound := hp.sound.mono hlate }

/-- What goes on around the operations. -/
theorem Accounts.moves (hp : p.Accounts xs late past) {heard : Nat → Prop} (hq : Moves heard p q)
    (hheard : ∀ f, heard f → Stance.Hearing (xs.map stance) f) :
    q.Accounts xs late past ∧ Persists p q := by
  obtain ⟨htidy, hleads⟩ := hq hp.sound.tidy
  refine ⟨⟨hp.sound.leads htidy hleads hheard, hp.recorded.grows hleads.grows, ?_⟩,
    hleads.grows.toPersists⟩
  exact hp.storied.mono (List.Sublist.refl _) q

theorem Accounts.eases (hp : p.Accounts xs late past) (hq : p.Eases q) :
    q.Accounts xs late past ∧ Persists p q := by
  have hmoves : Moves (fun _ => False) p q := hq.moves
  exact hp.moves hmoves fun _ hf => hf.elim

/-- The participant of a step that an operation waits for may report later. -/
theorem Accounts.awaits (hp : p.Accounts xs late past) {f : Nat}
    (hf : ∃ x ∈ xs, x.stance.Hears f) : p.Accounts xs (f :: late) past := by
  obtain ⟨x, hx, hf⟩ := hf
  exact { hp with sound := hp.sound.awaits (List.mem_map_of_mem hx) hf }

theorem Accounts.begins (hp : p.Accounts xs late past) (c : Nat) (operation : Value)
    (control : Control) (input : Input) (sink : Sink) :
    p.Accounts (Execution.new c operation control input sink :: xs) late past where
  sound := sound_idle.mpr hp.sound
  recorded := hp.recorded
  storied := List.forall_mem_cons.mpr
    ⟨⟨[], story_new p c operation control input sink, List.nil_sublist _⟩, hp.storied⟩

/-- An operation that returns holds nothing. -/
theorem Accounts.ends (hp : p.Accounts (x :: xs) late past) {answer : Answer}
    (hphase : x.phase = .ended answer) : p.Accounts xs late past := by
  obtain ⟨⟨turns, hstory, -⟩, hrest⟩ := List.forall_mem_cons.mp hp.storied
  have hlived := hstory.lived
  rw [Lived, hphase] at hlived
  have hstance : x.stance = ⟨none, []⟩ := by
    rw [stance, awaits?, hphase, hlived.2]
    rfl
  have hsound := hp.sound
  rw [List.map_cons, hstance] at hsound
  exact ⟨sound_idle.mp hsound, hp.recorded, hrest⟩

theorem eases_resume (p : Plane) (x : Execution) (answer : Answer) :
    p.Eases (x.resume p answer).1 := by
  rw [Execution.resume.eq_def]
  split
  · exact (Eases.refl p).same rfl rfl rfl rfl rfl
  · exact .refl p

theorem Accounts.resumes (hp : p.Accounts (x :: xs) late past) (answer : Answer) :
    (x.resume p answer).1.Accounts ((x.resume p answer).2 :: xs) late past ∧
      Persists p (x.resume p answer).1 := by
  obtain ⟨hq, hpersists⟩ := hp.eases (eases_resume p x answer)
  obtain ⟨⟨turns, hstory, hturns⟩, -⟩ := List.forall_mem_cons.mp hp.storied
  obtain ⟨-, hrest⟩ := List.forall_mem_cons.mp hq.storied
  have hsound := hq.sound
  rw [List.map_cons, ← stance_resume p x answer] at hsound
  refine ⟨⟨hsound, hq.recorded, ?_⟩, hpersists⟩
  exact List.forall_mem_cons.mpr ⟨⟨turns, hstory.resume answer, hturns⟩, hrest⟩

/-- A turn on which nobody is told. -/
theorem Accounts.deals (hp : p.Accounts (x :: xs) late past)
    (hopen : ∀ answer, x.phase ≠ .ended answer) (hnot : ∀ h d, ¬ x.Tells h d)
    (hy : (x.advance p).next.after? = some y)
    (hdeals : Deals (p, x.stance) ((x.advance p).plane, y.stance)) :
    (x.advance p).plane.Accounts (y :: xs) late (⟨p, x⟩ :: past) ∧
      Persists p (x.advance p).plane := by
  obtain ⟨hsound, hgrows⟩ := Sound.deals hdeals hp.sound
  exact ⟨⟨hsound, (hp.recorded.note hnot).grows hgrows, hp.storied.turn hopen hy⟩,
    hgrows.toPersists⟩

/-- A turn on which a participant is told. -/
theorem Accounts.tells (hp : p.Accounts (x :: xs) late past)
    (hopen : ∀ answer, x.phase ≠ .ended answer) (hx : x.Tells h d)
    (hy : (x.advance p).next.after? = some y) :
    (x.advance p).plane.Accounts (y :: xs) late (⟨p, x⟩ :: past) ∧
      Persists p (x.advance p).plane := by
  obtain ⟨⟨turns, hstory, hturns⟩, -⟩ := List.forall_mem_cons.mp hp.storied
  obtain ⟨z, held, hnext, hz, hstance, hplane, -⟩ := tells_advance (p := p) hstory.lived hx
  have hstoried := hp.storied.turn hopen hy
  have hsound := hp.sound
  rw [hnext] at hy
  obtain rfl := Option.some.inj hy
  rw [List.map_cons, hstance] at hsound
  obtain ⟨hlt, huntouched⟩ := hsound.untouched
  obtain ⟨hsound', -⟩ := hsound.tells d
  rw [hplane] at hstoried ⊢
  refine ⟨⟨?_, hp.recorded.tell hx ⟨turns, hstory, hturns⟩ hlt huntouched.undecided, hstoried⟩,
    persists_decideAndDrop p h d⟩
  rw [List.map_cons, hz]
  exact hsound'

/-! ## Operations that break down -/

theorem Sound.dropsAll {ss : List Stance} (hs : List Nat) (h : p.Sound (⟨none, hs⟩ :: ss) late) :
    (hs.foldl (fun q i => q.modifyHandle i Prepared.drop) p).Sound ss late ∧
      Grows p (hs.foldl (fun q i => q.modifyHandle i Prepared.drop) p) := by
  induction hs generalizing p with
  | nil => exact ⟨sound_idle.mp h, .refl p⟩
  | cons i hs ih =>
    obtain ⟨hsound, hgrows⟩ := ih h.drops
    exact ⟨hsound, (grows_drop p i).trans hgrows⟩

/-- An operation that waits for no step is let go of, with all that it holds. -/
theorem Accounts.discards (hp : p.Accounts (x :: xs) late past) (hidle : x.awaits? = none) :
    (x.discard p).Accounts xs late past ∧ Persists p (x.discard p) := by
  have hretains := retains_setTree p x.controller
    (x.context.transaction.rollback (p.tree x.controller)).1
  obtain ⟨hq, hpersists⟩ := hp.eases hretains.eases
  have hsound := hq.sound
  rw [List.map_cons, stance, hidle] at hsound
  obtain ⟨hsound', hgrows⟩ := hsound.dropsAll
  obtain ⟨-, hrest⟩ := List.forall_mem_cons.mp hq.storied
  refine ⟨⟨hsound', hq.recorded.grows hgrows, ?_⟩, hpersists.trans hgrows.toPersists⟩
  exact Storied.mono hrest (List.Sublist.refl _) _

theorem Accounts.discardsAll (ys : List Execution) (hp : p.Accounts (ys ++ xs) late past)
    (hidle : ∀ y ∈ ys, y.awaits? = none) :
    (ys.foldl (fun q y => y.discard q) p).Accounts xs late past ∧
      Persists p (ys.foldl (fun q y => y.discard q) p) := by
  induction ys generalizing p with
  | nil => exact ⟨hp, .refl p⟩
  | cons y ys ih =>
    obtain ⟨hy, hrest⟩ := List.forall_mem_cons.mp hidle
    have hhead : p.Accounts (y :: (ys ++ xs)) late past := hp
    obtain ⟨hq, hpersists⟩ := hhead.discards hy
    obtain ⟨hr, hpersists'⟩ := ih hq hrest
    exact ⟨hr, hpersists.trans hpersists'⟩

/-- A turn on which an operation breaks down, with those below it. -/
theorem Accounts.crashes (hp : p.Accounts (x :: ys ++ xs) late past) (hnot : ∀ h d, ¬ x.Tells h d)
    (hdeals : Deals (p, x.stance) (q, x.stance)) (hidle : ∀ y ∈ x :: ys, y.awaits? = none) :
    ((x :: ys).foldl (fun q y => y.discard q) q).Accounts xs late (⟨p, x⟩ :: past) ∧
      Persists p ((x :: ys).foldl (fun q y => y.discard q) q) := by
  obtain ⟨hsound, hgrows⟩ := Sound.deals hdeals hp.sound
  have hq : q.Accounts (x :: ys ++ xs) late (⟨p, x⟩ :: past) :=
    ⟨hsound, (hp.recorded.note hnot).grows hgrows, hp.storied.mono (List.sublist_cons_self _ _) q⟩
  obtain ⟨hr, hpersists⟩ := hq.discardsAll _ hidle
  exact ⟨hr, hgrows.toPersists.trans hpersists⟩

end Plane

end ManagementPlane
