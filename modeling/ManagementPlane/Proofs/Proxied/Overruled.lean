import ManagementPlane.Proofs.Proxied.Entrusted
import ManagementPlane.Proofs.Proxied.TwoPhase

/-!
# Proofs/Proxied/Overruled — an operation that has not prepared

Nothing comes of an operation as long as it has not prepared: it has published nothing, has told all
its completions of a rollback, and none of the participants of its steps is kept
(`World.Overruled`).

That participants are not kept is shown for all operations that share the cancellation, over any
number of links: a participant is kept only if its parent commits, and that only if its own parent
does, up to the operation that was given the cancellation (`Kindred.uncommitted`).  A participant
behind an actor is rolled back if its report was heard, or if it has prepared when nobody was left
to hear it (`World.Partakes`).
-/

namespace ManagementPlane

open Plane Execution

/-- The step that is forwarded to an actor on this turn, with the actor and the exchange. -/
def Moment.sent? (m : Moment) : Option (Nat × Nat × Nat) :=
  match m.execution.phase, m.turn.next.after?.bind Execution.awaits? with
  | .handling _ .begin, some (f, .sending a _ e) => some (f, a, e)
  | _, _ => none

/-! ## Operations that commit nothing -/

theorem Prepared.decision_of_effect? {i : Prepared} (h : i.outlook.effect? = some .keep) :
    i.decision = some .keep := by
  rw [outlook] at h
  split at h
  · next hd => rw [hd, ← Option.some.inj h]
  · split at h <;> cases h

namespace Execution

variable {past : List Moment} {x : Execution}

theorem decision_of_verdict {e : Ending} (h : e.Verdict past) (hnever : ∀ m ∈ past, ¬ m.Commits) :
    e.decision = .rollback := by
  cases e with
  | kept =>
    obtain ⟨-, m, hm, hcommits⟩ := h
    exact absurd hcommits (hnever m hm)
  | _ => rfl

/-- Whatever such an operation tells, it tells of a rollback: its completions one after the other,
the latest first. -/
theorem Lived.told_prefix (h : Lived past x) (hnever : ∀ m ∈ past, ¬ m.Commits) :
    told past <+: (registered past).reverse.map (·, .rollback) := by
  have hnone : told past = [] → told past <+: (registered past).reverse.map (·, .rollback) :=
    fun hnone => hnone ▸ List.nil_prefix
  rw [Lived] at h
  split at h
  · exact hnone h.1.untold
  · exact hnone h.1.untold
  · exact hnone h.1.untold
  · exact hnone h.1.untold
  · exact hnone h.1.untold
  · obtain ⟨hverdict, -, horder, hdecision, -⟩ := h
    rw [decision_of_verdict hverdict hnever] at hdecision
    rw [← horder, List.map_append, List.map_map]
    refine ⟨x.context.completed.map (·, .rollback), congrArg (· ++ _) ?_⟩
    refine (List.map_id _).symm.trans (List.map_congr_left fun t ht => ?_)
    exact Prod.ext rfl (hdecision t ht)
  · obtain ⟨hverdict, htold, -⟩ := h
    rw [htold, decision_of_verdict hverdict hnever]
  · obtain ⟨⟨e, hverdict, -, htold⟩, -⟩ := h
    rw [htold, decision_of_verdict hverdict hnever]

/-- When it has ended, every completion was told, and the caller got no success. -/
theorem Lived.ended (h : Lived past x) (hnever : ∀ m ∈ past, ¬ m.Commits) {answer : Answer}
    (hphase : x.phase = .ended answer) :
    told past = (registered past).reverse.map (·, .rollback) ∧ ¬ Succeeds answer := by
  rw [Lived, hphase] at h
  obtain ⟨⟨e, hverdict, hanswers, htold⟩, -⟩ := h
  rw [decision_of_verdict hverdict hnever] at htold
  refine ⟨htold, ?_⟩
  rintro ⟨response, streams, rfl, hsuccess⟩
  have hfailed : (∃ response' streams', (Except.ok (response, streams) : Answer) =
      .ok (response', streams') ∧ Response.isSuccess response' = false) → False := by
    rintro ⟨response', streams', heq, hfailure⟩
    obtain ⟨rfl, -⟩ := Prod.mk.inj (Except.ok.inj heq)
    cases hsuccess.symm.trans hfailure
  cases e with
  | kept =>
    obtain ⟨-, m, hm, hcommits⟩ := hverdict
    exact hnever m hm hcommits
  | rolledBack => exact hfailed hanswers
  | failed => exact hfailed hanswers
  | fatal => cases hanswers

end Execution

namespace World

variable {c : Nat} {w w' w₁ : World} {m k : Moment} {x y : Execution} {s : Option Nat}
  {f l i : Nat} {r : Value}

/-! ## Operations that share the cancellation -/

/-- Whoever is known in the place of an operation with the cancellation has it too. -/
theorem Kindred.shared (h : w.Kindred c) (hx : Known w.executions w.past x)
    (hy : Known w.executions w.past y) (hseat : y.seat c = x.seat c)
    (hcancellation : x.context.input.cancellation = some c) :
    y.context.input.cancellation = some c := by
  obtain ⟨s, hs⟩ := exists_seat hcancellation
  cases s with
  | none => exact cancellation_of_seat (hseat.trans hs)
  | some l =>
    -- both have the input of the operation that has the link
    obtain ⟨m, hm, f, hl, hinput⟩ := h.kin.linked x hx l (link?_of_seat hs)
    obtain ⟨m', hm', f', hl', hinput'⟩ :=
      h.kin.linked y hy l (link?_of_seat (hseat.trans hs))
    obtain rfl := (h.wards.joined m hm f l hl).2 m' hm' f' hl'
    rw [← hinput', hinput, hcancellation]

/-- Whoever waits for a step has the place of the operation that forwarded it. -/
theorem Kindred.seat_of_awaits (h : w.Kindred c) (hx : Known w.executions w.past x) {d : Delivery}
    (hf : x.awaits? = some (f, d)) (hm : m ∈ w.past) (hforwards : m.Forwards f) :
    x.seat c = m.execution.seat c := by
  obtain ⟨m', hm', hforwards', hseat⟩ := h.wards.awaited x hx f d hf
  obtain rfl := (h.wards.begun m hm f hforwards).2 m' hm' hforwards'
  exact hseat.symm

/-- When an operation commits, it has prepared before, and was told to keep that. -/
theorem Kindred.prepared_of_commits (h : w.Kindred c) (hm : m ∈ w.past)
    (hs : m.execution.seat c = some s) (hcommits : m.Commits) :
    ∃ k ∈ w.past, k.Prepares ∧ k.execution.seat c = some s ∧
      (w.plane.handle k.handle).decision = some .keep := by
  obtain ⟨earlier, hsub, hstory⟩ := h.kin.before hm hs
  obtain ⟨handle, due, hphase, heffect⟩ := hcommits.decided
  obtain ⟨k, hk, hprepares, rfl⟩ := hstory.deciding hphase
  obtain ⟨hmem, hseat⟩ := mem_seated.mp hk
  exact ⟨k, hsub hmem, hprepares, hseat,
    h.wards.firm m hm _ _ (Prepared.decision_of_effect? heffect)⟩

/-- When the participant of a step is kept, the operation that forwarded the step has committed. -/
theorem Kindred.commits_of_kept (h : w.Kindred c) (hm : m ∈ w.past) (hforwards : m.Forwards f)
    (hr : .prepared i r ∈ (w.plane.forward f).reports)
    (hkeep : (w.plane.handle i).decision = some .keep) :
    ∃ k ∈ w.past, k.Commits ∧ k.execution.seat c = m.execution.seat c := by
  obtain ⟨-, turns, m', hstory, hsub, -, hkept⟩ := (h.inv.decided hr).kept hkeep
  have hmem : turns ⊆ w.past := fun k hk => hsub.subset (List.mem_cons_of_mem m' hk)
  obtain ⟨k, hk, hconcludes⟩ := hkept.concludes
  obtain ⟨k', hk', hcommits⟩ := hkept.commits
  refine ⟨k', hmem hk', hcommits, ?_⟩
  rw [hstory.seat k' hk', ← hstory.seat k hk]
  exact h.seat_of_awaits (.inr ⟨k, hmem hk, rfl⟩) hconcludes.awaits hm hforwards

/-- What is offered over a link was not decided yet. -/
theorem Kindred.undecided_of_offer (h : w.Kindred c)
    (hoffer : (w.plane.link l).offer = some (i, r)) : (w.plane.handle i).decision = none := by
  have hplace : i ∈ w.plane.handlesAt (.offer l) := by
    rw [handlesAt, hoffer]
    exact List.mem_singleton_self i
  exact (h.inv.accounts.sound.tidy.offered hplace).undecided

/-! ## Before the operation has prepared -/

section Unprepared

variable (h : w.Kindred c) (hnot : ¬ w.Prepared c)

include h hnot

theorem Kindred.uncommitted_first (hm : m ∈ w.past) (hs : m.execution.seat c = some none) :
    ¬ m.Commits := by
  intro hcommits
  obtain ⟨k, hk, hprepares, hseat, -⟩ := h.prepared_of_commits hm hs hcommits
  exact hnot ⟨k, hk, hprepares, hseat⟩

/-- **As long as the first of them has not prepared, none of the operations commits** that have the
cancellation from it: the participants of its steps are not kept, nor are those of theirs. -/
theorem Kindred.uncommitted (hm : m ∈ w.past)
    (hcancellation : m.execution.context.input.cancellation = some c) : ¬ m.Commits := by
  suffices hlinked : ∀ l, ∀ m ∈ w.past, m.execution.context.input.cancellation = some c →
      m.execution.link? = some l → ¬ m.Commits by
    obtain ⟨s, hs⟩ := exists_seat hcancellation
    cases s with
    | none => exact h.uncommitted_first hnot hm hs
    | some l => exact hlinked l m hm hcancellation (link?_of_seat hs)
  intro l
  induction l using Nat.strong_induction_on with
  | _ l ih =>
    intro m hm hcancellation hlink hcommits
    obtain ⟨k, hk, hprepares, hseat, hkeep⟩ :=
      h.prepared_of_commits hm (seat_of_link? hlink) hcommits
    obtain ⟨parent, hparent, f, hl, hinput⟩ := h.kin.linked _ (.inr ⟨m, hm, rfl⟩) l hlink
    have hshared : parent.execution.context.input.cancellation = some c := by
      rw [hinput, hcancellation]
    rcases h.wards.handed k hk hprepares l (link?_of_seat hseat) parent hparent f hl with
      ⟨⟨r, hoffer⟩, -⟩ | ⟨r, hr⟩ | hrolled
    · cases (h.undecided_of_offer hoffer).symm.trans hkeep
    · -- its parent has committed
      obtain ⟨k', hk', hcommits', hplace⟩ := h.commits_of_kept hparent hl.forwards hr hkeep
      obtain ⟨s, hs⟩ := exists_seat hshared
      rw [hs] at hplace
      cases s with
      | none => exact h.uncommitted_first hnot hk' hplace hcommits'
      | some j =>
        refine ih j (h.kin.younger parent hparent f l hl j (link?_of_seat hs)) k' hk' ?_
          (link?_of_seat hplace) hcommits'
        exact h.shared (.inr ⟨parent, hparent, rfl⟩) (.inr ⟨k', hk', rfl⟩) (hplace.trans hs.symm)
          hshared
    · cases hrolled.symm.trans hkeep

end Unprepared

/-- The participant of step `f` has prepared with handle `i`: it has reported so, or it runs in the
same process and has done so on a turn of its own, or it runs behind an actor and has done so when
its exchange was given up, or the actor was gone. -/
def Partakes (w : World) (f i : Nat) : Prop :=
  (∃ r, .prepared i r ∈ (w.plane.forward f).reports) ∨
    (∃ l, (∃ m ∈ w.past, m.Links f l) ∧
      ∃ k ∈ w.past, k.Prepares ∧ k.handle = i ∧ k.execution.link? = some l) ∨
    ∃ e a, (∃ m ∈ w.past, m.sent? = some (f, a, e)) ∧
      ∃ k ∈ w.past, k.Prepares ∧ k.handle = i ∧ k.execution.control = .exchange e a ∧
        ((k.plane.exchange e).followed = false ∨ (k.plane.actor a).isOpen = false)

/-- Whoever had the place of the operation has come to its end. -/
def Over (c : Nat) (w : World) (x : Execution) : Prop :=
  ∀ y ∈ w.executions, y.seat c = x.seat c → ∃ answer, y.phase = .ended answer

/-- The operation with the cancellation `c` does not prepare, and nothing comes of what it has
done, nor of what the participants have done that share the cancellation. -/
structure Overruled (c : Nat) (w : World) : Prop where
  /-- The pipeline has not come through to where whoever decides is asked. -/
  unprepared : ¬ w.Prepared c
  undecided : ∀ x ∈ w.executions, x.seat c = some none → ∀ h due, x.phase ≠ .deciding h due
  /-- No turn of them has published anything. -/
  unpublished : ∀ m ∈ w.past, m.execution.context.input.cancellation = some c →
    m.plane.Steady m.turn.plane
  /-- Completions are only told of a rollback, each of them once, the latest first. -/
  rolledBack : ∀ x ∈ w.executions, x.context.input.cancellation = some c → ∀ s, x.seat c = some s →
    told (seated c s w.past) <+: (registered (seated c s w.past)).reverse.map (·, .rollback)
  /-- At the end all of them were told, and the caller got no success. -/
  ended : ∀ x ∈ w.executions, x.context.input.cancellation = some c → ∀ s, x.seat c = some s →
    ∀ answer, x.phase = .ended answer → told (seated c s w.past) =
      (registered (seated c s w.past)).reverse.map (·, .rollback) ∧ ¬ Succeeds answer
  /-- No participant of their steps is kept, and with the operation over all are rolled back. -/
  undone : ∀ m ∈ w.past, m.execution.context.input.cancellation = some c → ∀ f, m.Forwards f →
    ∀ i, w.Partakes f i → (w.plane.handle i).decision ≠ some .keep ∧
      (w.Over c m.execution → (w.plane.handle i).outlook.effect? = some .rollback)

/-- The turns of an operation with the cancellation have committed nothing. -/
theorem Kindred.uncommitted_seated (h : w.Kindred c) (hnot : ¬ w.Prepared c)
    (hx : x ∈ w.executions) (hcancellation : x.context.input.cancellation = some c)
    (hs : x.seat c = some s) : ∀ m ∈ seated c s w.past, ¬ m.Commits := by
  intro m hm
  obtain ⟨hmem, hseat⟩ := mem_seated.mp hm
  exact h.uncommitted hnot hmem
    (h.shared (.inl hx) (.inr ⟨m, hmem, rfl⟩) (hseat.trans hs.symm) hcancellation)

/-- **Nobody who has prepared is left behind**: what a step got, what is still offered to it, and
what came too late. -/
theorem Kindred.undone (h : w.Kindred c) (hnot : ¬ w.Prepared c) (hm : m ∈ w.past)
    (hcancellation : m.execution.context.input.cancellation = some c) (hforwards : m.Forwards f)
    (hi : w.Partakes f i) : (w.plane.handle i).decision ≠ some .keep ∧
      (w.Over c m.execution → (w.plane.handle i).outlook.effect? = some .rollback) := by
  -- nobody waits for the step, or has what it got, when its operation is over
  have hleft : w.Over c m.execution → ∀ x ∈ w.executions, x.seat c = m.execution.seat c →
      (∀ answer, x.phase ≠ .ended answer) → False := by
    intro hover x hx hseat hopen
    obtain ⟨answer, hphase⟩ := hover x hx hseat
    exact hopen answer hphase
  have hreported : ∀ {r}, .prepared i r ∈ (w.plane.forward f).reports →
      (w.plane.handle i).decision ≠ some .keep ∧
        (w.Over c m.execution → (w.plane.handle i).outlook.effect? = some .rollback) := by
    intro r hr
    have hnever : (w.plane.handle i).decision ≠ some .keep := by
      intro hkeep
      obtain ⟨k, hk, hcommits, hseat⟩ := h.commits_of_kept hm hforwards hr hkeep
      refine h.uncommitted hnot hk ?_ hcommits
      exact h.shared (.inr ⟨m, hm, rfl⟩) (.inr ⟨k, hk, rfl⟩) hseat hcancellation
    refine ⟨hnever, fun hover => ?_⟩
    rcases (h.inv.decided hr).settled with hkeep | hrolled | ⟨x, hx, hopen, hwaits⟩
    · exact absurd hkeep hnever
    · exact hrolled
    · refine (hleft hover x hx ?_ hopen).elim
      rcases hwaits with ⟨d, hf⟩ | ⟨-, turns, hstory, hsub, k, hk, hconcludes⟩
      · exact h.seat_of_awaits (.inl hx) hf hm hforwards
      · rw [← hstory.seat k hk]
        exact h.seat_of_awaits (.inr ⟨k, hsub.subset hk, rfl⟩) hconcludes.awaits hm hforwards
  have hrolled : ∀ {k : Nat}, (w.plane.handle k).decision = some .rollback →
      (w.plane.handle k).decision ≠ some .keep ∧
        (w.Over c m.execution → (w.plane.handle k).outlook.effect? = some .rollback) := by
    intro k hdecision
    refine ⟨fun hkeep => (by cases hdecision.symm.trans hkeep), fun _ => ?_⟩
    rw [Prepared.outlook, hdecision]
    rfl
  rcases hi with ⟨r, hr⟩ | ⟨l, ⟨m', hm', hl⟩, k, hk, hprepares, rfl, hlink⟩ |
    ⟨e, a, -, k, hk, hprepares, rfl, hcontrol, hunheard⟩
  · exact hreported hr
  · obtain rfl := (h.wards.begun m hm f hforwards).2 m' hm' hl.forwards
    rcases h.wards.handed k hk hprepares l hlink m' hm' f hl with
      ⟨⟨r, hoffer⟩, hnow⟩ | ⟨r, hr⟩ | hdecision
    · have hundecided := h.undecided_of_offer hoffer
      refine ⟨fun hkeep => (by cases hundecided.symm.trans hkeep), fun hover => ?_⟩
      rcases hnow with ⟨z, hz, hf⟩ | hdropped
      · obtain ⟨step, due, hphase⟩ := phase_of_awaits hf
        have hopen : ∀ answer, z.phase ≠ .ended answer := fun answer hz => by
          cases hz.symm.trans hphase
        exact (hleft hover z hz (h.seat_of_awaits (.inl hz) hf hm' hforwards) hopen).elim
      · rw [Prepared.outlook, hundecided, hdropped]
        rfl
    · exact hreported hr
    · exact hrolled hdecision
  · exact hrolled (h.wards.resolved k hk hprepares _ (unheard_turn hprepares hcontrol hunheard))

/-- As long as the operation has not prepared it is as if it had been cancelled. -/
theorem Kindred.overruled (h : w.Kindred c) (hnot : ¬ w.Prepared c) : w.Overruled c where
  unprepared := hnot
  undecided x hx hs handle due hphase := by
    obtain ⟨k, hk, hprepares, -⟩ := (h.kin.storied x hx none hs).deciding hphase
    obtain ⟨hmem, hseat⟩ := mem_seated.mp hk
    exact hnot ⟨k, hmem, hprepares, hseat⟩
  unpublished m hm hcancellation := by
    obtain ⟨s, hs⟩ := exists_seat hcancellation
    obtain ⟨earlier, -, hstory⟩ := h.kin.before hm hs
    exact steady_advance hstory.lived (h.uncommitted hnot hm hcancellation)
  rolledBack x hx hcancellation s hs :=
    (h.kin.storied x hx s hs).lived.told_prefix (h.uncommitted_seated hnot hx hcancellation hs)
  ended x hx hcancellation s hs answer hphase :=
    (h.kin.storied x hx s hs).lived.ended (h.uncommitted_seated hnot hx hcancellation hs) hphase
  undone m hm hcancellation f hforwards i hi := h.undone hnot hm hcancellation hforwards hi

end World

end ManagementPlane
