import ManagementPlane.Proofs.Proxied.Kinship

/-!
# Proofs/Proxied/Wards — what becomes of the participant of a step over a link

A participant in the same process that prepares offers its handle over its link.  The step that was
forwarded over the link waits there (`Wards.heard`), and on the next turn of its operation it takes
the handle, or is interrupted and drops it unread (`Execution.takes_turn`); or else the link does
not listen any more, and the participant is rolled back at once (`Execution.prepares_turn`).  So
nobody who has prepared is lost between the two (`Wards.handed`).

For that every step is told from all others by the turn that forwarded it (`Wards.begun`), and so is
every link (`Wards.joined`).
-/

namespace ManagementPlane

open Plane Execution

namespace Moment

/-- A step is forwarded on this turn. -/
def Forwards (m : Moment) (f : Nat) : Prop :=
  (∃ step, m.execution.phase = .handling step .begin) ∧
    ∃ y d, m.turn.next.after? = some y ∧ y.awaits? = some (f, d)

theorem Links.forwards {m : Moment} {f l : Nat} (h : m.Links f l) : m.Forwards f := by
  obtain ⟨hphase, y, hy, hawaits⟩ := h
  exact ⟨hphase, y, _, hy, hawaits⟩

/-- What has become of the handle with which the participant of step `f` prepared: it is offered on
the link `l`, and one of the operations `xs` waits there for it or it was dropped, or the step has
got it, or it was rolled back. -/
def Handed (k : Moment) (p : Plane) (xs : List Execution) (f l : Nat) : Prop :=
  ((∃ r, (p.link l).offer = some (k.handle, r)) ∧
      ((∃ z ∈ xs, z.awaits? = some (f, .linked l)) ∨ (p.handle k.handle).clones = 0)) ∨
    (∃ r, .prepared k.handle r ∈ (p.forward f).reports) ∨
    (p.handle k.handle).decision = some .rollback

end Moment

namespace Execution

variable {p : Plane} {x y : Execution} {f l i : Nat} {d : Delivery} {r : Value}

/-- **Whoever waits for a step** waited for it before, or has just forwarded it. -/
theorem awaits_turn (hy : (x.advance p).next.after? = some y) (hf : y.awaits? = some (f, d)) :
    (∃ d', x.awaits? = some (f, d')) ∨ (Moment.mk p x).Forwards f ∧ f = p.forwards.length := by
  have hafter : (Moment.mk p x).turn.next.after? = some y := hy
  have hgoes := goes_advance hy
  generalize (x.advance p).plane = q at hgoes
  cases hgoes with
  | @works step w _ hphase hwork =>
    have hcontinues := (keeping_work p x step w).continues
    generalize (work p x step w).next = next at hcontinues hwork
    cases hcontinues with
    | goes _ hw' =>
      obtain rfl := Option.some.inj hwork
      obtain ⟨step', due, hphase'⟩ := phase_of_awaits hf
      obtain ⟨-, rfl⟩ := Phase.handling.inj hphase'
      cases hw'
    | @forwards g due d' h =>
      obtain rfl := Option.some.inj hwork
      obtain ⟨rfl, rfl⟩ := Prod.mk.inj (Option.some.inj hf)
      rcases h with ⟨d', rfl⟩ | ⟨rfl, rfl⟩
      · exact .inl ⟨d', by rw [awaits?, hphase]⟩
      · exact .inr ⟨⟨⟨step, hphase⟩, _, _, hafter, hf⟩, rfl⟩
    | returns | concludes =>
      obtain rfl := Option.some.inj hwork
      cases (congrArg Stance.awaits (stance_afterStep _ step _)).symm.trans hf
    | blocks =>
      obtain rfl := Option.some.inj hwork
      exact .inl ⟨d, hf⟩
    | nests =>
      obtain rfl := Option.some.inj hwork
      cases hf
    | crashes => cases hwork
  | opens _ _ _ _ hnext =>
    rcases hnext with rfl | ⟨due, rfl⟩ <;> cases hf
  | passes hphase =>
    obtain ⟨step, due, hphase'⟩ := phase_of_awaits hf
    cases hphase.symm.trans hphase'
  | tells hphase =>
    obtain ⟨step, due, hphase'⟩ := phase_of_awaits hf
    cases hphase.symm.trans hphase'
  | drains _ hnext =>
    rcases hnext with ⟨due, rfl⟩ | ⟨answer, rfl⟩ <;> cases hf
  | blocks => exact .inl ⟨d, hf⟩
  | _ => cases hf

/-- Whoever waits at a link has waited there since it forwarded its step. -/
theorem awaits_linked_turn (hy : (x.advance p).next.after? = some y)
    (hf : y.awaits? = some (f, .linked l)) :
    x.awaits? = some (f, .linked l) ∨ (Moment.mk p x).Links f l := by
  rcases awaits_turn hy hf with ⟨d, hx⟩ | ⟨⟨hphase, -⟩, -⟩
  · left
    obtain ⟨step, due, hadvances⟩ := advances_of_awaits p hx
    have hreturns : ∀ {z : Execution} {out : Except OperationError Unit},
        (Next.returned z step out).after? = some y → x.awaits? = some (f, .linked l) := by
      intro z out hy
      obtain rfl := Option.some.inj hy
      cases (congrArg Stance.awaits (stance_afterStep z step out)).symm.trans hf
    generalize x.advance p = t at hadvances hy
    cases hadvances with
    | goes h =>
      -- a step that goes on does so without a link
      obtain rfl := Option.some.inj hy
      obtain rfl := (Prod.mk.inj (Option.some.inj hf)).2
      cases h
    | @concludes o => cases o <;> exact hreturns hy
    | waits =>
      obtain rfl := Option.some.inj hy
      exact hf
    | stops => exact hreturns hy
  · exact .inr ⟨hphase, y, hy, hf⟩

theorem reports_reportOutcome (hf : f < p.forwards.length) (o : Outcome) :
    o ∈ ((p.reportOutcome f o).forward f).reports := by
  have hreported : ∀ q : Plane, q.forwards = (p.modifyForward f fun _ =>
      ((p.forward f).report o).2).forwards → o ∈ (q.forward f).reports := by
    intro q hq
    have hsame : q.forward f = (p.modifyForward f fun _ =>
        ((p.forward f).report o).2).forward f :=
      congrArg (fun fs : List Forward => (fs[f]?).getD {}) hq
    rw [hsame, forward_modifyForward, if_pos ⟨rfl, hf⟩, Forward.reports_report]
    exact List.mem_append_right _ (List.mem_singleton_self o)
  rw [reportOutcome]
  dsimp only
  split
  · split <;> exact hreported _ rfl
  · exact hreported _ rfl

/-- **An offer is taken** as soon as the operation that waits for it has its turn, or dropped. -/
theorem takes_turn (hp : p.Tidy) (hx : x.awaits? = some (f, .linked l))
    (hoffer : (p.link l).offer = some (i, r)) (hf : f < p.forwards.length) :
    .prepared i r ∈ ((x.advance p).plane.forward f).reports ∨
      ((x.advance p).plane.link l).offer = some (i, r) ∧
        ((x.advance p).plane.handle i).clones = 0 := by
  obtain ⟨step, due, hadvances⟩ := advances_of_awaits p hx
  generalize x.advance p = t at hadvances ⊢
  cases hadvances with
  | goes h =>
    left
    cases h with
    | takes hsome =>
      obtain ⟨rfl, rfl⟩ := Prod.mk.inj (Option.some.inj (hoffer.symm.trans hsome))
      exact reports_reportOutcome (p := p.modifyLink l Link.take) hf _
    | ends hnone | breaks hnone => cases hoffer.symm.trans hnone
  | concludes hd => cases hd
  | waits hsilent => cases hoffer.symm.trans hsilent.1
  | stops =>
    right
    have hplace : i ∈ p.handlesAt (.offer l) := by simp [handlesAt, hoffer]
    have hplane : (Forwarding.abandon p f (.linked l)) =
        Forwarding.leave (p.modifyHandle i Prepared.drop) f (.linked l) := by
      rw [Forwarding.abandon, Forwarding.unread?, hoffer]
      rfl
    rw [Forwarding.stop, hplane]
    constructor
    · have hlink : (((p.modifyHandle i Prepared.drop).modifyLink l Link.abandon).link l).offer =
          (p.link l).offer := by
        rw [link_modifyLink]
        split <;> rfl
      exact hlink.trans hoffer
    · show ((p.modifyHandle i Prepared.drop).handle i).clones = 0
      rw [handle_modifyHandle, if_pos ⟨rfl, hp.bounded hplace⟩]
      exact Nat.sub_eq_zero_of_le (hp.offered hplace).single

/-- Whoever leaves a link takes care that nothing is offered there any more, or finds it at its
end. -/
theorem leaves_turn (hx : x.awaits? = some (f, .linked l)) (hl : l < p.links.length)
    (hy : (x.advance p).next.after? = some y) : y.awaits? = some (f, .linked l) ∨
      ((x.advance p).plane.link l).listening = false ∨ (p.link l).final ≠ none := by
  obtain ⟨step, due, hadvances⟩ := advances_of_awaits p hx
  have hdeaf : ∀ {q : Plane} {g : Link → Link}, q.links = (p.modifyLink l g).links →
      (∀ a, (g a).listening = false) → (q.link l).listening = false := by
    intro q g hq hg
    rw [link_congr hq, link_modifyLink, if_pos ⟨rfl, hl⟩]
    exact hg _
  generalize x.advance p = t at hadvances hy ⊢
  cases hadvances with
  | goes h =>
    right
    cases h with
    | takes => exact .inl (hdeaf (g := Link.take) (links_reportOutcome _ f _) fun _ => rfl)
    | ends _ hfinal | breaks _ hfinal => exact .inr (by rw [hfinal]; exact Option.some_ne_none _)
  | concludes hd => cases hd
  | waits =>
    obtain rfl := Option.some.inj hy
    exact .inl hx
  | stops =>
    refine .inr (.inl (hdeaf (g := Link.abandon) ?_ fun _ => rfl))
    rw [Forwarding.stop, Forwarding.abandon, letGo_eq]
    rfl

theorem final_turn (p : Plane) (x : Execution) (l : Nat) :
    ((x.advance p).plane.link l).final = (p.link l).final := by
  have hturned := (relinks_advance p x).link l
  generalize (x.advance p).plane.link l = b at hturned
  cases hturned <;> rfl

theorem listening_turn (h : ((x.advance p).plane.link l).listening = true) :
    (p.link l).listening = true := by
  have hturned := (relinks_advance p x).link l
  generalize (x.advance p).plane.link l = b at hturned h
  cases hturned with
  | stays => exact h
  | takes | abandons => cases h
  | offers _ _ hlistening => exact hlistening

/-- An offer stands until the operation that waits for it has its turn. -/
theorem offer_turn {offer : Nat × Value} (hoffer : (p.link l).offer = some offer)
    (hleft : ∀ f, x.awaits? ≠ some (f, .linked l)) :
    ((x.advance p).plane.link l).offer = some offer := by
  have hturned := (relinks_advance p x).link l
  generalize (x.advance p).plane.link l = b at hturned
  cases hturned with
  | stays => exact hoffer
  | takes hawaits | abandons hawaits => exact absurd hawaits (hleft _)
  | offers _ _ _ hnone => cases hnone.symm.trans hoffer

/-- **A participant that prepares** offers its handle, or has to roll back at once. -/
theorem prepares_turn (hprepares : (Moment.mk p x).Prepares) (hlink : x.link? = some l)
    (hl : l < p.links.length) :
    (p.link l).listening = true ∧
        (∃ r, ((x.advance p).plane.link l).offer = some (p.handles.length, r)) ∨
      ((x.advance p).plane.handle p.handles.length).decision = some .rollback := by
  have hcontrol : x.control = .relay l := by
    rw [link?] at hlink
    split at hlink
    · next k hk => rw [hk, Option.some.inj hlink]
    · cases hlink
  have hplane : (x.advance p).plane = (p.newHandle {}).2.announcePrepared (.relay l)
      p.handles.length ((x.context.slot Context.rootSlot).toValue false) := by
    have hturn : x.advance p = prepare p x := hprepares.turn
    rw [hturn, prepare, hcontrol]
    rfl
  rw [hplane, announcePrepared, Link.propose]
  dsimp only
  have hsame : (p.newHandle {}).2.link l = p.link l := rfl
  rw [hsame]
  split
  · next hfree =>
    left
    rw [if_pos rfl]
    refine ⟨(Bool.and_eq_true_iff.mp hfree).1, (x.context.slot Context.rootSlot).toValue false, ?_⟩
    rw [link_modifyLink, if_pos ⟨rfl, hl⟩]
  · right
    have hnew : p.handles.length < (p.newHandle {}).2.handles.length := by
      rw [Plane.newHandle, List.length_append]
      exact Nat.lt_succ_self _
    rw [if_neg Bool.false_ne_true, handle_decideAndDrop, if_pos ⟨rfl, hnew⟩, handle_newHandle,
      if_pos rfl]
    rfl

/-- **A participant that nobody hears any more** is rolled back as soon as it has prepared. -/
theorem unheard_turn {e a : Nat} (hprepares : (Moment.mk p x).Prepares)
    (hcontrol : x.control = .exchange e a)
    (hunheard : (p.exchange e).followed = false ∨ (p.actor a).isOpen = false) :
    ((x.advance p).plane.handle p.handles.length).decision = some .rollback := by
  have hplane : (x.advance p).plane = (p.newHandle {}).2.announcePrepared (.exchange e a)
      p.handles.length ((x.context.slot Context.rootSlot).toValue false) := by
    have hturn : x.advance p = prepare p x := hprepares.turn
    rw [hturn, prepare, hcontrol]
    rfl
  have hnew : p.handles.length < (p.newHandle {}).2.handles.length := by
    rw [Plane.newHandle, List.length_append]
    exact Nat.lt_succ_self _
  have hrolled : ∀ q : Plane, q.handles = (p.newHandle {}).2.handles →
      ((q.decideAndDrop p.handles.length .rollback).handle p.handles.length).decision =
        some .rollback := by
    intro q hq
    have hsame : q.handle p.handles.length = (p.newHandle {}).2.handle p.handles.length :=
      congrArg (fun hs : List Prepared => (hs[p.handles.length]?).getD {}) hq
    rw [handle_decideAndDrop, if_pos ⟨rfl, hq ▸ hnew⟩, hsame, handle_newHandle, if_pos rfl]
    rfl
  rw [hplane, announcePrepared]
  dsimp only
  split
  · next hopen =>
    split
    · next hfollowed =>
      rcases hunheard with hleft | hclosed
      · cases hleft.symm.trans hfollowed
      · cases hclosed.symm.trans hopen
    · exact hrolled _ rfl
  · exact hrolled _ rfl

/-- The steps that are forwarded on a turn are new. -/
theorem forwards_turn (h : (Moment.mk p x).Forwards f) : f = p.forwards.length := by
  obtain ⟨⟨step, hphase⟩, y, d, hy, hf⟩ := h
  rcases awaits_turn hy hf with ⟨d', hx⟩ | ⟨-, heq⟩
  · obtain ⟨step', due, hphase'⟩ := phase_of_awaits hx
    cases hphase.symm.trans hphase'
  · exact heq

theorem links_turn (h : (Moment.mk p x).Links f l) :
    l = p.links.length ∧ l < (x.advance p).plane.links.length := by
  rcases spawned_turn p x with ⟨-, hnot⟩ | ⟨-, -, -, hlinks, -, hlt⟩
  · exact absurd h (hnot f l)
  · obtain ⟨-, rfl⟩ := h.unique hlinks
    exact ⟨rfl, hlt⟩

end Execution

/-- Whatever an operation does on its turn, the plane accounts for it. -/
theorem Plane.Accounts.turn {p : Plane} {x y : Execution} {xs : List Execution} {late : List Nat}
    {past : List Moment} (hp : p.Accounts (x :: xs) late past)
    (hopen : ∀ answer, x.phase ≠ .ended answer) (hy : (x.advance p).next.after? = some y) :
    (x.advance p).plane.Accounts (y :: xs) late (⟨p, x⟩ :: past) := by
  obtain ⟨⟨turns, hstory, -⟩, -⟩ := List.forall_mem_cons.mp hp.storied
  by_cases htells : ∃ h d, x.Tells h d
  · obtain ⟨h, d, htells⟩ := htells
    exact (hp.tells hopen htells hy).1
  · have hnot : ∀ h d, ¬ x.Tells h d := fun h d hd => htells ⟨h, d, hd⟩
    cases turned_advance (p := p) hstory.lived hopen hnot with
    | deals hy' hdeals =>
      obtain rfl := Option.some.inj (hy.symm.trans hy')
      exact (hp.deals hopen hnot hy hdeals).1
    | crashes hnext =>
      rw [hnext] at hy
      cases hy

/-! ## Steps and their participants -/

/-- The steps that were forwarded, each by an operation in its place, and the participants of those
that were forwarded over links. -/
structure Wards (c : Nat) (p : Plane) (xs : List Execution) (past : List Moment) : Prop where
  /-- A link comes to its end after the operation that has it. -/
  gone : ∀ l, (p.link l).final ≠ none → ∀ x ∈ xs, x.link? ≠ some l
  begun : ∀ m ∈ past, ∀ f, m.Forwards f →
    f < p.forwards.length ∧ ∀ m' ∈ past, m'.Forwards f → m' = m
  joined : ∀ m ∈ past, ∀ f l, m.Links f l →
    l < p.links.length ∧ ∀ m' ∈ past, ∀ f', m'.Links f' l → m' = m
  /-- Whoever waits for a step has the place of the one that forwarded it. -/
  awaited : ∀ z, Known xs past z → ∀ f d, z.awaits? = some (f, d) →
    ∃ m ∈ past, m.Forwards f ∧ m.execution.seat c = z.seat c
  bound : ∀ z ∈ xs, ∀ f l, z.awaits? = some (f, .linked l) → ∃ m ∈ past, m.Links f l
  /-- As long as a link listens its step waits there, unless its participant is gone. -/
  heard : ∀ m ∈ past, ∀ f l, m.Links f l → (p.link l).listening = true →
    (p.link l).final ≠ none ∨ ∃ z ∈ xs, z.awaits? = some (f, .linked l)
  handed : ∀ k ∈ past, k.Prepares → ∀ l, k.execution.link? = some l →
    ∀ m ∈ past, ∀ f, m.Links f l → k.Handed p xs f l
  /-- What was decided on a turn is decided now. -/
  firm : ∀ m ∈ past, ∀ i d, (m.plane.handle i).decision = some d → (p.handle i).decision = some d
  /-- What was decided of a participant as soon as it had prepared is decided now. -/
  resolved : ∀ m ∈ past, m.Prepares → ∀ d,
    (m.turn.plane.handle m.handle).decision = some d → (p.handle m.handle).decision = some d

variable {c : Nat} {p q : Plane} {done : Nat → Prop} {x y z : Execution} {xs ys : List Execution}
  {past : List Moment} {m k : Moment} {f l : Nat} {late : List Nat}

theorem Moment.Handed.shifts (h : k.Handed p xs f l) (hq : p.Aside done q)
    (hawaits : ∀ x ∈ xs, x.awaits? = some (f, .linked l) →
      ∃ y ∈ ys, y.awaits? = some (f, .linked l)) : k.Handed q ys f l := by
  rcases h with ⟨⟨r, hoffer⟩, hnow⟩ | ⟨r, hr⟩ | hrolled
  · refine .inl ⟨⟨r, (hq.relinks.link l).offer.trans hoffer⟩, hnow.imp ?_ fun hdropped => ?_⟩
    · exact fun ⟨z, hz, hf⟩ => hawaits z hz hf
    · exact Nat.le_zero.mp (hdropped ▸ hq.persists.uncloned k.handle)
  · exact .inr (.inl ⟨r, (hq.persists.reports f).subset hr⟩)
  · exact .inr (.inr (hq.persists.firm hrolled))

namespace Wards

/-! ## Between the turns -/

/-- The operations are others now, but those that wait were there before and still are, and no link
of them has come to an end. -/
theorem shifts (h : Wards c p xs past) (hq : p.Aside done q)
    (hgone : ∀ y ∈ ys, ∀ l, y.link? = some l → ¬ done l ∧ (p.link l).final = none)
    (hknown : ∀ y ∈ ys, ∀ f d, y.awaits? = some (f, d) →
      ∃ x ∈ xs, x.awaits? = some (f, d) ∧ x.seat c = y.seat c)
    (hawaits : ∀ x ∈ xs, ∀ f l, x.awaits? = some (f, .linked l) →
      ∃ y ∈ ys, y.awaits? = some (f, .linked l)) : Wards c q ys past where
  gone l hl y hy hlink := by
    obtain ⟨hdone, hnone⟩ := hgone y hy l hlink
    rcases (hq.relinks.link l).final with hsame | ⟨hends, -⟩
    · exact hl (hsame.trans hnone)
    · exact hdone hends
  begun m hm f hf := ⟨(h.begun m hm f hf).1.trans_le hq.persists.count, (h.begun m hm f hf).2⟩
  joined m hm f l hl :=
    ⟨(h.joined m hm f l hl).1.trans_le hq.relinks.count, (h.joined m hm f l hl).2⟩
  awaited := by
    rintro z (hz | hz) f d hf
    · obtain ⟨x, hx, hxf, hseat⟩ := hknown z hz f d hf
      rw [← hseat]
      exact h.awaited x (.inl hx) f d hxf
    · exact h.awaited z (.inr hz) f d hf
  bound z hz f l hf := by
    obtain ⟨x, hx, hxf, -⟩ := hknown z hz f _ hf
    exact h.bound x hx f l hxf
  heard m hm f l hl hlistening := by
    have hrests := hq.relinks.link l
    rcases h.heard m hm f l hl (hrests.listening ▸ hlistening) with hfinal | ⟨x, hx, hf⟩
    · left
      rcases hrests.final with hsame | ⟨-, hends⟩
      · exact hsame ▸ hfinal
      · exact hends
    · exact .inr (hawaits x hx f l hf)
  handed k hk hprepares l hlink m hm f hl :=
    (h.handed k hk hprepares l hlink m hm f hl).shifts hq fun x hx hf => hawaits x hx f l hf
  firm m hm i d hd := hq.persists.firm (h.firm m hm i d hd)
  resolved m hm hprepares d hd := hq.persists.firm (h.resolved m hm hprepares d hd)

theorem final_eq_none (h : Wards c p xs past) (hx : x ∈ xs) (hl : x.link? = some l) :
    (p.link l).final = none := by
  by_contra hfinal
  exact h.gone l hfinal x hx hl

theorem perm (h : Wards c p xs past) (hperm : xs.Perm ys) : Wards c p ys past :=
  h.shifts (.refl (fun _ => False) p)
    (fun _ hy _ hl => ⟨fun hfalse => hfalse, h.final_eq_none (hperm.mem_iff.mpr hy) hl⟩)
    (fun y hy _ _ hf => ⟨y, hperm.mem_iff.mpr hy, hf, rfl⟩)
    fun x hx _ _ hf => ⟨x, hperm.mem_iff.mp hx, hf⟩

theorem around (h : Wards c p xs past) (hq : p.Aside (fun _ => False) q) : Wards c q xs past :=
  h.shifts hq (fun _ hx _ hl => ⟨fun hfalse => hfalse, h.final_eq_none hx hl⟩)
    (fun x hx _ _ hf => ⟨x, hx, hf, rfl⟩) fun x hx _ _ hf => ⟨x, hx, hf⟩

/-- An operation begins. -/
theorem joins (h : Wards c p xs past) (hidle : x.awaits? = none)
    (hlink : ∀ l, x.link? = some l → (p.link l).final = none) : Wards c p (x :: xs) past := by
  refine h.shifts (.refl (fun _ => False) p) ?_ ?_
    fun z hz _ _ hf => ⟨z, List.mem_cons_of_mem x hz, hf⟩
  · exact List.forall_mem_cons.mpr ⟨fun l hl => ⟨fun hfalse => hfalse, hlink l hl⟩,
      fun z hz l hl => ⟨fun hfalse => hfalse, h.final_eq_none hz hl⟩⟩
  · refine List.forall_mem_cons.mpr ⟨fun f d hf => ?_, fun z hz _ _ hf => ⟨z, hz, hf, rfl⟩⟩
    cases hidle.symm.trans hf

/-- Operations leave that wait for no step, and their links may come to an end. -/
theorem leaves (h : Wards c p (ys ++ xs) past) (hidle : ∀ y ∈ ys, y.awaits? = none)
    (hq : p.Aside done q) (hdone : ∀ x ∈ xs, ∀ l, x.link? = some l → ¬ done l) :
    Wards c q xs past := by
  refine h.shifts hq (fun x hx l hl => ⟨hdone x hx l hl,
    h.final_eq_none (List.mem_append_right _ hx) hl⟩)
    (fun x hx _ _ hf => ⟨x, List.mem_append_right _ hx, hf, rfl⟩) fun z hz f l hf => ?_
  rcases List.mem_append.mp hz with hz | hz
  · cases (hidle z hz).symm.trans hf
  · exact ⟨z, hz, hf⟩

theorem resumes (h : Wards c p (x :: xs) past) (answer : Answer) :
    Wards c (x.resume p answer).1 ((x.resume p answer).2 :: xs) past := by
  have hinput : (x.resume p answer).2.context.input = x.context.input :=
    congrArg Context.input (context_resume p x answer)
  have hlink := link?_resume p x answer
  have hseat := seat_congr (c := c) hlink hinput
  have hawaits : (x.resume p answer).2.awaits? = x.awaits? :=
    congrArg Stance.awaits (stance_resume p x answer)
  refine h.shifts (Kin.aside_resume p x answer) ?_ ?_ ?_
  · refine List.forall_mem_cons.mpr ⟨fun l hl => ?_, fun z hz l hl => ?_⟩
    · exact ⟨fun hfalse => hfalse, h.final_eq_none List.mem_cons_self (hlink ▸ hl)⟩
    · exact ⟨fun hfalse => hfalse, h.final_eq_none (List.mem_cons_of_mem x hz) hl⟩
  · exact List.forall_mem_cons.mpr
      ⟨fun f d hf => ⟨x, List.mem_cons_self, hawaits ▸ hf, hseat.symm⟩,
        fun z hz _ _ hf => ⟨z, List.mem_cons_of_mem x hz, hf, rfl⟩⟩
  · exact List.forall_mem_cons.mpr
      ⟨fun f l hf => ⟨_, List.mem_cons_self, hawaits.trans hf⟩,
        fun z hz _ _ hf => ⟨z, List.mem_cons_of_mem _ hz, hf⟩⟩

/-! ## Turns -/

section Turn

variable (h : Wards c p (x :: xs) past) (hy : (x.advance p).next.after? = some y)

include h

theorem begun_turn (hbounded : ∀ f, (Moment.mk p x).Forwards f →
      f < (x.advance p).plane.forwards.length) (hpersists : Persists p (x.advance p).plane) :
    ∀ m ∈ (⟨p, x⟩ : Moment) :: past, ∀ f, m.Forwards f →
      f < (x.advance p).plane.forwards.length ∧
        ∀ m' ∈ (⟨p, x⟩ : Moment) :: past, m'.Forwards f → m' = m := by
  -- the step that is forwarded now is new
  have hnew : ∀ m ∈ past, ∀ f, m.Forwards f → ¬ (Moment.mk p x).Forwards f := by
    intro m hm f hf hnow
    exact absurd (h.begun m hm f hf).1 (forwards_turn hnow).ge.not_gt
  refine List.forall_mem_cons.mpr ⟨fun f hf => ⟨hbounded f hf, ?_⟩, fun m hm f hf => ⟨?_, ?_⟩⟩
  · exact List.forall_mem_cons.mpr ⟨fun _ => rfl, fun m' hm' hf' => absurd hf (hnew m' hm' f hf')⟩
  · exact (h.begun m hm f hf).1.trans_le hpersists.count
  · exact List.forall_mem_cons.mpr
      ⟨fun hnow => absurd hnow (hnew m hm f hf), (h.begun m hm f hf).2⟩

theorem joined_turn : ∀ m ∈ (⟨p, x⟩ : Moment) :: past, ∀ f l, m.Links f l →
    l < (x.advance p).plane.links.length ∧
      ∀ m' ∈ (⟨p, x⟩ : Moment) :: past, ∀ f', m'.Links f' l → m' = m := by
  have hnew : ∀ m ∈ past, ∀ f f' l, m.Links f l → ¬ (Moment.mk p x).Links f' l := by
    intro m hm f f' l hl hnow
    exact absurd (h.joined m hm f l hl).1 (links_turn hnow).1.ge.not_gt
  refine List.forall_mem_cons.mpr ⟨fun f l hl => ⟨(links_turn hl).2, ?_⟩,
    fun m hm f l hl => ⟨?_, ?_⟩⟩
  · exact List.forall_mem_cons.mpr
      ⟨fun _ _ => rfl, fun m' hm' f' hl' => absurd hl (hnew m' hm' f' f l hl')⟩
  · exact (h.joined m hm f l hl).1.trans_le (relinks_advance p x).count
  · exact List.forall_mem_cons.mpr
      ⟨fun f' hnow => absurd hnow (hnew m hm f f' l hl), (h.joined m hm f l hl).2⟩

include hy

theorem awaited_turn : ∀ z, Known (y :: xs) (⟨p, x⟩ :: past) z → ∀ f d, z.awaits? = some (f, d) →
    ∃ m ∈ (⟨p, x⟩ : Moment) :: past, m.Forwards f ∧ m.execution.seat c = z.seat c := by
  have hbefore : ∀ z, Known (x :: xs) past z → ∀ f d, z.awaits? = some (f, d) →
      ∃ m ∈ (⟨p, x⟩ : Moment) :: past, m.Forwards f ∧ m.execution.seat c = z.seat c := by
    intro z hz f d hf
    obtain ⟨m, hm, hforwards⟩ := h.awaited z hz f d hf
    exact ⟨m, List.mem_cons_of_mem _ hm, hforwards⟩
  rintro z (hz | ⟨m, hm, rfl⟩) f d hf
  · rcases List.mem_cons.mp hz with rfl | hz
    · rw [seat_turn hy]
      rcases awaits_turn hy hf with ⟨d', hx⟩ | ⟨hforwards, -⟩
      · exact hbefore x (.inl List.mem_cons_self) f d' hx
      · exact ⟨⟨p, x⟩, List.mem_cons_self, hforwards, rfl⟩
    · exact hbefore z (.inl (List.mem_cons_of_mem x hz)) f d hf
  · rcases List.mem_cons.mp hm with rfl | hm
    · exact hbefore x (.inl List.mem_cons_self) f d hf
    · exact hbefore m.execution (.inr ⟨m, hm, rfl⟩) f d hf

theorem bound_turn : ∀ z ∈ y :: xs, ∀ f l, z.awaits? = some (f, .linked l) →
    ∃ m ∈ (⟨p, x⟩ : Moment) :: past, m.Links f l := by
  have hbefore : ∀ z ∈ x :: xs, ∀ f l, z.awaits? = some (f, .linked l) →
      ∃ m ∈ (⟨p, x⟩ : Moment) :: past, m.Links f l := by
    intro z hz f l hf
    obtain ⟨m, hm, hl⟩ := h.bound z hz f l hf
    exact ⟨m, List.mem_cons_of_mem _ hm, hl⟩
  refine List.forall_mem_cons.mpr ⟨fun f l hf => ?_, fun z hz =>
    hbefore z (List.mem_cons_of_mem x hz)⟩
  rcases awaits_linked_turn hy hf with hx | hl
  · exact hbefore x List.mem_cons_self f l hx
  · exact ⟨⟨p, x⟩, List.mem_cons_self, hl⟩

theorem heard_turn : ∀ m ∈ (⟨p, x⟩ : Moment) :: past, ∀ f l, m.Links f l →
    ((x.advance p).plane.link l).listening = true →
      ((x.advance p).plane.link l).final ≠ none ∨
        ∃ z ∈ y :: xs, z.awaits? = some (f, .linked l) := by
  refine List.forall_mem_cons.mpr ⟨fun f l hl _ => ?_, fun m hm f l hl hlistening => ?_⟩
  · obtain ⟨-, z, hz, hf⟩ := hl
    obtain rfl := Option.some.inj (hy.symm.trans hz)
    exact .inr ⟨y, List.mem_cons_self, hf⟩
  · rw [final_turn]
    rcases h.heard m hm f l hl (listening_turn hlistening) with hfinal | ⟨z, hz, hf⟩
    · exact .inl hfinal
    · rcases List.mem_cons.mp hz with rfl | hz
      · rcases leaves_turn hf (h.joined m hm f l hl).1 hy with hstill | hdeaf | hfinal
        · exact .inr ⟨y, List.mem_cons_self, hstill⟩
        · cases hdeaf.symm.trans hlistening
        · exact .inl hfinal
      · exact .inr ⟨z, List.mem_cons_of_mem y hz, hf⟩

omit hy in
/-- Whoever waits at a link on its turn gets what is offered there or drops it, and everybody else
leaves the link alone. -/
theorem handed_turn (hp : p.Tidy) (hpersists : Persists p (x.advance p).plane) (hm : m ∈ past)
    (hl : m.Links f l) (hhanded : k.Handed p (x :: xs) f l) :
    k.Handed (x.advance p).plane (y :: xs) f l := by
  rcases hhanded with ⟨⟨r, hoffer⟩, hnow⟩ | ⟨r, hr⟩ | hrolled
  · by_cases hwaits : ∃ f', x.awaits? = some (f', .linked l)
    · obtain ⟨f', hx⟩ := hwaits
      obtain ⟨m', hm', hl'⟩ := h.bound x List.mem_cons_self f' l hx
      obtain rfl := (h.joined m hm f l hl).2 m' hm' f' hl'
      obtain ⟨rfl, -⟩ := hl.unique hl'
      rcases takes_turn hp hx hoffer (h.begun m' hm f hl.forwards).1 with hr | ⟨hoffer', hdropped⟩
      · exact .inr (.inl ⟨r, hr⟩)
      · exact .inl ⟨⟨r, hoffer'⟩, .inr hdropped⟩
    · have hleft : ∀ f', x.awaits? ≠ some (f', .linked l) := fun f' hx => hwaits ⟨f', hx⟩
      refine .inl ⟨⟨r, offer_turn hoffer hleft⟩, hnow.imp ?_ fun hdropped => ?_⟩
      · rintro ⟨z, hz, hf⟩
        rcases List.mem_cons.mp hz with rfl | hz
        · exact absurd hf (hleft f)
        · exact ⟨z, List.mem_cons_of_mem y hz, hf⟩
      · exact Nat.le_zero.mp (hdropped ▸ hpersists.uncloned k.handle)
  · exact .inr (.inl ⟨r, (hpersists.reports f).subset hr⟩)
  · exact .inr (.inr (hpersists.firm hrolled))

omit hy in
/-- The step of a participant that prepares is there to take the handle. -/
theorem handed_prepares (hprepares : (Moment.mk p x).Prepares) (hlink : x.link? = some l)
    (hm : m ∈ past) (hl : m.Links f l) :
    (Moment.mk p x).Handed (x.advance p).plane (y :: xs) f l := by
  rcases prepares_turn hprepares hlink (h.joined m hm f l hl).1 with
    ⟨hlistening, hoffer⟩ | hrolled
  · rcases h.heard m hm f l hl hlistening with hfinal | ⟨z, hz, hf⟩
    · exact absurd hlink (h.gone l hfinal x List.mem_cons_self)
    · rcases List.mem_cons.mp hz with rfl | hz
      · obtain ⟨step, due, hphase⟩ := phase_of_awaits hf
        cases hprepares.1.symm.trans hphase
      · exact .inl ⟨hoffer, .inl ⟨z, List.mem_cons_of_mem y hz, hf⟩⟩
  · exact .inr (.inr hrolled)

/-- An operation takes its turn, whomever it starts. -/
theorem advances (hkin : Kin c p (x :: xs) past) (hp : p.Accounts (x :: xs) late past)
    (hopen : ∀ answer, x.phase ≠ .ended answer) (hpersists : Persists p (x.advance p).plane) :
    Wards c (x.advance p).plane (y :: xs) (⟨p, x⟩ :: past) where
  gone l hl := by
    rw [final_turn] at hl
    obtain ⟨hx, hxs⟩ := List.forall_mem_cons.mp (h.gone l hl)
    exact List.forall_mem_cons.mpr ⟨link?_turn hy ▸ hx, hxs⟩
  begun := by
    refine h.begun_turn (fun f hf => ?_) hpersists
    obtain ⟨-, z, d, hz, hawaits⟩ := hf
    obtain rfl := Option.some.inj (hy.symm.trans hz)
    refine (hp.turn hopen hy).sound.bounded ⟨y.stance, List.mem_cons_self, ?_⟩
    rw [Stance.forward?, stance, hawaits]
    rfl
  joined := h.joined_turn
  awaited := h.awaited_turn hy
  bound := h.bound_turn hy
  heard := h.heard_turn hy
  handed k hk hprepares l hlink m hm f hl := by
    rcases List.mem_cons.mp hm with rfl | hm
    · -- the link is new, and `k` has none that is
      have hknown : Known (x :: xs) past k.execution := by
        rcases List.mem_cons.mp hk with rfl | hk
        · exact .inl List.mem_cons_self
        · exact .inr ⟨k, hk, rfl⟩
      exact absurd (hkin.numbered _ hknown l hlink) (links_turn hl).1.ge.not_gt
    · rcases List.mem_cons.mp hk with rfl | hk
      · exact h.handed_prepares hprepares hlink hm hl
      · exact h.handed_turn hp.sound.tidy hpersists hm hl
          (h.handed k hk hprepares l hlink m hm f hl)
  firm := List.forall_mem_cons.mpr ⟨fun _ _ hd => hpersists.firm hd,
    fun m hm i d hd => hpersists.firm (h.firm m hm i d hd)⟩
  resolved := List.forall_mem_cons.mpr ⟨fun _ _ hd => hd,
    fun m hm hprepares d hd => hpersists.firm (h.resolved m hm hprepares d hd)⟩

/-- An operation takes its turn, and starts its participant if it has one in the process. -/
theorem turn (hkin : Kin c p (x :: xs) past) (hp : p.Accounts (x :: xs) late past)
    (hopen : ∀ answer, x.phase ≠ .ended answer) (hpersists : Persists p (x.advance p).plane) :
    Wards c (x.advance p).plane ((x.advance p).spawned.flatMap Task.stack ++ y :: xs)
      (⟨p, x⟩ :: past) := by
  have hafter := h.advances hy hkin hp hopen hpersists
  rcases spawned_turn p x with ⟨hstack, -⟩ | ⟨d, operation, hspawned, -⟩
  · rw [List.flatMap_eq_nil_iff.mpr hstack]
    exact hafter
  · rw [hspawned]
    refine hafter.joins rfl fun l hl => ?_
    obtain rfl : p.links.length = l := Option.some.inj hl
    rw [final_turn, Plane.link, List.getElem?_eq_none le_rfl]
    rfl

end Turn

/-- An operation breaks down, with all that wait for it. -/
theorem breaks (h : Wards c p (x :: ys ++ xs) past) (hkin : Kin c p (x :: ys ++ xs) past)
    (hidle : ∀ z ∈ x :: ys, z.awaits? = none) (hafter : (x.advance p).next.after? = none)
    (hq : p.Aside (fun l => ∃ z ∈ x :: ys, z.link? = some l) q) :
    Wards c q xs (⟨p, x⟩ :: past) := by
  have hleft : Wards c q xs past := by
    refine h.leaves hidle hq fun z hz l hl ⟨z', hz', hl'⟩ => ?_
    have hseats := hkin.seats
    rw [List.filterMap_append] at hseats
    exact (List.nodup_append.mp hseats).2.2 _ (List.mem_filterMap.mpr ⟨z', hz', seat_of_link? hl'⟩)
      _ (List.mem_filterMap.mpr ⟨z, hz, seat_of_link? hl⟩) rfl
  have hquiet : ∀ y, (Moment.mk p x).turn.next.after? ≠ some y := fun y hy => by
    cases hafter.symm.trans hy
  have hforwards : ∀ f, ¬ (Moment.mk p x).Forwards f := fun f ⟨_, y, _, hy, _⟩ => hquiet y hy
  have hlinks : ∀ f l, ¬ (Moment.mk p x).Links f l := fun f l ⟨_, y, hy, _⟩ => hquiet y hy
  have hprepares : ¬ (Moment.mk p x).Prepares := fun ⟨_, y, _, _, hy, _⟩ => hquiet y hy
  have hpast : ∀ {P : Moment → Prop}, (∃ m ∈ past, P m) → ∃ m ∈ (⟨p, x⟩ : Moment) :: past, P m :=
    fun ⟨m, hm, hP⟩ => ⟨m, List.mem_cons_of_mem _ hm, hP⟩
  constructor
  · exact hleft.gone
  · refine List.forall_mem_cons.mpr ⟨fun f hf => absurd hf (hforwards f), fun m hm f hf => ?_⟩
    obtain ⟨hlt, hunique⟩ := hleft.begun m hm f hf
    exact ⟨hlt, List.forall_mem_cons.mpr ⟨fun hf => absurd hf (hforwards f), hunique⟩⟩
  · refine List.forall_mem_cons.mpr ⟨fun f l hl => absurd hl (hlinks f l), fun m hm f l hl => ?_⟩
    obtain ⟨hlt, hunique⟩ := hleft.joined m hm f l hl
    exact ⟨hlt, List.forall_mem_cons.mpr ⟨fun f' hl' => absurd hl' (hlinks f' l), hunique⟩⟩
  · rintro z (hz | ⟨m, hm, rfl⟩) f d hf
    · exact hpast (hleft.awaited z (.inl hz) f d hf)
    · rcases List.mem_cons.mp hm with rfl | hm
      · cases (hidle x List.mem_cons_self).symm.trans hf
      · exact hpast (hleft.awaited m.execution (.inr ⟨m, hm, rfl⟩) f d hf)
  · exact fun z hz f l hf => hpast (hleft.bound z hz f l hf)
  · exact List.forall_mem_cons.mpr ⟨fun f l hl => absurd hl (hlinks f l), hleft.heard⟩
  · refine List.forall_mem_cons.mpr ⟨fun hk => absurd hk hprepares, fun k hk hk' l hl => ?_⟩
    exact List.forall_mem_cons.mpr ⟨fun f hf => absurd hf (hlinks f l), hleft.handed k hk hk' l hl⟩
  · exact List.forall_mem_cons.mpr ⟨fun _ _ hd => hq.persists.firm hd, hleft.firm⟩
  · exact List.forall_mem_cons.mpr ⟨fun hk => absurd hk hprepares, hleft.resolved⟩

end Wards

/-- **Kinship and wards last**, as long as no newcomer is given the cancellation. -/
theorem stable_wards (c : Nat) : World.Stable (fun x => x.seat c = none)
    fun p xs past => Kin c p xs past ∧ Wards c p xs past where
  perm h hperm := ⟨(stable_kin c).perm h.1 hperm, h.2.perm hperm⟩
  around h hq := ⟨(stable_kin c).around h.1 hq, h.2.around hq⟩
  begins h d operation control input sink hseat := by
    refine ⟨(stable_kin c).begins h.1 d operation control input sink hseat, h.2.joins rfl ?_⟩
    intro l hl
    cases hseat.symm.trans (seat_of_link? hl)
  turn h hp hopen hy hpersists :=
    ⟨(stable_kin c).turn h.1 hp hopen hy hpersists, h.2.turn hy h.1 hp hopen hpersists⟩
  resumes h answer := ⟨(stable_kin c).resumes h.1 answer, h.2.resumes answer⟩
  ends {_ _ x _ _} h hidle hq := by
    refine ⟨(stable_kin c).ends h.1 hidle hq,
      h.2.leaves (List.forall_mem_singleton.mpr hidle) hq ?_⟩
    exact fun z hz l hl hx => h.1.seat_ne hz (seat_of_link? hl) (seat_of_link? hx)
  breaks h hidle hafter hq :=
    ⟨(stable_kin c).breaks h.1 hidle hafter hq, h.2.breaks h.1 hidle hafter hq⟩

end ManagementPlane
