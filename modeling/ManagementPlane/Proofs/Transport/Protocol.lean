import ManagementPlane.Proofs.Transport.Turns

/-!
# Proofs/Transport/Protocol — every exchange is decided once

Whatever clients, operations and the actor do in whatever order: an operation that has prepared gets
one decision, which was acknowledged to the client that sent it, and everybody else is told that the
number is unknown (`Reachable.exchange_protocol`).  Leaving an exchange decides nothing once the
follower was told (`Reachable.waits`), and rolls back before (`Reachable.rolls_back`).
-/

namespace ManagementPlane

open Plane

namespace Traffic

variable {T : Traffic} {a : Nat} {s t : Errand} {q : Plane}

/-! ## Every step -/

/-- **Every step keeps what holds.** -/
theorem Sound.step {U : Traffic} (h : T.Sound a) (hstep : Step a T U) : U.Sound a := by
  have hquiet : ∀ {q}, T.Calm a q → Sound { T with plane := q } a := fun hq => h.calm hq T.started
  cases hstep with
  | executes operation input => exact h.executes operation input
  | resolves _ n d => exact h.resolves
  | withdraws ticket =>
    refine hquiet (h.calm_refl.modifyActor _ (h.flows.withdraw ticket) rfl rfl le_rfl ?_)
    exact (Actor.queue_withdraw _ ticket).filterMap _
  | reads hs => exact h.reads hs
  | leaves => exact hquiet (h.calm_refl.modifyExchange _ _ (fun _ => rfl) (by rintro x v ⟨⟩))
  | clients k =>
      exact hquiet (h.calm_refl.modifyActor _ h.flows rfl rfl le_rfl (List.Sublist.refl _))
  | polls => exact h.polls
  | prepares hs _ hrunning => exact h.getsOn hs (h.prepares hs hrunning)
  | announces hs henrolled tentative => exact h.getsOn hs (h.announces hs henrolled tentative)
  | reports hs m =>
    refine hquiet (h.calm_refl.modifyExchange _ _ (fun x => ?_) fun x v hv => ?_)
    · rw [Exchange.send]
      split <;> rfl
    · rw [Exchange.send] at hv
      split at hv
      · simpa using hv
      · exact hv
  | ends hs answer =>
    refine hquiet (h.calm_refl.modifyExchange _ _ (fun x => ?_) fun x v hv => ?_)
    · rw [Exchange.send]
      split <;> rfl
    · rw [Exchange.send, Exchange.close] at hv
      split at hv
      · simpa using hv
      · exact hv
  | crashes hs reason =>
      exact hquiet (h.calm_refl.modifyExchange _ _ (fun _ => rfl) fun _ _ hv => hv)
  | aside hq => exact hquiet (hq.calm h)

theorem Sound.leads {U : Traffic} (h : T.Sound a) (hleads : Leads a T U) : U.Sound a := by
  induction hleads with
  | refl => exact h
  | tail _ hstep ih => exact ih.step hstep

/-- **What holds, in every traffic that is reached.** -/
theorem Reachable.sound (h : T.Reachable a) : T.Sound a := by
  obtain ⟨T₀, hfresh, hleads⟩ := h
  exact (Sound.fresh hfresh).leads hleads

/-! ## What a step leaves as it was -/

/-- An operation keeps the handle that it has, and the handle its decision. -/
def Keeps (T U : Traffic) : Prop :=
  ∀ s ∈ T.errands, ∃ t ∈ U.errands, t.number = s.number ∧ ∀ i ∈ s.standing.handle?,
    i ∈ t.standing.handle? ∧
      ∀ d ∈ (T.plane.handle i).decision, (U.plane.handle i).decision = some d

theorem Keeps.refl (T : Traffic) : T.Keeps T := fun s hs =>
  ⟨s, hs, rfl, fun _ hi => ⟨hi, fun _ hd => hd⟩⟩

theorem Keeps.trans {U V : Traffic} (hTU : T.Keeps U) (hUV : U.Keeps V) : T.Keeps V := by
  intro s hs
  obtain ⟨t, ht, hnumber, hkeeps⟩ := hTU s hs
  obtain ⟨u, hu, hnumber', hkeeps'⟩ := hUV t ht
  refine ⟨u, hu, hnumber'.trans hnumber, fun i hi => ?_⟩
  obtain ⟨hit, hd⟩ := hkeeps i hi
  obtain ⟨hiu, hd'⟩ := hkeeps' i hit
  exact ⟨hiu, fun d hdecision => hd' d (hd d hdecision)⟩

theorem Keeps.of_subset {U : Traffic} (herrands : T.errands ⊆ U.errands)
    (hdecision : ∀ s ∈ T.errands, ∀ i ∈ s.standing.handle?,
      ∀ d ∈ (T.plane.handle i).decision, (U.plane.handle i).decision = some d) : T.Keeps U :=
  fun s hs => ⟨s, herrands hs, rfl, fun i hi => ⟨hi, hdecision s hs i hi⟩⟩

theorem GetsOn.keeps {U : Traffic} (hU : T.GetsOn a s U) (hs : s ∈ T.errands) : T.Keeps U := by
  obtain ⟨standing, q, rfl, hq, -⟩ := hU
  intro u hu
  by_cases hus : u = s
  · subst hus
    exact ⟨_, mem_stand.mpr (.inr ⟨hs, rfl⟩), rfl, hq.keeps⟩
  · refine ⟨u, mem_stand.mpr (.inl ⟨hu, hus⟩), rfl, fun i hi => ⟨hi, fun d hd => ?_⟩⟩
    exact (hq.decision u hu hus i hi).trans hd

theorem Sound.keeps {U : Traffic} (h : T.Sound a) (hstep : Step a T U) : T.Keeps U := by
  cases hstep with
  | executes operation input =>
    refine .of_subset (List.subset_append_left _ _) fun s _ i _ d hd => ?_
    rw [execute]
    dsimp only
    split <;> exact hd
  | polls =>
    refine .of_subset (List.Subset.refl _) fun s hs i hi d hd => ?_
    have hturned := turned_poll h
    generalize (T.poll a).plane = q at hturned
    cases hturned with
    | quiet hq => exact (hq.decision s hs i hi).trans hd
    | decides => exact firm_decideAndDrop _ hd
    | refuses => exact hd
    | stops =>
      obtain ⟨handles, hfold, -, hdecision⟩ := foldl_rollback
        ((T.plane.actor a).pending.map Prod.snd)
        (T.plane.modifyActor a fun _ => { T.plane.actor a with pending := [], isOpen := false })
      rw [hfold, hdecision]
      split
      · exact congrArg (fun e => some (Option.getD e .rollback)) hd
      · exact hd
  | prepares hs _ hrunning => exact (h.prepares hs hrunning).keeps hs
  | announces hs henrolled tentative => exact (h.announces hs henrolled tentative).keeps hs
  | aside hq =>
    exact .of_subset (List.Subset.refl _) fun s hs i hi d hd => (hq.decision s hs i hi).trans hd
  | _ => exact .of_subset (List.Subset.refl _) fun _ _ _ _ _ hd => hd

theorem Sound.keeps_leads {U : Traffic} (h : T.Sound a) (hleads : Leads a T U) : T.Keeps U := by
  induction hleads with
  | refl => exact .refl T
  | tail hleads hstep ih => exact ih.trans ((h.leads hleads).keeps hstep)

/-- Unless the actor takes a turn, nothing is answered, and it does not end. -/
theorem Step.silent {U : Traffic} (hstep : Step a T U) (h : T.Sound a) : U = T.poll a ∨
    (∀ g ∈ T.rulings, U.plane.reply g.reply = T.plane.reply g.reply) ∧
      (U.plane.actor a).isOpen = (T.plane.actor a).isOpen := by
  have hactor : ∀ (p : Plane) (f : Actor → Actor), (∀ k, (f k).isOpen = k.isOpen) →
      ((p.modifyActor a f).actor a).isOpen = (p.actor a).isOpen := by
    intro p f hf
    rw [actor_modifyActor]
    split
    · exact hf _
    · rfl
  cases hstep with
  | polls => exact .inl rfl
  | executes operation input =>
    right
    rw [execute]
    dsimp only
    constructor
    · split <;> exact fun _ _ => rfl
    · split
      · exact (hactor _ _ fun k => isOpen_send ..).trans (hactor _ _ fun _ => rfl)
      · exact hactor _ _ fun _ => rfl
  | resolves _ n d =>
    exact .inr ⟨fun g hg => h.reply_resolve n d hg, hactor _ _ fun k => isOpen_send ..⟩
  | withdraws => exact .inr ⟨fun _ _ => rfl, hactor _ _ fun _ => rfl⟩
  | clients => exact .inr ⟨fun _ _ => rfl, hactor _ _ fun _ => rfl⟩
  | prepares =>
    right
    rw [prepare]
    dsimp only
    split
    · exact ⟨fun _ _ => rfl, hactor _ _ fun _ => rfl⟩
    · exact ⟨fun _ _ => rfl, rfl⟩
  | announces =>
    right
    rw [announce]
    split
    · exact ⟨fun _ _ => rfl, rfl⟩
    · exact ⟨fun _ _ => rfl, hactor _ _ fun _ => rfl⟩
  | aside hq => exact .inr ⟨hq.reply, by rw [hq.actor]⟩
  | _ => exact .inr ⟨fun _ _ => rfl, rfl⟩

/-! ## The protocol -/

/-- An operation of this number has prepared, and is not decided. -/
def Undecided (T : Traffic) (n : Nat) : Prop :=
  ∃ s ∈ T.errands, s.number = n ∧
    ∃ h, s.standing.handle? = some h ∧ (T.plane.handle h).decision = none

/-- Of the second traffic only a request is gone and a reply given. -/
structure Ignores (T : Traffic) (a r : Nat) (U : Traffic) : Prop where
  errands : U.errands = T.errands
  rulings : U.rulings = T.rulings
  heard : U.heard = T.heard
  plane : U.plane = { T.plane with actors := U.plane.actors, replies := U.plane.replies }
  others : ∀ b ≠ a, U.plane.actor b = T.plane.actor b
  actor : U.plane.actor a = { T.plane.actor a with
    requests := (U.plane.actor a).requests, backlog := (U.plane.actor a).backlog }
  replies : ∀ i ≠ r, U.plane.reply i = T.plane.reply i

/-- The protocol of the exchanges of an actor. -/
structure Protocol (T : Traffic) (a : Nat) : Prop where
  /-- An operation prepares with one handle, and that gets one decision. -/
  once : ∀ s ∈ T.errands, ∀ h, s.standing.handle? = some h → ∀ U, Leads a T U →
    (∀ t ∈ U.errands, t.number = s.number → t.standing.handle? = some h) ∧
      ∀ d, (T.plane.handle h).decision = some d → (U.plane.handle h).decision = some d
  /-- It is kept only if a client asked for that, and was told so. -/
  kept : ∀ s ∈ T.errands, ∀ h, s.standing.handle? = some h →
    (T.plane.handle h).decision = some .keep →
      ∃ g ∈ T.rulings, g.number = s.number ∧ g.decision = .keep ∧ T.Acks g
  /-- What was acknowledged was decided, and nothing else was acknowledged for that number. -/
  acknowledged : ∀ g ∈ T.rulings, T.Acks g →
    (∃ s ∈ T.errands, s.number = g.number ∧
      ∃ h, s.standing.handle? = some h ∧ (T.plane.handle h).decision = some g.decision) ∧
      ∀ k ∈ T.rulings, k.number = g.number → T.Acks k → k = g
  /-- Who has read that the operation prepared is refused only after an earlier decision on it was
  acknowledged. -/
  informed : ∀ before g after, T.rulings = before ++ g :: after → g.informed = true → T.Refuses g →
    ∃ k ∈ before, k.number = g.number ∧ T.Acks k
  /-- A decision that is answered is acknowledged if the operation waits for it.  Otherwise the
  number is unknown, and nothing happens. -/
  answered : ∀ g ∈ T.rulings, T.plane.reply g.reply = .awaited → ∀ U, Step a T U →
    U.plane.reply g.reply = .awaited ∨ T.Undecided g.number ∧ U.Acks g ∨
      ¬ T.Undecided g.number ∧ T.Ignores a g.reply U ∧
        U.plane.reply g.reply = .answered (.error (.unknownExchange g.number))
  /-- As long as the actor runs, every decision in its channel will be answered. -/
  served : (T.plane.actor a).isOpen = true → ∀ e ∈ (T.plane.actor a).asked,
    ∃ k, ((poll · a)^[k] T).plane.reply e.2.2 ≠ .awaited
  /-- When the actor ends, whoever waits is rolled back. -/
  ends : (T.plane.actor a).isOpen = true → ∀ U, Step a T U → (U.plane.actor a).isOpen = false →
    ∀ s ∈ T.errands, ∀ h, s.standing.handle? = some h → (T.plane.handle h).decision = none →
      (U.plane.handle h).decision = some .rollback
  /-- Once it has ended everything that prepared is decided, and whoever prepares then is rolled
  back. -/
  ended : (T.plane.actor a).isOpen = false →
    (∀ s ∈ T.errands, ∀ h, s.standing.handle? = some h → (T.plane.handle h).decision ≠ none) ∧
      ∀ s ∈ T.errands, s.standing.handle? = none → ∀ U, Leads a T U → ∀ t ∈ U.errands,
        t.number = s.number → ∀ h, t.standing.handle? = some h →
          (U.plane.handle h).decision = some .rollback

theorem Sound.noted (h : T.Sound a) (hs : s ∈ T.errands) {i : Nat}
    (hi : s.standing.handle? = some i) (hnone : (T.plane.handle i).decision = none) :
    (T.plane.actor a).table s.number = some i := by
  rcases (h.fits s hs).of_handle hi with ⟨-, -, ht, -⟩ | ⟨g, -, -, -, hd, -⟩ | ⟨hd, -⟩
  · exact ht
  · cases hd.symm.trans hnone
  · cases hd.symm.trans hnone

/-- What is undecided is noted. -/
theorem Sound.undecided_iff (h : T.Sound a) {n : Nat} :
    T.Undecided n ↔ (T.plane.actor a).table n ≠ none := by
  constructor
  · rintro ⟨s, hs, rfl, i, hi, hnone⟩
    rw [h.noted hs hi hnone]
    rintro ⟨⟩
  · intro htable
    obtain ⟨i, hi⟩ := Option.ne_none_iff_exists'.mp htable
    obtain ⟨hnone, -, -, s, hs, hnumber, hhandle⟩ := h.pending hi
    exact ⟨s, hs, hnumber, i, hhandle, hnone⟩

theorem Sound.answered (h : T.Sound a) {g : Ruling} (hg : g ∈ T.rulings)
    (hawaited : T.plane.reply g.reply = .awaited) {U : Traffic} (hstep : Step a T U) :
    U.plane.reply g.reply = .awaited ∨ T.Undecided g.number ∧ U.Acks g ∨
      ¬ T.Undecided g.number ∧ T.Ignores a g.reply U ∧
        U.plane.reply g.reply = .answered (.error (.unknownExchange g.number)) := by
  rcases hstep.silent h with rfl | ⟨hreply, -⟩
  · have hturned := turned_poll h
    have hother : ∀ (p : Plane) (r : Nat) (out : Reply), p.reply g.reply = .awaited →
        g.reply ≠ r → (p.setReply r out).reply g.reply = .awaited := fun p r out hp hne =>
      (reply_setReply ..).trans ((if_neg fun heq => hne heq.1.symm).trans hp)
    have hself : ∀ (p : Plane) (out : Reply), p.replies = T.plane.replies →
        (p.setReply g.reply out).reply g.reply = out := fun p out hp =>
      (reply_setReply ..).trans (if_pos ⟨rfl, hp ▸ h.replied g hg⟩)
    generalize hplane : (T.poll a).plane = q at hturned
    rw [Acks, hplane]
    cases hturned with
    | quiet hq => exact .inl ((hq.reply g hg).trans hawaited)
    | @decides n d r i b _ hdrained hreceive hpending =>
      obtain ⟨htable, hdirect, -, -, k, hk, rfl, -, rfl, -⟩ := h.receives hdrained hreceive
      by_cases hgk : g = k
      · subst hgk
        refine .inr (.inl ⟨h.undecided_iff.mpr ?_, hself _ _ rfl⟩)
        rw [← htable, hdirect, hpending]
        rintro ⟨⟩
      · exact .inl (hother _ _ _ hawaited fun heq => hgk (h.ruling_inj hg hk heq))
    | @refuses n d r b _ hdrained hreceive hunknown =>
      obtain ⟨htable, hdirect, -, -, k, hk, rfl, -, rfl, -⟩ := h.receives hdrained hreceive
      by_cases hgk : g = k
      · subst hgk
        refine .inr (.inr ⟨fun hundecided => ?_, ?_, hself _ _ rfl⟩)
        · refine h.undecided_iff.mp hundecided ?_
          rw [← htable, hdirect, hunknown]
        · have hactor : (T.poll a).plane.actor a = b := by
            rw [hplane]
            exact T.plane.actor_modifyActor_self h.live fun _ => b
          constructor
          case errands => rfl
          case rulings => rfl
          case heard => rfl
          case plane =>
            rw [hplane]
            rfl
          case others =>
            intro c hc
            rw [hplane]
            exact (actor_modifyActor ..).trans (if_neg fun heq => hc heq.1.symm)
          case actor =>
            rw [hactor]
            exact receive_eq hreceive
          case replies =>
            intro i hi
            rw [hplane]
            exact (reply_setReply ..).trans (if_neg fun heq => hi heq.1.symm)
      · exact .inl (hother _ _ _ hawaited fun heq => hgk (h.ruling_inj hg hk heq))
    | stops =>
      obtain ⟨handles, hfold, -, -⟩ := foldl_rollback
        ((T.plane.actor a).pending.map Prod.snd)
        (T.plane.modifyActor a fun _ => { T.plane.actor a with pending := [], isOpen := false })
      rw [hfold]
      exact .inl hawaited
  · exact .inl ((hreply g hg).trans hawaited)

/-- **Decisions are answered** as long as the actor takes turns. -/
theorem Sound.served_poll (h : T.Sound a) (hopen : (T.plane.actor a).isOpen = true)
    {e : Nat × Decision × Nat} (he : e ∈ (T.plane.actor a).asked) :
    ∃ k, ((poll · a)^[k] T).plane.reply e.2.2 ≠ .awaited := by
  induction hsize : (T.plane.actor a).enrollments.length + (T.plane.actor a).queue.length
    using Nat.strong_induction_on generalizing T with
  | h size ih =>
    obtain ⟨turn, b, hpolls, hplane⟩ := plane_poll hopen
    have hactor : (T.poll a).plane.actor a = b := by
      rw [hplane, actor_effect]
      exact T.plane.actor_modifyActor_self h.live fun _ => b
    have hlt : e.2.2 < T.plane.replies.length := by
      obtain ⟨-, g, hg, -, -, hge⟩ := h.queued _ _ _ he
      exact hge ▸ h.replied g hg
    have hanswers : ∀ (p : Plane) (out), p.replies = T.plane.replies →
        (T.poll a).plane = p.setReply e.2.2 (.answered out) →
        ∃ k, ((poll · a)^[k] T).plane.reply e.2.2 ≠ .awaited := by
      intro p out hp hset
      have hreply : (T.poll a).plane.reply e.2.2 = .answered out := by
        rw [hset, reply_setReply, if_pos ⟨rfl, hp ▸ hlt⟩]
      exact ⟨1, fun hawaited => by cases hreply.symm.trans hawaited⟩
    rcases hpolls.nearer h.flows he with ⟨i, rfl⟩ | rfl | ⟨hisOpen, hasked, hless⟩
    · exact hanswers ((T.plane.modifyActor a fun _ => b).decideAndDrop i e.2.1) _ rfl hplane
    · exact hanswers (T.plane.modifyActor a fun _ => b) _ rfl hplane
    · rw [← hactor] at hisOpen hasked hless
      obtain ⟨k, hk⟩ := ih _ (hsize ▸ hless) h.polls (hisOpen.trans hopen) hasked rfl
      exact ⟨k + 1, hk⟩

/-- Whoever waits when the actor ends is rolled back. -/
theorem Sound.rolled_back (h : T.Sound a) (hopen : (T.plane.actor a).isOpen = true) {U : Traffic}
    (hstep : Step a T U) (hclosed : (U.plane.actor a).isOpen = false) (hs : s ∈ T.errands) {i : Nat}
    (hi : s.standing.handle? = some i) (hundecided : (T.plane.handle i).decision = none) :
    (U.plane.handle i).decision = some .rollback := by
  rcases hstep.silent h with rfl | ⟨-, hsame⟩
  · have hturned := turned_poll h
    have hactor := fun k : Actor => T.plane.actor_modifyActor_self h.live fun _ => k
    generalize (T.poll a).plane = q at hturned hclosed
    cases hturned with
    | quiet hq => cases hopen.symm.trans (hq.isOpen.symm.trans hclosed)
    | @decides n d r j b _ _ hreceive _ =>
      have hb : b.isOpen = false := (congrArg Actor.isOpen (hactor (b.forget n))).symm.trans hclosed
      cases hopen.symm.trans ((receive_keeps hreceive).2.2.1.symm.trans hb)
    | @refuses n d r b _ _ hreceive _ =>
      have hb : b.isOpen = false := (congrArg Actor.isOpen (hactor b)).symm.trans hclosed
      cases hopen.symm.trans ((receive_keeps hreceive).2.2.1.symm.trans hb)
    | stops _ hdrained =>
      obtain ⟨handles, hfold, -, hdecision⟩ := foldl_rollback
        ((T.plane.actor a).pending.map Prod.snd)
        (T.plane.modifyActor a fun _ => { T.plane.actor a with pending := [], isOpen := false })
      have htable := h.noted hs hi hundecided
      rw [Actor.table_of_drained hdrained] at htable
      obtain ⟨entry, hentry, rfl⟩ := Option.map_eq_some_iff.mp htable
      have hmem := List.mem_map_of_mem (f := Prod.snd) (List.mem_of_find?_eq_some hentry)
      rw [hfold, hdecision, if_pos ⟨hmem, h.handled s hs _ hi⟩]
      exact congrArg (fun e => some (Option.getD e .rollback)) hundecided
  · cases hopen.symm.trans (hsame.symm.trans hclosed)

/-- Nobody sends decisions to an actor that has ended. -/
theorem Step.rulings_of_closed {U : Traffic} (hstep : Step a T U)
    (hclosed : (T.plane.actor a).isOpen = false) : U.rulings = T.rulings := by
  cases hstep with
  | resolves hopen => cases hopen.symm.trans hclosed
  | prepares =>
    rw [prepare]
    dsimp only
    split <;> rfl
  | announces =>
    rw [announce]
    split <;> rfl
  | _ => rfl

/-- An actor that has ended stays so, and answers nothing any more. -/
theorem Sound.closed_leads (h : T.Sound a) (hclosed : (T.plane.actor a).isOpen = false)
    {U : Traffic} (hleads : Leads a T U) : (U.plane.actor a).isOpen = false ∧
      ∀ g ∈ U.rulings, U.Acks g → g ∈ T.rulings ∧ T.Acks g := by
  induction hleads with
  | refl => exact ⟨hclosed, fun g hg hacked => ⟨hg, hacked⟩⟩
  | @tail U V hleads hstep ih =>
    obtain ⟨hclosedU, hacks⟩ := ih
    have hrulings := hstep.rulings_of_closed hclosedU
    rcases hstep.silent (h.leads hleads) with rfl | ⟨hreply, hsame⟩
    · have hplane := plane_poll_closed hclosedU
      refine ⟨hplane ▸ hclosedU, fun g hg hacked => hacks g hg ?_⟩
      rw [Acks, hplane] at hacked
      exact hacked
    · refine ⟨hsame.trans hclosedU, fun g hg hacked => ?_⟩
      rw [hrulings] at hg
      exact hacks g hg ((hreply g hg).symm.trans hacked)

/-- Only what a client asked to keep is kept. -/
theorem Sound.kept (h : T.Sound a) (hs : s ∈ T.errands) {i : Nat}
    (hi : s.standing.handle? = some i) (hkeep : (T.plane.handle i).decision = some .keep) :
    ∃ g ∈ T.rulings, g.number = s.number ∧ g.decision = .keep ∧ T.Acks g := by
  rcases (h.fits s hs).of_handle hi with ⟨hd, -⟩ | ⟨g, hg, hnumber, hacked, hd, -⟩ | ⟨hd, -⟩
  · cases hd.symm.trans hkeep
  · exact ⟨g, hg, hnumber, Option.some.inj (hd.symm.trans hkeep), hacked⟩
  · cases hd.symm.trans hkeep

/-- Replies are numbered in the order of the decisions, so an earlier one has the lower number. -/
theorem Ruled.mem_before (h : T.Ruled a) {before after : List Ruling} {g k : Ruling}
    (hrulings : T.rulings = before ++ g :: after) (hk : k ∈ T.rulings) (hlt : k.reply < g.reply) :
    k ∈ before := by
  have hordered := h.ordered
  rw [hrulings, List.map_append, List.map_cons, List.pairwise_append,
    List.pairwise_cons] at hordered
  rw [hrulings] at hk
  rcases List.mem_append.mp hk with hk | hk
  · exact hk
  · rcases List.mem_cons.mp hk with rfl | hk
    · exact absurd hlt (lt_irrefl _)
    · exact absurd hlt (hordered.2.1.1 _ (List.mem_map_of_mem hk)).not_gt

/-- Nobody waits for an actor that has ended. -/
theorem Sound.decided_of_closed (h : T.Sound a) (hclosed : (T.plane.actor a).isOpen = false)
    (hs : s ∈ T.errands) {i : Nat} (hi : s.standing.handle? = some i) :
    (T.plane.handle i).decision ≠ none := by
  intro hnone
  rcases (h.fits s hs).of_handle hi with ⟨-, hopen, -⟩ | ⟨g, -, -, -, hd, -⟩ | ⟨hd, -⟩
  · cases hclosed.symm.trans hopen
  · cases hd.symm.trans hnone
  · cases hd.symm.trans hnone

/-- Whoever prepares after the actor has ended is rolled back. -/
theorem Sound.late (h : T.Sound a) (hclosed : (T.plane.actor a).isOpen = false)
    (hs : s ∈ T.errands) (hrunning : s.standing.handle? = none) {U : Traffic}
    (hleads : Leads a T U) (ht : t ∈ U.errands) (hnumber : t.number = s.number) {i : Nat}
    (hi : t.standing.handle? = some i) : (U.plane.handle i).decision = some .rollback := by
  obtain ⟨hclosedU, hacks⟩ := h.closed_leads hclosed hleads
  have hunruled : T.Unruled s.number := by
    cases h.fits s hs with
    | running _ _ hn => exact hn
    | pending hst | decided hst | rolledBack hst => cases hrunning.symm.trans hst
  rcases ((h.leads hleads).fits t ht).of_handle hi with
    ⟨-, hopen, -⟩ | ⟨g, hg, hgn, hacked, -⟩ | ⟨hd, -⟩
  · cases hclosedU.symm.trans hopen
  · obtain ⟨hgT, hackedT⟩ := hacks g hg hacked
    exact absurd hackedT (hunruled g hgT (hgn.trans hnumber))
  · exact hd

theorem Sound.protocol (h : T.Sound a) : T.Protocol a where
  once s hs i hi U hleads := by
    obtain ⟨t, ht, hnumber, hkeeps⟩ := h.keeps_leads hleads s hs
    obtain ⟨hit, hfirm⟩ := hkeeps i hi
    refine ⟨fun u hu hsu => ?_, hfirm⟩
    obtain rfl := (h.leads hleads).number_inj hu ht (hsu.trans hnumber.symm)
    exact hit
  kept s hs i hi hkeep := h.kept hs hi hkeep
  acknowledged g hg hacked :=
    ⟨h.effective g hg hacked, fun k hk hnumber hacked' => h.once k hk g hg hacked' hacked hnumber⟩
  informed before g after hrulings hinformed hrefused := by
    have hg : g ∈ T.rulings := hrulings ▸ List.mem_append_right _ List.mem_cons_self
    obtain ⟨k, hk, hlt, hnumber, hacked⟩ := h.refused g hg hinformed hrefused
    exact ⟨k, h.mem_before hrulings hk hlt, hnumber, hacked⟩
  answered g hg hawaited U hstep := h.answered hg hawaited hstep
  served hopen e he := h.served_poll hopen he
  ends hopen U hstep hclosed s hs i hi hundecided :=
    h.rolled_back hopen hstep hclosed hs hi hundecided
  ended hclosed := ⟨fun s hs i hi => h.decided_of_closed hclosed hs hi,
    fun s hs hrunning U hleads t ht hnumber i hi =>
      h.late hclosed hs hrunning hleads ht hnumber hi⟩

/-- **The protocol of exchanges**, whatever clients, operations and the actor do in whatever
order. -/
theorem Reachable.exchange_protocol (h : T.Reachable a) : T.Protocol a := h.sound.protocol

/-! ## What leaving does not decide -/

/-- **Who has told its follower waits for a decision, as long as the actor runs.**  It does not
matter whether the follower has read the event, or left before. -/
theorem Reachable.waits (h : T.Reachable a) (hopen : (T.plane.actor a).isOpen = true)
    (hs : s ∈ T.errands) {i : Nat} (hannounced : s.standing = .announced i)
    (hunruled : T.Unruled s.number) :
    (T.plane.handle i).decision = none ∧ (T.plane.actor a).table s.number = some i := by
  have hi : s.standing.handle? = some i := by rw [hannounced]; rfl
  rcases (h.sound.fits s hs).of_handle hi with
    ⟨hd, -, ht, -⟩ | ⟨g, hg, hnumber, hacked, -⟩ | ⟨-, -, -, hwithdrawn | hclosed⟩
  · exact ⟨hd, ht⟩
  · exact absurd hacked (hunruled g hg hnumber)
  · cases hannounced.symm.trans hwithdrawn
  · cases hopen.symm.trans hclosed

/-- Who finds nobody to tell is rolled back, and the actor will not note it. -/
theorem Reachable.rolls_back (h : T.Reachable a) (hs : s ∈ T.errands) {i : Nat}
    (henrolled : s.standing = .enrolled i) (hleft : (T.plane.exchange s.exchange).followed = false)
    (hunruled : T.Unruled s.number) (tentative : Value) :
    ((T.announce a s i tentative).plane.handle i).decision = some .rollback ∧
      ((T.announce a s i tentative).plane.actor a).table s.number = none := by
  have hannounce : T.announce a s i tentative =
      { T with
        plane := (T.plane.decideAndDrop i .rollback).modifyActor a fun k =>
          { k with enrollments :=
            k.enrollments ++ [.withdrawn (T.plane.exchange s.exchange).number] }
        errands := T.stand s (.withdrawn i) } := by
    rw [announce, if_neg (by rw [hleft]; exact Bool.false_ne_true)]
  have hmem : { s with standing := .withdrawn i } ∈ (T.announce a s i tentative).errands := by
    rw [hannounce]
    exact mem_stand.mpr (.inr ⟨hs, rfl⟩)
  have hsound := h.sound.getsOn hs (h.sound.announces hs henrolled tentative)
  rw [hannounce] at hmem hsound ⊢
  cases hsound.fits _ hmem with
  | running hst => cases hst
  | pending _ _ _ ht =>
    have hnoted := congrArg Actor.table (actor_modifyActor_self
      (T.plane.decideAndDrop i .rollback) h.sound.live fun k => { k with
        enrollments := k.enrollments ++ [.withdrawn (T.plane.exchange s.exchange).number] })
    rw [Actor.table_append] at hnoted
    have hnone := congrFun hnoted s.number
    rw [Enrollment.note, h.sound.labelled s hs, Function.update_self] at hnone
    rw [h.sound.labelled s hs] at ht
    cases hnone.symm.trans ht
  | decided _ hg hnumber hacked => exact absurd hacked (hunruled _ hg hnumber)
  | rolledBack hst hd ht =>
    cases hst
    exact ⟨hd, ht⟩

/-! ## One exchange -/

/-- An operation that was asked for under number 1. -/
def sole : Errand := { number := 1, exchange := 0 }

/-- An actor with one client. -/
def idle : Traffic := { plane := { actors := [{ controller := 0, capacity := 1 }] } }

/-- The client has asked for an operation, and the actor has started it. -/
def underway : Traffic := (idle.execute 0 .emptyObject {}).poll 0

/-- The operation has prepared, and the actor has noted it. -/
def readied : Traffic :=
  ((underway.prepare 0 sole).announce 0 { sole with standing := .enrolled 0 } 0 .emptyObject).poll 0

theorem reachable_underway : underway.Reachable 0 := by
  refine ⟨idle, ?_, (Relation.ReflTransGen.single (.executes ..)).tail (.polls _)⟩
  constructor <;> decide

theorem prepares_underway : Step 0 underway (underway.prepare 0 sole) :=
  .prepares (by decide) (by decide) rfl

theorem reachable_readied : readied.Reachable 0 := by
  have hannounces : Step 0 (underway.prepare 0 sole)
      ((underway.prepare 0 sole).announce 0 { sole with standing := .enrolled 0 } 0 .emptyObject) :=
    .announces (by decide) rfl .emptyObject
  obtain ⟨T₀, hfresh, hleads⟩ := reachable_underway
  exact ⟨T₀, hfresh, ((hleads.tail prepares_underway).tail hannounces).tail (.polls _)⟩

/-- The client reads that its operation prepared, and has it kept. -/
theorem protocol_readied : ∃ T : Traffic, T.Reachable 0 ∧ (T.plane.handle 0).decision = some .keep ∧
    T.Protocol 0 := by
  have hreads : Step 0 readied (readied.read { sole with standing := .announced 0 }) :=
    .reads (by decide)
  have hreachable : (((readied.read { sole with standing := .announced 0 }).resolve 0 1
      .keep).poll 0).Reachable 0 := by
    obtain ⟨T₀, hfresh, hleads⟩ := reachable_readied
    exact ⟨T₀, hfresh, ((hleads.tail hreads).tail (.resolves rfl 1 .keep)).tail (.polls _)⟩
  exact ⟨_, hreachable, by decide, hreachable.exchange_protocol⟩

/-- The client has its operation rolled back before it reads that it prepared.  The first decision
that it sends afterwards is refused. -/
theorem refused_after_hasty : ∃ T : Traffic, T.Reachable 0 ∧ (T.plane.actor 0).isOpen = true ∧
    ∃ before g, T.rulings = before ++ [g] ∧ g.number = 1 ∧ g.informed = true ∧
      (∀ k ∈ before, k.informed = false) ∧
      T.plane.reply g.reply = .answered (.error (.unknownExchange 1)) := by
  have hreads : Step 0 ((readied.resolve 0 1 .rollback).poll 0)
      (((readied.resolve 0 1 .rollback).poll 0).read { sole with standing := .announced 0 }) :=
    .reads (by decide)
  obtain ⟨T₀, hfresh, hleads⟩ := reachable_readied
  refine ⟨((((readied.resolve 0 1 .rollback).poll 0).read
    { sole with standing := .announced 0 }).resolve 0 1 .keep).poll 0, ⟨T₀, hfresh, ?_⟩, rfl,
    [{ number := 1, decision := .rollback, reply := 0, informed := false }],
    { number := 1, decision := .keep, reply := 1, informed := true }, by decide, rfl, rfl,
    by decide, rfl⟩
  exact ((((hleads.tail (.resolves rfl 1 .rollback)).tail (.polls _)).tail hreads).tail
    (.resolves rfl 1 .keep)).tail (.polls _)

end Traffic

end ManagementPlane
