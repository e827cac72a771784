import ManagementPlane.Proofs.Transport.Protocol

/-!
# Proofs/Transport/Leaving — who leaves an exchange, and what is decided all the same

    running ──▸ enrolled ──(followed)──▸ announced        left here: waits as long as the actor runs
                   └──────(left)───────▸ withdrawn        left before: rolled back

Both ends of an exchange may go away.  A follower that leaves does not decide; its operation finds
that out only when it has still to tell it (`Reachable.orphaned_iff`).  A participant that leaves
because its time is up has decided for itself, but the actor keeps its handle in the table, and
acknowledges one decision more, which then is nobody's (`Reachable.acknowledged`).
-/

namespace ManagementPlane

open Plane

namespace Traffic

variable {T U V : Traffic} {a : Nat} {s t : Errand}

/-! ## Standings only get on -/

/-- One operation prepares, or turns to its follower; or none does, and some may be asked for. -/
inductive Advances (T : Traffic) (a : Nat) : Traffic → Prop
  | asks {U : Traffic} (new : List Errand) (herrands : U.errands = T.errands ++ new)
    (hnew : ∀ s ∈ new, s.standing = .running) : Advances T a U
  | prepares {s : Errand} (hs : s ∈ T.errands) (hrunning : s.standing = .running) :
    Advances T a (T.prepare a s)
  | announces {s : Errand} (hs : s ∈ T.errands) {i : Nat} (henrolled : s.standing = .enrolled i)
    (tentative : Value) : Advances T a (T.announce a s i tentative)

theorem Step.advances (hstep : Step a T U) : T.Advances a U := by
  cases hstep with
  | prepares hs _ hrunning => exact .prepares hs hrunning
  | announces hs henrolled tentative => exact .announces hs henrolled tentative
  | executes => exact .asks _ rfl (by simp)
  | _ => exact .asks [] (List.append_nil _).symm (by simp)

/-! ## A follower leaves -/

section Followed

variable {p : Plane} {e i : Nat} {f : Exchange → Exchange}

theorem followed_modifyExchange (hf : e = i → (f (p.exchange i)).followed = false)
    (hleft : (p.exchange i).followed = false) :
    ((p.modifyExchange e f).exchange i).followed = false := by
  rw [exchange_modifyExchange]
  split
  · rename_i hi
    exact hf hi.1
  · exact hleft

theorem followed_send {x : Exchange} (hleft : x.followed = false) (e : ExchangeEvent) :
    (x.send e).followed = false := by
  rw [Exchange.send, hleft]
  exact hleft

theorem followed_next (x : Exchange) : x.next.2.followed = x.followed := by
  rw [Exchange.next]
  split <;> rfl

end Followed

theorem exchanges_poll : (T.poll a).plane.exchanges = T.plane.exchanges := by
  by_cases hopen : (T.plane.actor a).isOpen = true
  · obtain ⟨turn, b, -, hplane⟩ := plane_poll hopen
    rw [hplane]
    cases turn with
    | stop handles =>
      obtain ⟨_, hfold, -, -⟩ := foldl_rollback handles (T.plane.modifyActor a fun _ => b)
      rw [effect, hfold]
      rfl
    | _ => rfl
  · rw [plane_poll_closed (Bool.eq_false_iff.mpr hopen)]

/-- Nobody comes back to an exchange. -/
theorem Sound.left_step (h : T.Sound a) (hs : s ∈ T.errands)
    (hleft : (T.plane.exchange s.exchange).followed = false) (hstep : Step a T U) :
    (U.plane.exchange s.exchange).followed = false := by
  cases hstep with
  | executes operation input =>
    have hold : (T.plane.newExchange (T.plane.actor a).nextNumber).2.exchange s.exchange =
        T.plane.exchange s.exchange :=
      (exchange_newExchange ..).trans (if_neg (h.placed s hs).ne)
    rw [execute]
    dsimp only
    split <;> exact (congrArg Exchange.followed hold).trans hleft
  | reads =>
    refine followed_modifyExchange (fun hsame => ?_) hleft
    exact (followed_next _).trans ((congrArg _ (congrArg _ hsame)).trans hleft)
  | leaves => exact followed_modifyExchange (fun _ => rfl) hleft
  | polls => rw [Plane.exchange, exchanges_poll]; exact hleft
  | prepares =>
    rw [prepare]
    dsimp only
    split <;> exact hleft
  | announces =>
    rw [announce]
    split
    · exact followed_modifyExchange (fun _ => followed_send hleft _) hleft
    · exact hleft
  | reports => exact followed_modifyExchange (fun _ => followed_send hleft _) hleft
  | ends => exact followed_modifyExchange (fun _ => followed_send hleft _) hleft
  | crashes => exact followed_modifyExchange (fun _ => hleft) hleft
  | aside hq => exact (congrArg Exchange.followed (hq.exchange s hs)).trans hleft
  | _ => exact hleft

/-- **Whether the follower was told does not change once it has left.** -/
theorem Step.told (hstep : Step a T U) (hs : s ∈ T.errands)
    (hleft : (T.plane.exchange s.exchange).followed = false) :
    ∃ t ∈ U.errands, t.number = s.number ∧ t.exchange = s.exchange ∧
      ∀ i, t.standing = .announced i ↔ s.standing = .announced i := by
  have hother : ∀ {u : Errand} (standing : Errand.Standing), s ≠ u →
      ∃ t ∈ T.stand u standing, t.number = s.number ∧ t.exchange = s.exchange ∧
        ∀ i, t.standing = .announced i ↔ s.standing = .announced i := fun standing hsu =>
    ⟨s, mem_stand.mpr (.inl ⟨hs, hsu⟩), rfl, rfl, fun _ => Iff.rfl⟩
  cases hstep.advances with
  | asks new herrands =>
    exact ⟨s, herrands ▸ List.mem_append_left _ hs, rfl, rfl, fun _ => Iff.rfl⟩
  | @prepares u hu hrunning =>
    have herrands : ∃ standing, (∀ i, standing ≠ .announced i) ∧
        (T.prepare a u).errands = T.stand u standing := by
      rw [prepare]
      dsimp only
      split
      · exact ⟨_, fun i => by rintro ⟨⟩, rfl⟩
      · exact ⟨_, fun i => by rintro ⟨⟩, rfl⟩
    obtain ⟨standing, hquiet, herrands⟩ := herrands
    rw [herrands]
    by_cases hsu : s = u
    · subst hsu
      refine ⟨_, mem_stand.mpr (.inr ⟨hs, rfl⟩), rfl, rfl, fun i => ?_⟩
      simp [hquiet i, hrunning]
    · exact hother standing hsu
  | @announces u hu i henrolled tentative =>
    by_cases hsu : s = u
    · subst hsu
      -- nobody is there to be told, so the operation withdraws
      have herrands : (T.announce a s i tentative).errands = T.stand s (.withdrawn i) := by
        rw [announce, hleft]
        rfl
      rw [herrands]
      exact ⟨_, mem_stand.mpr (.inr ⟨hs, rfl⟩), rfl, rfl, fun j => by simp [henrolled]⟩
    · have herrands : ∃ standing, (T.announce a u i tentative).errands = T.stand u standing := by
        rw [announce]
        split
        · exact ⟨_, rfl⟩
        · exact ⟨_, rfl⟩
      obtain ⟨standing, herrands⟩ := herrands
      rw [herrands]
      exact hother standing hsu

/-- The same for a whole run. -/
theorem Sound.told_leads (h : T.Sound a) (hs : s ∈ T.errands)
    (hleft : (T.plane.exchange s.exchange).followed = false) (hleads : Leads a T U) :
    ∃ t ∈ U.errands, t.number = s.number ∧ (U.plane.exchange t.exchange).followed = false ∧
      ∀ i, t.standing = .announced i ↔ s.standing = .announced i := by
  induction hleads with
  | refl => exact ⟨s, hs, rfl, hleft, fun _ => Iff.rfl⟩
  | @tail V W hleads hstep ih =>
    obtain ⟨t, ht, hnumber, hleft', htold⟩ := ih
    have hsound := h.leads hleads
    obtain ⟨u, hu, hnumber', hexchange, htold'⟩ := hstep.told ht hleft'
    refine ⟨u, hu, hnumber'.trans hnumber, ?_, fun i => (htold' i).trans (htold i)⟩
    rw [hexchange]
    exact hsound.left_step ht hleft' hstep

/-! ## What withdraws is rolled back -/

/-- Every operation that found nobody to tell is decided. -/
def Settled (T : Traffic) : Prop :=
  ∀ s ∈ T.errands, ∀ i, s.standing = .withdrawn i → (T.plane.handle i).decision ≠ none

theorem Sound.settled_step (h : T.Sound a) (hsettled : T.Settled) (hstep : Step a T U) :
    U.Settled := by
  have hold : ∀ t ∈ T.errands, ∀ i, t.standing = .withdrawn i →
      (U.plane.handle i).decision ≠ none := by
    intro t ht i hwithdrawn
    obtain ⟨d, hd⟩ := Option.ne_none_iff_exists'.mp (hsettled t ht i hwithdrawn)
    obtain ⟨_, _, _, hkeeps⟩ := h.keeps hstep t ht
    rw [(hkeeps i (by rw [hwithdrawn]; rfl)).2 d hd]
    rintro ⟨⟩
  have hrolled : ∀ (p : Plane) {i : Nat}, i < p.handles.length →
      ((p.decideAndDrop i .rollback).handle i).decision ≠ none := by
    intro p i hi
    rw [decision_decideAndDrop, if_pos ⟨rfl, hi⟩]
    rintro ⟨⟩
  intro t ht i hwithdrawn
  cases hstep.advances with
  | asks new herrands hnew =>
    rw [herrands] at ht
    rcases List.mem_append.mp ht with ht | ht
    · exact hold t ht i hwithdrawn
    · cases (hnew t ht).symm.trans hwithdrawn
  | @prepares s hs hrunning =>
    rw [prepare] at ht hold ⊢
    dsimp only at ht hold ⊢
    split at ht
    · rcases mem_stand.mp ht with ⟨ht, -⟩ | ⟨-, rfl⟩
      · exact hold t ht i hwithdrawn
      · cases hwithdrawn
    · rename_i hclosed
      rcases mem_stand.mp ht with ⟨ht, -⟩ | ⟨-, rfl⟩
      · exact hold t ht i hwithdrawn
      · cases hwithdrawn
        rw [if_neg hclosed]
        exact hrolled (T.plane.newHandle {}).2 (by simp [newHandle])
  | @announces s hs j henrolled tentative =>
    rw [announce] at ht hold ⊢
    split at ht
    · rcases mem_stand.mp ht with ⟨ht, -⟩ | ⟨-, rfl⟩
      · exact hold t ht i hwithdrawn
      · cases hwithdrawn
    · rename_i hleft
      rcases mem_stand.mp ht with ⟨ht, -⟩ | ⟨-, rfl⟩
      · exact hold t ht i hwithdrawn
      · cases hwithdrawn
        rw [if_neg hleft]
        exact hrolled T.plane (h.handled s hs i (by rw [henrolled]; rfl))

theorem Reachable.settled (h : T.Reachable a) : T.Settled := by
  obtain ⟨T₀, hfresh, hleads⟩ := h
  induction hleads with
  | refl => exact fun s hs => absurd hs (by simp [hfresh.errands])
  | tail hleads hstep ih => exact ((Sound.fresh hfresh).leads hleads).settled_step ih hstep

/-! ## Orphans -/

/-- Unless a decision on it is acknowledged, the operation waits as long as the actor runs. -/
def Orphaned (T : Traffic) (a : Nat) (s : Errand) : Prop :=
  ∃ i, ∀ U, Leads a T U → (U.plane.actor a).isOpen = true → U.Unruled s.number →
    (U.plane.handle i).decision = none ∧ (U.plane.actor a).table s.number = some i ∧
      ∃ t ∈ U.errands, t.number = s.number ∧ t.standing = .announced i

/-- Unless a decision on it is acknowledged, the operation does not wait: it has not prepared, has
rolled back, or is about to, and the actor will have no note of it. -/
def Retires (T : Traffic) (a : Nat) (s : Errand) : Prop :=
  ∀ U, Leads a T U → U.Unruled s.number → ∀ t ∈ U.errands, t.number = s.number →
    t.standing = .running ∨
    (∃ i, t.standing = .enrolled i ∧ ∀ tentative,
      ((U.announce a t i tentative).plane.handle i).decision = some .rollback ∧
        ((U.announce a t i tentative).plane.actor a).table s.number = none) ∨
    ∃ i, t.standing = .withdrawn i ∧ (U.plane.handle i).decision = some .rollback ∧
      (U.plane.actor a).table s.number = none

theorem Reachable.leads (h : T.Reachable a) (hleads : Leads a T U) : U.Reachable a := by
  obtain ⟨T₀, hfresh, hleads₀⟩ := h
  exact ⟨T₀, hfresh, hleads₀.trans hleads⟩

theorem unruled_of_nil (hnil : T.rulings = []) (n : Nat) : T.Unruled n := by
  intro g hg
  rw [hnil] at hg
  cases hg

theorem Reachable.retires (h : T.Reachable a) (hs : s ∈ T.errands)
    (hleft : (T.plane.exchange s.exchange).followed = false)
    (huntold : ∀ i, s.standing ≠ .announced i) : T.Retires a s := by
  intro U hleads hunruled t ht hnumber
  have hU := h.leads hleads
  obtain ⟨u, hu, hsame, hleft', htold⟩ := h.sound.told_leads hs hleft hleads
  obtain rfl := hU.sound.number_inj hu ht (hsame.trans hnumber.symm)
  rw [← hnumber] at hunruled ⊢
  cases hst : u.standing with
  | running => exact .inl rfl
  | enrolled i => exact .inr (.inl ⟨i, rfl, hU.rolls_back hu hst hleft' hunruled⟩)
  | announced i => exact absurd ((htold i).mp hst) (huntold i)
  | withdrawn i =>
    refine .inr (.inr ⟨i, rfl, ?_⟩)
    rcases (hU.sound.fits u hu).of_handle (by rw [hst]; rfl) with
      ⟨hnone, -⟩ | ⟨g, hg, hgn, hacked, -⟩ | ⟨hd, hnone, -⟩
    · exact absurd hnone (hU.settled u hu i hst)
    · exact absurd hacked (hunruled g hg hgn)
    · exact ⟨hd, hnone⟩

/-- Whoever had told waits, whether or not that was read. -/
theorem Reachable.orphaned (h : T.Reachable a) (hs : s ∈ T.errands)
    (hleft : (T.plane.exchange s.exchange).followed = false) {i : Nat}
    (hannounced : s.standing = .announced i) : T.Orphaned a s := by
  refine ⟨i, fun U hleads hopen hunruled => ?_⟩
  obtain ⟨t, ht, hnumber, -, htold⟩ := h.sound.told_leads hs hleft hleads
  have hannounced' := (htold i).mpr hannounced
  rw [← hnumber] at hunruled ⊢
  obtain ⟨hnone, hnoted⟩ := (h.leads hleads).waits hopen ht hannounced' hunruled
  exact ⟨hnone, hnoted, t, ht, rfl, hannounced'⟩

/-- **Leaving an exchange leaves an orphan just if its operation had told that it prepared.**
Otherwise the operation is rolled back as soon as it prepares, and nothing is left of it in the
table. -/
theorem Reachable.orphaned_iff (h : T.Reachable a) (hopen : (T.plane.actor a).isOpen = true)
    (hs : s ∈ T.errands) (hleft : (T.plane.exchange s.exchange).followed = false)
    (hunruled : T.Unruled s.number) :
    (T.Orphaned a s ↔ ∃ i, s.standing = .announced i) ∧ (¬ T.Orphaned a s → T.Retires a s) := by
  have horphaned : T.Orphaned a s ↔ ∃ i, s.standing = .announced i := by
    constructor
    · rintro ⟨i, hwaits⟩
      obtain ⟨-, -, t, ht, hnumber, hannounced⟩ := hwaits T .refl hopen hunruled
      obtain rfl := h.sound.number_inj ht hs hnumber
      exact ⟨i, hannounced⟩
    · rintro ⟨i, hannounced⟩
      exact h.orphaned hs hleft hannounced
  refine ⟨horphaned, fun hno => h.retires hs hleft fun i hannounced => hno ?_⟩
  exact horphaned.mpr ⟨i, hannounced⟩

/-- The follower of `underway` leaves after the operation gave its handle to the actor, and before
it is told. -/
def leftEarly : Traffic :=
  (underway.prepare 0 sole).onPlane (·.modifyExchange 0 Exchange.leave)

/-- The follower of `readied` leaves without having read that the operation prepared. -/
def leftLate : Traffic := readied.onPlane (·.modifyExchange 0 Exchange.leave)

theorem leftEarly_retires :
    leftEarly.Reachable 0 ∧ leftEarly.Retires 0 { sole with standing := .enrolled 0 } := by
  have hmem : { sole with standing := .enrolled 0 } ∈ (underway.prepare 0 sole).errands := by decide
  have hreachable : leftEarly.Reachable 0 :=
    (reachable_underway.leads (.single prepares_underway)).leads (.single (.leaves hmem))
  obtain ⟨horphaned, hretires⟩ := hreachable.orphaned_iff (by decide) hmem (by decide)
    (unruled_of_nil (by decide) _)
  refine ⟨hreachable, hretires fun hwaits => ?_⟩
  obtain ⟨i, hi⟩ := horphaned.mp hwaits
  cases hi

/-- The event was sent, and its follower left: no decision comes, and nothing is rolled back. -/
theorem leftLate_waits : leftLate.Reachable 0 ∧ (leftLate.plane.exchange 0).followed = false ∧
    (leftLate.plane.handle 0).decision = none ∧
    ∀ U, Leads 0 leftLate U → (U.plane.actor 0).isOpen = true → U.rulings = [] →
      (U.plane.handle 0).decision = none ∧ (U.plane.actor 0).table 1 = some 0 := by
  have hmem : { sole with standing := .announced 0 } ∈ readied.errands := by decide
  have hreachable : leftLate.Reachable 0 := reachable_readied.leads (.single (.leaves hmem))
  refine ⟨hreachable, by decide, by decide, fun U hleads hopen hnil => ?_⟩
  obtain ⟨t, ht, hnumber, -, htold⟩ := hreachable.sound.told_leads hmem (by decide) hleads
  have hwaits := (hreachable.leads hleads).waits hopen ht ((htold 0).mpr rfl)
    (unruled_of_nil hnil _)
  rw [hnumber] at hwaits
  exact hwaits

/-! ## A participant leaves -/

/-- What an operation that waits on a handle makes of it now: the decision, or after its time a
rollback. -/
def verdict? (p : Plane) (i : Nat) (due : Option Nat) : Option Decision :=
  (p.handle i).outlook.effect?.or (if due.any (· ≤ p.now) then some .rollback else none)

section Verdict

variable {p : Plane} {x : Execution} {i : Nat} {due : Option Nat} {d : Decision}

theorem advance_deciding (hphase : x.phase = .deciding i due)
    (hverdict : verdict? p i due = some d) :
    x.advance p = x.apply p i d := by
  rw [verdict?] at hverdict
  rw [Execution.advance, hphase]
  dsimp only
  rw [Execution.decide.eq_def]
  cases heffect : (p.handle i).outlook.effect? with
  | some e =>
    rw [heffect, Option.some_or] at hverdict
    cases hverdict
    rfl
  | none =>
    rw [heffect, Option.none_or] at hverdict
    cases due with
    | none => cases hverdict
    | some deadline =>
      rw [Option.any_some] at hverdict
      split at hverdict
      · rename_i hlate
        cases hverdict
        exact if_pos (of_decide_eq_true hlate)
      · cases hverdict

/-- A decision that was made is the verdict. -/
theorem verdict_of_decided (hverdict : verdict? p i due = some d) {e : Decision}
    (he : (p.handle i).decision = some e) : d = e := by
  rw [verdict?, Prepared.outlook, he] at hverdict
  exact (Option.some.inj hverdict).symm

/-- Without one, the operation rolls back if it goes on at all. -/
theorem verdict_of_undecided (hverdict : verdict? p i due = some d)
    (hnone : (p.handle i).decision = none) : d = .rollback := by
  rw [verdict?, Prepared.outlook, hnone] at hverdict
  dsimp only at hverdict
  split at hverdict
  · exact (Option.some.inj hverdict).symm
  · rw [Prepared.Outlook.effect?, Option.none_or] at hverdict
    split at hverdict
    · exact (Option.some.inj hverdict).symm
    · cases hverdict

/-- The operation takes the verdict beside the actor and its clients. -/
theorem aside_apply (T : Traffic) (a : Nat) : T.Aside a (x.apply T.plane i d).plane := by
  have hplane : ∃ tree, (x.apply T.plane i d).plane =
      (T.plane.modifyHandle i Prepared.leave).setTree x.controller tree := by
    rw [Execution.apply.eq_def]
    dsimp only
    cases d with
    | keep =>
      dsimp only
      split <;> exact ⟨_, rfl⟩
    | rollback => exact ⟨_, rfl⟩
  obtain ⟨tree, hplane⟩ := hplane
  rw [hplane]
  exact {
    actors := le_rfl
    actor := rfl
    exchanges := le_rfl
    exchange := fun _ _ => rfl
    handles := (List.length_modify _ _ _).ge
    decision := fun _ _ j _ => by
      refine (congrArg Prepared.decision (handle_modifyHandle T.plane i j Prepared.leave)).trans ?_
      split <;> rfl
    replies := le_rfl
    reply := fun _ _ => rfl }

end Verdict

/-- Decisions that were sent stay, with the answers that they got. -/
theorem Sound.answered_step (h : T.Sound a) (hstep : Step a T U) {g : Ruling} (hg : g ∈ T.rulings) :
    g ∈ U.rulings ∧ ∀ out, T.plane.reply g.reply = .answered out →
      U.plane.reply g.reply = .answered out := by
  constructor
  · cases hstep with
    | resolves => exact List.mem_append_left _ hg
    | prepares =>
      rw [prepare]
      dsimp only
      split <;> exact hg
    | announces =>
      rw [announce]
      split <;> exact hg
    | _ => exact hg
  · intro out hout
    rcases hstep.silent h with rfl | ⟨hreply, -⟩
    · have hturned := turned_poll h
      have hset : ∀ (p : Plane) {r : Nat} (answer : Reply), T.plane.reply r = .awaited →
          p.replies = T.plane.replies → (p.setReply r answer).reply g.reply = .answered out := by
        intro p r answer hawaited hp
        rw [reply_setReply, if_neg, Plane.reply, hp]
        · exact hout
        · rintro ⟨rfl, -⟩
          cases hawaited.symm.trans hout
      generalize (T.poll a).plane = q at hturned
      cases hturned with
      | quiet hq => exact (hq.reply g hg).trans hout
      | decides _ hdrained hreceive =>
        obtain ⟨-, -, -, -, -, -, -, -, -, hawaited⟩ := h.receives hdrained hreceive
        exact hset _ _ hawaited rfl
      | refuses _ hdrained hreceive =>
        obtain ⟨-, -, -, -, -, -, -, -, -, hawaited⟩ := h.receives hdrained hreceive
        exact hset _ _ hawaited rfl
      | stops =>
        obtain ⟨handles, hfold, -, -⟩ := foldl_rollback
          ((T.plane.actor a).pending.map Prod.snd)
          (T.plane.modifyActor a fun _ => { T.plane.actor a with pending := [], isOpen := false })
        rw [hfold]
        exact hout
    · exact (hreply g hg).trans hout

theorem Sound.acked_leads (h : T.Sound a) (hleads : Leads a T U) {g : Ruling} (hg : g ∈ T.rulings)
    (hacked : T.Acks g) : g ∈ U.rulings ∧ U.Acks g := by
  induction hleads with
  | refl => exact ⟨hg, hacked⟩
  | tail hleads hstep ih =>
    obtain ⟨hmem, hkept⟩ := (h.leads hleads).answered_step hstep ih.1
    exact ⟨hmem, hkept _ ih.2⟩

/-- What has become of a decision on an operation that left with the verdict `d`. -/
inductive Fate (T : Traffic) (d : Decision) (U : Traffic) (g : Ruling) : Prop
  | awaited (hawaited : U.plane.reply g.reply = .awaited)
  /-- It was acknowledged before, and is the verdict. -/
  | taken (hg : g ∈ T.rulings) (hacked : T.Acks g) (hdecision : g.decision = d)
  /-- It was acknowledged only then: the operation had rolled back undecided. -/
  | tooLate (hacked : U.Acks g) (hbefore : ¬ (g ∈ T.rulings ∧ T.Acks g)) (hverdict : d = .rollback)
  | refused (hrefused : U.plane.reply g.reply = .answered (.error (.unknownExchange g.number)))

/-- **What is acknowledged before an operation leaves takes effect**; a decision that is
acknowledged afterwards finds that it has rolled back on its own.  The other decisions on it are
refused. -/
theorem Reachable.acknowledged (h : T.Reachable a) (hs : s ∈ T.errands) {i : Nat}
    (hi : s.standing.handle? = some i) {x : Execution} {due : Option Nat}
    (hphase : x.phase = .deciding i due) {d : Decision}
    (hverdict : verdict? T.plane i due = some d) :
    x.advance T.plane = x.apply T.plane i d ∧
      ∀ U, Leads a (T.onPlane fun p => (x.advance p).plane) U →
        ∀ g ∈ U.rulings, g.number = s.number → T.Fate d U g := by
  have hadvance := advance_deciding hphase hverdict
  refine ⟨hadvance, fun U hleads g hg hnumber => ?_⟩
  have hleaves : Step a T (T.onPlane fun p => (x.advance p).plane) := by
    rw [onPlane, hadvance]
    exact .aside (aside_apply T a)
  have hleadsU := (Relation.ReflTransGen.single hleaves).trans hleads
  have hU := h.leads hleadsU
  by_cases hawaited : U.plane.reply g.reply = .awaited
  · exact .awaited hawaited
  · rcases hU.sound.answers g hg hawaited with hacked | hrefused
    · by_cases hbefore : g ∈ T.rulings ∧ T.Acks g
      · obtain ⟨t, ht, hsame, j, hj, hdecided⟩ := h.sound.effective g hbefore.1 hbefore.2
        obtain rfl := h.sound.number_inj ht hs (hsame.trans hnumber)
        obtain rfl := Option.some.inj (hi.symm.trans hj)
        exact .taken hbefore.1 hbefore.2 (verdict_of_decided hverdict hdecided).symm
      · refine .tooLate hacked hbefore ?_
        -- it was not decided by an acknowledged decision, so not at all or by a rollback
        rcases (h.sound.fits s hs).of_handle hi with
          ⟨hnone, -⟩ | ⟨k, hk, hkn, hackedk, -⟩ | ⟨hrolled, -⟩
        · exact verdict_of_undecided hverdict hnone
        · obtain ⟨hkU, hackedU⟩ := h.sound.acked_leads hleadsU hk hackedk
          obtain rfl := hU.sound.once k hkU g hg hackedU hacked (hkn.trans hnumber.symm)
          exact absurd ⟨hk, hackedk⟩ hbefore
        · exact verdict_of_decided hverdict hrolled
    · exact .refused hrefused

/-- The operation of `readied`, which waits for its decision and has 30 ms for that. -/
def waiting : Execution where
  controller := 0
  operation := .emptyObject
  control := .exchange 0 0
  context := {}
  phase := .deciding 0 (some 30)

/-- The client has its operation kept, in time. -/
theorem waiting_acknowledged : ∃ T : Traffic, T.Reachable 0 ∧
    verdict? T.plane 0 (some 30) = some .keep ∧
      waiting.advance T.plane = waiting.apply T.plane 0 .keep ∧
      ∀ U, Leads 0 (T.onPlane fun p => (waiting.advance p).plane) U →
        ∀ g ∈ U.rulings, g.number = 1 → T.Fate .keep U g := by
  have hreachable : ((readied.resolve 0 1 .keep).poll 0).Reachable 0 :=
    reachable_readied.leads ((Relation.ReflTransGen.single (.resolves rfl 1 .keep)).tail (.polls _))
  have hmem : { sole with standing := .announced 0 } ∈
      ((readied.resolve 0 1 .keep).poll 0).errands := by decide
  have hverdict : verdict? ((readied.resolve 0 1 .keep).poll 0).plane 0 (some 30) = some .keep := by
    decide
  exact ⟨_, hreachable, hverdict, hreachable.acknowledged hmem rfl rfl hverdict⟩

/-- The operation of `readied` has rolled back after 60 ms, and then its client has it kept: that is
acknowledged. -/
theorem waiting_gone : ∃ T U : Traffic, T.Reachable 0 ∧
    waiting.advance T.plane = waiting.apply T.plane 0 .rollback ∧
      Leads 0 (T.onPlane fun p => (waiting.advance p).plane) U ∧
      ∃ g ∈ U.rulings, g.number = 1 ∧ g.decision = .keep ∧ U.Acks g := by
  let late : Traffic := { readied with plane := { readied.plane with now := 60 } }
  have hlate : Step 0 readied late := by
    refine .aside ?_
    constructor
    case actors | exchanges | handles | replies => exact le_rfl
    all_goals intros; rfl
  refine ⟨late, (((late.onPlane fun p => (waiting.advance p).plane).resolve 0 1 .keep).poll 0),
    reachable_readied.leads (.single hlate), rfl,
    (Relation.ReflTransGen.single (.resolves rfl 1 .keep)).tail (.polls _),
    { number := 1, decision := .keep, reply := 0, informed := false }, by decide, rfl, rfl, rfl⟩

end Traffic

end ManagementPlane
