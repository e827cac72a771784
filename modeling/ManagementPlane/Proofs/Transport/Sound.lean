import ManagementPlane.Proofs.Transport.Traffic

/-!
# Proofs/Transport/Sound — what an actor has noted, and what has become of it

What holds in every traffic (`Traffic.Sound`): a prepared operation waits in the table of its actor
until one decision for it is acknowledged, or was withdrawn because nobody followed it, or was
rolled back when the actor ended (`Traffic.Fits`).  What is known of the decisions that were sent is
kept apart (`Traffic.Ruled`), since most steps neither send nor answer one (`Ruled.rests`).

A step keeps all this when it is quiet (`Sound.calm`), when one operation gets on (`Sound.shifts`),
and when the oldest decision in the channel is answered (`Sound.serves`).
-/

namespace ManagementPlane

open Plane

/-! ## Entries after a change -/

namespace Plane

theorem actor_modifyActor_self (p : Plane) {a : Nat} (ha : a < p.actors.length)
    (f : Actor → Actor) : (p.modifyActor a f).actor a = f (p.actor a) := by
  rw [actor_modifyActor, if_pos ⟨rfl, ha⟩]

theorem exchange_modifyExchange (p : Plane) (e i : Nat) (f : Exchange → Exchange) :
    (p.modifyExchange e f).exchange i =
      if e = i ∧ i < p.exchanges.length then f (p.exchange i) else p.exchange i := getD_modify ..

theorem reply_setReply (p : Plane) (r i : Nat) (reply : Reply) :
    (p.setReply r reply).reply i = if r = i ∧ i < p.replies.length then reply else p.reply i := by
  rw [Plane.reply, setReply, List.getElem?_set]
  by_cases hr : r = i
  · subst hr
    by_cases hlt : r < p.replies.length
    · simp [hlt]
    · simp [hlt, Plane.reply]
  · simp [hr, Plane.reply]

theorem exchange_newExchange (p : Plane) (number i : Nat) :
    (p.newExchange number).2.exchange i =
      if i = p.exchanges.length then { number } else p.exchange i := getD_append ..

theorem reply_newReply (p : Plane) (i : Nat) :
    p.newReply.2.reply i = if i = p.replies.length then .awaited else p.reply i := getD_append ..

/-- A decision counts only where there was none. -/
theorem decision_decideAndDrop (p : Plane) (h : Nat) (d : Decision) (i : Nat) :
    ((p.decideAndDrop h d).handle i).decision =
      if h = i ∧ i < p.handles.length then some ((p.handle i).decision.getD d)
      else (p.handle i).decision := by
  rw [handle_decideAndDrop]
  split
  · exact Prepared.decision_resolve _ d
  · rfl

theorem firm_decideAndDrop (p : Plane) {h i : Nat} {d e : Decision}
    (he : (p.handle i).decision = some e) :
    ((p.decideAndDrop h d).handle i).decision = some e := by
  rw [decision_decideAndDrop, he]
  split <;> rfl

theorem handles_decideAndDrop (p : Plane) (h : Nat) (d : Decision) :
    (p.decideAndDrop h d).handles.length = p.handles.length :=
  (List.length_modify _ _ _).trans (List.length_modify _ _ _)

end Plane

namespace Traffic

variable (T : Traffic) (a : Nat)

/-! ## What the traffic has come to -/

/-- The follower of an operation has still to read that it prepared. -/
def Sent (s : Errand) : Prop := ∃ v, .prepared v ∈ (T.plane.exchange s.exchange).events

/-- The actor acknowledged a decision. -/
def Acks (g : Ruling) : Prop := T.plane.reply g.reply = .answered (.ok ())

/-- The actor refused a decision. -/
def Refuses (g : Ruling) : Prop := ∃ e, T.plane.reply g.reply = .answered (.error e)

/-- No decision on the number was acknowledged. -/
def Unruled (n : Nat) : Prop := ∀ g ∈ T.rulings, g.number = n → ¬ T.Acks g

/-- How far an operation has come, and what the actor has noted, fit together. -/
inductive Fits (s : Errand) : Prop
  | running (hs : s.standing = .running) (htable : (T.plane.actor a).table s.number = none)
    (hunruled : T.Unruled s.number)
  | pending {h : Nat} (hs : s.standing.handle? = some h)
    (hundecided : (T.plane.handle h).decision = none) (hopen : (T.plane.actor a).isOpen = true)
    (htable : (T.plane.actor a).table s.number = some h) (hunruled : T.Unruled s.number)
  | decided {h : Nat} {g : Ruling} (hs : s.standing.handle? = some h) (hg : g ∈ T.rulings)
    (hnumber : g.number = s.number) (hacks : T.Acks g)
    (hdecision : (T.plane.handle h).decision = some g.decision)
    (htable : (T.plane.actor a).table s.number = none)
  | rolledBack {h : Nat} (hs : s.standing.handle? = some h)
    (hdecision : (T.plane.handle h).decision = some .rollback)
    (htable : (T.plane.actor a).table s.number = none) (hunruled : T.Unruled s.number)
    (hwhy : s.standing = .withdrawn h ∨ (T.plane.actor a).isOpen = false)

/-- What has become of the decisions that were sent. -/
structure Ruled : Prop where
  /-- Replies are numbered in the order of the decisions. -/
  ordered : (T.rulings.map Ruling.reply).Pairwise (· < ·)
  replied : ∀ g ∈ T.rulings, g.reply < T.plane.replies.length
  queued : ∀ n d r, (n, d, r) ∈ (T.plane.actor a).asked →
    T.plane.reply r = .awaited ∧ ∃ g ∈ T.rulings, g.number = n ∧ g.decision = d ∧ g.reply = r
  sorted : (T.plane.actor a).asked.Pairwise (·.2.2 < ·.2.2)
  /-- Decisions are answered in their order. -/
  served : ∀ g ∈ T.rulings, T.plane.reply g.reply ≠ .awaited →
    ∀ e ∈ (T.plane.actor a).asked, g.reply < e.2.2
  answers : ∀ g ∈ T.rulings, T.plane.reply g.reply ≠ .awaited →
    T.Acks g ∨ T.plane.reply g.reply = .answered (.error (.unknownExchange g.number))
  once : ∀ g ∈ T.rulings, ∀ k ∈ T.rulings, T.Acks g → T.Acks k → g.number = k.number → g = k
  informed : ∀ g ∈ T.rulings, g.informed = true → g.number ∈ T.heard
  /-- Who knew that the operation prepared is refused only after a decision was acknowledged. -/
  refused : ∀ g ∈ T.rulings, g.informed = true → T.Refuses g →
    ∃ k ∈ T.rulings, k.reply < g.reply ∧ k.number = g.number ∧ T.Acks k

/-- **What holds in every traffic.** -/
structure Sound : Prop extends T.Ruled a where
  live : a < T.plane.actors.length
  flows : (T.plane.actor a).Flows
  numbers : (T.errands.map Errand.number).Nodup
  numbered : ∀ s ∈ T.errands, s.number < (T.plane.actor a).nextNumber
  exchanges : (T.errands.map Errand.exchange).Nodup
  placed : ∀ s ∈ T.errands, s.exchange < T.plane.exchanges.length
  labelled : ∀ s ∈ T.errands, (T.plane.exchange s.exchange).number = s.number
  apart : ∀ s ∈ T.errands, ∀ t ∈ T.errands, ∀ h ∈ s.standing.handle?, h ∈ t.standing.handle? → s = t
  handled : ∀ s ∈ T.errands, ∀ h ∈ s.standing.handle?, h < T.plane.handles.length
  table : ∀ n h, (T.plane.actor a).table n = some h →
    ∃ s ∈ T.errands, s.number = n ∧ s.standing.handle? = some h
  fits : ∀ s ∈ T.errands, T.Fits a s
  /-- Who hears of a prepared operation, or is about to, has been told. -/
  told : ∀ s ∈ T.errands, T.Sent s ∨ s.number ∈ T.heard → ∃ h, s.standing = .announced h
  heard : ∀ n ∈ T.heard, ∃ s ∈ T.errands, s.number = n
  effective : ∀ g ∈ T.rulings, T.Acks g → ∃ s ∈ T.errands, s.number = g.number ∧
    ∃ h, s.standing.handle? = some h ∧ (T.plane.handle h).decision = some g.decision

variable {T} {a} {s t : Errand} {q : Plane}

/-- What may have become of an operation that prepared. -/
theorem Fits.of_handle (h : T.Fits a s) {i : Nat} (hi : s.standing.handle? = some i) :
    ((T.plane.handle i).decision = none ∧ (T.plane.actor a).isOpen = true ∧
      (T.plane.actor a).table s.number = some i ∧ T.Unruled s.number) ∨
    (∃ g ∈ T.rulings, g.number = s.number ∧ T.Acks g ∧
      (T.plane.handle i).decision = some g.decision ∧ (T.plane.actor a).table s.number = none) ∨
    ((T.plane.handle i).decision = some .rollback ∧ (T.plane.actor a).table s.number = none ∧
      T.Unruled s.number ∧ (s.standing = .withdrawn i ∨ (T.plane.actor a).isOpen = false)) := by
  have hown : ∀ {j}, s.standing.handle? = some j → i = j := fun hj =>
    Option.some.inj (hi.symm.trans hj)
  cases h with
  | running hs => rw [hs] at hi; cases hi
  | pending hs hd ho ht hn =>
    obtain rfl := hown hs
    exact .inl ⟨hd, ho, ht, hn⟩
  | decided hs hg hn ha hd ht =>
    obtain rfl := hown hs
    exact .inr (.inl ⟨_, hg, hn, ha, hd, ht⟩)
  | rolledBack hs hd ht hn hwhy =>
    obtain rfl := hown hs
    exact .inr (.inr ⟨hd, ht, hn, hwhy⟩)

theorem Sound.fresh (h : T.Fresh a) : T.Sound a := by
  have hqueue : (T.plane.actor a).queue = [] := by simp [Actor.queue, h.requests, h.backlog]
  have htable : (T.plane.actor a).table = fun _ => none := by
    rw [Actor.table_of_drained h.enrollments]
    funext n
    simp [Actor.handleOf?, h.pending]
  have herrand : ∀ s, s ∉ T.errands := by simp [h.errands]
  have hruling : ∀ g, g ∉ T.rulings := by simp [h.rulings]
  constructor
  case toRuled =>
    constructor
    case ordered => simp [h.rulings]
    case queued => simp [Actor.asked, hqueue]
    case sorted => simp [Actor.asked, hqueue]
    all_goals exact fun g hg => absurd hg (hruling g)
  case live => exact h.live
  case flows => exact ⟨h.flows, fun _ => h.backlog⟩
  case numbers => simp [h.errands]
  case exchanges => simp [h.errands]
  case table => simp [htable]
  case heard => simp [h.heard]
  case effective => exact fun g hg => absurd hg (hruling g)
  all_goals exact fun s hs => absurd hs (herrand s)

/-! ## Quiet steps -/

/-- The second plane differs in nothing that is counted on, but may have less to serve. -/
structure Calm (T : Traffic) (a : Nat) (q : Plane) : Prop where
  live : a < q.actors.length
  flows : (q.actor a).Flows
  table : (q.actor a).table = (T.plane.actor a).table
  isOpen : (q.actor a).isOpen = (T.plane.actor a).isOpen
  nextNumber : (T.plane.actor a).nextNumber ≤ (q.actor a).nextNumber
  asked : (q.actor a).asked.Sublist (T.plane.actor a).asked
  exchanges : T.plane.exchanges.length ≤ q.exchanges.length
  label : ∀ s ∈ T.errands,
    (q.exchange s.exchange).number = (T.plane.exchange s.exchange).number
  events : ∀ s ∈ T.errands, ∀ v, .prepared v ∈ (q.exchange s.exchange).events →
    .prepared v ∈ (T.plane.exchange s.exchange).events
  handles : T.plane.handles.length ≤ q.handles.length
  decision : ∀ s ∈ T.errands, ∀ h ∈ s.standing.handle?,
    (q.handle h).decision = (T.plane.handle h).decision
  replies : T.plane.replies.length ≤ q.replies.length
  reply : ∀ g ∈ T.rulings, q.reply g.reply = T.plane.reply g.reply

/-- An operation fits as long as the table, the handle and the replies stay. -/
theorem Fits.congr {U : Traffic} (h : T.Fits a s) (hrulings : T.rulings ⊆ U.rulings)
    (hacks : ∀ g ∈ U.rulings, g.number = s.number → (U.Acks g ↔ g ∈ T.rulings ∧ T.Acks g))
    (htable : (U.plane.actor a).table s.number = (T.plane.actor a).table s.number)
    (hopen : (U.plane.actor a).isOpen = (T.plane.actor a).isOpen)
    (hdecision : ∀ h ∈ s.standing.handle?,
      (U.plane.handle h).decision = (T.plane.handle h).decision) : U.Fits a s := by
  have hunruled : T.Unruled s.number → U.Unruled s.number := by
    intro hn g hg hnumber hacked
    obtain ⟨hg', hacked'⟩ := (hacks g hg hnumber).mp hacked
    exact hn g hg' hnumber hacked'
  cases h with
  | running hs ht hn => exact .running hs (htable.trans ht) (hunruled hn)
  | pending hs hd ho ht hn =>
    exact .pending hs ((hdecision _ hs).trans hd) (hopen.trans ho) (htable.trans ht) (hunruled hn)
  | decided hs hg hn ha hd ht =>
    exact .decided hs (hrulings hg) hn ((hacks _ (hrulings hg) hn).mpr ⟨hg, ha⟩)
      ((hdecision _ hs).trans hd) (htable.trans ht)
  | rolledBack hs hd ht hn hwhy =>
    exact .rolledBack hs ((hdecision _ hs).trans hd) (htable.trans ht) (hunruled hn)
      (hwhy.imp_right hopen.trans)

/-- The second traffic has the same decisions, with the same answers, and no more of them are in the
channel. -/
structure Rests (T : Traffic) (a : Nat) (U : Traffic) : Prop where
  rulings : U.rulings = T.rulings
  heard : T.heard ⊆ U.heard
  replies : T.plane.replies.length ≤ U.plane.replies.length
  reply : ∀ g ∈ T.rulings, U.plane.reply g.reply = T.plane.reply g.reply
  asked : (U.plane.actor a).asked.Sublist (T.plane.actor a).asked

theorem Rests.acks {U : Traffic} (hU : T.Rests a U) {g : Ruling} (hg : g ∈ T.rulings) :
    U.Acks g ↔ T.Acks g := by
  rw [Acks, Acks, hU.reply g hg]

theorem Fits.rests {U : Traffic} (h : T.Fits a s) (hU : T.Rests a U)
    (htable : (U.plane.actor a).table s.number = (T.plane.actor a).table s.number)
    (hopen : (U.plane.actor a).isOpen = (T.plane.actor a).isOpen)
    (hdecision : ∀ h ∈ s.standing.handle?,
      (U.plane.handle h).decision = (T.plane.handle h).decision) : U.Fits a s := by
  refine h.congr (hU.rulings ▸ List.Subset.refl _) (fun g hg _ => ?_) htable hopen hdecision
  rw [hU.rulings] at hg
  rw [hU.acks hg, and_iff_right hg]

/-- As long as nothing is sent or answered, what has become of the decisions stays. -/
theorem Ruled.rests {U : Traffic} (h : T.Ruled a) (hU : T.Rests a U) : U.Ruled a := by
  have hrulings := hU.rulings
  constructor
  case ordered => exact hrulings ▸ h.ordered
  case replied => exact fun g hg => (h.replied g (hrulings ▸ hg)).trans_le hU.replies
  case queued =>
    intro n d r hr
    obtain ⟨hawaited, g, hg, hnumber, hdecision, rfl⟩ := h.queued n d r (hU.asked.subset hr)
    exact ⟨(hU.reply g hg).trans hawaited, g, hrulings ▸ hg, hnumber, hdecision, rfl⟩
  case sorted => exact h.sorted.sublist hU.asked
  all_goals rw [hrulings]
  case served =>
    intro g hg hanswered e he
    rw [hU.reply g hg] at hanswered
    exact h.served g hg hanswered e (hU.asked.subset he)
  case answers =>
    intro g hg hanswered
    rw [hU.reply g hg] at hanswered ⊢
    exact (h.answers g hg hanswered).imp_left (hU.acks hg).mpr
  case once =>
    exact fun g hg k hk hacked hacked' =>
      h.once g hg k hk ((hU.acks hg).mp hacked) ((hU.acks hk).mp hacked')
  case informed => exact fun g hg hinformed => hU.heard (h.informed g hg hinformed)
  case refused =>
    rintro g hg hinformed ⟨e, he⟩
    obtain ⟨k, hk, hlt, hnumber, hacked⟩ :=
      h.refused g hg hinformed ⟨e, (hU.reply g hg).symm.trans he⟩
    exact ⟨k, hk, hlt, hnumber, (hU.acks hk).mpr hacked⟩

/-- **Quiet steps keep everything.** -/
theorem Sound.calm (h : T.Sound a) (hq : T.Calm a q) (started : List Nat) :
    Sound { T with plane := q, started } a := by
  have hrests : T.Rests a { T with plane := q, started } :=
    ⟨rfl, List.Subset.refl _, hq.replies, hq.reply, hq.asked⟩
  constructor
  case toRuled => exact h.toRuled.rests hrests
  case live => exact hq.live
  case flows => exact hq.flows
  case numbers => exact h.numbers
  case numbered => exact fun s hs => (h.numbered s hs).trans_le hq.nextNumber
  case exchanges => exact h.exchanges
  case placed => exact fun s hs => (h.placed s hs).trans_le hq.exchanges
  case labelled => exact fun s hs => (hq.label s hs).trans (h.labelled s hs)
  case apart => exact h.apart
  case handled => exact fun s hs i hi => (h.handled s hs i hi).trans_le hq.handles
  case table => exact fun n i hi => h.table n i (hq.table ▸ hi)
  case fits =>
    exact fun s hs => (h.fits s hs).rests hrests (congrFun hq.table _) hq.isOpen (hq.decision s hs)
  case told => exact fun s hs hsent => h.told s hs (hsent.imp_left fun ⟨v, hv⟩ =>
    ⟨v, hq.events s hs v hv⟩)
  case heard => exact h.heard
  case effective =>
    intro g hg hacked
    obtain ⟨s, hs, hnumber, i, hi, hd⟩ := h.effective g hg ((hrests.acks hg).mp hacked)
    exact ⟨s, hs, hnumber, i, hi, (hq.decision s hs i hi).trans hd⟩

theorem Sound.calm_refl (h : T.Sound a) : T.Calm a T.plane :=
  ⟨h.live, h.flows, rfl, rfl, le_rfl, List.Sublist.refl _, le_rfl, fun _ _ => rfl,
    fun _ _ _ hv => hv, le_rfl, fun _ _ _ _ => rfl, le_rfl, fun _ _ => rfl⟩

theorem Aside.calm (h : T.Sound a) (hq : T.Aside a q) : T.Calm a q where
  live := h.live.trans_le hq.actors
  flows := hq.actor ▸ h.flows
  table := by rw [hq.actor]
  isOpen := by rw [hq.actor]
  nextNumber := by rw [hq.actor]
  asked := by rw [hq.actor]
  exchanges := hq.exchanges
  label s hs := by rw [hq.exchange s hs]
  events s hs v hv := hq.exchange s hs ▸ hv
  handles := hq.handles
  decision := hq.decision
  replies := hq.replies
  reply := hq.reply

section Calm

variable {p : Plane} (hp : T.Calm a p)

include hp

/-- Only the actor changes. -/
theorem Calm.modifyActor (f : Actor → Actor) (hflows : (f (p.actor a)).Flows)
    (htable : (f (p.actor a)).table = (p.actor a).table)
    (hopen : (f (p.actor a)).isOpen = (p.actor a).isOpen)
    (hnext : (p.actor a).nextNumber ≤ (f (p.actor a)).nextNumber)
    (hasked : (f (p.actor a)).asked.Sublist (p.actor a).asked) :
    T.Calm a (p.modifyActor a f) := by
  have hactor := p.actor_modifyActor_self hp.live f
  exact { hp with
    live := (List.length_modify _ _ _).symm ▸ hp.live
    flows := hactor ▸ hflows
    table := (hactor ▸ htable).trans hp.table
    isOpen := (hactor ▸ hopen).trans hp.isOpen
    nextNumber := hp.nextNumber.trans (hactor ▸ hnext)
    asked := (hactor ▸ hasked).trans hp.asked }

/-- Only an exchange changes, and nobody is told that an operation prepared. -/
theorem Calm.modifyExchange (e : Nat) (f : Exchange → Exchange)
    (hnumber : ∀ x, (f x).number = x.number)
    (hevents : ∀ x v, .prepared v ∈ (f x).events → .prepared v ∈ x.events) :
    T.Calm a (p.modifyExchange e f) :=
  { hp with
    exchanges := hp.exchanges.trans (List.length_modify _ _ _).ge
    label := fun s hs => by
      rw [exchange_modifyExchange]
      split
      · exact (hnumber _).trans (hp.label s hs)
      · exact hp.label s hs
    events := fun s hs v hv => by
      rw [exchange_modifyExchange] at hv
      split at hv
      · exact hp.events s hs v (hevents _ v hv)
      · exact hp.events s hs v hv }

end Calm

/-! ## An operation gets on -/

theorem Sound.number_inj (h : T.Sound a) (hs : s ∈ T.errands) (ht : t ∈ T.errands)
    (hst : s.number = t.number) : s = t := List.inj_on_of_nodup_map h.numbers hs ht hst

/-- One operation changes its standing, with what belongs to it; the others keep theirs. -/
structure Shift (T : Traffic) (a : Nat) (s : Errand) (standing : Errand.Standing) (q : Plane) :
    Prop where
  live : a < q.actors.length
  flows : (q.actor a).Flows
  isOpen : (q.actor a).isOpen = (T.plane.actor a).isOpen
  nextNumber : (q.actor a).nextNumber = (T.plane.actor a).nextNumber
  asked : (q.actor a).asked = (T.plane.actor a).asked
  table : ∀ n ≠ s.number, (q.actor a).table n = (T.plane.actor a).table n
  exchanges : q.exchanges.length = T.plane.exchanges.length
  label : ∀ t ∈ T.errands,
    (q.exchange t.exchange).number = (T.plane.exchange t.exchange).number
  events : ∀ t ∈ T.errands, t ≠ s →
    (q.exchange t.exchange).events = (T.plane.exchange t.exchange).events
  handles : T.plane.handles.length ≤ q.handles.length
  decision : ∀ t ∈ T.errands, t ≠ s → ∀ i ∈ t.standing.handle?,
    (q.handle i).decision = (T.plane.handle i).decision
  replies : q.replies = T.plane.replies
  /-- The operation gets a new handle, or keeps what it has. -/
  handle : ∀ i ∈ standing.handle?, i < q.handles.length ∧
    ∀ t ∈ T.errands, t ≠ s → i ∉ t.standing.handle?
  keeps : ∀ i ∈ s.standing.handle?, i ∈ standing.handle? ∧
    ∀ d ∈ (T.plane.handle i).decision, (q.handle i).decision = some d
  own : ∀ i ∈ (q.actor a).table s.number, standing.handle? = some i
  told : (∃ v, .prepared v ∈ (q.exchange s.exchange).events) ∨ s.number ∈ T.heard →
    ∃ h, standing = .announced h

theorem mem_stand {standing : Errand.Standing} :
    t ∈ T.stand s standing ↔
      t ∈ T.errands ∧ t ≠ s ∨ s ∈ T.errands ∧ t = { s with standing } := by
  rw [stand, List.mem_map]
  constructor
  · rintro ⟨u, hu, rfl⟩
    split
    · rename_i hus
      exact .inr ⟨hus ▸ hu, hus ▸ rfl⟩
    · rename_i hus
      exact .inl ⟨hu, hus⟩
  · rintro (⟨ht, hts⟩ | ⟨hs, rfl⟩)
    · exact ⟨t, ht, if_neg hts⟩
    · exact ⟨s, hs, if_pos rfl⟩

theorem map_stand {β : Type} (f : Errand → β) {standing : Errand.Standing}
    (hf : f { s with standing } = f s) : (T.stand s standing).map f = T.errands.map f := by
  rw [stand, List.map_map]
  refine List.map_congr_left fun t _ => ?_
  rw [Function.comp_apply]
  split
  · rename_i hts
    rw [hts, hf]
  · rfl

/-- **An operation gets on** if it fits afterwards. -/
theorem Sound.shifts (h : T.Sound a) (hs : s ∈ T.errands) {standing : Errand.Standing}
    (hq : T.Shift a s standing q)
    (hfits : Fits { T with plane := q, errands := T.stand s standing } a { s with standing }) :
    Sound { T with plane := q, errands := T.stand s standing } a := by
  have hforall : ∀ {P : Errand → Prop}, (∀ t ∈ T.errands, t ≠ s → P t) → P { s with standing } →
      ∀ t ∈ T.stand s standing, P t := by
    intro P hold hnew t ht
    rcases mem_stand.mp ht with ⟨ht, hts⟩ | ⟨-, rfl⟩
    · exact hold t ht hts
    · exact hnew
  have hreply : ∀ r, q.reply r = T.plane.reply r := fun r => by
    rw [Plane.reply, hq.replies, Plane.reply]
  have hrests : T.Rests a { T with plane := q, errands := T.stand s standing } :=
    ⟨rfl, List.Subset.refl _, hq.replies ▸ le_rfl, fun g _ => hreply _,
      hq.asked ▸ List.Sublist.refl _⟩
  constructor
  case toRuled => exact h.toRuled.rests hrests
  case live => exact hq.live
  case flows => exact hq.flows
  case numbers => exact (map_stand Errand.number rfl).symm ▸ h.numbers
  case numbered =>
    have hnext := hq.nextNumber
    exact hforall (fun t ht _ => hnext ▸ h.numbered t ht) (hnext ▸ h.numbered s hs)
  case exchanges => exact (map_stand Errand.exchange rfl).symm ▸ h.exchanges
  case placed =>
    have hlength := hq.exchanges
    exact hforall (fun t ht _ => hlength ▸ h.placed t ht) (hlength ▸ h.placed s hs)
  case labelled =>
    exact hforall (fun t ht _ => (hq.label t ht).trans (h.labelled t ht))
      ((hq.label s hs).trans (h.labelled s hs))
  case apart =>
    refine hforall (fun t ht hts => hforall (fun u hu _ => h.apart t ht u hu) ?_)
      (hforall (fun u hu hus i hi hiu => ?_) fun i _ _ => rfl)
    · exact fun i hit hi => absurd hit ((hq.handle i hi).2 t ht hts)
    · exact absurd hiu ((hq.handle i hi).2 u hu hus)
  case handled =>
    exact hforall (fun t ht _ i hi => (h.handled t ht i hi).trans_le hq.handles)
      fun i hi => (hq.handle i hi).1
  case table =>
    intro n i hi
    by_cases hn : n = s.number
    · subst hn
      exact ⟨_, mem_stand.mpr (.inr ⟨hs, rfl⟩), rfl, hq.own i hi⟩
    · obtain ⟨t, ht, hnumber, hhandle⟩ := h.table n i ((hq.table n hn).symm.trans hi)
      refine ⟨t, mem_stand.mpr (.inl ⟨ht, ?_⟩), hnumber, hhandle⟩
      rintro rfl
      exact hn hnumber.symm
  case fits =>
    refine hforall (fun t ht hts => ?_) hfits
    refine (h.fits t ht).rests hrests (hq.table _ fun hn => hts ?_) hq.isOpen (hq.decision t ht hts)
    exact h.number_inj ht hs hn
  case told =>
    refine hforall (fun t ht hts htold => ?_) hq.told
    refine h.told t ht (htold.imp_left fun ⟨v, hv⟩ => ⟨v, ?_⟩)
    exact hq.events t ht hts ▸ hv
  case heard =>
    intro n hn
    obtain ⟨t, ht, hnumber⟩ := h.heard n hn
    by_cases hts : t = s
    · exact ⟨_, mem_stand.mpr (.inr ⟨hs, rfl⟩), hts ▸ hnumber⟩
    · exact ⟨t, mem_stand.mpr (.inl ⟨ht, hts⟩), hnumber⟩
  case effective =>
    intro g hg hacked
    obtain ⟨t, ht, hnumber, i, hi, hd⟩ := h.effective g hg ((hrests.acks hg).mp hacked)
    by_cases hts : t = s
    · subst hts
      obtain ⟨hkept, hfirm⟩ := hq.keeps i hi
      exact ⟨_, mem_stand.mpr (.inr ⟨hs, rfl⟩), hnumber, i, hkept, hfirm _ hd⟩
    · exact ⟨t, mem_stand.mpr (.inl ⟨ht, hts⟩), hnumber, i, hi,
        (hq.decision t ht hts i hi).trans hd⟩

/-- An operation gets on, and fits afterwards. -/
def GetsOn (T : Traffic) (a : Nat) (s : Errand) (U : Traffic) : Prop :=
  ∃ standing q, U = { T with plane := q, errands := T.stand s standing } ∧
    T.Shift a s standing q ∧ U.Fits a { s with standing }

theorem Sound.getsOn {U : Traffic} (h : T.Sound a) (hs : s ∈ T.errands) (hU : T.GetsOn a s U) :
    U.Sound a := by
  obtain ⟨standing, q, rfl, hq, hfits⟩ := hU
  exact h.shifts hs hq hfits

/-! ## A decision is answered -/

/-- The oldest decision that was asked for is answered. -/
structure Serves (T : Traffic) (a n : Nat) (d : Decision) (r : Nat)
    (out : Except TransportError Unit) (q : Plane) : Prop where
  live : a < q.actors.length
  flows : (q.actor a).Flows
  nextNumber : (q.actor a).nextNumber = (T.plane.actor a).nextNumber
  asked : (T.plane.actor a).asked = (n, d, r) :: (q.actor a).asked
  table : ∀ m i, (q.actor a).table m = some i → (T.plane.actor a).table m = some i
  exchanges : q.exchanges = T.plane.exchanges
  handles : q.handles.length = T.plane.handles.length
  firm : ∀ i e, (T.plane.handle i).decision = some e → (q.handle i).decision = some e
  replies : q.replies.length = T.plane.replies.length
  reply : ∀ j, q.reply j = if j = r then .answered out else T.plane.reply j

theorem Ruled.ruling_inj (h : T.Ruled a) {g k : Ruling} (hg : g ∈ T.rulings) (hk : k ∈ T.rulings)
    (hgk : g.reply = k.reply) : g = k :=
  List.inj_on_of_nodup_map (h.ordered.imp fun hlt => hlt.ne) hg hk hgk

section Serves

variable {n : Nat} {d : Decision} {r : Nat} {out : Except TransportError Unit}
  (hq : T.Serves a n d r out q)

include hq

theorem Serves.reply_self : q.reply r = .answered out := (hq.reply r).trans (if_pos rfl)

theorem Serves.reply_ne {j : Nat} (hj : j ≠ r) : q.reply j = T.plane.reply j :=
  (hq.reply j).trans (if_neg hj)

/-- Of the decisions only the one that is answered can become acknowledged. -/
theorem Serves.acks {k : Ruling} (hacked : Acks { T with plane := q } k) :
    k.reply = r ∧ out = .ok () ∨ T.Acks k := by
  by_cases hk : k.reply = r
  · have hout := (hk ▸ hq.reply_self).symm.trans hacked
    cases hout
    exact .inl ⟨hk, rfl⟩
  · exact .inr ((hq.reply_ne hk).symm.trans hacked)

theorem Serves.keeps (hawaited : T.plane.reply r = .awaited) {k : Ruling} (hacked : T.Acks k) :
    Acks { T with plane := q } k := by
  have hk : k.reply ≠ r := by
    rintro rfl
    cases hawaited.symm.trans hacked
  exact (hq.reply_ne hk).trans hacked

theorem Serves.acks_iff (hawaited : T.plane.reply r = .awaited) {k : Ruling}
    (hk : k.reply = r → out ≠ .ok ()) : Acks { T with plane := q } k ↔ T.Acks k :=
  ⟨fun hacked => (hq.acks hacked).resolve_left fun hnew => hk hnew.1 hnew.2, hq.keeps hawaited⟩

/-- **The oldest decision is answered**, and the other answers stay. -/
theorem Ruled.serves (h : T.Ruled a)
    (hout : out = .ok () ∨ out = .error (.unknownExchange n)) (hok : out = .ok () → T.Unruled n)
    (hrefused : out ≠ .ok () → n ∈ T.heard →
      ∃ k ∈ T.rulings, k.reply < r ∧ k.number = n ∧ T.Acks k) :
    Ruled { T with plane := q } a := by
  obtain ⟨hawaited, g, hg, rfl, rfl, rfl⟩ := h.queued n d r (hq.asked ▸ List.mem_cons_self)
  obtain ⟨hafter, hsorted⟩ := List.pairwise_cons.mp (hq.asked ▸ h.sorted)
  have hrest : (q.actor a).asked ⊆ (T.plane.actor a).asked := hq.asked ▸ List.subset_cons_self _ _
  have hother : ∀ {k : Ruling}, k.reply ≠ g.reply → q.reply k.reply ≠ .awaited →
      T.plane.reply k.reply ≠ .awaited := fun hk hanswered => hq.reply_ne hk ▸ hanswered
  constructor
  case ordered => exact h.ordered
  case replied =>
    have hlength := hq.replies
    exact fun k hk => hlength ▸ h.replied k hk
  case queued =>
    intro m e i hi
    obtain ⟨hawaited', k, hk, hnumber, hdecision, rfl⟩ := h.queued m e i (hrest hi)
    exact ⟨(hq.reply_ne (hafter _ hi).ne').trans hawaited', k, hk, hnumber, hdecision, rfl⟩
  case sorted => exact hsorted
  case served =>
    intro k hk hanswered e he
    by_cases hkg : k.reply = g.reply
    · exact hkg ▸ hafter e he
    · exact h.served k hk (hother hkg hanswered) e (hrest he)
  case answers =>
    intro k hk hanswered
    by_cases hkg : k.reply = g.reply
    · obtain rfl := h.ruling_inj hk hg hkg
      rcases hout with rfl | rfl
      · exact .inl hq.reply_self
      · exact .inr hq.reply_self
    · rcases h.answers k hk (hother hkg hanswered) with hk' | hk'
      · exact .inl (hq.keeps hawaited hk')
      · exact .inr ((hq.reply_ne hkg).trans hk')
  case once =>
    intro k hk l hl hacked hacked' hnumber
    rcases hq.acks hacked with ⟨hkg, hok'⟩ | hk'
    · obtain rfl := h.ruling_inj hk hg hkg
      rcases hq.acks hacked' with ⟨hlk, -⟩ | hl'
      · exact (h.ruling_inj hl hk hlk).symm
      · exact absurd hl' (hok hok' l hl hnumber.symm)
    · rcases hq.acks hacked' with ⟨hlg, hok'⟩ | hl'
      · obtain rfl := h.ruling_inj hl hg hlg
        exact absurd hk' (hok hok' k hk hnumber)
      · exact h.once k hk l hl hk' hl' hnumber
  case informed => exact h.informed
  case refused =>
    rintro k hk hinformed ⟨e, he⟩
    have hbefore : ∃ l ∈ T.rulings, l.reply < k.reply ∧ l.number = k.number ∧ T.Acks l := by
      by_cases hkg : k.reply = g.reply
      · obtain rfl := h.ruling_inj hk hg hkg
        refine hrefused ?_ (h.informed k hk hinformed)
        rintro rfl
        cases hq.reply_self.symm.trans he
      · exact h.refused k hk hinformed ⟨e, (hq.reply_ne hkg).symm.trans he⟩
    obtain ⟨l, hl, hlt, hnumber, hacked⟩ := hbefore
    exact ⟨l, hl, hlt, hnumber, hq.keeps hawaited hacked⟩

theorem Sound.serves (h : T.Sound a)
    (hout : out = .ok () ∨ out = .error (.unknownExchange n))
    (hfits : ∀ t ∈ T.errands, Fits { T with plane := q } a t)
    (hok : out = .ok () → T.Unruled n ∧ ∃ s ∈ T.errands, s.number = n ∧
      ∃ i, s.standing.handle? = some i ∧ (q.handle i).decision = some d)
    (hrefused : out ≠ .ok () → n ∈ T.heard →
      ∃ k ∈ T.rulings, k.reply < r ∧ k.number = n ∧ T.Acks k) :
    Sound { T with plane := q } a := by
  have hexchange : ∀ e, q.exchange e = T.plane.exchange e := fun e => by
    rw [Plane.exchange, hq.exchanges, Plane.exchange]
  constructor
  case toRuled => exact h.toRuled.serves hq hout (fun hacked => (hok hacked).1) hrefused
  case live => exact hq.live
  case flows => exact hq.flows
  case numbers => exact h.numbers
  case numbered =>
    have hnext := hq.nextNumber
    exact fun s hs => hnext ▸ h.numbered s hs
  case exchanges => exact h.exchanges
  case placed =>
    have hlength := congrArg List.length hq.exchanges
    exact fun s hs => hlength ▸ h.placed s hs
  case labelled => exact fun s hs =>
    (congrArg Exchange.number (hexchange _)).trans (h.labelled s hs)
  case apart => exact h.apart
  case handled =>
    have hlength := hq.handles
    exact fun s hs i hi => hlength ▸ h.handled s hs i hi
  case table => exact fun m i hi => h.table m i (hq.table m i hi)
  case fits => exact hfits
  case told =>
    refine fun s hs htold => h.told s hs (htold.imp_left fun ⟨v, hv⟩ => ⟨v, ?_⟩)
    exact congrArg Exchange.events (hexchange s.exchange) ▸ hv
  case heard => exact h.heard
  case effective =>
    intro k hk hacked
    rcases hq.acks hacked with ⟨hkr, hok'⟩ | hk'
    · obtain ⟨-, g, hg, rfl, rfl, rfl⟩ := h.queued n d r (hq.asked ▸ List.mem_cons_self)
      obtain rfl := h.ruling_inj hk hg hkr
      exact (hok hok').2
    · obtain ⟨s, hs, hnumber, i, hi, hd⟩ := h.effective k hk hk'
      exact ⟨s, hs, hnumber, i, hi, hq.firm i _ hd⟩

end Serves

end Traffic

end ManagementPlane
