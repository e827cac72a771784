import ManagementPlane.Proofs.Transport.Sound

/-!
# Proofs/Transport/Requests — what clients ask for, and how operations get on

Clients open exchanges (`Sound.executes`), send decisions (`Sound.resolves`) and read events
(`Sound.reads`).  An operation prepares, and tells its follower (`Sound.prepares`,
`Sound.announces`); what it changes on the way is put together from a few shifts, which leave the
other operations alone.
-/

namespace ManagementPlane

open Plane

namespace Traffic

variable {T : Traffic} {a : Nat} {s t : Errand} {q : Plane}

/-! ## Clients -/

theorem asked_send (k : Actor) (ticket : Nat) (r : ActorRequest) :
    (k.send ticket r).asked = k.asked ++ r.ruling?.toList := by
  rw [Actor.asked, Actor.queue_send, List.filterMap_append]
  cases r <;> rfl

theorem table_send (k : Actor) (ticket : Nat) (r : ActorRequest) :
    (k.send ticket r).table = k.table := by
  rw [Actor.send]
  split <;> rfl

theorem isOpen_send (k : Actor) (ticket : Nat) (r : ActorRequest) :
    (k.send ticket r).isOpen = k.isOpen := by
  rw [Actor.send]
  split <;> rfl

theorem nextNumber_send (k : Actor) (ticket : Nat) (r : ActorRequest) :
    (k.send ticket r).nextNumber = k.nextNumber := by
  rw [Actor.send]
  split <;> rfl

/-- Numbers that were not given out yet stand for nothing. -/
theorem Sound.unused (h : T.Sound a) {n : Nat} (hn : (T.plane.actor a).nextNumber ≤ n) :
    (T.plane.actor a).table n = none ∧ T.Unruled n ∧ n ∉ T.heard := by
  have hnone : ∀ s ∈ T.errands, s.number ≠ n := fun s hs => ((h.numbered s hs).trans_le hn).ne
  refine ⟨?_, fun g hg hnumber hacked => ?_, fun hmem => ?_⟩
  · by_contra htable
    obtain ⟨i, hi⟩ := Option.ne_none_iff_exists'.mp htable
    obtain ⟨s, hs, hnumber, -⟩ := h.table n i hi
    exact hnone s hs hnumber
  · obtain ⟨s, hs, hnumber', -⟩ := h.effective g hg hacked
    exact hnone s hs (hnumber'.trans hnumber)
  · obtain ⟨s, hs, hnumber⟩ := h.heard n hmem
    exact hnone s hs hnumber

/-- An operation joins under a number that was just given out. -/
theorem Sound.joins (h : T.Sound a) {p : Plane} (hp : T.Calm a p) {e n : Nat}
    (hn : n = (T.plane.actor a).nextNumber) (hlt : n < (p.actor a).nextNumber)
    (he : e = T.plane.exchanges.length) (hnew : e < p.exchanges.length)
    (hexchange : p.exchange e = { number := n }) :
    Sound { T with plane := p, errands := T.errands ++ [{ number := n, exchange := e }] } a := by
  have hbase := h.calm hp T.started
  obtain ⟨htable, hunruled, hunheard⟩ := h.unused hn.ge
  have hnumber : ∀ s ∈ T.errands, s.number ≠ n := fun s hs => hn ▸ (h.numbered s hs).ne
  have hplace : ∀ s ∈ T.errands, s.exchange ≠ e := fun s hs => he ▸ (h.placed s hs).ne
  have hforall : ∀ {P : Errand → Prop}, (∀ s ∈ T.errands, P s) →
      P { number := n, exchange := e } →
        ∀ s ∈ T.errands ++ [{ number := n, exchange := e }], P s := by
    intro P hold hnew s hs
    rcases List.mem_append.mp hs with hs | hs
    · exact hold s hs
    · exact List.mem_singleton.mp hs ▸ hnew
  have hacks : ∀ g ∈ T.rulings, T.plane.reply g.reply = p.reply g.reply := fun g hg =>
    (hp.reply g hg).symm
  refine { hbase with
    numbers := ?numbers, numbered := ?numbered, exchanges := ?exchanges, placed := ?placed
    labelled := ?labelled, apart := ?apart, handled := ?handled, table := ?table, fits := ?fits
    told := ?told, heard := ?heard, effective := ?effective }
  case numbers =>
    rw [List.map_append, List.nodup_append]
    refine ⟨h.numbers, List.nodup_singleton _, fun m hm k hk => ?_⟩
    obtain ⟨s, hs, rfl⟩ := List.mem_map.mp hm
    rw [List.mem_singleton.mp hk]
    exact hnumber s hs
  case numbered => exact hforall hbase.numbered hlt
  case exchanges =>
    rw [List.map_append, List.nodup_append]
    refine ⟨h.exchanges, List.nodup_singleton _, fun m hm k hk => ?_⟩
    obtain ⟨s, hs, rfl⟩ := List.mem_map.mp hm
    rw [List.mem_singleton.mp hk]
    exact hplace s hs
  case placed => exact hforall hbase.placed hnew
  case labelled => exact hforall hbase.labelled (by rw [hexchange])
  case apart =>
    refine hforall (fun t ht => hforall (h.apart t ht) fun i _ hi => ?_) fun t _ i hi => ?_
    · cases hi
    · cases hi
  case handled => exact hforall hbase.handled fun i hi => by cases hi
  case table =>
    intro m i hi
    obtain ⟨s, hs, hm⟩ := hbase.table m i hi
    exact ⟨s, List.mem_append_left _ hs, hm⟩
  case fits =>
    have hunruled' : Unruled { T with plane := p } n := fun g hg hgn hacked =>
      hunruled g hg hgn ((hacks g hg).trans hacked)
    exact hforall (fun s hs => (hbase.fits s hs).congr (List.Subset.refl _)
      (fun g hg _ => (and_iff_right hg).symm) rfl rfl fun _ _ => rfl)
      (.running rfl ((congrFun hp.table n).trans htable) hunruled')
  case told =>
    refine hforall hbase.told ?_
    rintro (⟨v, hv⟩ | hmem)
    · rw [hexchange] at hv
      cases hv
    · exact absurd hmem hunheard
  case heard =>
    intro m hm
    obtain ⟨s, hs, hsm⟩ := h.heard m hm
    exact ⟨s, List.mem_append_left _ hs, hsm⟩
  case effective =>
    intro g hg hacked
    obtain ⟨s, hs, hrest⟩ := hbase.effective g hg hacked
    exact ⟨s, List.mem_append_left _ hs, hrest⟩

/-- A request for an operation is on its way. -/
theorem Calm.send {p : Plane} (hp : T.Calm a p) (n e : Nat) (operation : Value) (input : Input) :
    T.Calm a (p.send a (.execute n e operation input)).2 := by
  have hcounted : T.Calm a { p with sends := p.sends + 1 } := { hp with }
  refine hcounted.modifyActor _ (hp.flows.send _ _) (table_send ..) (isOpen_send ..)
    (nextNumber_send ..).ge ?_
  rw [asked_send]
  exact (List.append_nil _).symm ▸ List.Sublist.refl _

theorem Sound.executes (h : T.Sound a) (operation : Value) (input : Input) :
    (T.execute a operation input).Sound a := by
  let next (k : Actor) : Actor := { k with nextNumber := k.nextNumber + 1 }
  let p := (T.plane.newExchange (T.plane.actor a).nextNumber).2.modifyActor a next
  have hactor : p.actor a = next (T.plane.actor a) := actor_modifyActor_self _ h.live _
  have hexchange : ∀ s ∈ T.errands, p.exchange s.exchange = T.plane.exchange s.exchange := by
    intro s hs
    refine (exchange_newExchange ..).trans (if_neg (h.placed s hs).ne)
  have hopened : T.Calm a (T.plane.newExchange (T.plane.actor a).nextNumber).2 :=
    { h.calm_refl with
      exchanges := by simp [newExchange]
      label := fun s hs => congrArg Exchange.number (hexchange s hs)
      events := fun s hs v hv => by
        have hevents := congrArg Exchange.events (hexchange s hs)
        exact hevents ▸ hv }
  have hp : T.Calm a p :=
    hopened.modifyActor next h.flows rfl rfl (Nat.le_succ _) (List.Sublist.refl _)
  have hjoined := h.joins hp rfl (by rw [hactor]; exact Nat.lt_succ_self _) rfl
    (by simp [p, newExchange, modifyActor]) ((exchange_newExchange ..).trans (if_pos rfl))
  rw [execute]
  dsimp only
  split
  · exact hjoined.calm (hjoined.calm_refl.send ..) _
  · exact hjoined

section Resolve

variable (n : Nat) (d : Decision) {g : Ruling}

theorem actor_resolve (ha : a < T.plane.actors.length) :
    (T.resolve a n d).plane.actor a =
      (T.plane.actor a).send T.plane.sends (.resolve n d T.plane.replies.length) :=
  actor_modifyActor_self _ ha _

theorem asked_resolve (ha : a < T.plane.actors.length) :
    ((T.resolve a n d).plane.actor a).asked =
      (T.plane.actor a).asked ++ [(n, d, T.plane.replies.length)] :=
  (congrArg Actor.asked (actor_resolve n d ha)).trans (asked_send ..)

theorem Ruled.reply_resolve (h : T.Ruled a) (hg : g ∈ T.rulings) :
    (T.resolve a n d).plane.reply g.reply = T.plane.reply g.reply :=
  (reply_newReply ..).trans (if_neg (h.replied g hg).ne)

theorem reply_resolve_self : (T.resolve a n d).plane.reply T.plane.replies.length = .awaited :=
  (reply_newReply ..).trans (if_pos rfl)

variable {n d}

/-- The new decision has no answer yet. -/
theorem Ruled.of_answered (h : T.Ruled a) (hg : g ∈ (T.resolve a n d).rulings)
    (hanswered : (T.resolve a n d).plane.reply g.reply ≠ .awaited) :
    g ∈ T.rulings ∧ (T.resolve a n d).plane.reply g.reply = T.plane.reply g.reply := by
  rcases List.mem_append.mp hg with hg | hg
  · exact ⟨hg, h.reply_resolve n d hg⟩
  · obtain rfl := List.mem_singleton.mp hg
    exact absurd (reply_resolve_self n d) hanswered

theorem Ruled.acks_resolve (h : T.Ruled a) (hg : g ∈ (T.resolve a n d).rulings) :
    (T.resolve a n d).Acks g ↔ g ∈ T.rulings ∧ T.Acks g := by
  constructor
  · intro hacked
    obtain ⟨hg, hreply⟩ := h.of_answered hg fun hawaited => by cases hawaited.symm.trans hacked
    exact ⟨hg, hreply.symm.trans hacked⟩
  · rintro ⟨hg, hacked⟩
    exact (h.reply_resolve n d hg).trans hacked

/-- **A decision is sent**, and will be answered after those that were sent before. -/
theorem Ruled.resolves (h : T.Ruled a) (ha : a < T.plane.actors.length) :
    (T.resolve a n d).Ruled a := by
  have hasked := asked_resolve n d ha
  have hold : T.rulings ⊆ (T.resolve a n d).rulings := List.subset_append_left _ _
  have hlength : (T.resolve a n d).plane.replies.length = T.plane.replies.length + 1 :=
    List.length_append
  constructor
  case ordered =>
    rw [resolve, List.map_append, List.pairwise_append]
    refine ⟨h.ordered, List.pairwise_singleton _ _, fun i hi j hj => ?_⟩
    obtain ⟨k, hk, rfl⟩ := List.mem_map.mp hi
    rw [List.mem_singleton.mp hj]
    exact h.replied k hk
  case replied =>
    intro k hk
    rw [hlength]
    rcases List.mem_append.mp hk with hk | hk
    · exact (h.replied k hk).trans (Nat.lt_succ_self _)
    · exact List.mem_singleton.mp hk ▸ Nat.lt_succ_self _
  case queued =>
    intro m e i hi
    rw [hasked] at hi
    rcases List.mem_append.mp hi with hi | hi
    · obtain ⟨hawaited, k, hk, hnumber, hdecision, rfl⟩ := h.queued m e i hi
      exact ⟨(h.reply_resolve n d hk).trans hawaited, k, hold hk, hnumber, hdecision, rfl⟩
    · cases List.mem_singleton.mp hi
      exact ⟨reply_resolve_self n d, _, List.mem_append_right _ List.mem_cons_self, rfl, rfl, rfl⟩
  case sorted =>
    rw [hasked, List.pairwise_append]
    refine ⟨h.sorted, List.pairwise_singleton _ _, fun e he f hf => ?_⟩
    obtain ⟨-, k, hk, -, -, hke⟩ := h.queued _ _ _ he
    rw [List.mem_singleton.mp hf, ← hke]
    exact h.replied k hk
  case served =>
    intro k hk hanswered e he
    obtain ⟨hk, hreply⟩ := h.of_answered hk hanswered
    rw [hasked] at he
    rcases List.mem_append.mp he with he | he
    · exact h.served k hk (hreply ▸ hanswered) e he
    · rw [List.mem_singleton.mp he]
      exact h.replied k hk
  case answers =>
    intro k hk hanswered
    obtain ⟨hk', hreply⟩ := h.of_answered hk hanswered
    rw [h.acks_resolve hk, and_iff_right hk', hreply]
    exact h.answers k hk' (hreply ▸ hanswered)
  case once =>
    intro k hk l hl hacked hacked'
    obtain ⟨hk, hacked⟩ := (h.acks_resolve hk).mp hacked
    obtain ⟨hl, hacked'⟩ := (h.acks_resolve hl).mp hacked'
    exact h.once k hk l hl hacked hacked'
  case informed =>
    intro k hk hinformed
    rcases List.mem_append.mp hk with hk | hk
    · exact h.informed k hk hinformed
    · obtain rfl := List.mem_singleton.mp hk
      exact List.contains_iff_mem.mp hinformed
  case refused =>
    rintro k hk hinformed ⟨e, he⟩
    obtain ⟨hk, hreply⟩ := h.of_answered hk fun hawaited => by cases hawaited.symm.trans he
    obtain ⟨l, hl, hlt, hnumber, hacked⟩ := h.refused k hk hinformed ⟨e, hreply.symm.trans he⟩
    exact ⟨l, hold hl, hlt, hnumber, (h.acks_resolve (hold hl)).mpr ⟨hl, hacked⟩⟩

theorem Sound.resolves (h : T.Sound a) : (T.resolve a n d).Sound a := by
  have hactor := actor_resolve n d h.live
  have htable : ((T.resolve a n d).plane.actor a).table = (T.plane.actor a).table :=
    (congrArg Actor.table hactor).trans (table_send ..)
  have hopen : ((T.resolve a n d).plane.actor a).isOpen = (T.plane.actor a).isOpen :=
    (congrArg Actor.isOpen hactor).trans (isOpen_send ..)
  have hnext : ((T.resolve a n d).plane.actor a).nextNumber = (T.plane.actor a).nextNumber :=
    (congrArg Actor.nextNumber hactor).trans (nextNumber_send ..)
  constructor
  case toRuled => exact h.toRuled.resolves h.live
  case live => exact (List.length_modify _ _ _).symm ▸ h.live
  case flows => exact hactor ▸ h.flows.send _ _
  case numbers => exact h.numbers
  case numbered => exact fun s hs => (h.numbered s hs).trans_eq hnext.symm
  case exchanges => exact h.exchanges
  case placed => exact h.placed
  case labelled => exact h.labelled
  case apart => exact h.apart
  case handled => exact h.handled
  case table => exact fun m i hi => h.table m i (htable ▸ hi)
  case fits =>
    exact fun s hs => (h.fits s hs).congr (List.subset_append_left _ _)
      (fun k hk _ => h.acks_resolve hk) (congrFun htable _) hopen fun _ _ => rfl
  case told => exact h.told
  case heard => exact h.heard
  case effective =>
    intro k hk hacked
    obtain ⟨hk, hacked⟩ := (h.acks_resolve hk).mp hacked
    exact h.effective k hk hacked

end Resolve

theorem Sound.reads (h : T.Sound a) (hs : s ∈ T.errands) : (T.read s).Sound a := by
  have hnext : ∀ x : Exchange, (x.next.2).number = x.number ∧
      ∀ v, .prepared v ∈ x.next.2.events → .prepared v ∈ x.events := by
    intro x
    rw [Exchange.next]
    split
    · rename_i e rest hevents
      exact ⟨rfl, fun v hv => hevents ▸ List.mem_cons_of_mem e hv⟩
    · exact ⟨rfl, fun v hv => hv⟩
  have hcalm : T.Calm a (T.plane.modifyExchange s.exchange fun _ =>
      (T.plane.exchange s.exchange).next.2) := by
    refine { h.calm_refl with
      exchanges := (List.length_modify _ _ _).ge
      label := fun t ht => ?_
      events := fun t ht v hv => ?_ }
    · rw [exchange_modifyExchange]
      split
      · rename_i heq
        rw [← heq.1, (hnext _).1]
      · rfl
    · rw [exchange_modifyExchange] at hv
      split at hv
      · rename_i heq
        rw [← heq.1]
        exact (hnext _).2 v hv
      · exact hv
  have hbase := h.calm hcalm T.started
  rw [read]
  dsimp only
  split
  · rename_i v hsight
    have hsent : T.Sent s := by
      rw [Exchange.next] at hsight
      split at hsight
      · rename_i e rest hevents
        cases hsight
        exact ⟨v, hevents ▸ List.mem_cons_self⟩
      · split at hsight <;> cases hsight
    refine { hbase with
      told := fun t ht htold => ?_
      fits := fun t ht => (hbase.fits t ht).congr (List.Subset.refl _)
        (fun g hg _ => (and_iff_right hg).symm) rfl rfl fun _ _ => rfl
      heard := fun n hn => ?_
      informed := fun g hg hinformed => List.mem_append_left _ (h.informed g hg hinformed) }
    · rcases htold with htold | htold
      · exact hbase.told t ht (.inl htold)
      · rcases List.mem_append.mp htold with htold | htold
        · exact hbase.told t ht (.inr htold)
        · obtain rfl := h.number_inj ht hs (List.mem_singleton.mp htold)
          exact h.told t hs (.inl hsent)
    · rcases List.mem_append.mp hn with hn | hn
      · exact h.heard n hn
      · exact ⟨s, hs, (List.mem_singleton.mp hn).symm⟩
  · exact hbase

/-! ## Operations -/

/-- Who is still running has no handle, and its actor has noted nothing. -/
theorem Sound.of_running (h : T.Sound a) (hs : s ∈ T.errands) (hrunning : s.standing = .running) :
    (T.plane.actor a).table s.number = none ∧ T.Unruled s.number ∧ ¬ T.Sent s ∧
      s.number ∉ T.heard := by
  have htold : ¬ (T.Sent s ∨ s.number ∈ T.heard) := by
    intro htold
    obtain ⟨i, hi⟩ := h.told s hs htold
    cases hrunning.symm.trans hi
  rw [not_or] at htold
  cases h.fits s hs with
  | running _ htable hunruled => exact ⟨htable, hunruled, htold⟩
  | pending hhandle | decided hhandle | rolledBack hhandle =>
    rw [hrunning] at hhandle
    cases hhandle

theorem Sound.exchange_ne (h : T.Sound a) (hs : s ∈ T.errands) (ht : t ∈ T.errands) (hts : t ≠ s) :
    s.exchange ≠ t.exchange := fun heq =>
  hts (List.inj_on_of_nodup_map h.exchanges ht hs heq.symm)

section Shift

variable {standing : Errand.Standing} {i : Nat}

/-- An operation that prepares gets a handle. -/
theorem Sound.shift_newHandle (h : T.Sound a) (hs : s ∈ T.errands)
    (hrunning : s.standing = .running)
    (hstanding : standing.handle? = some T.plane.handles.length) :
    T.Shift a s standing (T.plane.newHandle {}).2 := by
  obtain ⟨htable, -, hunsent, hunheard⟩ := h.of_running hs hrunning
  have hlt : T.plane.handles.length < (T.plane.newHandle {}).2.handles.length := by simp [newHandle]
  constructor
  case live => exact h.live
  case flows => exact h.flows
  case isOpen => rfl
  case nextNumber => rfl
  case asked => rfl
  case table => exact fun _ _ => rfl
  case exchanges => rfl
  case label => exact fun _ _ => rfl
  case events => exact fun _ _ _ => rfl
  case handles => exact hlt.le
  case decision =>
    exact fun t ht _ j hj => congrArg Prepared.decision
      ((handle_newHandle ..).trans (if_neg (h.handled t ht j hj).ne))
  case replies => rfl
  case handle =>
    intro j hj
    obtain rfl := Option.some.inj (hstanding.symm.trans hj)
    exact ⟨hlt, fun t ht _ hi => absurd (h.handled t ht _ hi) (lt_irrefl _)⟩
  case keeps =>
    intro j hj
    rw [hrunning] at hj
    cases hj
  case own =>
    intro j hj
    cases htable.symm.trans hj
  case told => exact fun htold => absurd htold (not_or.mpr ⟨hunsent, hunheard⟩)

/-- An operation keeps its handle. -/
theorem Sound.shift_same (h : T.Sound a) (hs : s ∈ T.errands) (hi : s.standing.handle? = some i)
    (hstanding : standing.handle? = some i)
    (htold : T.Sent s ∨ s.number ∈ T.heard → ∃ h, standing = .announced h) :
    T.Shift a s standing T.plane := by
  constructor
  case live => exact h.live
  case flows => exact h.flows
  case isOpen => rfl
  case nextNumber => rfl
  case asked => rfl
  case table => exact fun _ _ => rfl
  case exchanges => rfl
  case label => exact fun _ _ => rfl
  case events => exact fun _ _ _ => rfl
  case handles => exact le_rfl
  case decision => exact fun _ _ _ _ _ => rfl
  case replies => rfl
  case handle =>
    intro j hj
    obtain rfl := Option.some.inj (hstanding.symm.trans hj)
    exact ⟨h.handled s hs _ hi, fun t ht hts hit => hts (h.apart t ht s hs _ hit hi)⟩
  case keeps => exact fun j hj => ⟨hstanding.trans (hi.symm.trans hj), fun _ hd => hd⟩
  case own =>
    intro j hj
    obtain ⟨t, ht, hnumber, hhandle⟩ := h.table _ j hj
    obtain rfl := h.number_inj ht hs hnumber
    exact hstanding.trans (hi.symm.trans hhandle)
  case told => exact htold

/-- The handle of an operation is decided. -/
theorem Shift.decides (hq : T.Shift a s standing q) (hi : standing.handle? = some i)
    (d : Decision) :
    T.Shift a s standing (q.decideAndDrop i d) := by
  refine { hq with
    handles := hq.handles.trans (handles_decideAndDrop ..).ge
    decision := fun t ht hts j hj => ?_
    handle := fun j hj => ⟨(hq.handle j hj).1.trans_eq (handles_decideAndDrop ..).symm,
      (hq.handle j hj).2⟩
    keeps := fun j hj => ⟨(hq.keeps j hj).1, fun e he =>
      q.firm_decideAndDrop ((hq.keeps j hj).2 e he)⟩ }
  rw [decision_decideAndDrop, if_neg, hq.decision t ht hts j hj]
  rintro ⟨rfl, -⟩
  exact (hq.handle _ hi).2 t ht hts hj

theorem actor_enrolled (ha : a < q.actors.length) (e : Enrollment) :
    (q.modifyActor a fun k => { k with enrollments := k.enrollments ++ [e] }).actor a
      = { q.actor a with enrollments := (q.actor a).enrollments ++ [e] } :=
  actor_modifyActor_self _ ha _

/-- The actor is given an enrollment of an operation. -/
theorem Shift.enrolls (hq : T.Shift a s standing q) (e : Enrollment)
    (hothers : ∀ n ≠ s.number, e.note (q.actor a).table n = (q.actor a).table n)
    (hown : ∀ j ∈ e.note (q.actor a).table s.number, standing.handle? = some j) :
    T.Shift a s standing
        (q.modifyActor a fun k => { k with enrollments := k.enrollments ++ [e] }) ∧
      ((q.modifyActor a fun k => { k with enrollments := k.enrollments ++ [e] }).actor a).table
        = e.note (q.actor a).table := by
  have hactor := actor_enrolled hq.live e
  have htable := (congrArg Actor.table hactor).trans (Actor.table_append ..)
  refine ⟨{ hq with
    live := (List.length_modify _ _ _).symm ▸ hq.live
    flows := hactor ▸ hq.flows
    isOpen := (congrArg Actor.isOpen hactor).trans hq.isOpen
    nextNumber := (congrArg Actor.nextNumber hactor).trans hq.nextNumber
    asked := (congrArg Actor.asked hactor).trans hq.asked
    table := fun n hn => (congrFun htable n).trans ((hothers n hn).trans (hq.table n hn))
    own := fun j hj => hown j (htable ▸ hj) }, htable⟩

/-- The follower of an operation is told that it prepared. -/
theorem Shift.sends (hq : T.Shift a s (.announced i) q) (h : T.Sound a) (hs : s ∈ T.errands)
    (tentative : Value) :
    T.Shift a s (.announced i) (q.modifyExchange s.exchange (·.send (.prepared tentative))) := by
  have hnumber : ∀ x : Exchange, (x.send (.prepared tentative)).number = x.number := by
    intro x
    rw [Exchange.send]
    split <;> rfl
  refine { hq with
    exchanges := (List.length_modify _ _ _).trans hq.exchanges
    label := fun t ht => ?_
    events := fun t ht hts => ?_
    told := fun _ => ⟨i, rfl⟩ }
  · rw [exchange_modifyExchange]
    split
    · exact (hnumber _).trans (hq.label t ht)
    · exact hq.label t ht
  · rw [exchange_modifyExchange, if_neg fun heq => h.exchange_ne hs ht hts heq.1]
    exact hq.events t ht hts

end Shift

/-- **An operation prepares.** -/
theorem Sound.prepares (h : T.Sound a) (hs : s ∈ T.errands) (hrunning : s.standing = .running) :
    T.GetsOn a s (T.prepare a s) := by
  obtain ⟨htable, hunruled, -⟩ := h.of_running hs hrunning
  let i := T.plane.handles.length
  let p := (T.plane.newHandle {}).2
  have hlabel : (p.exchange s.exchange).number = s.number := h.labelled s hs
  have hnew : (p.handle i).decision = none :=
    congrArg Prepared.decision ((handle_newHandle ..).trans (if_pos rfl))
  rw [prepare]
  dsimp only
  split
  · rename_i hopen
    have hshift : T.Shift a s (.enrolled i) p := h.shift_newHandle hs hrunning rfl
    obtain ⟨hshift', htable'⟩ := hshift.enrolls (.prepared (p.exchange s.exchange).number i)
      (fun n hn => Function.update_of_ne (hlabel ▸ hn) ..)
      (fun j hj => by rwa [Enrollment.note, hlabel, Function.update_self] at hj)
    have hnoted : Enrollment.note (p.actor a).table (.prepared (p.exchange s.exchange).number i)
        s.number = some i := by
      rw [Enrollment.note, hlabel, Function.update_self]
    exact ⟨.enrolled i, _, rfl, hshift', .pending rfl hnew (hshift'.isOpen.trans hopen)
      ((congrFun htable' _).trans hnoted) hunruled⟩
  · have hshift : T.Shift a s (.withdrawn i) p := h.shift_newHandle hs hrunning rfl
    have hlt : i < p.handles.length := (hshift.handle i rfl).1
    refine ⟨.withdrawn i, _, rfl, hshift.decides rfl .rollback,
      .rolledBack rfl ?_ htable hunruled (.inl rfl)⟩
    rw [decision_decideAndDrop, if_pos ⟨rfl, hlt⟩, hnew]
    rfl

/-- **An operation tells its follower that it prepared**, or rolls back without one. -/
theorem Sound.announces (h : T.Sound a) (hs : s ∈ T.errands) {i : Nat}
    (henrolled : s.standing = .enrolled i) (tentative : Value) :
    T.GetsOn a s (T.announce a s i tentative) := by
  have hi : s.standing.handle? = some i := by rw [henrolled]; rfl
  have hlt : i < T.plane.handles.length := h.handled s hs i hi
  rw [announce]
  split
  · have hshift : T.Shift a s (.announced i) T.plane := h.shift_same hs hi rfl fun _ => ⟨i, rfl⟩
    refine ⟨.announced i, _, rfl, hshift.sends h hs tentative, ?_⟩
    rcases (h.fits s hs).of_handle hi with
      ⟨hd, ho, ht, hn⟩ | ⟨g, hg, hn, hacked, hd, ht⟩ | ⟨hd, ht, hn, hwhy⟩
    · exact .pending rfl hd ho ht hn
    · exact .decided rfl hg hn hacked hd ht
    · refine .rolledBack rfl hd ht hn (hwhy.imp_left fun hw => ?_)
      cases henrolled.symm.trans hw
  · have hshift : T.Shift a s (.withdrawn i) T.plane := by
      refine h.shift_same hs hi rfl fun htold => ?_
      obtain ⟨j, hj⟩ := h.told s hs htold
      cases henrolled.symm.trans hj
    have hlabel := h.labelled s hs
    obtain ⟨hshift', htable⟩ := (hshift.decides rfl .rollback).enrolls
      (.withdrawn (T.plane.exchange s.exchange).number)
      (fun n hn => Function.update_of_ne (hlabel ▸ hn) ..)
      (fun j hj => by rw [Enrollment.note, hlabel, Function.update_self] at hj; cases hj)
    refine ⟨.withdrawn i, _, rfl, hshift', ?_⟩
    have hnoted : Enrollment.note ((T.plane.decideAndDrop i .rollback).actor a).table
        (.withdrawn (T.plane.exchange s.exchange).number) s.number = none := by
      rw [Enrollment.note, hlabel, Function.update_self]
    have hnone := (congrFun htable s.number).trans hnoted
    have hrolled : ∀ {d}, (T.plane.handle i).decision = d →
        ((T.plane.decideAndDrop i .rollback).handle i).decision = some (d.getD .rollback) := by
      rintro d rfl
      rw [decision_decideAndDrop, if_pos ⟨rfl, hlt⟩]
    rcases (h.fits s hs).of_handle hi with
      ⟨hd, -, -, hn⟩ | ⟨g, hg, hn, hacked, hd, -⟩ | ⟨hd, -, hn, -⟩
    · exact .rolledBack rfl (hrolled hd) hnone hn (.inl rfl)
    · exact .decided rfl hg hn hacked (hrolled hd) hnone
    · exact .rolledBack rfl (hrolled hd) hnone hn (.inl rfl)

end Traffic

end ManagementPlane
