import ManagementPlane.Proofs.Transport.Requests

/-!
# Proofs/Transport/Turns — what the actor makes of its channel

A turn of the actor notes an enrollment, starts an operation, acknowledges or refuses the oldest
decision, or ends (`Polls`, `Turned`).  Each keeps what holds (`Sound.polls`), and brings the first
decision in the channel nearer to its answer (`Polls.nearer`).
-/

namespace ManagementPlane

open Plane

namespace Traffic

variable {T : Traffic} {a : Nat} {s t : Errand} {q : Plane}

/-! ## The actor -/

theorem receive_eq {k b : Actor} {request : ActorRequest} (h : k.receive? = some (request, b)) :
    b = { k with requests := b.requests, backlog := b.backlog } := by
  rw [Actor.receive?] at h
  split at h
  · cases h
  · split at h <;> cases h <;> rfl

theorem receive_keeps {k b : Actor} {request : ActorRequest} (h : k.receive? = some (request, b)) :
    b.enrollments = k.enrollments ∧ b.pending = k.pending ∧ b.isOpen = k.isOpen ∧
      b.nextNumber = k.nextNumber := by
  rw [receive_eq h]
  exact ⟨rfl, rfl, rfl, rfl⟩

theorem receive_none {k : Actor} (hk : k.Flows) (h : k.receive? = none) : k.asked = [] := by
  rw [Actor.receive?] at h
  split at h
  · rename_i hrequests
    rw [Actor.asked, Actor.queue, hrequests, hk.2 hrequests]
    rfl
  · split at h <;> cases h

theorem asked_receive {k b : Actor} {request : ActorRequest} (h : k.receive? = some (request, b)) :
    k.asked = request.ruling?.toList ++ b.asked := by
  rw [Actor.asked, Actor.queue_receive h]
  cases request <;> rfl

theorem table_congr {k b : Actor} (henrollments : b.enrollments = k.enrollments)
    (hpending : b.pending = k.pending) : b.table = k.table := by
  have hhandles : b.handleOf? = k.handleOf? := by
    funext n
    rw [Actor.handleOf?, hpending, Actor.handleOf?]
  rw [Actor.table, henrollments, hhandles, Actor.table]

/-- The turns of an actor. -/
inductive Polls (k : Actor) : Actor.Turn → Actor → Prop
  | enrolls {e : Enrollment} {rest : List Enrollment} (h : k.enrollments = e :: rest) :
    Polls k .enrolled ({ k with enrollments := rest }.enroll e)
  | starts {n e : Nat} {operation : Value} {input : Input} {b : Actor}
    (hreceive : k.receive? = some (.execute n e operation input, b)) :
    Polls k (.start n e operation input) b
  | decides {n : Nat} {d : Decision} {r i : Nat} {b : Actor} (hdrained : k.enrollments = [])
    (hreceive : k.receive? = some (.resolve n d r, b)) (hpending : b.handleOf? n = some i) :
    Polls k (.decide i d r) (b.forget n)
  | refuses {n : Nat} {d : Decision} {r : Nat} {b : Actor} (hdrained : k.enrollments = [])
    (hreceive : k.receive? = some (.resolve n d r, b)) (hunknown : b.handleOf? n = none) :
    Polls k (.refuse n r) b
  | stops (hdrained : k.enrollments = []) (hreceive : k.receive? = none) :
    Polls k (.stop (k.pending.map Prod.snd)) { k with pending := [], isOpen := false }
  | waits (hreceive : k.receive? = none) : Polls k .wait k

theorem polls_poll (k : Actor) : Polls k k.poll.1 k.poll.2 := by
  rw [Actor.poll.eq_def]
  split
  · rename_i e rest henrollments
    exact .enrolls henrollments
  · rename_i hdrained
    split
    · rename_i request b hreceive
      cases request with
      | execute n e operation input => exact .starts hreceive
      | resolve n d r =>
        rw [Actor.serve]
        split
        · rename_i i hi
          exact .decides hdrained hreceive hi
        · rename_i hi
          exact .refuses hdrained hreceive hi
    · rename_i hreceive
      split
      · exact .stops hdrained hreceive
      · exact .waits hreceive

/-- Every turn answers the first decision in the channel, or brings it nearer. -/
theorem Polls.nearer {k b : Actor} {turn : Actor.Turn} (hpolls : Polls k turn b) (hk : k.Flows)
    {e : Nat × Decision × Nat} (he : e ∈ k.asked) :
    (∃ i, turn = .decide i e.2.1 e.2.2) ∨ turn = .refuse e.1 e.2.2 ∨
      b.isOpen = k.isOpen ∧ e ∈ b.asked ∧
        b.enrollments.length + b.queue.length < k.enrollments.length + k.queue.length := by
  have hreceives : ∀ {request c}, k.receive? = some (request, c) →
      c.enrollments.length + c.queue.length < k.enrollments.length + k.queue.length := by
    intro request c hreceive
    rw [(receive_keeps hreceive).1, Actor.queue_receive hreceive, List.length_cons]
    omega
  cases hpolls with
  | @enrolls new rest henrollments =>
    refine .inr (.inr ⟨?_, ?_, ?_⟩)
    · cases new <;> rfl
    · cases new <;> exact he
    · rw [henrollments, List.length_cons]
      cases new <;> exact Nat.add_lt_add_right (Nat.lt_succ_self _) _
  | starts hreceive =>
    rw [asked_receive hreceive] at he
    exact .inr (.inr ⟨(receive_keeps hreceive).2.2.1, he, hreceives hreceive⟩)
  | @decides n d r i c hdrained hreceive hpending =>
    rw [asked_receive hreceive] at he
    have hless := hreceives hreceive
    rcases List.mem_cons.mp he with rfl | he
    · exact .inl ⟨i, rfl⟩
    · exact .inr (.inr ⟨(receive_keeps hreceive).2.2.1, he, hless⟩)
  | @refuses n d r c hdrained hreceive hunknown =>
    rw [asked_receive hreceive] at he
    rcases List.mem_cons.mp he with rfl | he
    · exact .inr (.inl rfl)
    · exact .inr (.inr ⟨(receive_keeps hreceive).2.2.1, he, hreceives hreceive⟩)
  | stops _ hreceive | waits hreceive =>
    rw [receive_none hk hreceive] at he
    cases he

/-- What a turn means for the plane. -/
def effect (p : Plane) : Actor.Turn → Plane
  | .decide h d r => (p.decideAndDrop h d).setReply r (.answered (.ok ()))
  | .refuse n r => p.setReply r (.answered (.error (.unknownExchange n)))
  | .stop handles => handles.foldl (fun p h => p.decideAndDrop h .rollback) p
  | _ => p

theorem plane_poll (hopen : (T.plane.actor a).isOpen = true) :
    ∃ turn b, Polls (T.plane.actor a) turn b ∧
      (T.poll a).plane = effect (T.plane.modifyActor a fun _ => b) turn := by
  refine ⟨_, _, polls_poll _, ?_⟩
  rw [poll, Task.advance, Task.advanceServe]
  dsimp only
  rw [hopen, Bool.not_true, if_neg Bool.false_ne_true]
  generalize (T.plane.actor a).poll = result
  obtain ⟨turn, b⟩ := result
  cases turn <;> rfl

/-- An actor that has ended takes no turns. -/
theorem plane_poll_closed (hclosed : (T.plane.actor a).isOpen = false) :
    (T.poll a).plane = T.plane := by
  rw [poll, Task.advance, Task.advanceServe]
  dsimp only
  rw [hclosed, Bool.not_false, if_pos rfl]

/-- What a turn of the actor makes of the plane. -/
inductive Turned (T : Traffic) (a : Nat) : Plane → Prop
  /-- It has ended, notes an enrollment, starts an operation, or has nothing to do. -/
  | quiet {q : Plane} (hq : T.Calm a q) : Turned T a q
  | decides {n : Nat} {d : Decision} {r i : Nat} {b : Actor}
    (hopen : (T.plane.actor a).isOpen = true) (hdrained : (T.plane.actor a).enrollments = [])
    (hreceive : (T.plane.actor a).receive? = some (.resolve n d r, b))
    (hpending : b.handleOf? n = some i) :
    Turned T a (((T.plane.modifyActor a fun _ => b.forget n).decideAndDrop i d).setReply r
      (.answered (.ok ())))
  | refuses {n : Nat} {d : Decision} {r : Nat} {b : Actor}
    (hopen : (T.plane.actor a).isOpen = true) (hdrained : (T.plane.actor a).enrollments = [])
    (hreceive : (T.plane.actor a).receive? = some (.resolve n d r, b))
    (hunknown : b.handleOf? n = none) :
    Turned T a ((T.plane.modifyActor a fun _ => b).setReply r
      (.answered (.error (.unknownExchange n))))
  | stops (hopen : (T.plane.actor a).isOpen = true)
      (hdrained : (T.plane.actor a).enrollments = []) :
    Turned T a (((T.plane.actor a).pending.map Prod.snd).foldl
      (fun p h => p.decideAndDrop h .rollback)
      (T.plane.modifyActor a fun _ => { T.plane.actor a with pending := [], isOpen := false }))

theorem turned_poll (h : T.Sound a) : T.Turned a (T.poll a).plane := by
  by_cases hopen : (T.plane.actor a).isOpen = true
  · obtain ⟨turn, b, hpolls, hplane⟩ := plane_poll hopen
    rw [hplane]
    cases hpolls with
    | @enrolls e rest henrollments =>
      refine .quiet (h.calm_refl.modifyActor _ ?_ (Actor.table_enroll henrollments) ?_ ?_ ?_) <;>
        cases e
      · exact h.flows
      · exact h.flows
      · rfl
      · rfl
      · exact le_rfl
      · exact le_rfl
      · exact List.Sublist.refl _
      · exact List.Sublist.refl _
    | starts hreceive =>
      obtain ⟨henrollments, hpending, hisOpen, hnext⟩ := receive_keeps hreceive
      refine .quiet (h.calm_refl.modifyActor _ (h.flows.receive hreceive)
        (table_congr henrollments hpending) hisOpen hnext.ge ?_)
      rw [Actor.asked, Actor.asked, Actor.queue_receive hreceive]
      exact List.Sublist.refl _
    | decides hdrained hreceive hpending => exact .decides hopen hdrained hreceive hpending
    | refuses hdrained hreceive hunknown => exact .refuses hopen hdrained hreceive hunknown
    | stops hdrained => exact .stops hopen hdrained
    | waits => exact .quiet (h.calm_refl.modifyActor _ h.flows rfl rfl le_rfl (List.Sublist.refl _))
  · rw [plane_poll_closed (Bool.eq_false_iff.mpr hopen)]
    exact .quiet h.calm_refl

/-- Rolling back many handles changes nothing else. -/
theorem foldl_rollback (hs : List Nat) (p : Plane) :
    ∃ handles, hs.foldl (fun p h => p.decideAndDrop h .rollback) p = { p with handles } ∧
      handles.length = p.handles.length ∧
      ∀ i, (Plane.handle { p with handles } i).decision =
        if i ∈ hs ∧ i < p.handles.length then some ((p.handle i).decision.getD .rollback)
        else (p.handle i).decision := by
  induction hs generalizing p with
  | nil => exact ⟨p.handles, rfl, rfl, fun i => by simp⟩
  | cons h hs ih =>
    obtain ⟨handles, hfold, hlength, hdecision⟩ := ih (p.decideAndDrop h .rollback)
    have hlength' := p.handles_decideAndDrop h .rollback
    refine ⟨handles, hfold, hlength.trans hlength', fun i => ?_⟩
    refine (hdecision i).trans ?_
    rw [hlength', decision_decideAndDrop]
    by_cases hi : i < p.handles.length
    · by_cases hih : h = i
      · subst hih
        simp [hi]
      · simp [hi, hih, Ne.symm hih]
    · simp [hi]

theorem actor_effect (p : Plane) (turn : Actor.Turn) : (effect p turn).actor a = p.actor a := by
  cases turn with
  | stop handles =>
    obtain ⟨_, hfold, -, -⟩ := foldl_rollback handles p
    rw [effect, hfold]
    rfl
  | _ => rfl

/-- What is noted under a number that waits, and what is undecided, belong together. -/
theorem Sound.pending (h : T.Sound a) {n i : Nat} (hi : (T.plane.actor a).table n = some i) :
    (T.plane.handle i).decision = none ∧ T.Unruled n ∧ i < T.plane.handles.length ∧
      ∃ s ∈ T.errands, s.number = n ∧ s.standing.handle? = some i := by
  obtain ⟨s, hs, rfl, hhandle⟩ := h.table n i hi
  rcases (h.fits s hs).of_handle hhandle with
    ⟨hd, -, -, hn⟩ | ⟨-, -, -, -, -, ht⟩ | ⟨-, ht, -, -⟩
  · exact ⟨hd, hn, h.handled s hs _ hhandle, s, hs, rfl, hhandle⟩
  · cases ht.symm.trans hi
  · cases ht.symm.trans hi

section Turn

variable {n : Nat} {d : Decision} {r : Nat} {b : Actor} (h : T.Sound a)
  (hdrained : (T.plane.actor a).enrollments = [])
  (hreceive : (T.plane.actor a).receive? = some (.resolve n d r, b))

include h hdrained hreceive

/-- The actor takes a decision from its channel. -/
theorem Sound.receives :
    b.table = (T.plane.actor a).table ∧ b.table = b.handleOf? ∧ b.enrollments = [] ∧
      (T.plane.actor a).asked = (n, d, r) :: b.asked ∧
      ∃ g ∈ T.rulings, g.number = n ∧ g.decision = d ∧ g.reply = r ∧
        T.plane.reply r = .awaited := by
  obtain ⟨henrollments, hpending, -, -⟩ := receive_keeps hreceive
  have hasked : (T.plane.actor a).asked = (n, d, r) :: b.asked := by
    rw [Actor.asked, Actor.queue_receive hreceive]
    rfl
  obtain ⟨hawaited, g, hg, hgn, hgd, hgr⟩ := h.queued n d r (hasked ▸ List.mem_cons_self)
  exact ⟨table_congr henrollments hpending, Actor.table_of_drained (henrollments.trans hdrained),
    henrollments.trans hdrained, hasked, g, hg, hgn, hgd, hgr, hawaited⟩

/-- Whatever the actor answers, it answers the oldest decision. -/
theorem Sound.serves_receive {c : Actor} (hc : c = { b with pending := c.pending })
    (htable : ∀ m i, c.table m = some i → (T.plane.actor a).table m = some i)
    (handles : List Prepared) (hlength : handles.length = T.plane.handles.length)
    (hfirm : ∀ i e, (T.plane.handle i).decision = some e →
      (Plane.handle { T.plane with handles } i).decision = some e)
    (out : Except TransportError Unit) :
    T.Serves a n d r out
      (setReply { T.plane.modifyActor a fun _ => c with handles } r (.answered out)) := by
  obtain ⟨-, -, -, hasked, g, hg, -, -, rfl, -⟩ := h.receives hdrained hreceive
  have hactor : (T.plane.modifyActor a fun _ => c).actor a = c :=
    T.plane.actor_modifyActor_self h.live fun _ => c
  have hkept := h.flows.receive hreceive
  have hflows : c.Flows := by
    rw [hc]
    exact hkept
  have hnext : c.nextNumber = (T.plane.actor a).nextNumber := by
    rw [hc]
    exact (receive_keeps hreceive).2.2.2
  have hsame : c.asked = b.asked := by
    rw [hc]
    rfl
  constructor
  case live => exact (List.length_modify _ _ _).symm ▸ h.live
  case flows => exact (congrArg Actor.Flows hactor).mpr hflows
  case nextNumber => exact (congrArg Actor.nextNumber hactor).trans hnext
  case asked => exact hasked.trans (congrArg _ ((congrArg Actor.asked hactor).trans hsame).symm)
  case table => exact fun m i hi => htable m i (congrFun (congrArg Actor.table hactor) m ▸ hi)
  case exchanges => rfl
  case handles => exact hlength
  case firm => exact hfirm
  case replies => exact List.length_set
  case reply =>
    intro j
    refine (reply_setReply ..).trans ?_
    by_cases hj : j = g.reply
    · subst hj
      rw [if_pos ⟨rfl, h.replied g hg⟩, if_pos rfl]
    · rw [if_neg fun heq => hj heq.1.symm, if_neg hj]
      rfl

/-- **A decision is acknowledged.** -/
theorem Sound.decides {i : Nat} (hpending : b.handleOf? n = some i) :
    Sound { T with
      plane := ((T.plane.modifyActor a fun _ => b.forget n).decideAndDrop i d).setReply r
        (.answered (.ok ())) } a := by
  let q := ((T.plane.modifyActor a fun _ => b.forget n).decideAndDrop i d).setReply r
    (.answered (.ok ()))
  obtain ⟨htable, hdirect, hnoted, hasked, g, hg, rfl, rfl, rfl, hawaited⟩ :=
    h.receives hdrained hreceive
  obtain ⟨-, -, hisOpen, -⟩ := receive_keeps hreceive
  have hactor : q.actor a = b.forget g.number := T.plane.actor_modifyActor_self h.live fun _ => _
  have hupdated : (q.actor a).table = Function.update (T.plane.actor a).table g.number none := by
    rw [hactor, Actor.table_of_drained (show (b.forget g.number).enrollments = [] from hnoted),
      Actor.handleOf?_forget, ← hdirect, htable]
  have hi : (T.plane.actor a).table g.number = some i := by rw [← htable, hdirect, hpending]
  obtain ⟨hundecided, hunruled, hlt, s, hs, hnumber, hhandle⟩ := h.pending hi
  have hdecision : ∀ j, (q.handle j).decision =
      if i = j ∧ j < T.plane.handles.length then
        some ((T.plane.handle j).decision.getD g.decision) else (T.plane.handle j).decision :=
    fun j => decision_decideAndDrop ..
  have hdecided : (q.handle i).decision = some g.decision := by
    rw [hdecision, if_pos ⟨rfl, hlt⟩, hundecided]
    rfl
  have hserves : T.Serves a g.number g.decision g.reply (.ok ()) q := by
    refine h.serves_receive hdrained hreceive rfl (fun m j hj => ?_)
      ((T.plane.modifyActor a fun _ => b.forget g.number).decideAndDrop i g.decision).handles
      (handles_decideAndDrop ..) (fun j e he => firm_decideAndDrop _ he) _
    rw [← hactor, hupdated, Function.update_apply] at hj
    split at hj
    · cases hj
    · exact hj
  refine h.serves hserves (.inl rfl) (fun t ht => ?_) (fun _ => ?_) fun hne => absurd rfl hne
  · by_cases hts : t = s
    · subst hts
      refine .decided hhandle hg hnumber.symm ?_ hdecided ?_
      · exact (hserves.reply g.reply).trans (if_pos rfl)
      · exact (congrFun hupdated _).trans (hnumber ▸ Function.update_self ..)
    · have htn : t.number ≠ g.number := fun heq =>
        hts (h.number_inj ht hs (heq.trans hnumber.symm))
      refine (h.fits t ht).congr (List.Subset.refl _) ?_ ?_ ?_ ?_
      · intro k hk hkn
        rw [and_iff_right hk]
        refine hserves.acks_iff hawaited fun hkr => ?_
        exact absurd (hkn.symm.trans (congrArg Ruling.number (h.ruling_inj hk hg hkr))) htn
      · exact (congrFun hupdated _).trans (Function.update_of_ne htn ..)
      · exact (congrArg Actor.isOpen hactor).trans hisOpen
      · intro j hj
        rw [hdecision, if_neg]
        rintro ⟨rfl, -⟩
        exact hts (h.apart t ht s hs i hj hhandle)
  · exact ⟨hunruled, s, hs, hnumber, i, hhandle, hdecided⟩

/-- **A decision is refused.** -/
theorem Sound.refuses (hopen : (T.plane.actor a).isOpen = true) (hunknown : b.handleOf? n = none) :
    Sound { T with
      plane := (T.plane.modifyActor a fun _ => b).setReply r
        (.answered (.error (.unknownExchange n))) } a := by
  let q := (T.plane.modifyActor a fun _ => b).setReply r (.answered (.error (.unknownExchange n)))
  obtain ⟨htable, hdirect, -, hasked, g, hg, rfl, rfl, rfl, hawaited⟩ :=
    h.receives hdrained hreceive
  obtain ⟨-, -, hisOpen, -⟩ := receive_keeps hreceive
  have hactor : q.actor a = b := T.plane.actor_modifyActor_self h.live fun _ => b
  have hnone : (T.plane.actor a).table g.number = none := by rw [← htable, hdirect, hunknown]
  have hserves : T.Serves a g.number g.decision g.reply (.error (.unknownExchange g.number)) q :=
    h.serves_receive hdrained hreceive rfl (fun m j hj => htable ▸ hj) T.plane.handles rfl
      (fun _ _ he => he) _
  refine h.serves hserves (.inr rfl) (fun t ht => ?_) (by rintro ⟨⟩) fun _ hheard => ?_
  · refine (h.fits t ht).congr (List.Subset.refl _) (fun k hk _ => ?_) ?_ ?_ fun _ _ => rfl
    · rw [and_iff_right hk]
      exact hserves.acks_iff hawaited fun _ => by rintro ⟨⟩
    · exact congrFun ((congrArg Actor.table hactor).trans htable) _
    · exact (congrArg Actor.isOpen hactor).trans hisOpen
  · obtain ⟨s, hs, hnumber⟩ := h.heard _ hheard
    obtain ⟨j, hannounced⟩ := h.told s hs (.inr (hnumber ▸ hheard))
    have hj : s.standing.handle? = some j := by rw [hannounced]; rfl
    rw [← hnumber] at hnone
    -- it was announced and is no longer noted, so it was decided
    rcases (h.fits s hs).of_handle hj with
      ⟨-, -, ht, -⟩ | ⟨k, hk, hkn, hacked, -⟩ | ⟨-, -, -, hw | hclosed⟩
    · cases ht.symm.trans hnone
    · refine ⟨k, hk, ?_, hkn.trans hnumber, hacked⟩
      refine h.served k hk (fun hwaits => ?_) _ (hasked ▸ List.mem_cons_self)
      cases hwaits.symm.trans hacked
    · cases hannounced.symm.trans hw
    · cases hopen.symm.trans hclosed

end Turn

/-- **The actor ends.** -/
theorem Sound.stops (h : T.Sound a) (hdrained : (T.plane.actor a).enrollments = []) :
    Sound { T with
      plane := ((T.plane.actor a).pending.map Prod.snd).foldl
        (fun p h => p.decideAndDrop h .rollback)
        (T.plane.modifyActor a fun _ => { T.plane.actor a with pending := [], isOpen := false }) }
      a := by
  let k : Actor := { T.plane.actor a with pending := [], isOpen := false }
  obtain ⟨handles, hfold, hlength, hdecision⟩ := foldl_rollback
    ((T.plane.actor a).pending.map Prod.snd) (T.plane.modifyActor a fun _ => k)
  rw [hfold]
  let q : Plane := { T.plane.modifyActor a fun _ => k with handles }
  have hlength : q.handles.length = T.plane.handles.length := hlength
  have hdecision : ∀ i, (q.handle i).decision =
      if i ∈ (T.plane.actor a).pending.map Prod.snd ∧ i < T.plane.handles.length then
        some ((T.plane.handle i).decision.getD .rollback)
      else (T.plane.handle i).decision := hdecision
  have hactor : q.actor a = k := T.plane.actor_modifyActor_self h.live fun _ => k
  have hnone : ∀ n, (q.actor a).table n = none := by
    intro n
    rw [hactor, Actor.table_of_drained (show k.enrollments = [] from hdrained)]
    rfl
  have hfirm : ∀ {i d}, (T.plane.handle i).decision = some d → (q.handle i).decision = some d := by
    intro i d hd
    rw [hdecision, hd]
    split <;> rfl
  have hfits : ∀ s ∈ T.errands, Fits { T with plane := q } a s := by
    intro s hs
    cases h.fits s hs with
    | running hst _ hn => exact .running hst (hnone _) hn
    | @pending i hst hd _ ht hn =>
      refine .rolledBack hst ?_ (hnone _) hn (.inr (congrArg Actor.isOpen hactor))
      rw [Actor.table_of_drained hdrained] at ht
      obtain ⟨entry, hentry, rfl⟩ := Option.map_eq_some_iff.mp ht
      have hmem := List.mem_map_of_mem (f := Prod.snd) (List.mem_of_find?_eq_some hentry)
      rw [hdecision, if_pos ⟨hmem, h.handled s hs _ hst⟩, hd]
      rfl
    | decided hst hg hnumber hacked hd _ =>
        exact .decided hst hg hnumber hacked (hfirm hd) (hnone _)
    | rolledBack hst hd _ hn _ =>
      exact .rolledBack hst (hfirm hd) (hnone _) hn (.inr (congrArg Actor.isOpen hactor))
  refine { h with
    live := (List.length_modify _ _ _).symm ▸ h.live
    flows := (congrArg Actor.Flows hactor).mpr h.flows
    numbered := fun s hs => (h.numbered s hs).trans_eq (congrArg Actor.nextNumber hactor).symm
    handled := fun s hs i hi => (h.handled s hs i hi).trans_eq hlength.symm
    table := fun n i hi => by cases (hnone n).symm.trans hi
    fits := hfits
    queued := fun n d r hr => h.queued n d r ((congrArg Actor.asked hactor) ▸ hr)
    sorted := (congrArg Actor.asked hactor).symm ▸ h.sorted
    served := fun g hg hanswered e he =>
      h.served g hg hanswered e ((congrArg Actor.asked hactor) ▸ he)
    effective := fun g hg hacked => ?_ }
  obtain ⟨s, hs, hnumber, i, hi, hd⟩ := h.effective g hg hacked
  exact ⟨s, hs, hnumber, i, hi, hfirm hd⟩

theorem Sound.polls (h : T.Sound a) : (T.poll a).Sound a := by
  have hturned := turned_poll h
  have hpoll : ∀ q, Sound { T with plane := q } a → q = (T.poll a).plane → (T.poll a).Sound a := by
    rintro q hq rfl
    exact hq.calm hq.calm_refl _
  generalize hplane : (T.poll a).plane = q at hturned
  refine hpoll q ?_ hplane.symm
  cases hturned with
  | quiet hq => exact h.calm hq T.started
  | decides _ hdrained hreceive hpending => exact h.decides hdrained hreceive hpending
  | refuses hopen hdrained hreceive hunknown => exact h.refuses hdrained hreceive hopen hunknown
  | stops _ hdrained => exact h.stops hdrained

end Traffic

end ManagementPlane
