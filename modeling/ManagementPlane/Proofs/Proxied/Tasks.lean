import ManagementPlane.Proofs.Proxied.Deals

/-!
# Proofs/Proxied/Tasks — what goes on around the operations

Relays, followers, actors and the participants in the background move handles, but tell no prepared
participant what its forwarded step has decided; only `Task.prepareLate` reports anything on its own
(`Task.moved_advance`).
-/

namespace ManagementPlane

open Plane

/-- What is left of a task. -/
def Progress.remains : Progress → List Task
  | going t => [t]
  | blocked t => [t]
  | finished => []

namespace Task

/-- The operations of a task, the running one first. -/
def stack : Task → List Execution
  | operation stack _ => stack
  | _ => []

/-- The forwarded step that a task will report to on its own. -/
def late? : Task → Option Nat
  | prepareLate _ f _ => some f
  | _ => none

end Task

/-! ## Actors -/

namespace Actor

theorem handles_receive? {a b : Actor} {r : ActorRequest} (h : a.receive? = some (r, b)) :
    b.handles = a.handles := by
  rw [receive?] at h
  split at h
  · cases h
  · split at h
    · cases h
      rfl
    · cases h
      rfl

theorem handles_forget (a : Actor) (number : Nat) : (a.forget number).handles ⊆ a.handles := by
  intro h hh
  simp only [handles, forget, List.mem_append, List.mem_map, List.mem_filter] at hh ⊢
  rcases hh with hh | ⟨entry, ⟨hentry, -⟩, rfl⟩
  · exact .inl hh
  · exact .inr ⟨entry, hentry, rfl⟩

/-- The actor notes an enrollment: its handle moves on to the table. -/
theorem handles_enroll {a : Actor} {e : Enrollment} {rest : List Enrollment}
    (he : a.enrollments = e :: rest) :
    ({ a with enrollments := rest }.enroll e).handles ⊆ a.handles := by
  intro h hh
  cases e with
  | prepared number handle =>
    have hforget := handles_forget { a with enrollments := rest } number
    rw [handles, enroll, List.map_append, ← List.append_assoc] at hh
    rcases List.mem_append.mp hh with hh | hh
    · have hold := hforget hh
      simp only [handles, he, List.filterMap_cons, Enrollment.handle?, List.mem_append,
        List.mem_cons] at hold ⊢
      exact hold.imp_left .inr
    · simp only [handles, he, List.filterMap_cons, Enrollment.handle?, List.mem_append,
        List.mem_cons]
      exact .inl (.inl (by simpa using hh))
  | withdrawn number =>
    have hforget := handles_forget { a with enrollments := rest } number hh
    simpa [handles, he, Enrollment.handle?] using hforget

theorem handles_serve (a : Actor) (r : ActorRequest) : (a.serve r).2.handles ⊆ a.handles := by
  cases r with
  | execute number exchange operation input => exact List.Subset.refl _
  | resolve number decision reply =>
    rw [serve]
    split
    · exact handles_forget a number
    · exact List.Subset.refl _

/-- An actor loses handles on its turns, and gets no new ones. -/
theorem handles_poll (a : Actor) : a.poll.2.handles ⊆ a.handles := by
  rw [poll]
  split
  · rename_i e rest he
    exact handles_enroll he
  · split
    · rename_i r b hreceive
      exact handles_receive? hreceive ▸ handles_serve b r
    · split
      · intro h hh
        exact List.mem_append_left _ (by simpa [handles] using hh)
      · exact List.Subset.refl _

/-- An actor decides only what it was given. -/
theorem mem_handles_of_decide {a : Actor} {h : Nat} {d : Decision} {r : Nat}
    (hpoll : a.poll.1 = .decide h d r) : h ∈ a.handles := by
  rw [poll] at hpoll
  split at hpoll
  · cases hpoll
  · split at hpoll
    · rename_i request b hreceive
      rw [← handles_receive? hreceive]
      cases request with
      | execute number exchange operation input => cases hpoll
      | resolve number decision reply =>
        rw [serve] at hpoll
        split at hpoll
        · rename_i handle hhandle
          cases hpoll
          obtain ⟨entry, hentry, rfl⟩ := Option.map_eq_some_iff.mp hhandle
          exact List.mem_append_right _ (List.mem_map_of_mem (List.mem_of_find?_eq_some hentry))
        · cases hpoll
    · split at hpoll <;> cases hpoll

theorem mem_handles_of_stop {a : Actor} {hs : List Nat} (hpoll : a.poll.1 = .stop hs) :
    hs ⊆ a.handles := by
  rw [poll] at hpoll
  split at hpoll
  · cases hpoll
  · split at hpoll
    · rename_i request b hreceive
      cases request with
      | execute number exchange operation input => cases hpoll
      | resolve number decision reply =>
        rw [serve] at hpoll
        split at hpoll <;> cases hpoll
    · split at hpoll
      · cases hpoll
        exact List.subset_append_right _ _
      · cases hpoll

end Actor

namespace Plane

variable {heard : Nat → Prop} {p q : Plane}

/-- What an actor was given, nobody else reaches. -/
theorem Tidy.loose (hp : p.Tidy) {a h : Nat} (hh : h ∈ (p.actor a).handles) : p.Loose h := by
  intro k hk
  have hactor : h ∈ p.handlesAt (.actor a) := hh
  rw [hp.apart hk hactor]
  rfl

theorem Eases.loose (h : p.Eases q) {i : Nat} (hi : p.Loose i) : q.Loose i := fun k hk =>
  hi k (h.handlesAt k hk)

end Plane

/-! ## Turns of the other tasks -/

namespace Origin

theorem eases_tell (o : Origin) (p : Plane) (answer : Answer) : p.Eases (o.tell p answer) := by
  cases o with
  | ticket t => exact (Eases.refl p).modifyTicket t fun _ => rfl
  | link l => exact (Eases.refl p).modifyLink l fun _ => .inl rfl
  | exchange e => exact (Eases.refl p).same rfl rfl rfl rfl rfl

theorem eases_tellCrash (o : Origin) (p : Plane) (reason : String) :
    p.Eases (o.tellCrash p reason) := by
  cases o with
  | ticket t => exact (Eases.refl p).modifyTicket t fun _ => rfl
  | link l => exact (Eases.refl p).modifyLink l fun _ => .inl rfl
  | exchange e => exact (Eases.refl p).same rfl rfl rfl rfl rfl

end Origin

namespace Task

variable {p : Plane}

/-- **What a task that is no operation does**: it reports to its own step at most, goes on as a task
of its kind, and what it starts did nothing yet. -/
structure Moved (t : Task) (p : Plane) (m : Move) : Prop where
  moves : Moves (fun f => t.late? = some f) p m.plane
  remains : ∀ s ∈ m.progress.remains, s.stack = [] ∧ ∀ f, s.late? = some f → t.late? = some f
  spawned : ∀ s ∈ m.spawned, s.Begins fun _ => False

theorem Moved.of_eases {t : Task} {m : Move} (h : p.Eases m.plane)
    (hremains : ∀ s ∈ m.progress.remains, s.stack = [] ∧ ∀ f, s.late? = some f → t.late? = some f)
    (hspawned : m.spawned = []) : t.Moved p m :=
  ⟨h.moves, hremains, by simp [hspawned]⟩

theorem moved_follow (p : Plane) (a e f : Nat) (sink : Sink) (state : Follow) :
    (follow a e f sink state).Moved p (advanceFollow p a e f sink state) := by
  have hgo : ∀ {q : Plane} (state' : Follow), p.Eases q → (follow a e f sink state).Moved p
      { plane := q, progress := .going (.follow a e f sink state') } :=
    fun state' hq => .of_eases hq (by simp [Progress.remains, stack, late?]) rfl
  have hstay : (follow a e f sink state).Moved p
      { plane := p, progress := .blocked (.follow a e f sink state) } :=
    .of_eases (.refl p) (by simp [Progress.remains, stack, late?]) rfl
  have hfinish : ∀ {q : Plane} (response : Value), p.Eases q → (follow a e f sink state).Moved p
      { plane := ((q.completeForward f response).modifyExchange e Exchange.leave).modifyActor a
          fun k => { k with clients := k.clients - 1 }
        progress := .finished } := by
    intro q response hq
    refine .of_eases ?_ (by simp [Progress.remains]) rfl
    have hcompleted := hq.trans (eases_completeForward q f response)
    have hleft : p.Eases ((q.completeForward f response).modifyExchange e Exchange.leave) :=
      hcompleted.same rfl rfl rfl rfl rfl
    exact hleft.modifyActor a (List.Subset.refl _)
  rw [advanceFollow.eq_def]
  dsimp only
  cases state with
  | deciding h =>
    have hleft : p.Eases (p.modifyHandle h Prepared.leave) :=
      (Eases.refl p).modifyHandle h (fun _ => rfl) fun _ => rfl
    dsimp only
    split
    · exact hstay
    · split
      · refine hgo _ ?_
        have hreply : p.Eases (p.modifyHandle h Prepared.leave).newReply.2 :=
          hleft.same rfl rfl rfl rfl rfl
        exact Forwarding.eases_send hreply a _
      · exact hgo _ hleft
  | sending ticket r =>
    dsimp only
    split
    · exact hgo _ (.refl p)
    · split
      · exact hgo _ (.refl p)
      · exact hstay
  | replying r =>
    dsimp only
    split
    · exact hstay
    · exact hgo _ (.refl p)
  | finishing =>
    have hseen : p.Eases (p.modifyExchange e fun _ => (p.exchange e).next.2) :=
      (Eases.refl p).same rfl rfl rfl rfl rfl
    dsimp only
    split
    · rename_i m hm
      refine hgo _ ?_
      cases sink <;> exact hseen.same rfl rfl rfl rfl rfl
    · exact hgo _ hseen
    · exact hfinish _ hseen
    · exact hfinish _ hseen
    · exact hstay

theorem moved_serve (p : Plane) (a : Nat) : (serve a).Moved p (advanceServe p a) := by
  have hremains : ∀ {progress : Progress}, progress = .going (serve a) ∨
      progress = .blocked (serve a) ∨ progress = .finished → ∀ s ∈ progress.remains,
        s.stack = [] ∧ ∀ f, s.late? = some f → (serve a).late? = some f := by
    rintro progress (rfl | rfl | rfl) <;> simp [Progress.remains, stack, late?]
  rw [advanceServe]
  split
  · exact .of_eases (.refl p) (hremains (.inr (.inr rfl))) rfl
  · have hpolled : p.Eases (p.modifyActor a fun _ => (p.actor a).poll.2) :=
      (Eases.refl p).modifyActor a (Actor.handles_poll _)
    dsimp only
    split
    · exact .of_eases hpolled (hremains (.inl rfl)) rfl
    · refine ⟨hpolled.moves, hremains (.inl rfl), ?_⟩
      intro s hs
      rw [List.mem_singleton.mp hs]
      exact ⟨_, _, _, _, _, rfl⟩
    · rename_i h d r hturn
      refine ⟨?_, hremains (.inl rfl), by simp⟩
      refine hpolled.moves.bind fun hp => ?_
      have hloose := hpolled.loose (hp.loose (Actor.mem_handles_of_decide hturn))
      exact (moves_decideAndDrop hloose d).same rfl rfl rfl rfl rfl
    · exact .of_eases (hpolled.same rfl rfl rfl rfl rfl) (hremains (.inl rfl)) rfl
    · rename_i hs hturn
      refine ⟨hpolled.moves.bind fun hp => ?_, hremains (.inr (.inr rfl)), by simp⟩
      refine (moves_foldl (I := fun q => ∀ h ∈ hs, q.Loose h) hs ?_ _ ?_).1
      · exact fun q h hh hq => ⟨moves_decideAndDrop (hq h hh) .rollback, hq⟩
      · intro h hh
        exact hpolled.loose (hp.loose (Actor.mem_handles_of_stop hturn hh))
    · exact .of_eases hpolled (hremains (.inr (.inl rfl))) rfl

theorem moved_advance {t : Task} (p : Plane) (ht : ∀ stack origin, t ≠ .operation stack origin) :
    t.Moved p (t.advance p) := by
  have hstay : t.Moved p { plane := p, progress := .blocked t } :=
    .of_eases (.refl p) (by cases t <;> simp_all [Progress.remains, stack]) rfl
  have hhalt : ∀ {q : Plane}, p.Eases q → t.Moved p { plane := q, progress := .finished } :=
    fun hq => .of_eases hq (by simp [Progress.remains]) rfl
  cases t with
  | operation stack origin => exact absurd rfl (ht stack origin)
  | relay l f =>
    rw [advance]
    dsimp only
    split
    · exact hhalt (eases_completeForward p f _)
    · exact hhalt ((Eases.refl p).modifyForward f Forward.eases_release)
    · exact hstay
  | follow a e f sink state => exact moved_follow p a e f sink state
  | serve a => exact moved_serve p a
  | expect m h f result =>
    rw [advance]
    dsimp only
    split
    · rename_i d hd
      have hnoted : p.Eases (p.modifyMock m fun k => { k with decisions := k.decisions ++ [d] }) :=
        (Eases.refl p).same rfl rfl rfl rfl rfl
      exact hhalt (hnoted.trans (eases_completeForward _ f _))
    · exact hstay
  | watch label h =>
    have hlog : ∀ line, p.Eases (p.writeLog line) := fun line =>
      (Eases.refl p).same rfl rfl rfl rfl rfl
    rw [advance]
    dsimp only
    split
    · exact hstay
    · exact hhalt (hlog _)
    · exact hhalt (hlog _)
  | prepareLate wake f response =>
    rw [advance]
    dsimp only
    split
    · refine ⟨?_, by simp [Progress.remains, stack, late?], by simp⟩
      have huntouched : Prepared.Untouched {} := ⟨rfl, le_rfl⟩
      have hprepared := (moves_prepare p f huntouched response).trans
        ((Eases.refl _).modifyForward f Forward.eases_release).moves
      exact hprepared.mono fun g hg => congrArg some hg.symm
    · exact hstay
  | completeTwice h f response =>
    rw [advance]
    dsimp only
    split
    · have hcompleted : p.Eases (p.modifyForward f (·.complete response)) :=
        (Eases.refl p).modifyForward f fun x => x.eases_complete response
      exact hhalt (hcompleted.trans (eases_completeForward _ f response))
    · exact hstay
  | cancelAt wake c =>
    rw [advance]
    dsimp only
    split
    · exact hhalt ((Eases.refl p).same rfl rfl rfl rfl rfl)
    · exact hstay

end Task

end ManagementPlane
