import ManagementPlane.Proofs.Proxied.Reports

/-!
# Proofs/Proxied/Handing — handles that are handed to whoever decides

A handle that lies nowhere is held for its caller, offered over a link, enrolled with an actor or
reported to the step that forwarded the operation, as its control says
(`moves_announcePrepared`).  What is taken from an offer lies nowhere again (`spare_take`).
-/

namespace ManagementPlane

namespace Plane

variable {heard : Nat → Prop} {p q r : Plane}

/-- A handle is put in a place of its own. -/
theorem moves_of_places {h : Nat} (hs : p.Spare h) (k₀ : Place) (hk₀ : ∀ f, k₀ ≠ .reports f)
    (hhandles : q.handles = p.handles) (hforwards : q.forwards = p.forwards)
    (hplaces : ∀ {k i}, i ∈ q.handlesAt k → i ∈ p.handlesAt k ∨ i = h ∧ k = k₀) :
    Moves heard p q := by
  intro hp
  have hhandle : ∀ i, q.handle i = p.handle i := fun i => by
    rw [Plane.handle, hhandles, Plane.handle]
  have hforward : ∀ f, q.forward f = p.forward f := fun f => by
    rw [Plane.forward, hforwards, Plane.forward]
  constructor
  · constructor
    · intro k i hk
      rw [hhandles]
      rcases hplaces hk with hk | ⟨rfl, -⟩
      · exact hp.bounded hk
      · exact hs.bounded
    · intro k k' i hk hk'
      rcases hplaces hk with hk | ⟨rfl, rfl⟩
      · rcases hplaces hk' with hk' | ⟨rfl, -⟩
        · exact hp.apart hk hk'
        · exact absurd hk (hs.nowhere k)
      · rcases hplaces hk' with hk' | ⟨-, rfl⟩
        · exact absurd hk' (hs.nowhere k')
        · rfl
    · intro f
      rw [handlesAt, hforward]
      exact hp.nodup f
    · intro f o ho
      rw [hforward] at ho ⊢
      exact hp.first ho
    · intro f i r hr ho
      rw [hforward] at hr ho
      rw [hhandle]
      exact hp.refused hr ho
    · intro l i hl
      rw [hhandle]
      rcases hplaces hl with hl | ⟨rfl, -⟩
      · exact hp.offered hl
      · exact hs.untouched
  · constructor
    · rw [hforwards]
    · intro i d hd
      rwa [hhandle]
    · intro i
      rw [hhandle]
    · intro f
      rw [hforward]
    · intro f o ho
      rwa [hforward]
    · intro f _
      rw [hforward]
    · intro f i _
      rw [hhandle]
      exact ⟨rfl, rfl⟩
    · rintro f i ⟨r, hr⟩
      exact .inl ⟨r, hforward f ▸ hr⟩
    · rintro f ⟨hf, hlistens⟩
      exact ⟨hforwards ▸ hf, hforward f ▸ hlistens⟩

/-- A spare handle is handed to the caller. -/
theorem moves_hold {h : Nat} (hs : p.Spare h) (t : Nat) (tentative : Value) :
    Moves heard p (p.modifyTicket t ({ · with prepared := some (h, tentative) })) := by
  refine moves_of_places hs (.ticket t) (by rintro _ ⟨⟩) rfl rfl ?_
  intro k i hi
  cases k with
  | ticket t' =>
    rw [handlesAt, ticket_modifyTicket] at hi
    split at hi
    · rename_i ht
      exact .inr ⟨by simpa using hi, by rw [ht.1]⟩
    · exact .inl hi
  | _ => exact .inl hi

/-- A spare handle is offered over a link. -/
theorem moves_offer {h : Nat} (hs : p.Spare h) (l : Nat) {link : Link} (tentative : Value)
    (hlink : link.offer = some (h, tentative)) : Moves heard p (p.modifyLink l fun _ => link) := by
  refine moves_of_places hs (.offer l) (by rintro _ ⟨⟩) rfl rfl ?_
  intro k i hi
  cases k with
  | offer l' =>
    rw [handlesAt, link_modifyLink] at hi
    split at hi
    · rename_i hl
      rw [hlink] at hi
      exact .inr ⟨by simpa using hi, by rw [hl.1]⟩
    · exact .inl hi
  | _ => exact .inl hi

/-- An actor that enrolls a handle gets that one and no other. -/
theorem handlesAt_enroll (p : Plane) (a : Nat) (news : Enrollment) {k : Place} {i : Nat}
    (hi : i ∈ (p.modifyActor a fun k =>
      { k with enrollments := k.enrollments ++ [news] }).handlesAt k) :
    i ∈ p.handlesAt k ∨ news.handle? = some i ∧ k = .actor a := by
  cases k with
  | actor a' =>
    rw [handlesAt, actor_modifyActor] at hi
    split at hi
    · rename_i ha
      simp only [Actor.handles, List.filterMap_append, List.mem_append] at hi
      rcases hi with (hi | hi) | hi
      · exact .inl (List.mem_append_left _ hi)
      · obtain ⟨e, he, hi⟩ := List.mem_filterMap.mp hi
        rw [List.mem_singleton.mp he] at hi
        exact .inr ⟨hi, by rw [ha.1]⟩
      · exact .inl (List.mem_append_right _ hi)
    · exact .inl hi
  | _ => exact .inl hi

/-- A spare handle is enrolled with an actor. -/
theorem moves_enroll {h : Nat} (hs : p.Spare h) (a : Nat) (number : Nat) :
    Moves heard p (p.modifyActor a fun k =>
      { k with enrollments := k.enrollments ++ [.prepared number h] }) := by
  refine moves_of_places hs (.actor a) (by rintro _ ⟨⟩) rfl rfl ?_
  intro k i hi
  refine (handlesAt_enroll p a _ hi).imp_right ?_
  rintro ⟨⟨⟩, hk⟩
  exact ⟨rfl, hk⟩

/-- Move after move, with an invariant between them. -/
theorem moves_foldl {α : Type} {I : Plane → Prop} {g : Plane → α → Plane} (l : List α)
    (hg : ∀ q, ∀ a ∈ l, I q → Moves heard q (g q a) ∧ I (g q a)) (p : Plane) (hp : I p) :
    Moves heard p (l.foldl g p) ∧ I (l.foldl g p) := by
  induction l generalizing p with
  | nil => exact ⟨.refl p, hp⟩
  | cons a l ih =>
    obtain ⟨hmoves, hkept⟩ := hg p a List.mem_cons_self hp
    obtain ⟨hmoves', hkept'⟩ := ih (fun q b hb => hg q b (List.mem_cons_of_mem a hb)) _ hkept
    exact ⟨hmoves.trans hmoves', hkept'⟩

/-- **An operation that hands out its own handle moves nothing else.** -/
theorem moves_announcePrepared {h : Nat} (hs : p.Spare h) (control : Control) (tentative : Value) :
    Moves heard p (p.announcePrepared control h tentative) := by
  cases control with
  | decide d => exact moves_decideAndDrop hs.loose d
  | announce decisions =>
    have hlog : Moves heard p (p.writeLog ("prepared: " ++ tentative.render)) :=
      (Moves.refl p).same rfl rfl rfl rfl rfl
    obtain ⟨step, hannounced, hstep⟩ : ∃ step : Plane → Decision → Plane,
        p.announcePrepared (.announce decisions) h tentative
          = (decisions.foldl step (p.writeLog ("prepared: " ++ tentative.render))).modifyHandle h
            Prepared.drop ∧
        ∀ (q : Plane) (d : Decision), q.Loose h → Moves heard q (step q d) ∧ (step q d).Loose h :=
      ⟨_, rfl, fun q d hq => ⟨(moves_decide hq d).same rfl rfl rfl rfl rfl, hq⟩⟩
    obtain ⟨hmoves, hloose⟩ := moves_foldl (I := (Loose · h)) decisions
      (fun q d _ hq => hstep q d hq) (p.writeLog ("prepared: " ++ tentative.render)) hs.loose
    rw [hannounced]
    exact (hlog.trans hmoves).trans (moves_drop hloose)
  | hold t => exact moves_hold hs t tentative
  | relay l =>
    rw [announcePrepared]
    dsimp only
    split
    · rename_i haccepted
      refine moves_offer hs l tentative ?_
      rw [Link.propose] at haccepted ⊢
      split at haccepted
      · rename_i hopen
        rw [if_pos hopen]
      · cases haccepted
    · exact moves_decideAndDrop hs.loose .rollback
  | exchange e a =>
    rw [announcePrepared]
    split
    · have henroll : Moves heard p _ := moves_enroll hs a (p.exchange e).number
      dsimp only
      split
      · exact henroll.same rfl rfl rfl rfl rfl
      · -- the handle lies with the actor only, and nobody follows it there
        have hloose : (p.modifyActor a fun k => { k with
            enrollments := k.enrollments ++ [.prepared (p.exchange e).number h] }).Loose h := by
          intro k hk
          rcases handlesAt_enroll p a _ hk with hk | ⟨-, rfl⟩
          · exact absurd hk (hs.nowhere k)
          · rfl
        refine (henroll.trans (moves_decideAndDrop hloose .rollback)).trans (Eases.moves ?_)
        refine (Eases.refl _).modifyActor a ?_
        intro i hi
        simpa [Actor.handles, Enrollment.handle?] using hi
    · exact moves_decideAndDrop hs.loose .rollback
  | stopWorker name d =>
    have hloose : Loose { p with workers := p.workers.stop name } h := hs.loose
    have hstop : Moves heard p { p with workers := p.workers.stop name } :=
      (Moves.refl p).same rfl rfl rfl rfl rfl
    exact hstop.trans (moves_decideAndDrop hloose d)

/-- An offer is taken off its link. -/
theorem spare_take (hp : p.Tidy) {l h : Nat} {r : Value} (hl : (p.link l).offer = some (h, r)) :
    (p.modifyLink l Link.take).Spare h where
  bounded := hp.bounded (k := .offer l) (by simp [handlesAt, hl])
  untouched := hp.offered (l := l) (by simp [handlesAt, hl])
  nowhere k hk := by
    have hoffered : h ∈ p.handlesAt (.offer l) := by simp [handlesAt, hl]
    have heases : p.Eases (p.modifyLink l Link.take) :=
      (Eases.refl p).modifyLink l fun _ => .inr rfl
    obtain rfl := hp.apart (heases.handlesAt k hk) hoffered
    have hlength : l < p.links.length := by
      by_contra hlt
      rw [Plane.link, List.getElem?_eq_none (not_lt.mp hlt)] at hl
      cases hl
    rw [handlesAt, link_modifyLink, if_pos ⟨rfl, hlength⟩] at hk
    simp [Link.take] at hk

end Plane

end ManagementPlane
