import ManagementPlane.Proofs.Proxied.Custody

/-!
# Proofs/Proxied/Reports — handles that are decided and reported

A handle may be decided and let go of while no forwarded step has it (`Plane.Loose`), and a new one
lies nowhere yet (`Plane.Spare`).  When it is reported, the step that still listens takes it for its
outcome, and otherwise it is rolled back at once (`Plane.Notes`).  All of these are moves.
-/

namespace ManagementPlane

namespace Plane

variable {heard : Nat → Prop} {p q r : Plane}

/-! ## Changes of handles -/

theorem mem_handlesAt_reports {f h : Nat} :
    h ∈ p.handlesAt (.reports f) ↔ ∃ r, .prepared h r ∈ (p.forward f).reports := by
  rw [handlesAt, List.mem_filterMap]
  constructor
  · rintro ⟨o, ho, hh⟩
    cases o with
    | prepared i r =>
      obtain rfl := Option.some.inj hh
      exact ⟨r, ho⟩
    | failed r => cases hh
  · rintro ⟨r, hr⟩
    exact ⟨_, hr, rfl⟩

/-- A handle that a step has accepted is among its reports. -/
theorem Tidy.mem_of_accepts (hp : p.Tidy) {f h : Nat} (ha : p.Accepts f h) :
    h ∈ p.handlesAt (.reports f) := by
  obtain ⟨r, hr⟩ := ha
  exact mem_handlesAt_reports.mpr ⟨r, List.mem_of_mem_head? (hp.first hr)⟩

theorem handlesAt_congr (hforwards : q.forwards = p.forwards) (hlinks : q.links = p.links)
    (htickets : q.tickets = p.tickets) (hactors : q.actors = p.actors) (k : Place) :
    q.handlesAt k = p.handlesAt k := by
  cases k <;> simp only [handlesAt, Plane.forward, Plane.link, Plane.ticket, Plane.actor,
    hforwards, hlinks, htickets, hactors]

/-- Handles that no forwarded step and no link knows may come, and may be decided; an offered one
may be let go of. -/
theorem moves_of_handles (hforwards : q.forwards = p.forwards) (hlinks : q.links = p.links)
    (htickets : q.tickets = p.tickets) (hactors : q.actors = p.actors)
    (hlength : p.handles.length ≤ q.handles.length)
    (hfirm : ∀ h d, (p.handle h).decision = some d → (q.handle h).decision = some d)
    (huncloned : ∀ h, (q.handle h).clones ≤ (p.handle h).clones)
    (hstill : ∀ f h, h ∈ p.handlesAt (.reports f) →
      (q.handle h).decision = (p.handle h).decision ∧ (q.handle h).clones = (p.handle h).clones)
    (hoffered : ∀ l h, h ∈ p.handlesAt (.offer l) → (p.handle h).Untouched →
      (q.handle h).Untouched) :
    Moves heard p q := by
  intro hp
  have hforward : ∀ f, q.forward f = p.forward f := fun f => by
    rw [Plane.forward, hforwards, Plane.forward]
  have hplaces := handlesAt_congr hforwards hlinks htickets hactors
  constructor
  · constructor
    · intro k h hk
      exact (hp.bounded (hplaces k ▸ hk)).trans_le hlength
    · intro k k' h hk hk'
      exact hp.apart (hplaces k ▸ hk) (hplaces k' ▸ hk')
    · intro f
      exact hplaces _ ▸ hp.nodup f
    · intro f o ho
      rw [hforward] at ho ⊢
      exact hp.first ho
    · intro f h r hr ho
      rw [hforward] at hr ho
      exact hfirm h _ (hp.refused hr ho)
    · intro l h hl
      rw [hplaces] at hl
      exact hoffered l h hl (hp.offered hl)
  · constructor
    · rw [hforwards]
    · exact fun {h d} => hfirm h d
    · exact huncloned
    · intro f
      rw [hforward]
    · intro f o ho
      rwa [hforward]
    · intro f _
      rw [hforward]
    · intro f h ha
      exact hstill f h (hp.mem_of_accepts ha)
    · rintro f h ⟨r, hr⟩
      exact .inl ⟨r, hforward f ▸ hr⟩
    · rintro f ⟨hf, hlistens⟩
      exact ⟨hforwards ▸ hf, hforward f ▸ hlistens⟩

/-- The handle lies nowhere yet. -/
structure Spare (p : Plane) (h : Nat) : Prop where
  bounded : h < p.handles.length
  untouched : (p.handle h).Untouched
  nowhere : ∀ k, h ∉ p.handlesAt k

/-- A new handle is kept nowhere yet. -/
theorem moves_newHandle (p : Plane) (record : Prepared) (hr : record.Untouched) :
    Moves heard p (p.newHandle record).2 := by
  intro hp
  have hold : ∀ {k h}, h ∈ p.handlesAt k → (p.newHandle record).2.handle h = p.handle h := by
    intro k h hk
    rw [handle_newHandle, if_neg (hp.bounded hk).ne]
  refine moves_of_handles rfl rfl rfl rfl ?_ ?_ ?_ ?_ ?_ hp
  · simp [newHandle]
  · intro h d hd
    rw [handle_newHandle, if_neg]
    · exact hd
    · rintro rfl
      simp [handle] at hd
  · intro h
    rw [handle_newHandle]
    split
    · next hh =>
      subst hh
      simpa [handle] using hr.single
    · exact le_rfl
  · exact fun f h hk => by rw [hold hk]; exact ⟨rfl, rfl⟩
  · exact fun l h hk huntouched => (hold hk).symm ▸ huntouched

/-- A handle that was just made is spare. -/
theorem spare_newHandle (hp : p.Tidy) {record : Prepared} (hr : record.Untouched) :
    (p.newHandle record).2.Spare p.handles.length where
  bounded := by simp [newHandle]
  untouched := by rwa [handle_newHandle, if_pos rfl]
  nowhere k hk := absurd (hp.bounded hk) (lt_irrefl _)

/-- The handle lies nowhere, or where only its own caller or actor reaches it. -/
def Loose (p : Plane) (h : Nat) : Prop := ∀ k, h ∈ p.handlesAt k → k.isPrivate = true

/-- What is kept nowhere is nobody else's. -/
theorem Spare.loose {h : Nat} (hs : p.Spare h) : p.Loose h := fun k hk => absurd hk (hs.nowhere k)

/-- A handle that is kept nowhere else may change, but not lose its decision. -/
theorem moves_modifyHandle {h : Nat} {g : Prepared → Prepared} (hloose : p.Loose h)
    (hg : ∀ d, (p.handle h).decision = some d → (g (p.handle h)).decision = some d)
    (hclones : (g (p.handle h)).clones ≤ (p.handle h).clones) :
    Moves heard p (p.modifyHandle h g) := by
  have hold : ∀ {k i}, k.isPrivate = false → i ∈ p.handlesAt k →
      (p.modifyHandle h g).handle i = p.handle i := by
    intro k i hk hi
    rw [handle_modifyHandle, if_neg]
    rintro ⟨rfl, -⟩
    rw [hloose k hi] at hk
    cases hk
  refine moves_of_handles rfl rfl rfl rfl (List.length_modify _ _ _).ge ?_ ?_ ?_ ?_
  · intro i d hd
    rw [handle_modifyHandle]
    split
    · rename_i hi
      obtain ⟨rfl, -⟩ := hi
      exact hg d hd
    · exact hd
  · intro i
    rw [handle_modifyHandle]
    split
    · rename_i hi
      obtain ⟨rfl, -⟩ := hi
      exact hclones
    · exact le_rfl
  · exact fun f i hi => by rw [hold rfl hi]; exact ⟨rfl, rfl⟩
  · exact fun l i hi huntouched => (hold rfl hi).symm ▸ huntouched

theorem moves_drop {h : Nat} (hloose : p.Loose h) :
    Moves heard p (p.modifyHandle h Prepared.drop) := 
  moves_modifyHandle hloose (fun _ hd => hd) (Nat.sub_le _ _)

theorem uncloned_drop (p : Plane) (h i : Nat) :
    ((p.modifyHandle h Prepared.drop).handle i).clones ≤ (p.handle i).clones := by
  rw [handle_modifyHandle]
  split
  · exact Nat.sub_le _ _
  · exact le_rfl

/-- An offer that nobody has read may be let go of. -/
theorem moves_dropOffer {l h : Nat} (hl : h ∈ p.handlesAt (.offer l)) :
    Moves heard p (p.modifyHandle h Prepared.drop) := by
  intro hp
  refine moves_of_handles rfl rfl rfl rfl (List.length_modify _ _ _).ge ?_ ?_ ?_ ?_ hp
  · intro i d hd
    rw [handle_modifyHandle]
    split <;> exact hd
  · exact uncloned_drop p h
  · intro f i hi
    rw [handle_modifyHandle, if_neg]
    · exact ⟨rfl, rfl⟩
    · rintro ⟨rfl, -⟩
      cases hp.apart hl hi
  · intro _ i _ huntouched
    rw [handle_modifyHandle]
    split
    · exact ⟨huntouched.undecided, (Nat.sub_le _ _).trans huntouched.single⟩
    · exact huntouched

/-- A handle that is kept nowhere else may be decided. -/
theorem moves_decide {h : Nat} (hloose : p.Loose h) (d : Decision) :
    Moves heard p (p.decide h d).2 := by
  refine moves_modifyHandle hloose (fun e he => (Prepared.decision_resolve _ _).trans ?_)
    (Prepared.clones_resolve _ d).le
  rw [he]
  rfl

theorem moves_decideAndDrop {h : Nat} (hloose : p.Loose h) (d : Decision) :
    Moves heard p (p.decideAndDrop h d) := by
  have hloose' : (p.decide h d).2.Loose h := hloose
  exact (moves_decide hloose d).trans (moves_drop hloose')

theorem handle_decideAndDrop (p : Plane) (h : Nat) (d : Decision) (i : Nat) :
    (p.decideAndDrop h d).handle i =
      if h = i ∧ i < p.handles.length then ((p.handle i).resolve d).2.drop else p.handle i := by
  have hlength : (p.decide h d).2.handles.length = p.handles.length := List.length_modify _ _ _
  rw [decideAndDrop, handle_modifyHandle, hlength, decide, handle_modifyHandle]
  by_cases hi : h = i ∧ i < p.handles.length
  · rw [if_pos hi, if_pos hi, if_pos hi, hi.1]
  · rw [if_neg hi, if_neg hi, if_neg hi]

theorem uncloned_decideAndDrop (p : Plane) (h : Nat) (d : Decision) (i : Nat) :
    ((p.decideAndDrop h d).handle i).clones ≤ (p.handle i).clones := by
  rw [handle_decideAndDrop]
  split
  · exact (Nat.sub_le _ _).trans (Prepared.clones_resolve _ d).le
  · exact le_rfl

/-! ## Reports -/

/-- A step that listens takes the outcome. -/
theorem reportOutcome_of_listens {f : Nat} (hf : (p.forward f).Listens) (o : Outcome) :
    p.reportOutcome f o =
      p.modifyForward f fun _ => { p.forward f with reports := [o], outcome := some o } := by
  have hreport : (p.forward f).report o =
      (true, { p.forward f with reports := [o], outcome := some o }) := by
    simp [Forward.report, hf.silent, hf.listening]
  rw [reportOutcome, hreport]
  cases o <;> rfl

/-- A step that does not listen only notes the report, and a handle is rolled back. -/
theorem reportOutcome_of_not_listens {f : Nat} (hf : ¬ (p.forward f).Listens) (o : Outcome) :
    p.reportOutcome f o = o.handle?.elim id (fun h q => q.decideAndDrop h .rollback)
      (p.modifyForward f fun _ =>
        { p.forward f with reports := (p.forward f).reports ++ [o] }) := by
  have hreport : (p.forward f).report o =
      (false, { p.forward f with reports := (p.forward f).reports ++ [o] }) := by
    rw [Forward.report, if_neg]
    intro hl
    simp only [Bool.and_eq_true, List.isEmpty_iff] at hl
    exact hf ⟨hl.1, hl.2⟩
  rw [reportOutcome, hreport]
  cases o <;> rfl

section Report

variable {f : Nat} {o : Outcome}

/-- An outcome is noted at the end of the reports.  Either it is the outcome of the step from now
on, or its handle is rolled back. -/
structure Notes (f : Nat) (o : Outcome) (p q : Plane) : Prop where
  handles : q.handles.length = p.handles.length
  forwards : q.forwards.length = p.forwards.length
  links : q.links = p.links
  tickets : q.tickets = p.tickets
  actors : q.actors = p.actors
  others : ∀ {i}, i ≠ f → q.forward i = p.forward i
  reports : (q.forward f).reports = (p.forward f).reports ++ [o]
  handle : ∀ {h}, o.handle? ≠ some h → q.handle h = p.handle h
  uncloned : ∀ h, (q.handle h).clones ≤ (p.handle h).clones
  heard : p.Listens f ∧ (q.forward f).outcome = some o ∧ (∀ h, q.handle h = p.handle h) ∨
    (q.forward f).outcome = (p.forward f).outcome ∧
      ∀ h ∈ o.handle?, (q.handle h).decision = some .rollback

/-- A report adds its own handle and no other one. -/
theorem Notes.handlesAt (hn : Notes f o p q) {k : Place} {h : Nat} (hk : h ∈ q.handlesAt k) :
    h ∈ p.handlesAt k ∨ k = .reports f ∧ o.handle? = some h := by
  cases k with
  | reports i =>
    by_cases hi : i = f
    · subst hi
      rw [Plane.handlesAt, hn.reports, List.filterMap_append, List.mem_append] at hk
      refine hk.imp id fun hk => ⟨rfl, ?_⟩
      simpa using hk
    · rw [Plane.handlesAt, hn.others hi] at hk
      exact .inl hk
  | offer l =>
    rw [Plane.handlesAt, link, hn.links] at hk
    exact .inl hk
  | ticket t =>
    rw [Plane.handlesAt, ticket, hn.tickets] at hk
    exact .inl hk
  | actor a =>
    rw [Plane.handlesAt, actor, hn.actors] at hk
    exact .inl hk

/-- **A report of a spare handle leaves the plane tidy.** -/
theorem Notes.tidy (hn : Notes f o p q) (hs : ∀ h ∈ o.handle?, p.Spare h) (hp : p.Tidy) :
    q.Tidy := by
  have hold : ∀ {k h}, h ∈ p.handlesAt k → q.handle h = p.handle h := by
    intro k h hk
    exact hn.handle fun ho => (hs h ho).nowhere k hk
  constructor
  · intro k h hk
    rw [hn.handles]
    rcases hn.handlesAt hk with hk | ⟨-, ho⟩
    · exact hp.bounded hk
    · exact (hs h ho).bounded
  · intro k k' h hk hk'
    rcases hn.handlesAt hk with hk | ⟨rfl, ho⟩
    · rcases hn.handlesAt hk' with hk' | ⟨rfl, ho⟩
      · exact hp.apart hk hk'
      · exact absurd hk ((hs h ho).nowhere k)
    · rcases hn.handlesAt hk' with hk' | ⟨rfl, -⟩
      · exact absurd hk' ((hs h ho).nowhere k')
      · rfl
  · intro i
    by_cases hi : i = f
    · subst hi
      rw [Plane.handlesAt, hn.reports, List.filterMap_append]
      refine List.nodup_append.mpr ⟨hp.nodup i, ?_, ?_⟩
      · cases o with
        | prepared h r => exact List.nodup_singleton _
        | failed r => exact List.nodup_nil
      · rintro h hh _ hh' rfl
        obtain ⟨o', ho', ho⟩ := List.mem_filterMap.mp hh'
        rw [List.mem_singleton.mp ho'] at ho
        exact (hs h ho).nowhere (.reports i) hh
    · rw [Plane.handlesAt, hn.others hi]
      exact hp.nodup i
  · intro i o' ho'
    by_cases hi : i = f
    · subst hi
      rw [hn.reports]
      rcases hn.heard with ⟨hlistens, ho, -⟩ | ⟨ho, -⟩
      · rw [hlistens.2.silent]
        exact ho.symm.trans ho'
      · exact List.mem_head?_append_of_mem_head? (hp.first (ho.symm.trans ho'))
    · rw [hn.others hi] at ho' ⊢
      exact hp.first ho'
  · intro i h r hr ho'
    by_cases hi : i = f
    · subst hi
      rw [hn.reports] at hr
      rcases hn.heard with ⟨hlistens, ho, -⟩ | ⟨ho, hrolled⟩
      · rw [hlistens.2.silent] at hr
        rw [← List.mem_singleton.mp hr] at ho
        exact absurd ho ho'
      · rcases List.mem_append.mp hr with hr | hr
        · rw [hold (mem_handlesAt_reports.mpr ⟨r, hr⟩)]
          exact hp.refused hr fun h' => ho' (ho.trans h')
        · rw [← List.mem_singleton.mp hr] at hrolled
          exact hrolled h rfl
    · rw [hn.others hi] at hr ho'
      rw [hold (mem_handlesAt_reports.mpr ⟨r, hr⟩)]
      exact hp.refused hr ho'
  · intro l h hl
    rcases hn.handlesAt hl with hl | ⟨⟨⟩, -⟩
    rw [hold hl]
    exact hp.offered hl

/-- And only its own step hears of it. -/
theorem Notes.leads (hn : Notes f o p q) (hs : ∀ h ∈ o.handle?, p.Spare h) (hp : p.Tidy) :
    Leads (· = f) p q := by
  constructor
  · exact hn.forwards.ge
  · intro h d hd
    rw [hn.handle]
    · exact hd
    · intro ho
      rw [(hs h ho).untouched.undecided] at hd
      cases hd
  · exact hn.uncloned
  · intro i
    by_cases hi : i = f
    · subst hi
      rw [hn.reports]
      exact List.prefix_append _ _
    · rw [hn.others hi]
  · intro i o' ho'
    by_cases hi : i = f
    · subst hi
      rcases hn.heard with ⟨hlistens, -, -⟩ | ⟨ho, -⟩
      · have hfirst := hp.first ho'
        rw [hlistens.2.silent] at hfirst
        cases hfirst
      · exact ho.trans ho'
    · rw [hn.others hi]
      exact ho'
  · intro i hi
    rw [hn.others hi]
  · intro i h ha
    rw [hn.handle fun ho => (hs h ho).nowhere _ (hp.mem_of_accepts ha)]
    exact ⟨rfl, rfl⟩
  · rintro i h ⟨r, hr⟩
    by_cases hi : i = f
    · subst hi
      rcases hn.heard with ⟨hlistens, ho, hhandle⟩ | ⟨ho, -⟩
      · obtain rfl : o = .prepared h r := Option.some.inj (ho.symm.trans hr)
        rw [hhandle]
        exact .inr ⟨rfl, hlistens, (hs h rfl).untouched⟩
      · exact .inl ⟨r, ho.symm.trans hr⟩
    · rw [hn.others hi] at hr
      exact .inl ⟨r, hr⟩
  · rintro i ⟨hlt, hi⟩
    refine ⟨hn.forwards ▸ hlt, ?_⟩
    by_cases hif : i = f
    · subst hif
      have hsilent := hi.silent
      rw [hn.reports] at hsilent
      simp at hsilent
    · rwa [hn.others hif] at hi

/-- An outcome is noted, and rolled back if another one came first. -/
theorem notes_reportOutcome (hf : f < p.forwards.length) (hs : ∀ h ∈ o.handle?, p.Spare h) :
    Notes f o p (p.reportOutcome f o) := by
  have hforward : ∀ g : Forward, (p.modifyForward f fun _ => g).forward f = g := fun g => by
    rw [forward_modifyForward, if_pos ⟨rfl, hf⟩]
  have hothers : ∀ {g : Forward} {i : Nat}, i ≠ f →
      (p.modifyForward f fun _ => g).forward i = p.forward i := fun hi => by
    rw [forward_modifyForward, if_neg fun h => hi h.1.symm]
  by_cases hl : (p.forward f).Listens
  · rw [reportOutcome_of_listens hl]
    exact {
      handles := rfl
      forwards := List.length_modify _ _ _
      links := rfl
      tickets := rfl
      actors := rfl
      others := hothers
      reports := by rw [hforward, hl.silent]; rfl
      handle := fun _ => rfl
      uncloned := fun _ => le_rfl
      heard := .inl ⟨⟨hf, hl⟩, by rw [hforward], fun _ => rfl⟩ }
  · rw [reportOutcome_of_not_listens hl]
    have hnoted := hforward { p.forward f with reports := (p.forward f).reports ++ [o] }
    cases o with
    | failed r =>
      exact {
        handles := rfl
        forwards := List.length_modify _ _ _
        links := rfl
        tickets := rfl
        actors := rfl
        others := hothers
        reports := congrArg Forward.reports hnoted
        handle := fun _ => rfl
        uncloned := fun _ => le_rfl
        heard := .inr ⟨(congrArg Forward.outcome hnoted).trans rfl, by rintro _ ⟨⟩⟩ }
    | prepared h r =>
      have hspare := hs h rfl
      refine {
        handles := (List.length_modify _ _ _).trans (List.length_modify _ _ _)
        forwards := List.length_modify _ _ _
        links := rfl
        tickets := rfl
        actors := rfl
        others := hothers
        reports := congrArg Forward.reports hnoted
        handle := fun hi => ?_
        uncloned := uncloned_decideAndDrop _ h .rollback
        heard := .inr ⟨(congrArg Forward.outcome hnoted).trans rfl, ?_⟩ }
      · exact (handle_decideAndDrop _ _ _ _).trans (if_neg fun h' => hi (congrArg some h'.1))
      · rintro i ⟨⟩
        have hhandle := handle_decideAndDrop (p.modifyForward f fun _ =>
          { p.forward f with reports := (p.forward f).reports ++ [.prepared h r] }) h .rollback h
        rw [if_pos ⟨rfl, hspare.bounded⟩] at hhandle
        refine (congrArg Prepared.decision hhandle).trans ?_
        refine (Prepared.decision_resolve _ _).trans ?_
        have hundecided : (p.handle h).decision = none := hspare.untouched.undecided
        exact congrArg (fun d => some (Option.getD d Decision.rollback)) hundecided

/-- **A report is a move**: it is heard by a step that listens, and else rolled back. -/
theorem moves_reportOutcome (hs : ∀ h ∈ o.handle?, p.Spare h) :
    Moves (· = f) p (p.reportOutcome f o) := by
  by_cases hf : f < p.forwards.length
  · intro hp
    have hn := notes_reportOutcome hf hs
    exact ⟨hn.tidy hs hp, hn.leads hs hp⟩
  · have hdefault : p.forward f = {} := by
      rw [Plane.forward, List.getElem?_eq_none (not_lt.mp hf)]
      rfl
    rw [reportOutcome_of_listens (by rw [hdefault]; exact ⟨rfl, rfl⟩)]
    refine (Eases.moves ?_)
    refine { eases_of_same (p := p) rfl rfl rfl rfl rfl with
      forwards := List.length_modify _ _ _
      forward := fun i => ?_ }
    rw [forward_modifyForward, if_neg]
    · exact .refl _
    · rintro ⟨rfl, hi⟩
      exact hf hi

end Report

/-- The report of a failure moves no handle. -/
theorem Spare.reportFailed {h : Nat} (hs : p.Spare h) (f : Nat) (r : Value) :
    (p.reportOutcome f (.failed r)).Spare h where
  bounded := hs.bounded
  untouched := hs.untouched
  nowhere k hk := by
    refine hs.nowhere k ?_
    cases k with
    | reports i =>
      have hreported : (p.reportOutcome f (.failed r)).forward i =
          if f = i ∧ i < p.forwards.length then ((p.forward f).report (.failed r)).2
          else p.forward i := forward_modifyForward ..
      rw [handlesAt, hreported] at hk
      split at hk
      · rename_i hi
        rw [Forward.reports_report, List.filterMap_append, hi.1] at hk
        simpa [Outcome.handle?, handlesAt] using hk
      · exact hk
    | _ => exact hk

/-- A participant that prepares with a new handle. -/
theorem moves_prepare (p : Plane) (f : Nat) {record : Prepared}
    (hr : record.Untouched) (r : Value) :
    Moves (· = f) p ((p.newHandle record).2.reportOutcome f (.prepared p.handles.length r)) := by
  refine (moves_newHandle p record hr).bind fun hp => moves_reportOutcome ?_
  rintro h ⟨⟩
  exact spare_newHandle hp hr

/-- A failure has no handle. -/
theorem moves_failForward (p : Plane) (f : Nat) (r : Value) :
    Moves (· = f) p (p.failForward f r) := by
  have hrelease := (Eases.refl (p.reportOutcome f (.failed r))).modifyForward f
    Forward.eases_release
  exact (moves_reportOutcome (by rintro h ⟨⟩)).trans hrelease.moves

theorem eases_completeForward (p : Plane) (f : Nat) (r : Value) :
    p.Eases (p.completeForward f r) :=
  (Eases.refl p).modifyForward f fun x => (x.eases_complete r).trans (Forward.eases_release _)

end Plane

end ManagementPlane
