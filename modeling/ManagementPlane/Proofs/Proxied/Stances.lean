import ManagementPlane.Proofs.Proxied.Tasks

/-!
# Proofs/Proxied/Stances — whom a prepared participant belongs to

In a `Sound` plane every forwarded step that still listens is waited for by one operation, and every
handle that a step has accepted belongs to somebody: the operation that waits for the step, or the
one that holds the handle, until it is told or dropped.  Nobody else can touch it meanwhile.
-/

namespace ManagementPlane

open Plane

namespace Stance

def forward? (s : Stance) : Option Nat := s.awaits.map Prod.fst

/-- Some operation waits for the step. -/
def Awaited (ss : List Stance) (f : Nat) : Prop := ∃ s ∈ ss, s.forward? = some f

/-- Some operation holds the handle. -/
def Holding (ss : List Stance) (h : Nat) : Prop := ∃ s ∈ ss, h ∈ s.held

/-- Whoever waits for the step waits for the report of its participant. -/
def Hearing (ss : List Stance) (f : Nat) : Prop :=
  ∀ s ∈ ss, ∀ d, s.awaits = some (f, d) → d = .delivered

variable {s : Stance} {ss : List Stance} {f h : Nat}

theorem awaited_cons : Awaited (s :: ss) f ↔ s.forward? = some f ∨ Awaited ss f := by
  simp [Awaited]

theorem holding_cons : Holding (s :: ss) h ↔ h ∈ s.held ∨ Holding ss h := by
  simp [Holding]

theorem hearing_cons : Hearing (s :: ss) f ↔
    (∀ d, s.awaits = some (f, d) → d = .delivered) ∧ Hearing ss f := by
  simp [Hearing]

theorem mem_forwards : f ∈ ss.filterMap forward? ↔ Awaited ss f := List.mem_filterMap

theorem mem_holdings : h ∈ ss.flatMap held ↔ Holding ss h := List.mem_flatMap

end Stance

namespace Plane

open Stance

/-- Who has which handle, given the stances of all operations and the steps that participants may
still report to on their own. -/
structure Sound (p : Plane) (ss : List Stance) (late : List Nat) : Prop where
  tidy : p.Tidy
  bounded : ∀ {f}, Awaited ss f → f < p.forwards.length
  single : (ss.filterMap forward?).Nodup
  /-- A step hears nothing before its participant has all it needs. -/
  pending : ∀ {f}, ¬ Hearing ss f → (p.forward f).outcome = none
  listens : ∀ {f}, p.Listens f → Awaited ss f
  apart : (ss.flatMap held).Nodup
  held : ∀ {h}, Holding ss h → (p.handle h).Untouched ∧ ∃ f, p.Accepts f h ∧ ¬ Awaited ss f
  fresh : ∀ {f h}, Awaited ss f → p.Accepts f h → (p.handle h).Untouched
  /-- Nobody loses a participant that has prepared. -/
  settled : ∀ {f h}, p.Accepts f h →
    Awaited ss f ∨ Holding ss h ∨ (p.handle h).outlook ≠ .pending
  late : ∀ {f}, f ∈ late → f < p.forwards.length ∧ Hearing ss f

/-- Decisions, reports and outcomes stay; a step that was there takes an outcome only when it has
listened, and once it has ceased to listen it never does again. -/
structure Persists (p q : Plane) : Prop where
  count : p.forwards.length ≤ q.forwards.length
  firm : ∀ {h d}, (p.handle h).decision = some d → (q.handle h).decision = some d
  uncloned : ∀ h, (q.handle h).clones ≤ (p.handle h).clones
  reports : ∀ f, (p.forward f).reports <+: (q.forward f).reports
  outcome : ∀ {f o}, (p.forward f).outcome = some o → (q.forward f).outcome = some o
  accepted : ∀ {f h}, q.Accepts f h → f < p.forwards.length → p.Accepts f h ∨ p.Listens f
  closed : ∀ {f}, q.Listens f → f < p.forwards.length → p.Listens f

/-- Moreover no participant is told what has become of its step. -/
structure Grows (p q : Plane) : Prop extends Persists p q where
  untold : ∀ {f h d}, q.Accepts f h → (q.handle h).decision = some d →
    p.Accepts f h ∧ (p.handle h).decision = some d

theorem Persists.refl (p : Plane) : Persists p p where
  count := le_rfl
  firm := id
  uncloned _ := le_rfl
  reports _ := List.prefix_rfl
  outcome := id
  accepted ha _ := .inl ha
  closed hl _ := hl

theorem Persists.trans {p q r : Plane} (h : Persists p q) (h' : Persists q r) : Persists p r where
  count := h.count.trans h'.count
  firm hd := h'.firm (h.firm hd)
  uncloned i := (h'.uncloned i).trans (h.uncloned i)
  reports f := (h.reports f).trans (h'.reports f)
  outcome ho := h'.outcome (h.outcome ho)
  accepted ha hf := by
    rcases h'.accepted ha (hf.trans_le h.count) with ha | hl
    · exact h.accepted ha hf
    · exact .inr (h.closed hl hf)
  closed hl hf := h.closed (h'.closed hl (hf.trans_le h.count)) hf

theorem Grows.refl (p : Plane) : Grows p p := { Persists.refl p with untold := .intro }

theorem Grows.trans {p q r : Plane} (h : Grows p q) (h' : Grows q r) : Grows p r :=
  { h.toPersists.trans h'.toPersists with
    untold := fun ha hd => h.untold (h'.untold ha hd).1 (h'.untold ha hd).2 }

theorem Leads.grows {heard : Nat → Prop} {p q : Plane} (h : Leads heard p q) : Grows p q where
  count := h.count
  firm := h.firm
  uncloned := h.uncloned
  reports := h.reports
  outcome := h.outcome
  accepted ha _ := (h.accepted ha).imp_right fun hheard => hheard.2.1
  closed hl _ := h.closed hl
  untold ha hd := by
    rcases h.accepted ha with hp | ⟨-, -, huntouched⟩
    · exact ⟨hp, (h.still hp).1.symm.trans hd⟩
    · cases huntouched.undecided.symm.trans hd

/-- Handles change, forwarded steps do not. -/
theorem persists_of_forwards {p q : Plane} (hforwards : q.forwards = p.forwards)
    (hfirm : ∀ {h d}, (p.handle h).decision = some d → (q.handle h).decision = some d)
    (huncloned : ∀ h, (q.handle h).clones ≤ (p.handle h).clones) : Persists p q := by
  have hforward : ∀ f, q.forward f = p.forward f := fun f => by
    rw [Plane.forward, hforwards, Plane.forward]
  constructor
  · exact hforwards ▸ le_rfl
  · exact hfirm
  · exact huncloned
  · exact fun f => hforward f ▸ List.prefix_rfl
  · exact fun ho => (congrArg Forward.outcome (hforward _)).trans ho
  · exact fun ha _ => .inl (by simpa [Accepts, hforward] using ha)
  · exact fun hl _ => by simpa [Listens, hforward, hforwards] using hl

theorem outlook_congr {x y : Prepared} (hdecision : x.decision = y.decision)
    (hclones : x.clones = y.clones) : x.outlook = y.outlook := by
  rw [Prepared.outlook, Prepared.outlook, hdecision, hclones]

/-! ## The order of operations does not matter -/

section Sound

variable {p q : Plane} {s : Stance} {ss ss' : List Stance} {late late' : List Nat}

theorem Sound.congr (h : p.Sound ss late) (hsingle : (ss'.filterMap forward?).Nodup)
    (hapart : (ss'.flatMap Stance.held).Nodup) (hawaited : ∀ {f}, Awaited ss' f ↔ Awaited ss f)
    (hholding : ∀ {i}, Holding ss' i ↔ Holding ss i)
    (hhearing : ∀ {f}, Hearing ss' f ↔ Hearing ss f) : p.Sound ss' late where
  tidy := h.tidy
  bounded hf := h.bounded (hawaited.mp hf)
  single := hsingle
  pending hf := h.pending fun hf' => hf (hhearing.mpr hf')
  listens hf := hawaited.mpr (h.listens hf)
  apart := hapart
  held hi := by simpa [hawaited] using h.held (hholding.mp hi)
  fresh hf ha := h.fresh (hawaited.mp hf) ha
  settled ha := by simpa [hawaited, hholding] using h.settled ha
  late hf := by simpa [hhearing] using h.late hf

theorem Sound.perm (h : p.Sound ss late) (hperm : ss.Perm ss') : p.Sound ss' late := by
  refine h.congr ?_ ?_ ?_ ?_ ?_
  · exact (hperm.filterMap _).nodup_iff.mp h.single
  · exact (hperm.flatMap_right _).nodup_iff.mp h.apart
  · simp [Awaited, hperm.mem_iff]
  · simp [Holding, hperm.mem_iff]
  · simp [Hearing, hperm.mem_iff]

theorem Sound.mono (h : p.Sound ss late) (hlate : late' ⊆ late) : p.Sound ss late' :=
  { h with late := fun hf => h.late (hlate hf) }

/-! ## What others do -/

/-- **Moves leave everybody what they have.** -/
theorem Sound.leads (h : p.Sound ss late) {heard : Nat → Prop} (hq : q.Tidy)
    (hleads : Leads heard p q) (hheard : ∀ f, heard f → Hearing ss f) : q.Sound ss late := by
  constructor
  · exact hq
  · exact fun hf => (h.bounded hf).trans_le hleads.count
  · exact h.single
  · intro f hf
    rw [hleads.unheard fun hf' => hf (hheard f hf')]
    exact h.pending hf
  · exact fun hf => h.listens (hleads.closed hf)
  · exact h.apart
  · intro i hi
    obtain ⟨huntouched, f, ha, hf⟩ := h.held hi
    exact ⟨hleads.untouched ha huntouched, f, hleads.accepts ha, hf⟩
  · intro f i hf ha
    rcases hleads.accepted ha with ha | ⟨-, -, huntouched⟩
    · exact hleads.untouched ha (h.fresh hf ha)
    · exact huntouched
  · intro f i ha
    rcases hleads.accepted ha with ha | ⟨-, hf, -⟩
    · obtain ⟨hdecision, hclones⟩ := hleads.still ha
      rw [outlook_congr hdecision hclones]
      exact h.settled ha
    · exact .inl (h.listens hf)
  · intro f hf
    exact ⟨(h.late hf).1.trans_le hleads.count, (h.late hf).2⟩

/-- An operation without participants may come and go. -/
theorem sound_idle : p.Sound (⟨none, []⟩ :: ss) late ↔ p.Sound ss late := by
  have hawaited : ∀ {f}, Awaited (⟨none, []⟩ :: ss) f ↔ Awaited ss f := by
    simp [awaited_cons, forward?]
  have hholding : ∀ {i}, Holding (⟨none, []⟩ :: ss) i ↔ Holding ss i := by simp [holding_cons]
  have hhearing : ∀ {f}, Hearing (⟨none, []⟩ :: ss) f ↔ Hearing ss f := by simp [hearing_cons]
  constructor
  · exact fun h => h.congr h.single h.apart hawaited.symm hholding.symm hhearing.symm
  · exact fun h => h.congr h.single h.apart hawaited hholding hhearing

/-! ## What an operation itself does -/

variable {f i : Nat} {d d' : Delivery} {hs : List Nat}

theorem Accepts.lt (ha : p.Accepts f i) : f < p.forwards.length := by
  obtain ⟨r, hr⟩ := ha
  by_contra hlt
  rw [Plane.forward, List.getElem?_eq_none (not_lt.mp hlt)] at hr
  cases hr

theorem Tidy.newForward (hp : p.Tidy) : p.newForward.2.Tidy := by
  have hplaces : ∀ k, p.newForward.2.handlesAt k = p.handlesAt k := by
    intro k
    cases k with
    | reports f => rw [handlesAt, forward_newForward, handlesAt]
    | _ => rfl
  constructor
  · exact fun hk => hp.bounded (hplaces _ ▸ hk)
  · exact fun hk hk' => hp.apart (hplaces _ ▸ hk) (hplaces _ ▸ hk')
  · exact fun f => hplaces _ ▸ hp.nodup f
  · intro f o ho
    rw [forward_newForward] at ho ⊢
    exact hp.first ho
  · intro f h r hr ho
    rw [forward_newForward] at hr ho
    exact hp.refused hr ho
  · exact fun hl => hp.offered (hplaces _ ▸ hl)

theorem Sound.starts (h : p.Sound (⟨none, hs⟩ :: ss) late) (d : Delivery) :
    p.newForward.2.Sound (⟨some (p.forwards.length, d), hs⟩ :: ss) late := by
  have hlength : p.newForward.2.forwards.length = p.forwards.length + 1 := by simp [newForward]
  have haccepts : ∀ {f i}, p.newForward.2.Accepts f i ↔ p.Accepts f i := by
    simp [Accepts, forward_newForward]
  have hold : ∀ {f}, Awaited (⟨none, hs⟩ :: ss) f ↔ Awaited ss f := by simp [awaited_cons, forward?]
  have hnew : ∀ {f}, Awaited (⟨some (p.forwards.length, d), hs⟩ :: ss) f ↔
      p.forwards.length = f ∨ Awaited ss f := by simp [awaited_cons, forward?]
  have hholding : ∀ {i}, Holding (⟨some (p.forwards.length, d), hs⟩ :: ss) i ↔
      Holding (⟨none, hs⟩ :: ss) i := by simp [holding_cons]
  have hhearing : ∀ {f}, f ≠ p.forwards.length →
      (Hearing (⟨some (p.forwards.length, d), hs⟩ :: ss) f ↔
        Hearing (⟨none, hs⟩ :: ss) f) := by
    intro f hf
    simp [hearing_cons, hf.symm]
  constructor
  · exact h.tidy.newForward
  · intro f hf
    rw [hlength]
    rcases hnew.mp hf with rfl | hf
    · exact Nat.lt_succ_self _
    · exact (h.bounded (hold.mpr hf)).trans (Nat.lt_succ_self _)
  · refine List.nodup_cons.mpr ⟨fun hf => ?_, h.single⟩
    exact absurd (h.bounded (hold.mpr (mem_forwards.mp hf))) (lt_irrefl _)
  · intro f hf
    rw [forward_newForward]
    by_cases hlt : f = p.forwards.length
    · subst hlt
      rw [Plane.forward, List.getElem?_eq_none le_rfl]
      rfl
    · exact h.pending fun hf' => hf ((hhearing hlt).mpr hf')
  · rintro f ⟨hlt, hlistens⟩
    rw [forward_newForward] at hlistens
    rw [hlength] at hlt
    rcases Nat.lt_succ_iff_lt_or_eq.mp hlt with hlt | rfl
    · exact hnew.mpr (.inr (hold.mp (h.listens ⟨hlt, hlistens⟩)))
    · exact hnew.mpr (.inl rfl)
  · exact h.apart
  · intro i hi
    obtain ⟨huntouched, f, ha, hf⟩ := h.held (hholding.mp hi)
    refine ⟨huntouched, f, haccepts.mpr ha, fun hf' => ?_⟩
    rcases hnew.mp hf' with rfl | hf'
    · exact absurd ha.lt (lt_irrefl _)
    · exact hf (hold.mpr hf')
  · intro f i hf ha
    rcases hnew.mp hf with rfl | hf
    · exact absurd (haccepts.mp ha).lt (lt_irrefl _)
    · exact h.fresh (hold.mpr hf) (haccepts.mp ha)
  · intro f i ha
    rcases h.settled (haccepts.mp ha) with hf | hi | houtlook
    · exact .inl (hnew.mpr (.inr (hold.mp hf)))
    · exact .inr (.inl (hholding.mpr hi))
    · exact .inr (.inr houtlook)
  · intro f hf
    obtain ⟨hlt, hhears⟩ := h.late hf
    exact ⟨hlength ▸ hlt.trans (Nat.lt_succ_self _), (hhearing hlt.ne).mpr hhears⟩

theorem grows_newForward (p : Plane) : Grows p p.newForward.2 where
  count := by simp [newForward]
  firm := id
  uncloned _ := le_rfl
  reports f := by rw [forward_newForward]
  outcome ho := by rwa [forward_newForward]
  accepted ha _ := .inl (by simpa [Accepts, forward_newForward] using ha)
  closed hl hf := ⟨hf, forward_newForward p _ ▸ hl.2⟩
  untold ha hd := ⟨by simpa [Accepts, forward_newForward] using ha, hd⟩

/-- The operation that waits for a step is the only one. -/
theorem Sound.not_awaited (h : p.Sound (s :: ss) late) (hs : s.forward? = some f) :
    ¬ Awaited ss f := by
  intro hf
  have hsingle := h.single
  rw [List.filterMap_cons_some hs] at hsingle
  exact (List.nodup_cons.mp hsingle).1 (mem_forwards.mpr hf)

theorem eq_of_nodup_filterMap {α β : Type} {g : α → Option β} {l : List α}
    (h : (l.filterMap g).Nodup) {a b : α} {c : β} (ha : a ∈ l) (hb : b ∈ l) (hga : g a = some c)
    (hgb : g b = some c) : a = b := by
  induction l with
  | nil => cases ha
  | cons x l ih =>
    have hfirst : ∀ {y}, y ∈ l → g y = some c → g x ≠ some c := by
      intro y hy hgy hgx
      rw [List.filterMap_cons_some hgx] at h
      exact (List.nodup_cons.mp h).1 (List.mem_filterMap.mpr ⟨y, hy, hgy⟩)
    have hrest : (l.filterMap g).Nodup := h.sublist ((List.sublist_cons_self x l).filterMap g)
    rcases List.mem_cons.mp ha with rfl | ha'
    · rcases List.mem_cons.mp hb with rfl | hb'
      · rfl
      · exact absurd hga (hfirst hb' hgb)
    · rcases List.mem_cons.mp hb with rfl | hb'
      · exact absurd hgb (hfirst ha' hga)
      · exact ih hrest ha' hb'

/-- Nobody else waits for the step. -/
theorem Sound.hearing (h : p.Sound ss late) (hs : s ∈ ss) (hf : s.Hears f) : Hearing ss f := by
  intro t ht d hd
  obtain rfl := eq_of_nodup_filterMap h.single hs ht (congrArg (Option.map Prod.fst) hf)
    (congrArg (Option.map Prod.fst) hd)
  exact (congrArg Prod.snd (Option.some.inj (hf.symm.trans hd))).symm

/-- The participant of a step that an operation waits for may report later. -/
theorem Sound.awaits (h : p.Sound ss late) (hs : s ∈ ss) (hf : s.Hears f) :
    p.Sound ss (f :: late) := by
  have hforward : s.forward? = some f := congrArg (Option.map Prod.fst) hf
  refine { h with late := fun hg => ?_ }
  rcases List.mem_cons.mp hg with rfl | hg
  · exact ⟨h.bounded ⟨s, hs, hforward⟩, h.hearing hs hf⟩
  · exact h.late hg

theorem Sound.redelivers (h : p.Sound (⟨some (f, d), hs⟩ :: ss) late)
    (hd : d' = .delivered ∨ d ≠ .delivered) : p.Sound (⟨some (f, d'), hs⟩ :: ss) late := by
  have hawaited : ∀ {g}, Awaited (⟨some (f, d'), hs⟩ :: ss) g ↔
      Awaited (⟨some (f, d), hs⟩ :: ss) g := by simp [awaited_cons, forward?]
  have hholding : ∀ {i}, Holding (⟨some (f, d'), hs⟩ :: ss) i ↔
      Holding (⟨some (f, d), hs⟩ :: ss) i := by simp [holding_cons]
  -- whoever waited for a report still does
  have hhearing : ∀ {g}, Hearing (⟨some (f, d), hs⟩ :: ss) g →
      Hearing (⟨some (f, d'), hs⟩ :: ss) g := by
    intro g hg
    obtain ⟨hhead, htail⟩ := hearing_cons.mp hg
    refine hearing_cons.mpr ⟨?_, htail⟩
    rintro e ⟨⟩
    exact hd.elim id fun hne => absurd (hhead d rfl) hne
  exact {
    tidy := h.tidy
    bounded := fun hf => h.bounded (hawaited.mp hf)
    single := h.single
    pending := fun hf => h.pending fun hf' => hf (hhearing hf')
    listens := fun hf => hawaited.mpr (h.listens hf)
    apart := h.apart
    held := fun hi => by simpa [hawaited] using h.held (hholding.mp hi)
    fresh := fun hf ha => h.fresh (hawaited.mp hf) ha
    settled := fun ha => by simpa [hawaited, hholding] using h.settled ha
    late := fun hf => ⟨(h.late hf).1, hhearing (h.late hf).2⟩ }

theorem accepts_unique {j : Nat} (ha : p.Accepts f i) (ha' : p.Accepts f j) : i = j := by
  obtain ⟨r, hr⟩ := ha
  obtain ⟨r', hr'⟩ := ha'
  cases hr.symm.trans hr'
  rfl

/-- A handle is accepted by one step only. -/
theorem Tidy.accepts_unique (hp : p.Tidy) {g : Nat} (ha : p.Accepts f i) (ha' : p.Accepts g i) :
    f = g :=
  Place.reports.inj (hp.apart (hp.mem_of_accepts ha) (hp.mem_of_accepts ha'))

theorem Accepts.not_listens (hp : p.Tidy) (ha : p.Accepts f i) : ¬ p.Listens f := by
  obtain ⟨r, hr⟩ := ha
  exact hp.not_listens hr

theorem Sound.concludes (h : p.Sound (⟨some (f, d), hs⟩ :: ss) late) (ha : p.Accepts f i) :
    p.Sound (⟨none, i :: hs⟩ :: ss) late := by
  have hold : ∀ {g}, Awaited (⟨some (f, d), hs⟩ :: ss) g ↔ f = g ∨ Awaited ss g := by
    simp [awaited_cons, forward?]
  have hnew : ∀ {g}, Awaited (⟨none, i :: hs⟩ :: ss) g ↔ Awaited ss g := by
    simp [awaited_cons, forward?]
  have hholding : ∀ {j}, Holding (⟨none, i :: hs⟩ :: ss) j ↔
      j = i ∨ Holding (⟨some (f, d), hs⟩ :: ss) j := by simp [holding_cons, or_assoc]
  have hhearing : ∀ {g}, Hearing (⟨none, i :: hs⟩ :: ss) g ↔ Hearing ss g := by simp [hearing_cons]
  -- what the step accepted, nobody can hold as long as the step is waited for
  have hunheld : ¬ Holding (⟨some (f, d), hs⟩ :: ss) i := by
    intro hi
    obtain ⟨-, g, hg, hnot⟩ := h.held hi
    obtain rfl := h.tidy.accepts_unique ha hg
    exact hnot (hold.mpr (.inl rfl))
  constructor
  · exact h.tidy
  · exact fun hf => h.bounded (hold.mpr (.inr (hnew.mp hf)))
  · exact (List.nodup_cons.mp h.single).2
  · intro g hg
    exact h.pending fun hg' => hg (hhearing.mpr (hearing_cons.mp hg').2)
  · intro g hg
    rcases hold.mp (h.listens hg) with rfl | hg'
    · exact absurd hg (ha.not_listens h.tidy)
    · exact hnew.mpr hg'
  · exact List.nodup_cons.mpr ⟨fun hi => hunheld (mem_holdings.mp hi), h.apart⟩
  · intro j hj
    rcases hholding.mp hj with rfl | hj
    · exact ⟨h.fresh (hold.mpr (.inl rfl)) ha, f, ha, fun hf => h.not_awaited rfl (hnew.mp hf)⟩
    · obtain ⟨huntouched, g, hg, hnot⟩ := h.held hj
      exact ⟨huntouched, g, hg, fun hg' => hnot (hold.mpr (.inr (hnew.mp hg')))⟩
  · exact fun hf ha => h.fresh (hold.mpr (.inr (hnew.mp hf))) ha
  · intro g j hj
    rcases h.settled hj with hg | hj' | houtlook
    · rcases hold.mp hg with rfl | hg
      · exact .inr (.inl (hholding.mpr (.inl (Plane.accepts_unique hj ha))))
      · exact .inl (hnew.mpr hg)
    · exact .inr (.inl (hholding.mpr (.inr hj')))
    · exact .inr (.inr houtlook)
  · intro g hg
    obtain ⟨hlt, hhears⟩ := h.late hg
    exact ⟨hlt, hhearing.mpr (hearing_cons.mp hhears).2⟩

theorem Sound.leaves (h : p.Sound (⟨some (f, d), hs⟩ :: ss) late) (hclosed : ¬ p.Listens f)
    (hfree : d ≠ .delivered ∨ ∀ i, ¬ p.Accepts f i) : p.Sound (⟨none, hs⟩ :: ss) late := by
  have hold : ∀ {g}, Awaited (⟨some (f, d), hs⟩ :: ss) g ↔ f = g ∨ Awaited ss g := by
    simp [awaited_cons, forward?]
  have hnew : ∀ {g}, Awaited (⟨none, hs⟩ :: ss) g ↔ Awaited ss g := by simp [awaited_cons, forward?]
  have hholding : ∀ {j}, Holding (⟨none, hs⟩ :: ss) j ↔ Holding (⟨some (f, d), hs⟩ :: ss) j := by
    simp [holding_cons]
  have hhearing : ∀ {g}, Hearing (⟨none, hs⟩ :: ss) g ↔ Hearing ss g := by simp [hearing_cons]
  have hnone : ∀ i, ¬ p.Accepts f i := by
    rcases hfree with hd | hnone
    · rintro i ⟨r, hr⟩
      have houtcome := h.pending fun hhears => hd ((hearing_cons.mp hhears).1 d rfl)
      cases houtcome.symm.trans hr
    · exact hnone
  constructor
  · exact h.tidy
  · exact fun hf => h.bounded (hold.mpr (.inr (hnew.mp hf)))
  · exact (List.nodup_cons.mp h.single).2
  · intro g hg
    exact h.pending fun hg' => hg (hhearing.mpr (hearing_cons.mp hg').2)
  · intro g hg
    rcases hold.mp (h.listens hg) with rfl | hg'
    · exact absurd hg hclosed
    · exact hnew.mpr hg'
  · exact h.apart
  · intro j hj
    obtain ⟨huntouched, g, hg, hnot⟩ := h.held (hholding.mp hj)
    exact ⟨huntouched, g, hg, fun hg' => hnot (hold.mpr (.inr (hnew.mp hg')))⟩
  · exact fun hf ha => h.fresh (hold.mpr (.inr (hnew.mp hf))) ha
  · intro g j hj
    rcases h.settled hj with hg | hj' | houtlook
    · rcases hold.mp hg with rfl | hg
      · exact absurd hj (hnone j)
      · exact .inl (hnew.mpr hg)
    · exact .inr (.inl (hholding.mpr hj'))
    · exact .inr (.inr houtlook)
  · intro g hg
    obtain ⟨hlt, hhears⟩ := h.late hg
    exact ⟨hlt, hhearing.mpr (hearing_cons.mp hhears).2⟩

/-! ## Participants that learn what has become of their operation -/

/-- A handle was reported with one response only. -/
theorem Tidy.accepts_of_reports (hp : p.Tidy) {g : Nat} {r : Value} (ha : p.Accepts f i)
    (hr : .prepared i r ∈ (p.forward g).reports) :
    (p.forward g).outcome = some (.prepared i r) := by
  obtain rfl := Place.reports.inj
    (hp.apart (hp.mem_of_accepts ha) (mem_handlesAt_reports.mpr ⟨r, hr⟩))
  obtain ⟨r', hr'⟩ := ha
  have hmem := List.mem_of_mem_head? (hp.first hr')
  rw [hr', eq_of_nodup_filterMap (hp.nodup f) hmem hr rfl rfl]

/-- The holder of a handle decides it or lets it go. -/
theorem Sound.releases (h : p.Sound (⟨none, i :: hs⟩ :: ss) late)
    (hforwards : q.forwards = p.forwards) (hlinks : q.links = p.links)
    (htickets : q.tickets = p.tickets) (hactors : q.actors = p.actors)
    (hlength : q.handles.length = p.handles.length)
    (hothers : ∀ {j}, j ≠ i → q.handle j = p.handle j)
    (houtlook : (q.handle i).outlook ≠ .pending) :
    q.Sound (⟨none, hs⟩ :: ss) late := by
  obtain ⟨-, f, ha, hnot⟩ := h.held (holding_cons.mpr (.inl List.mem_cons_self))
  have hforward : ∀ g, q.forward g = p.forward g := fun g => by
    rw [Plane.forward, hforwards, Plane.forward]
  have haccepts : ∀ {g j}, q.Accepts g j ↔ p.Accepts g j := by simp [Accepts, hforward]
  have hplaces := handlesAt_congr hforwards hlinks htickets hactors
  have hawaited : ∀ {g}, Awaited (⟨none, hs⟩ :: ss) g ↔ Awaited (⟨none, i :: hs⟩ :: ss) g := by
    simp [awaited_cons, forward?]
  have hholding : ∀ {j}, Holding (⟨none, i :: hs⟩ :: ss) j ↔
      j = i ∨ Holding (⟨none, hs⟩ :: ss) j := by simp [holding_cons, or_assoc]
  have hhearing : ∀ {g}, Hearing (⟨none, hs⟩ :: ss) g ↔ Hearing (⟨none, i :: hs⟩ :: ss) g := by
    simp [hearing_cons]
  obtain ⟨hi, hapart⟩ := List.nodup_cons.mp (show (i :: (hs ++ ss.flatMap Stance.held)).Nodup
    from h.apart)
  have hne : ∀ {j}, Holding (⟨none, hs⟩ :: ss) j → j ≠ i := by
    rintro j hj rfl
    exact hi (mem_holdings.mpr hj)
  constructor
  · constructor
    · exact fun hk => hlength ▸ h.tidy.bounded (hplaces _ ▸ hk)
    · exact fun hk hk' => h.tidy.apart (hplaces _ ▸ hk) (hplaces _ ▸ hk')
    · exact fun g => hplaces _ ▸ h.tidy.nodup g
    · intro g o ho
      rw [hforward] at ho ⊢
      exact h.tidy.first ho
    · intro g j r hr ho
      rw [hforward] at hr ho
      rw [hothers]
      · exact h.tidy.refused hr ho
      · rintro rfl
        exact ho (h.tidy.accepts_of_reports ha hr)
    · intro l j hl
      rw [hplaces] at hl
      rw [hothers]
      · exact h.tidy.offered hl
      · rintro rfl
        cases h.tidy.apart hl (h.tidy.mem_of_accepts ha)
  · intro g hg
    rw [hforwards]
    exact h.bounded (hawaited.mp hg)
  · exact h.single
  · intro g hg
    rw [hforward]
    exact h.pending fun hg' => hg (hhearing.mpr hg')
  · rintro g ⟨hlt, hlistens⟩
    rw [hforward] at hlistens
    exact hawaited.mpr (h.listens ⟨hforwards ▸ hlt, hlistens⟩)
  · exact hapart
  · intro j hj
    obtain ⟨huntouched, g, hg, hnot⟩ := h.held (hholding.mpr (.inr hj))
    rw [hothers (hne hj)]
    exact ⟨huntouched, g, haccepts.mpr hg, fun hg' => hnot (hawaited.mp hg')⟩
  · intro g j hg hj
    rw [hothers]
    · exact h.fresh (hawaited.mp hg) (haccepts.mp hj)
    · rintro rfl
      obtain rfl := h.tidy.accepts_unique ha (haccepts.mp hj)
      exact hnot (hawaited.mp hg)
  · intro g j hj
    by_cases hji : j = i
    · subst hji
      exact .inr (.inr houtlook)
    · rw [hothers hji]
      rcases h.settled (haccepts.mp hj) with hg | hj | hout
      · exact .inl (hawaited.mpr hg)
      · exact .inr (.inl ((hholding.mp hj).resolve_left hji))
      · exact .inr (.inr hout)
  · intro g hg
    obtain ⟨hlt, hhears⟩ := h.late hg
    exact ⟨hforwards ▸ hlt, hhearing.mpr hhears⟩

theorem Sound.untouched (h : p.Sound (⟨none, i :: hs⟩ :: ss) late) :
    i < p.handles.length ∧ (p.handle i).Untouched := by
  obtain ⟨huntouched, f, ha, -⟩ := h.held (holding_cons.mpr (.inl List.mem_cons_self))
  exact ⟨h.tidy.bounded (h.tidy.mem_of_accepts ha), huntouched⟩

theorem persists_decideAndDrop (p : Plane) (i : Nat) (d : Decision) :
    Persists p (p.decideAndDrop i d) := by
  refine persists_of_forwards rfl (fun {j e} he => ?_) (uncloned_decideAndDrop p i d)
  rw [handle_decideAndDrop]
  split
  · refine (Prepared.decision_resolve _ d).trans ?_
    rw [he]
    rfl
  · exact he

theorem grows_drop (p : Plane) (i : Nat) : Grows p (p.modifyHandle i Prepared.drop) := by
  have hdecision : ∀ j, ((p.modifyHandle i Prepared.drop).handle j).decision =
      (p.handle j).decision := by
    intro j
    rw [handle_modifyHandle]
    split <;> rfl
  have hpersists : Persists p (p.modifyHandle i Prepared.drop) :=
    persists_of_forwards rfl (fun hd => (hdecision _).trans hd) (uncloned_drop p i)
  exact { hpersists with untold := fun ha hd => ⟨ha, (hdecision _).symm.trans hd⟩ }

/-- A prepared participant is told. -/
theorem Sound.tells (h : p.Sound (⟨none, i :: hs⟩ :: ss) late) (d : Decision) :
    (p.decideAndDrop i d).Sound (⟨none, hs⟩ :: ss) late ∧
      ((p.decideAndDrop i d).handle i).decision = some d := by
  obtain ⟨hlt, huntouched⟩ := h.untouched
  have hdecision : ((p.decideAndDrop i d).handle i).decision = some d := by
    rw [handle_decideAndDrop, if_pos ⟨rfl, hlt⟩]
    refine (Prepared.decision_resolve _ d).trans ?_
    rw [huntouched.undecided]
    rfl
  refine ⟨h.releases rfl rfl rfl rfl ?_ ?_ ?_, hdecision⟩
  · exact (List.length_modify _ _ _).trans (List.length_modify _ _ _)
  · intro j hj
    rw [handle_decideAndDrop, if_neg fun hij => hj hij.1.symm]
  · rw [Prepared.outlook, hdecision]
    rintro ⟨⟩

/-- A prepared participant is let go of. -/
theorem Sound.drops (h : p.Sound (⟨none, i :: hs⟩ :: ss) late) :
    (p.modifyHandle i Prepared.drop).Sound (⟨none, hs⟩ :: ss) late := by
  obtain ⟨hlt, huntouched⟩ := h.untouched
  refine h.releases rfl rfl rfl rfl (List.length_modify _ _ _) ?_ ?_
  · intro j hj
    rw [handle_modifyHandle, if_neg fun hij => hj hij.1.symm]
  · have hclones : (p.handle i).clones - 1 = 0 := Nat.sub_eq_zero_of_le huntouched.single
    rw [handle_modifyHandle, if_pos ⟨rfl, hlt⟩, Prepared.outlook]
    simp [Prepared.drop, huntouched.undecided, hclones]

/-- **A deal leaves everybody else what they have.** -/
theorem Sound.deals {a b : Plane × Stance} (hdeals : Deals a b)
    (h : a.1.Sound (a.2 :: ss) late) : b.1.Sound (b.2 :: ss) late ∧ Grows a.1 b.1 := by
  induction hdeals with
  | refl => exact ⟨h, .refl _⟩
  | tail _ hdeal ih =>
    obtain ⟨hsound, hgrows⟩ := ih
    cases hdeal with
    | @moves p q s hmoves =>
      obtain ⟨hq, hleads⟩ := hmoves hsound.tidy
      have hhearing : ∀ f, s.Hears f → Hearing (s :: ss) f :=
        fun f hf => hsound.hearing List.mem_cons_self hf
      exact ⟨hsound.leads hq hleads hhearing, hgrows.trans hleads.grows⟩
    | starts d => exact ⟨hsound.starts d, hgrows.trans (grows_newForward _)⟩
    | redelivers hd => exact ⟨hsound.redelivers hd, hgrows⟩
    | concludes ha => exact ⟨hsound.concludes ha, hgrows⟩
    | drops => exact ⟨hsound.drops, hgrows.trans (grows_drop _ _)⟩
    | leaves hclosed hfree => exact ⟨hsound.leaves (hclosed hsound.tidy) hfree, hgrows⟩

end Sound

end Plane

end ManagementPlane
