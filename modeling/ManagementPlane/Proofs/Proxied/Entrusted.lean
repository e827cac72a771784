import ManagementPlane.Proofs.Proxied.Wards

/-!
# Proofs/Proxied/Entrusted — one operation and its cancellation

A cancellation is given to one operation from outside (`World.Hands`), and passed on to participants
in the same process.  In every world that comes about like that (`World.Entrusted`) these operations
are kin and their steps are accounted for (`Entrusted.kindred`).

Once the operation has prepared, none of them looks at the cancellation any more
(`Entrusted.heedless`).  If it is cancelled before, it never prepares (`Entrusted.unprepared`).
-/

namespace ManagementPlane

open Plane Execution

/-- Whatever an operation does on its turn, no cancellation is taken back. -/
theorem Plane.Accounts.recalls {p : Plane} {x y : Execution} {xs : List Execution}
    {late : List Nat} {past : List Moment} (hp : p.Accounts (x :: xs) late past)
    (hy : (x.advance p).next.after? = some y) : p.Recalls (x.advance p).plane := by
  obtain ⟨⟨turns, hstory, -⟩, -⟩ := List.forall_mem_cons.mp hp.storied
  obtain ⟨p₀, c, operation, control, input, sink, hcourse⟩ := hstory
  exact (grasps_advance (hcourse.orderly (orderly_new c operation control input sink)) hy).recalls

theorem Task.Withholds.moored {c : Nat} {t : Task} (h : t.Withholds c) : t.Moored := by
  cases t with
  | operation stack origin =>
    cases origin with
    | link l => exact absurd rfl (h.origin stack l)
    | _ => trivial
  | _ => trivial

namespace World

variable {c : Nat} {w w' w₁ : World}

/-! ## Who is given the cancellation -/

/-- Somebody begins an operation and gives it the cancellation `c`, which was given to nobody. -/
inductive Hands (c : Nat) (w : World) : World → Prop
  | begins {x : Execution} {origin : Origin}
      (ht : (Task.operation [x] origin).Begins fun _ => False) (horigin : ∀ l, origin ≠ .link l)
      (hx : x.seat c = some none)
      (hfirst : ∀ z, Known w.executions w.past z → z.seat c ≠ some none) :
    Hands c w { w with tasks := .operation [x] origin :: w.tasks }

/-- One world comes to be another, and one operation at most is given the cancellation `c`. -/
abbrev SoleLeads (c : Nat) : World → World → Prop :=
  Relation.ReflTransGen fun w w' => w.AloofStep c w' ∨ w.Hands c w'

/-- The world was reached from one where nothing had happened and all locks were free, and one
operation at most was given the cancellation `c` from outside. -/
def Entrusted (c : Nat) (w : World) : Prop :=
  ∃ w₀ : World, w₀.Fresh ∧ (∀ k, (w₀.plane.tree k).lock = {}) ∧ w₀.SoleLeads c w

theorem Hands.fair (h : w.Hands c w') : FairStep w w' := by
  cases h with
  | begins ht => exact .around (.begins w ht) ((Fair.refl _).respects _)

theorem Entrusted.leads (h : w.Entrusted c) (hleads : w.SoleLeads c w') : w'.Entrusted c := by
  obtain ⟨w₀, hfresh, hlocks, hbefore⟩ := h
  exact ⟨w₀, hfresh, hlocks, hbefore.trans hleads⟩

theorem AloofLeads.sole (h : w.AloofLeads c w') : w.SoleLeads c w' :=
  Relation.ReflTransGen.mono (fun _ _ => .inl) _ _ h

/-- To cancel is a step from outside. -/
theorem aloof_cancel (w : World) (c : Nat) : w.AloofStep c (w.cancel c) := by
  have heases : w.plane.Eases (w.plane.cancel c) := eases_of_same rfl rfl rfl rfl rfl
  have hfair : w.plane.Fair (w.plane.cancel c) := ⟨rfl, rfl, recalls_cancel w.plane c⟩
  exact .outside (.eases heases) (hfair.respects _) ⟨List.length_set.ge, rfl⟩

theorem Entrusted.cancel (h : w.Entrusted c) : (w.cancel c).Entrusted c :=
  h.leads (.single (.inl (aloof_cancel w c)))

/-! ## What lasts -/

theorem AloofStep.moored (h : w.AloofStep c w') (hw : ∀ t ∈ w.tasks, t.Moored) :
    ∀ t ∈ w'.tasks, t.Moored := by
  cases h with
  | orders hperm => exact fun t ht => hw t (hperm.mem_iff.mpr ht)
  | runs p t tasks past hs =>
    obtain ⟨ht, htasks⟩ := List.forall_mem_cons.mp hw
    rw [← List.append_assoc]
    exact List.forall_mem_append.mpr
      ⟨Task.moored_advance ht fun hstack s hspawned => (hs hstack s hspawned).moored, htasks⟩
  | begins _ _ ht => exact List.forall_mem_cons.mpr ⟨ht.moored, hw⟩
  | outside => exact hw

/-- What is stable is kept as long as nobody is given the cancellation. -/
theorem Stable.aloof {I : Plane → List Execution → List Moment → Prop}
    (h : Stable (fun x => x.seat c = none) I) (hw : w.Inv) (hmoored : ∀ t ∈ w.tasks, t.Moored)
    (hI : I w.plane w.executions w.past) (hstep : w.AloofStep c w') :
    I w'.plane w'.executions w'.past := by
  cases hstep with
  | orders hperm => exact h.perm hI (hperm.flatMap_right _)
  | runs p t tasks past hs =>
    refine h.runs (fun d value => ?_) hw (hmoored t List.mem_cons_self)
      (fun hstack s hspawned => (hs hstack s hspawned).seats) hI
    simp [seat, link?, Execution.new]
  | begins _ ht hwithholds =>
    have hjoined := h.joins [_]
      (List.forall_mem_singleton.mpr ⟨⟨_, ht⟩, hwithholds.seats⟩) hI
    simpa [executions] using hjoined
  | outside houtside hq hextends =>
    exact h.around hI ⟨(hw.step (.outside houtside)).2, hq.recalls,
      relinks_of_links (Link.Rests.refl _) hextends.links⟩

/-- The operations of the world that have the cancellation `c` are kin, and their steps are
accounted for. -/
structure Kindred (c : Nat) (w : World) : Prop where
  inv : w.Inv
  moored : ∀ t ∈ w.tasks, t.Moored
  kin : Kin c w.plane w.executions w.past
  wards : Wards c w.plane w.executions w.past

theorem Kindred.fresh (hw : w.Fresh) : w.Kindred c := by
  have hplaces : ∀ l, (w.plane.link l).offer = none := fun l => by
    have hplace : ((w.plane.link l).offer.map Prod.fst).toList = [] := hw.places (.offer l)
    simpa using hplace
  have hexecutions : w.executions = [] := by rw [executions, hw.tasks, List.flatMap_nil]
  have hnobody : ∀ x, ¬ Known w.executions w.past x := by
    rintro x (hx | ⟨m, hm, -⟩)
    · rw [hexecutions] at hx
      cases hx
    · rw [hw.past] at hm
      cases hm
  have hnever : ∀ m ∈ w.past, False := fun m hm => hnobody _ (.inr ⟨m, hm, rfl⟩)
  refine ⟨.fresh hw, by rw [hw.tasks]; rintro t ⟨⟩, ?_, ?_⟩
  · constructor
    · rw [hexecutions]
      exact List.nodup_nil
    · exact fun x hx => absurd (.inl hx) (hnobody x)
    · exact fun later m earlier hpast => (hnever m (by simp [hpast])).elim
    · exact fun x hx => absurd hx (hnobody x)
    · exact fun x hx => absurd hx (hnobody x)
    · exact fun l hl => absurd (hplaces l) hl
    · exact fun m hm => (hnever m hm).elim
    · exact fun m hm => (hnever m hm).elim
  · constructor
    · exact fun l _ x hx => absurd (.inl hx) (hnobody x)
    · exact fun m hm => (hnever m hm).elim
    · exact fun m hm => (hnever m hm).elim
    · exact fun x hx => absurd hx (hnobody x)
    · exact fun x hx => absurd (.inl hx) (hnobody x)
    · exact fun m hm => (hnever m hm).elim
    · exact fun m hm => (hnever m hm).elim
    · exact fun m hm => (hnever m hm).elim
    · exact fun m hm => (hnever m hm).elim

theorem Kindred.aloof (h : w.Kindred c) (hstep : w.AloofStep c w') : w'.Kindred c := by
  obtain ⟨hkin, hwards⟩ := (stable_wards c).aloof h.inv h.moored ⟨h.kin, h.wards⟩ hstep
  exact ⟨(h.inv.step hstep.fair.step).1, hstep.moored h.moored, hkin, hwards⟩

theorem Kindred.hands (h : w.Kindred c) (hhands : w.Hands c w') : w'.Kindred c := by
  have hinv := (h.inv.step hhands.fair.step).1
  cases hhands with
  | @begins x origin ht horigin hx hfirst =>
    have hunlinked : ∀ l, x.link? ≠ some l := fun l hl => by
      cases hx.symm.trans (seat_of_link? hl)
    obtain ⟨d, operation, control, input, sink, hstack⟩ := ht
    obtain rfl := List.singleton_inj.mp hstack
    refine ⟨hinv, List.forall_mem_cons.mpr ⟨?_, h.moored⟩, ?_, ?_⟩
    · cases origin with
      | link l => exact absurd rfl (horigin l)
      | _ => trivial
    · refine Kin.joins h.kin (story_new _ d operation control input sink) (fun z hz s hs => ?_)
        fun l hl => absurd hl (hunlinked l)
      obtain rfl := Option.some.inj (hx.symm.trans hs)
      exact hfirst z hz
    · exact Wards.joins h.wards rfl fun l hl => absurd hl (hunlinked l)

theorem Kindred.leads (h : w.Kindred c) (hleads : w.SoleLeads c w') : w'.Kindred c := by
  induction hleads with
  | refl => exact h
  | tail _ hstep ih => exact hstep.elim ih.aloof ih.hands

/-- **The operations with the cancellation are kin**, in every world that is reached. -/
theorem Entrusted.kindred (h : w.Entrusted c) : w.Kindred c := by
  obtain ⟨w₀, hfresh, -, hleads⟩ := h
  exact (Kindred.fresh hfresh).leads hleads

/-! ## After the operation has prepared -/

/-- The operation that was given the cancellation has prepared. -/
def Prepared (c : Nat) (w : World) : Prop :=
  ∃ m ∈ w.past, m.Prepares ∧ m.execution.seat c = some none

theorem Step.remembers (h : Step w w') : w.past ⊆ w'.past := by
  cases h with
  | runs p t tasks past => exact List.subset_append_right _ _
  | _ => exact List.Subset.refl _

theorem Prepared.step (h : w.Prepared c) (hstep : Step w w') : w'.Prepared c := by
  obtain ⟨m, hm, hprepares⟩ := h
  exact ⟨m, hstep.remembers hm, hprepares⟩

/-- The cancellation is not given away twice. -/
theorem Prepared.aloof (h : w.Prepared c) (hleads : w.SoleLeads c w') :
    w.AloofLeads c w' ∧ w'.Prepared c := by
  induction hleads with
  | refl => exact ⟨.refl, h⟩
  | tail _ hstep ih =>
    obtain ⟨hbefore, hprepared⟩ := ih
    rcases hstep with haloof | hhands
    · exact ⟨hbefore.tail haloof, hprepared.step haloof.fair.step⟩
    · obtain ⟨m, hm, -, hplace⟩ := hprepared
      cases hhands with
      | begins _ _ _ hfirst => exact absurd hplace (hfirst _ (.inr ⟨m, hm, rfl⟩))

/-- No completion asks whether its operation is cancelled that has the cancellation `c`. -/
def Discreet (c : Nat) (w : World) : Prop :=
  ∀ x ∈ w.executions, x.context.input.cancellation = some c →
    ∀ k ∈ x.context.completed, k.isDiscreet = true

instance (c : Nat) (w : World) : Decidable (w.Discreet c) :=
  inferInstanceAs (Decidable (∀ x ∈ w.executions, x.context.input.cancellation = some c →
    ∀ k ∈ x.context.completed, k.isDiscreet = true))

/-- **From then on no operation looks at the cancellation**, whatever comes, if the completions that
are left do not ask for it. -/
theorem Entrusted.heedless (h : w.Entrusted c) (hprepared : w.Prepared c) (hdiscreet : w.Discreet c)
    (hleads : w.AloofLeads c w₁) : w₁.Heedless c := by
  suffices hlast : w₁.Kindred c ∧ w₁.Heedless c from hlast.2
  induction hleads with
  | refl =>
    obtain ⟨m, hm, hprepares, hplace⟩ := hprepared
    have hkindred := h.kindred
    exact ⟨hkindred, fun x hx => Kin.heedless hkindred.kin hkindred.inv.accounts hm hprepares hplace
      hx (hdiscreet x hx)⟩
  | tail _ hstep ih =>
    obtain ⟨hkindred, hheedless⟩ := ih
    exact ⟨hkindred.aloof hstep,
      (stable_heedless c).aloof hkindred.inv hkindred.moored hheedless hstep⟩

/-! ## Before it has prepared -/

/-- The operation is cancelled and has not prepared. -/
structure Stopped (c : Nat) (p : Plane) (past : List Moment) : Prop where
  cancelled : p.isCancelled (some c) = true
  unprepared : ∀ m ∈ past, m.Prepares → m.execution.seat c ≠ some none

/-- Whoever was given the cancellation has it for an input. -/
theorem cancellation_of_seat {x : Execution} (h : x.seat c = some none) :
    x.context.input.cancellation = some c := by
  rw [seat] at h
  split at h
  · cases h
  · split at h
    · assumption
    · cases h

theorem stable_stopped (c : Nat) :
    Stable (fun x => x.seat c = none) fun p _ past => Stopped c p past where
  perm h _ := h
  around h hq := ⟨hq.recalls _ h.cancelled, h.unprepared⟩
  begins h _ _ _ _ _ _ := h
  turn {p x _ _ _ _} h hp _ hy _ := by
    refine ⟨hp.recalls hy _ h.cancelled, List.forall_mem_cons.mpr ⟨fun hprepares hseat => ?_,
      h.unprepared⟩⟩
    obtain ⟨-, -, -, hcancelled⟩ := Moment.prepares_iff.mp hprepares
    rw [cancellation_of_seat hseat, h.cancelled] at hcancelled
    cases hcancelled
  resumes {p x _ _} h answer := ⟨recalls_resume p x answer _ h.cancelled, h.unprepared⟩
  ends h _ hq := ⟨hq.recalls _ h.cancelled, h.unprepared⟩
  breaks h _ hafter hq := by
    refine ⟨hq.recalls _ h.cancelled, List.forall_mem_cons.mpr ⟨?_, h.unprepared⟩⟩
    rintro ⟨-, y, -, -, hy, -⟩
    cases hafter.symm.trans hy

/-- **Whoever is cancelled before it has prepared never prepares**, whatever comes. -/
theorem Entrusted.unprepared (h : w.Entrusted c)
    (hcancelled : w.plane.isCancelled (some c) = true) (hnot : ¬ w.Prepared c)
    (hleads : w.SoleLeads c w') : ¬ w'.Prepared c := by
  suffices hstopped : w'.Kindred c ∧ Stopped c w'.plane w'.past by
    rintro ⟨m, hm, hprepares, hplace⟩
    exact hstopped.2.unprepared m hm hprepares hplace
  induction hleads with
  | refl =>
    exact ⟨h.kindred, hcancelled, fun m hm hprepares hplace => hnot ⟨m, hm, hprepares, hplace⟩⟩
  | tail _ hstep ih =>
    obtain ⟨hkindred, hstopped⟩ := ih
    rcases hstep with haloof | hhands
    · exact ⟨hkindred.aloof haloof,
        (stable_stopped c).aloof hkindred.inv hkindred.moored hstopped haloof⟩
    · refine ⟨hkindred.hands hhands, ?_⟩
      cases hhands
      exact hstopped

end World

end ManagementPlane
