import Mathlib.Data.List.Forall2
import Mathlib.Data.List.Perm.Basic
import Mathlib.Data.List.Nodup
import ManagementPlane.Pipeline.Context

/-!
# Proofs/Pipeline/Agenda — steps by number: in which order a stage runs them

Queues hold steps, and the same step may be queued twice; so an `Agenda` numbers the steps that an
operation accepts, and remembers for each one how many steps had begun to run by then.  It accepts
a step at either end of a stage and lets the first waiting one begin, and that is all it does.

**The order** of two steps of one stage follows from how the later one was accepted
(`Agenda.Precedes`): behind the earlier one, unless it was put in front and the earlier one had not
begun.  `Agenda.Kept` says that steps begin in this order, each once.  That front-queued steps run
depth first is a consequence (`Kept.depth_first`).
-/

namespace ManagementPlane

/-- A step as it is accepted: for which stage, and whether in front of the others. -/
structure Entry where
  stage : Stage
  step : Step
  first : Bool

namespace Queues

def addAll (q : Queues) (es : List Entry) : Queues :=
  es.foldl (fun q e => q.add e.stage e.step e.first) q

@[simp] theorem get_set (q : Queues) (steps : List Step) (stage other : Stage) :
    (q.set steps stage).get other = if other = stage then steps else q.get other := by
  cases stage <;> cases other <;> rfl

theorem get_add (q : Queues) (stage other : Stage) (step : Step) (first : Bool) :
    (q.add stage step first).get other =
      if other = stage then
        if first then step :: q.get other else q.get other ++ [step]
      else q.get other := by
  rw [add, get_set]
  split
  · next h => rw [h]
  · rfl

theorem mem_get_add {q : Queues} {stage other : Stage} {step s : Step} {first : Bool} :
    s ∈ (q.add stage step first).get other ↔ s ∈ q.get other ∨ other = stage ∧ s = step := by
  rw [get_add]
  split
  · next h =>
    rw [and_iff_right h]
    split
    · exact List.mem_cons.trans Or.comm
    · exact List.mem_append.trans (or_congr_right List.mem_singleton)
  · next h => exact (or_iff_left fun hs => h hs.1).symm

theorem mem_get_addAll {q : Queues} {stage : Stage} {s : Step} (h : s ∈ q.get stage)
    (es : List Entry) : s ∈ (q.addAll es).get stage := by
  induction es generalizing q with
  | nil => exact h
  | cons e es ih => exact ih (mem_get_add.mpr (.inl h))

end Queues

/-- The steps of an operation by number. -/
structure Agenda where
  /-- Every step that was accepted, and how many had begun by then. -/
  accepted : List (Entry × Nat) := []
  /-- The steps that began to run, in order. -/
  ran : List Nat := []
  waiting : Stage → List Nat := fun _ => []

namespace Agenda

def accept (a : Agenda) (e : Entry) : Agenda where
  accepted := a.accepted ++ [(e, a.ran.length)]
  ran := a.ran
  waiting stage :=
    if stage = e.stage then
      if e.first then a.accepted.length :: a.waiting stage
      else a.waiting stage ++ [a.accepted.length]
    else a.waiting stage

/-- The first waiting step of a stage begins to run. -/
def next (a : Agenda) (stage : Stage) : Agenda where
  accepted := a.accepted
  ran := a.ran ++ (a.waiting stage).take 1
  waiting other := if other = stage then (a.waiting other).drop 1 else a.waiting other

/-- Step `t` has to begin before `u` if they are of one stage: `u` came later and was put behind,
or when `t` had begun; or else `t` came later and was put in front of `u`, which had not begun. -/
def Precedes (a : Agenda) (t u : Nat) : Prop :=
  ∀ e n f m, a.accepted[t]? = some (e, n) → a.accepted[u]? = some (f, m) → e.stage = f.stage →
    (t < u ∧ (f.first = false ∨ t ∈ a.ran.take m)) ∨
      (u < t ∧ e.first = true ∧ u ∉ a.ran.take n)

/-- The order is kept. -/
structure Kept (a : Agenda) : Prop where
  each : (a.ran ++ Stage.all.flatMap a.waiting).Perm (List.range a.accepted.length)
  stage : ∀ stage, ∀ t ∈ a.waiting stage, ∃ e n, a.accepted[t]? = some (e, n) ∧ e.stage = stage
  since : ∀ e ∈ a.accepted, e.2 ≤ a.ran.length
  begun : ∀ {j t : Nat} {e : Entry} {n : Nat}, a.ran[j]? = some t →
    a.accepted[t]? = some (e, n) → n ≤ j
  later : a.accepted.Pairwise (·.2 ≤ ·.2)
  order : ∀ stage, (a.ran ++ a.waiting stage).Pairwise a.Precedes

variable {a : Agenda}

theorem kept_empty : Kept {} where
  each := .refl _
  stage := by rintro stage t ⟨⟩
  since := by rintro e ⟨⟩
  begun := by rintro j t e n ⟨⟩
  later := .nil
  order _ := .nil

/-! ## Each step once -/

theorem perm_flatMap {w w' : Stage → List Nat} {stage : Stage} {t : Nat}
    (h : (w' stage).Perm (t :: w stage)) (hother : ∀ other, other ≠ stage → w' other = w other) :
    (Stage.all.flatMap w').Perm (t :: Stage.all.flatMap w) := by
  -- the list that changed is moved to the front, past those before it
  have hstep : ∀ front rest : List Nat,
      (front ++ (w' stage ++ rest)).Perm (t :: (front ++ (w stage ++ rest))) := fun front rest =>
    ((h.append_right rest).append_left front).trans List.perm_middle
  simp only [Stage.all, List.flatMap_cons, List.flatMap_nil]
  cases stage with
  | model =>
    rw [hother .runtime (by decide), hother .verify (by decide), hother .done (by decide)]
    exact hstep [] _
  | runtime =>
    rw [hother .model (by decide), hother .verify (by decide), hother .done (by decide)]
    exact hstep (w .model) _
  | verify =>
    rw [hother .model (by decide), hother .runtime (by decide), hother .done (by decide)]
    simpa using hstep (w .model ++ w .runtime) (w .done)
  | done =>
    rw [hother .model (by decide), hother .runtime (by decide), hother .verify (by decide)]
    simpa using hstep (w .model ++ w .runtime ++ w .verify) []

theorem Kept.lt (h : a.Kept) {t : Nat} (ht : t ∈ a.ran ++ Stage.all.flatMap a.waiting) :
    t < a.accepted.length := List.mem_range.mp (h.each.mem_iff.mp ht)

theorem mem_waiting {stage : Stage} {t : Nat} (ht : t ∈ a.waiting stage) :
    t ∈ Stage.all.flatMap a.waiting :=
  List.mem_flatMap.mpr ⟨stage, by cases stage <;> decide, ht⟩

theorem Kept.nodup (h : a.Kept) : (a.ran ++ Stage.all.flatMap a.waiting).Nodup :=
  h.each.nodup_iff.mpr List.nodup_range

theorem Kept.notMem_ran (h : a.Kept) {stage : Stage} {t : Nat} (ht : t ∈ a.waiting stage) :
    t ∉ a.ran :=
  fun hran => (List.nodup_append.mp h.nodup).2.2 t hran t (mem_waiting ht) rfl

/-! ## A step is accepted -/

section Accept

variable (e : Entry)

theorem getElem?_accepted_accept (a : Agenda) {t : Nat} (ht : t < a.accepted.length) :
    (a.accept e).accepted[t]? = a.accepted[t]? :=
  List.getElem?_append_left ht

theorem getElem?_accepted_last (a : Agenda) :
    (a.accept e).accepted[a.accepted.length]? = some (e, a.ran.length) :=
  List.getElem?_concat_length

theorem waiting_accept_ne {stage : Stage} (h : stage ≠ e.stage) :
    (a.accept e).waiting stage = a.waiting stage := if_neg h

theorem waiting_accept_self : (a.accept e).waiting e.stage =
    if e.first then a.accepted.length :: a.waiting e.stage
    else a.waiting e.stage ++ [a.accepted.length] := if_pos rfl

theorem Precedes.accept {t u : Nat} (ht : t < a.accepted.length) (hu : u < a.accepted.length)
    (h : a.Precedes t u) : (a.accept e).Precedes t u := by
  intro e' n f m he hf
  rw [getElem?_accepted_accept e a ht] at he
  rw [getElem?_accepted_accept e a hu] at hf
  exact h e' n f m he hf

/-- What waits when a step is put in front comes after it, and everything else before it. -/
theorem precedes_accept_front {t : Nat} (ht : t < a.accepted.length) (hran : t ∉ a.ran)
    (hfirst : e.first = true) : (a.accept e).Precedes a.accepted.length t := by
  intro e' n f m he hf _
  obtain ⟨rfl, rfl⟩ := Prod.mk.inj (Option.some.inj ((getElem?_accepted_last e a).symm.trans he))
  exact .inr ⟨ht, hfirst, fun h => hran (List.mem_of_mem_take h)⟩

theorem precedes_accept_back {t : Nat} (ht : t < a.accepted.length)
    (h : e.first = false ∨ t ∈ a.ran) : (a.accept e).Precedes t a.accepted.length := by
  intro e' n f m he hf _
  obtain ⟨rfl, rfl⟩ := Prod.mk.inj (Option.some.inj ((getElem?_accepted_last e a).symm.trans hf))
  refine .inl ⟨ht, h.imp_right fun h => ?_⟩
  show t ∈ a.ran.take a.ran.length
  rwa [List.take_length]

theorem Kept.accept (h : a.Kept) : (a.accept e).Kept := by
  have hperm : (Stage.all.flatMap (a.accept e).waiting).Perm
      (a.accepted.length :: Stage.all.flatMap a.waiting) := by
    refine perm_flatMap ?_ fun other hother => waiting_accept_ne e hother
    rw [waiting_accept_self]
    split
    · exact .refl _
    · exact List.perm_append_singleton _ _
  have hlt : ∀ stage, ∀ t ∈ a.ran ++ a.waiting stage, t < a.accepted.length := by
    intro stage t ht
    rcases List.mem_append.mp ht with ht | ht
    · exact h.lt (List.mem_append_left _ ht)
    · exact h.lt (List.mem_append_right _ (mem_waiting ht))
  have hold : ∀ stage, (a.ran ++ a.waiting stage).Pairwise (a.accept e).Precedes := fun stage =>
    (h.order stage).imp_of_mem fun ht hu hpre => hpre.accept e (hlt stage _ ht) (hlt stage _ hu)
  constructor
  · show (a.ran ++ _).Perm (List.range (a.accepted ++ [(e, a.ran.length)]).length)
    rw [List.length_append, List.length_singleton, List.range_succ]
    refine (hperm.append_left a.ran).trans ?_
    refine (List.perm_middle.trans (List.Perm.cons _ h.each)).trans ?_
    exact (List.perm_append_singleton _ _).symm
  · intro stage t ht
    by_cases hstage : stage = e.stage
    · subst hstage
      rw [waiting_accept_self] at ht
      have hcases : t = a.accepted.length ∨ t ∈ a.waiting e.stage := by
        split at ht
        · exact List.mem_cons.mp ht
        · exact (List.mem_append.mp ht).symm.imp_left List.mem_singleton.mp
      rcases hcases with rfl | ht
      · exact ⟨e, _, getElem?_accepted_last e a, rfl⟩
      · rw [getElem?_accepted_accept e a (hlt _ t (List.mem_append_right _ ht))]
        exact h.stage _ t ht
    · rw [waiting_accept_ne e hstage] at ht
      rw [getElem?_accepted_accept e a (hlt _ t (List.mem_append_right _ ht))]
      exact h.stage stage t ht
  · intro f hf
    rcases List.mem_append.mp hf with hf | hf
    · exact h.since f hf
    · obtain rfl := List.mem_singleton.mp hf
      exact Nat.le_refl _
  · intro j t f n hj hf
    rw [getElem?_accepted_accept e a
      (h.lt (List.mem_append_left _ (List.mem_of_getElem? hj)))] at hf
    exact h.begun hj hf
  · refine List.pairwise_append.mpr ⟨h.later, List.pairwise_singleton _ _, fun f hf g hg => ?_⟩
    obtain rfl := List.mem_singleton.mp hg
    exact h.since f hf
  · intro stage
    show (a.ran ++ (a.accept e).waiting stage).Pairwise _
    by_cases hstage : stage = e.stage
    · subst hstage
      rw [waiting_accept_self]
      have hran : ∀ t ∈ a.ran, (a.accept e).Precedes t a.accepted.length := fun t ht =>
        precedes_accept_back e (hlt .model t (List.mem_append_left _ ht)) (.inr ht)
      split
      · next hfirst =>
        obtain ⟨hbegun, hwait, hcross⟩ := List.pairwise_append.mp (hold e.stage)
        refine List.pairwise_append.mpr ⟨hbegun, hwait.cons fun t ht => ?_, fun t ht u hu => ?_⟩
        · exact precedes_accept_front e (hlt _ t (List.mem_append_right _ ht)) (h.notMem_ran ht)
            hfirst
        · rcases List.mem_cons.mp hu with rfl | hu
          · exact hran t ht
          · exact hcross t ht u hu
      · next hfirst =>
        rw [← List.append_assoc]
        refine List.pairwise_append.mpr ⟨hold e.stage, List.pairwise_singleton _ _, ?_⟩
        intro t ht u hu
        obtain rfl := List.mem_singleton.mp hu
        exact precedes_accept_back e (hlt _ t ht) (.inl (Bool.eq_false_iff.mpr hfirst))
    · rw [waiting_accept_ne e hstage]
      exact hold stage

end Accept

/-! ## A step begins -/

theorem Kept.next (h : a.Kept) {stage : Stage} {t : Nat} {rest : List Nat}
    (ht : a.waiting stage = t :: rest) : (a.next stage).Kept := by
  have hself : (a.next stage).waiting stage = rest := by
    rw [Agenda.next]
    dsimp only
    rw [if_pos rfl, ht, List.drop_one, List.tail_cons]
  have hne : ∀ other, other ≠ stage → a.waiting other = (a.next stage).waiting other :=
    fun other hother => (if_neg hother).symm
  have hran : (a.next stage).ran = a.ran ++ [t] := by
    rw [Agenda.next, ht]
    rfl
  have hperm : (Stage.all.flatMap a.waiting).Perm (t :: Stage.all.flatMap (a.next stage).waiting) :=
    perm_flatMap (by rw [ht, hself]) hne
  have hsub : ∀ other, ∀ u ∈ (a.next stage).waiting other, u ∈ a.waiting other := by
    intro other u hu
    by_cases hother : other = stage
    · subst hother
      rw [hself] at hu
      exact ht ▸ List.mem_cons_of_mem t hu
    · rwa [hne other hother]
  have htake : ∀ {e : Entry} {n u : Nat}, a.accepted[u]? = some (e, n) →
      (a.next stage).ran.take n = a.ran.take n := by
    intro e n u hu
    rw [hran, List.take_append_of_le_length (h.since _ (List.mem_of_getElem? hu))]
  have hprecedes : ∀ {u v : Nat}, a.Precedes u v → (a.next stage).Precedes u v := by
    intro u v huv e n f m he hf hstage
    rw [htake he, htake hf]
    exact huv e n f m he hf hstage
  constructor
  · rw [hran, List.append_assoc]
    exact (hperm.symm.append_left a.ran).trans h.each
  · exact fun other u hu => h.stage other u (hsub other u hu)
  · intro e he
    rw [hran, List.length_append]
    exact Nat.le_add_right_of_le (h.since e he)
  · intro j u e n hj he
    rw [hran] at hj
    by_cases hlt : j < a.ran.length
    · rw [List.getElem?_append_left hlt] at hj
      exact h.begun hj he
    · exact Nat.le_trans (h.since _ (List.mem_of_getElem? he)) (Nat.le_of_not_lt hlt)
  · exact h.later
  · intro other
    rw [hran]
    by_cases hother : other = stage
    · subst hother
      rw [hself, List.append_assoc, List.singleton_append, ← ht]
      exact (h.order other).imp hprecedes
    · -- steps of two stages have no order to keep
      rw [← hne other hother]
      have hbegun : (a.ran ++ [t]).Pairwise a.Precedes := by
        have horder := h.order stage
        rw [ht, ← List.singleton_append, ← List.append_assoc] at horder
        exact (List.pairwise_append.mp horder).1
      obtain ⟨-, hwait, hcross⟩ := List.pairwise_append.mp (h.order other)
      refine (List.pairwise_append.mpr ⟨hbegun, hwait, fun u hu v hv => ?_⟩).imp hprecedes
      rcases List.mem_append.mp hu with hu | hu
      · exact hcross u hu v hv
      · obtain rfl := List.mem_singleton.mp hu
        intro e n f m he hf hstage
        obtain ⟨e', n', he', hestage⟩ := h.stage stage u (by rw [ht]; exact List.mem_cons_self)
        obtain ⟨f', m', hf', hfstage⟩ := h.stage other v hv
        obtain ⟨rfl, -⟩ := Prod.mk.inj (Option.some.inj (he'.symm.trans he))
        obtain ⟨rfl, -⟩ := Prod.mk.inj (Option.some.inj (hf'.symm.trans hf))
        exact absurd (hfstage.symm.trans (hstage.symm.trans hestage)) hother

/-! ## Numbers and queues -/

def acceptAll (a : Agenda) (es : List Entry) : Agenda := es.foldl accept a

/-- The number `t` stands for a step of the given stage. -/
def Shows (a : Agenda) (t : Nat) (stage : Stage) (step : Step) : Prop :=
  ∃ e n, a.accepted[t]? = some (e, n) ∧ e.stage = stage ∧ e.step = step

/-- The numbers that wait stand for the steps in the queues. -/
def Tracks (a : Agenda) (q : Queues) : Prop :=
  ∀ stage, List.Forall₂ (a.Shows · stage ·) (a.waiting stage) (q.get stage)

/-- The numbers that ran stand for the given steps, each with its stage. -/
def Lists (a : Agenda) (steps : List (Stage × Step)) : Prop :=
  List.Forall₂ (fun t s => a.Shows t s.1 s.2) a.ran steps

theorem tracks_empty : Tracks {} {} := fun stage => by cases stage <;> exact .nil

section AcceptAll

variable {q : Queues}

theorem Shows.accept {t : Nat} {stage : Stage} {step : Step} (h : a.Shows t stage step)
    (e : Entry) : (a.accept e).Shows t stage step := by
  obtain ⟨f, n, ht, hstage, hstep⟩ := h
  refine ⟨f, n, ?_, hstage, hstep⟩
  rwa [getElem?_accepted_accept e a (List.getElem?_eq_some_iff.mp ht).1]

theorem Tracks.accept (h : a.Tracks q) (e : Entry) :
    (a.accept e).Tracks (q.add e.stage e.step e.first) := by
  intro stage
  have hold : List.Forall₂ ((a.accept e).Shows · stage ·) (a.waiting stage) (q.get stage) :=
    (h stage).imp fun _ _ hshows => hshows.accept e
  have hnew : (a.accept e).Shows a.accepted.length e.stage e.step :=
    ⟨e, _, getElem?_accepted_last e a, rfl, rfl⟩
  rw [Queues.get_add]
  by_cases hstage : stage = e.stage
  · subst hstage
    rw [waiting_accept_self, if_pos rfl]
    cases e.first
    · exact List.rel_append hold (.cons hnew .nil)
    · exact .cons hnew hold
  · rw [waiting_accept_ne e hstage, if_neg hstage]
    exact hold

theorem Lists.accept {steps : List (Stage × Step)} (h : a.Lists steps) (e : Entry) :
    (a.accept e).Lists steps :=
  List.Forall₂.imp (fun _ _ hshows => hshows.accept e) h

variable (es : List Entry)

theorem Kept.acceptAll (h : a.Kept) : (a.acceptAll es).Kept := by
  induction es generalizing a with
  | nil => exact h
  | cons e es ih => exact ih (h.accept e)

theorem Tracks.acceptAll (h : a.Tracks q) : (a.acceptAll es).Tracks (q.addAll es) := by
  induction es generalizing a q with
  | nil => exact h
  | cons e es ih => exact ih (h.accept e)

theorem Lists.acceptAll {steps : List (Stage × Step)} (h : a.Lists steps) :
    (a.acceptAll es).Lists steps := by
  induction es generalizing a with
  | nil => exact h
  | cons e es ih => exact ih (h.accept e)

end AcceptAll

/-- The step that is next in its queue begins. -/
theorem Tracks.next {q : Queues} {stage : Stage} {step : Step} {rest : List Step}
    (h : a.Tracks q) (hq : q.get stage = step :: rest) :
    ∃ t waiting, a.waiting stage = t :: waiting ∧ a.Shows t stage step ∧
      (a.next stage).Tracks (q.set rest stage) := by
  have hstage := h stage
  rw [hq] at hstage
  obtain ⟨t, waiting, hshows, hrest, ht⟩ := List.forall₂_cons_right_iff.mp hstage
  refine ⟨t, waiting, ht, hshows, fun other => ?_⟩
  rw [Queues.get_set, Agenda.next]
  dsimp only
  by_cases hother : other = stage
  · rw [if_pos hother, if_pos hother, hother, ht]
    exact hrest
  · rw [if_neg hother, if_neg hother]
    exact h other

/-! ## What the order comes to -/

/-- A step that began before another one had to. -/
theorem Kept.precedes (h : a.Kept) {i t u : Nat} (ht : a.ran[i]? = some t)
    (hu : u ∉ a.ran.take (i + 1)) (haccepted : u < a.accepted.length) : a.Precedes t u := by
  have hi : i < a.ran.length := (List.getElem?_eq_some_iff.mp ht).1
  rcases List.mem_append.mp (h.each.mem_iff.mpr (List.mem_range.mpr haccepted)) with hran | hwait
  · obtain ⟨j, hj, rfl⟩ := List.getElem_of_mem hran
    have hij : i < j := by
      by_contra hji
      exact hu (List.mem_take_iff_getElem.mpr ⟨j, by omega, rfl⟩)
    have horder := List.pairwise_iff_getElem.mp (List.pairwise_append.mp (h.order .model)).1
    rw [← (List.getElem?_eq_some_iff.mp ht).2]
    exact horder i j hi hj hij
  · obtain ⟨stage, -, hstage⟩ := List.mem_flatMap.mp hwait
    exact (List.pairwise_append.mp (h.order stage)).2.2 t (List.mem_of_getElem? ht) u hstage

/-- What step `r` brings with it: itself, and the steps that are put in front while one of these
runs, for the stage of that one. -/
inductive Brings (a : Agenda) (r : Nat) : Nat → Prop
  | self : Brings a r r
  | through {u v j : Nat} {e f : Entry} {n : Nat} (h : Brings a r u)
      (hu : a.accepted[u]? = some (e, n)) (hj : a.ran[j]? = some u)
      (hv : a.accepted[v]? = some (f, j + 1)) (hstage : f.stage = e.stage)
      (hfirst : f.first = true) : Brings a r v

/-- A step put in front of one that waits begins before that one does. -/
theorem Kept.before_of_front (h : a.Kept) {r t : Nat} {e f : Entry} {n m : Nat}
    (hr : a.accepted[r]? = some (e, n)) (hfirst : e.first = true)
    (ht : a.accepted[t]? = some (f, m)) (hstage : f.stage = e.stage) (htr : t < r)
    (hwaits : t ∉ a.ran.take n) {i : Nat} (hi : a.ran[i]? = some t) :
    ∃ j < i, a.ran[j]? = some r := by
  have hbegun : r ∈ a.ran.take (i + 1) := by
    by_contra hnot
    rcases h.precedes hi hnot (List.getElem?_eq_some_iff.mp hr).1 f m e n ht hr hstage with
      ⟨-, hback | hran⟩ | ⟨hrt, -⟩
    · rw [hfirst] at hback
      cases hback
    · exact hwaits hran
    · omega
  obtain ⟨j, hj, hjr⟩ := List.mem_take_iff_getElem.mp hbegun
  have hjran : a.ran[j]? = some r := List.getElem?_eq_some_iff.mpr ⟨by omega, hjr⟩
  have hne : j ≠ i := by
    rintro rfl
    exact absurd (Option.some.inj (hjran.symm.trans hi)) (Nat.ne_of_gt htr)
  exact ⟨j, by omega, hjran⟩

/-- **Depth first.**  When a step is put in front of one that waits, all that it brings with it
begins before that one does. -/
theorem Kept.depth_first (h : a.Kept) {r t : Nat} {e f : Entry} {n m : Nat}
    (hr : a.accepted[r]? = some (e, n)) (hfirst : e.first = true)
    (ht : a.accepted[t]? = some (f, m)) (hstage : f.stage = e.stage) (htr : t < r)
    (hwaits : t ∉ a.ran.take n) {u i : Nat} (hu : a.Brings r u) (hi : a.ran[i]? = some t) :
    ∃ j < i, a.ran[j]? = some u := by
  -- with it goes that what is brought came later than `t` and found it waiting
  suffices hall : ∃ e' n', a.accepted[u]? = some (e', n') ∧ e'.stage = e.stage ∧ t < u ∧
      ∀ {i}, a.ran[i]? = some t → ∃ j < i, a.ran[j]? = some u by
    obtain ⟨_, _, -, -, -, hbefore⟩ := hall
    exact hbefore hi
  induction hu with
  | self => exact ⟨e, n, hr, rfl, htr, h.before_of_front hr hfirst ht hstage htr hwaits⟩
  | @through u v j e₁ f₁ n₁ _ hu hj hv hvstage hvfirst ih =>
    obtain ⟨e', n', hu', hstage', htu, hbefore⟩ := ih
    obtain ⟨rfl, rfl⟩ := Prod.mk.inj (Option.some.inj (hu'.symm.trans hu))
    have huv : u < v := by
      by_contra hvu
      have hle : (f₁, j + 1).2 ≤ (e', n').2 := by
        rcases Nat.lt_or_eq_of_le (Nat.le_of_not_lt hvu) with hlt | rfl
        · obtain ⟨hv', hv⟩ := List.getElem?_eq_some_iff.mp hv
          obtain ⟨hu', hu⟩ := List.getElem?_eq_some_iff.mp hu
          have hlater := List.pairwise_iff_getElem.mp h.later v u hv' hu' hlt
          rwa [hv, hu] at hlater
        · exact Nat.le_of_eq (congrArg Prod.snd (Option.some.inj (hv.symm.trans hu)))
      exact absurd (Nat.le_trans hle (h.begun hj hu)) (by simp)
    have hwaits' : t ∉ a.ran.take (j + 1) := by
      intro hran
      obtain ⟨k, hk, hkt⟩ := List.mem_take_iff_getElem.mp hran
      obtain ⟨l, hl, hlu⟩ := hbefore (List.getElem?_eq_some_iff.mpr ⟨by omega, hkt⟩)
      have hnodup := (List.nodup_append.mp h.nodup).1
      have hlj : l = j := (List.getElem?_inj (List.getElem?_eq_some_iff.mp hlu).1 hnodup).mp
        (hlu.trans hj.symm)
      omega
    exact ⟨f₁, j + 1, hv, hvstage.trans hstage', Nat.lt_trans htu huv,
      h.before_of_front hv hvfirst ht (hstage.trans (hvstage.trans hstage').symm)
        (Nat.lt_trans htu huv) hwaits'⟩

/-- The steps ran in the order of the agenda. -/
structure Orders (a : Agenda) (steps : List (Stage × Step)) : Prop where
  lists : a.Lists steps
  /-- No step that was accepted ran twice. -/
  once : a.ran.Nodup
  /-- Those of one stage ran as they were queued, at the one end or the other. -/
  queued : a.ran.Pairwise a.Precedes
  /-- What is put in front of a step that waits runs before it, with all that it brings. -/
  depthFirst : ∀ {r t u i : Nat} {e f : Entry} {n m : Nat}, a.accepted[r]? = some (e, n) →
    e.first = true → a.accepted[t]? = some (f, m) → f.stage = e.stage → t < r → t ∉ a.ran.take n →
    a.Brings r u → a.ran[i]? = some t → ∃ j < i, a.ran[j]? = some u

theorem Kept.orders (h : a.Kept) {steps : List (Stage × Step)} (hsteps : a.Lists steps) :
    a.Orders steps where
  lists := hsteps
  once := (List.nodup_append.mp h.nodup).1
  queued := (List.pairwise_append.mp (h.order .model)).1
  depthFirst hr hfirst ht hstage htr hwaits hu hi :=
    h.depth_first hr hfirst ht hstage htr hwaits hu hi

end Agenda

end ManagementPlane
