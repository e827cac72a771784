import ManagementPlane.Proofs.Model.Conflicts

/-!
# Proofs/Model/Merging — a merge fails exactly where both sides wrote

`merge_eq_error_iff` names the write at which a merge fails: the first one that cannot be brought
over and that no other write carries along.  `Transaction.merge_threeWay` puts this together with
`Merge.view_merge` for the writes of a transaction.
-/

namespace ManagementPlane

namespace Merge

open Write

variable {base staged m m' : Resource} {log : List Write}

section Whole

variable {current : Resource} (hr : Record base staged log) (hbase : base.Orderly)
  (hstaged : staged.Orderly) (hcurrent : current.Orderly)

include hr hbase hstaged hcurrent in
/-- The writes up to some point go through exactly when none of them fails. -/
theorem applyWrites_ok_iff {before after : List Write} (hsplit : uncarried log = before ++ after) :
    (∃ reached, applyWrites base staged before current = .ok reached) ↔
      ∀ o ∈ before, ¬ o.Fails base staged current := by
  induction before using List.reverseRecOn generalizing after with
  | nil => exact iff_of_true ⟨current, rfl⟩ fun _ h => absurd h List.not_mem_nil
  | append_singleton before w ih =>
    have hsplit' : uncarried log = before ++ w :: after := by rw [hsplit]; simp
    have hfails : ∀ {reached}, applyWrites base staged before current = .ok reached →
        (applyWrite base staged reached w = none ↔ w.Fails base staged current) := fun hreach =>
      refused_iff_fails hr hbase hstaged hcurrent hsplit' hreach
    constructor
    · rintro ⟨reached, h⟩
      obtain ⟨r, hr', h⟩ := applyWrites_append_eq_ok h
      obtain ⟨n, hn, -⟩ := applyWrites_cons_eq_ok h
      intro o ho
      rcases List.mem_append.mp ho with ho | ho
      · exact (ih hsplit').mp ⟨r, hr'⟩ o ho
      · obtain rfl := List.mem_singleton.mp ho
        rw [← hfails hr', hn]
        exact Option.some_ne_none n
    · intro h
      obtain ⟨r, hr'⟩ := (ih hsplit').mpr fun o ho => h o (List.mem_append_left _ ho)
      have hw := h w (List.mem_append_right _ (List.mem_singleton_self w))
      rw [← hfails hr'] at hw
      obtain ⟨n, hn⟩ := Option.ne_none_iff_exists'.mp hw
      exact ⟨n, (applyWrites_append hr').trans (by rw [applyWrites, hn]; rfl)⟩

theorem applyWrites_eq_error_iff {ws : List Write} {e : OperationError} :
    applyWrites base staged ws m = .error e ↔ ∃ before w after reached, ws = before ++ w :: after ∧
      applyWrites base staged before m = .ok reached ∧ applyWrite base staged reached w = none ∧
      e = .concurrentModification w.address := by
  constructor
  · intro h
    induction ws generalizing m with
    | nil => cases h
    | cons w ws ih =>
      rw [applyWrites] at h
      split at h
      · rename_i n hn
        obtain ⟨before, v, after, reached, rfl, hreach, hrest⟩ := ih h
        exact ⟨w :: before, v, after, reached, rfl, by rw [applyWrites, hn]; exact hreach, hrest⟩
      · rename_i hn
        exact ⟨[], w, ws, m, rfl, rfl, hn, (Except.error.inj h).symm⟩
  · rintro ⟨before, w, after, reached, rfl, hreach, hnone, rfl⟩
    rw [applyWrites_append hreach, applyWrites, hnone]

include hr hbase hstaged hcurrent in
/-- **A merge fails at the first write that fails** and that nothing carries along. -/
theorem merge_eq_error_iff {e : OperationError} :
    merge current base staged log = .error e ↔ ∃ before w after, log = before ++ w :: after ∧
      (∀ o ∈ before, ¬ o.Carried log → ¬ o.Fails base staged current) ∧
      ¬ w.Carried log ∧ w.Fails base staged current ∧ e = .concurrentModification w.address := by
  have hmerge : merge current base staged log = applyWrites base staged (uncarried log) current :=
    rfl
  rw [hmerge, applyWrites_eq_error_iff]
  constructor
  · rintro ⟨before, w, after, reached, hsplit, hreach, hnone, he⟩
    obtain ⟨front, back, hlog, hcarried, hfront⟩ := log_of_uncarried hr hsplit
    have hbefore := (applyWrites_ok_iff hr hbase hstaged hcurrent hsplit).mp ⟨reached, hreach⟩
    exact ⟨front, w, back, hlog, fun o ho hc => hbefore o ((hfront o).mpr ⟨ho, hc⟩), hcarried,
      (refused_iff_fails hr hbase hstaged hcurrent hsplit hreach).mp hnone, he⟩
  · rintro ⟨front, w, back, hlog, hfirst, hcarried, hw, he⟩
    obtain ⟨before, after, hsplit, hbefore⟩ := uncarried_of_log hr hlog hcarried
    obtain ⟨reached, hreach⟩ :=
      (applyWrites_ok_iff hr hbase hstaged hcurrent hsplit).mpr fun o ho =>
        hfirst o ((hbefore o).mp ho).1 ((hbefore o).mp ho).2
    exact ⟨before, w, after, reached, hsplit, hreach,
      (refused_iff_fails hr hbase hstaged hcurrent hsplit hreach).mpr hw, he⟩

include hr hbase hstaged hcurrent in
theorem merge_error_iff_exists : (∃ e, merge current base staged log = .error e) ↔
    ∃ w ∈ log, ¬ w.Carried log ∧ w.Fails base staged current := by
  have hok := applyWrites_ok_iff hr hbase hstaged hcurrent (List.append_nil _).symm
  constructor
  · rintro ⟨e, he⟩
    obtain ⟨before, w, after, hlog, -, hcarried, hw, -⟩ :=
      (merge_eq_error_iff hr hbase hstaged hcurrent).mp he
    exact ⟨w, hlog ▸ List.mem_append_right _ List.mem_cons_self, hcarried, hw⟩
  · rintro ⟨w, hlog, hcarried, hw⟩
    cases hm : merge current base staged log with
    | error e => exact ⟨e, rfl⟩
    | ok merged =>
      have hmem := (mem_uncarried_iff_not_carried hr).mpr ⟨hlog, hcarried⟩
      exact absurd hw (hok.mp ⟨merged, hm⟩ w hmem)

end Whole

end Merge

/-! ## The writes of a transaction -/

namespace Transaction

/-- The transaction after some writes, each of which may fail. -/
def edited (x : Transaction) (edits : List Edit) : Transaction :=
  edits.foldl (fun x e => e.apply x) x

theorem alongside_edited (x : Transaction) (edits : List Edit) : Alongside x (x.edited edits) := by
  induction edits generalizing x with
  | nil => exact .refl x
  | cons e edits ih => exact (Edit.alongside_apply x e).trans (ih (e.apply x))

theorem recorded_edited {x : Transaction} (hx : x.Recorded) {edits : List Edit}
    (hedits : ∀ e ∈ edits, e.Proper) : (x.edited edits).Recorded := by
  induction edits generalizing x with
  | nil => exact hx
  | cons e edits ih =>
    exact ih (Edit.recorded_apply hx (hedits e List.mem_cons_self))
      fun e he => hedits e (List.mem_cons_of_mem _ he)

/-- **Bringing the writes of a transaction onto another root is a three-way merge.**  Whatever was
written since the transaction began to stage, and whatever root is the current one by now:

* a merge that succeeds gives the staged side wherever that differs from the base, and the current
  side everywhere else;
* it fails exactly when some logged write that no structural write carries along runs into a
  difference between base and current root, or has to find a NaN again;
* and the failure is a concurrent modification at the first such write.

Values count as the same when they are equal, and each one as the same as itself. -/
theorem merge_threeWay {t : Tree} (ht : t.root.Orderly) (x : Transaction) {edits : List Edit}
    (hedits : ∀ e ∈ edits, e.Proper) : ∃ s, ((x.stage t).edited edits).staging = some s ∧
      ∀ current : Resource, current.Orderly →
        (∀ merged, Merge.merge current t.root s.root s.log = .ok merged →
          merged.view.Same (View.patch t.root.view s.root.view current.view)) ∧
        ((∃ e, Merge.merge current t.root s.root s.log = .error e) ↔
          ∃ w ∈ s.log, ¬ w.Carried s.log ∧
            (w.Clashes t.root s.root current ∨ w.MeetsNaN t.root)) ∧
        ∀ e, Merge.merge current t.root s.root s.log = .error e → ∃ before w after,
          s.log = before ++ w :: after ∧
            (∀ o ∈ before, ¬ o.Carried s.log →
              ¬ (o.Clashes t.root s.root current ∨ o.MeetsNaN t.root)) ∧
            ¬ w.Carried s.log ∧ (w.Clashes t.root s.root current ∨ w.MeetsNaN t.root) ∧
            e = .concurrentModification w.address := by
  have halong := alongside_edited (x.stage t) edits
  obtain ⟨s, hs⟩ : ∃ s, ((x.stage t).edited edits).staging = some s :=
    Option.isSome_iff_exists.mp halong.staging
  have hrecorded := recorded_edited (recorded_stage x ht) hedits s hs
  have hstaged := hrecorded.orderly
  have hrecord := hrecorded.record
  rw [halong.base] at hrecord
  refine ⟨s, hs, fun current hcurrent => ⟨fun merged h => ?_, ?_, fun e he => ?_⟩⟩
  · exact Merge.view_merge hrecord hstaged hcurrent h
  · exact Merge.merge_error_iff_exists hrecord ht hstaged hcurrent
  · exact (Merge.merge_eq_error_iff hrecord ht hstaged hcurrent).mp he

/-- An item is removed and taken again under its old name, and its neighbour is changed. -/
def replacing : List Edit :=
  [.update [⟨"item", "b"⟩] [.set "v" (.integer 1)], .remove [⟨"item", "a"⟩],
    .create [⟨"item", "a"⟩] { attributes := [("v", .integer 2)] }]

/-- Two items. -/
def paired (i j : Int64) : Resource where
  children := [("item", [("a", { attributes := [("v", .integer i)] }),
    ("b", { attributes := [("v", .integer j)] })])]

def onPair : Transaction := (begin { root := paired 0 0 } 0 0).stage { root := paired 0 0 }

theorem merge_threeWay_replacing : ∃ s, (onPair.edited replacing).staging = some s ∧
    (∃ w ∈ s.log, ¬ w.Carried s.log ∧ w.Clashes (paired 0 0) s.root (paired 3 0)) ∧
    ¬ ∃ w ∈ s.log, ¬ w.Carried s.log ∧
      (w.Clashes (paired 0 0) s.root (paired 0 0) ∨ w.MeetsNaN (paired 0 0)) := by
  have hleaf : ∀ k : Int64, Resource.Orderly { attributes := [("v", .integer k)] } := fun k =>
    ⟨by simp [Dict.keys], by simp [Value.Orderly.integer], by simp [Dict.keys], by simp, by simp⟩
  have hnumbers : (paired 0 0).NanFree := by
    refine ⟨fun _ hp => absurd hp List.not_mem_nil, fun g hg c hc => ?_⟩
    obtain rfl := List.mem_singleton.mp hg
    rcases List.mem_pair.mp hc with rfl | rfl <;>
      exact ⟨by simp [Value.NanFree.integer], fun _ hg => absurd hg List.not_mem_nil⟩
  have hpaired : ∀ i j : Int64, (paired i j).Orderly := by
    intro i j
    refine ⟨by simp [paired, Dict.keys], by simp [paired], by simp [paired, Dict.keys],
      by simp [paired, Dict.keys], fun g hg c hc => ?_⟩
    simp only [paired, List.mem_singleton] at hg
    subst hg
    simp only [List.mem_cons, List.not_mem_nil, or_false] at hc
    rcases hc with rfl | rfl <;> exact hleaf _
  have hproper : ∀ e ∈ replacing, e.Proper := by
    intro e he
    simp only [replacing, List.mem_cons, List.not_mem_nil, or_false] at he
    rcases he with rfl | rfl | rfl
    · exact ⟨by decide, by simp [AttributeChange.Proper, Value.Orderly.integer]⟩
    · exact ⟨by decide, trivial⟩
    · exact ⟨by decide, hleaf 2⟩
  obtain ⟨s, hs, h⟩ := merge_threeWay (t := { root := paired 0 0 }) (hpaired 0 0)
    (begin { root := paired 0 0 } 0 0) hproper
  obtain ⟨-, hchanged, -⟩ := h _ (hpaired 3 0)
  obtain ⟨-, hkept, -⟩ := h _ (hpaired 0 0)
  -- the merge onto a pair, once as the theorem names its staging and once to be run
  have hruns : ∀ i j : Int64, ((onPair.edited replacing).staging.map fun s =>
      (Merge.merge (paired i j) (paired 0 0) s.root s.log).isOk) =
        some (Merge.merge (paired i j) (paired 0 0) s.root s.log).isOk := fun i j => by
    rw [onPair, hs]
    rfl
  have hfails := (hruns 3 0).symm.trans (by decide +kernel : _ = some false)
  have hgoes := (hruns 0 0).symm.trans (by decide +kernel : _ = some true)
  refine ⟨s, hs, ?_, fun hw => ?_⟩
  · obtain ⟨w, hw, hcarried, hclash⟩ := hchanged.mp <| by
      cases hm : Merge.merge (paired 3 0) (paired 0 0) s.root s.log with
      | error e => exact ⟨e, rfl⟩
      | ok merged => simp [hm, Except.isOk, Except.toBool] at hfails
    exact ⟨w, hw, hcarried, hclash.resolve_right (w.not_meetsNaN hnumbers)⟩
  · obtain ⟨e, he⟩ := hkept.mpr hw
    simp [he, Except.isOk, Except.toBool] at hgoes

/-- A resource with a measurement. -/
def measuring (x : Binary64) : Resource where
  attributes := [("v", .double x), ("u", .integer 0)]

/-- Changes to that resource. -/
def measured (x : Binary64) (changes : List AttributeChange) : Transaction :=
  ((begin { root := measuring x } 0 0).stage { root := measuring x }).edited [.update [] changes]

/-- **To a merge values are neither identical nor always equal to themselves.**  A resource with a
NaN cannot be updated, though nothing was written meanwhile; and a change of nothing but the sign of
a zero is not brought onto the current root. -/
theorem merge_not_threeWay :
    (∃ s, (measured ⟨0x7ff8000000000000⟩ [.set "u" (.integer 1)]).staging = some s ∧
      Merge.merge (measuring ⟨0x7ff8000000000000⟩) (measuring ⟨0x7ff8000000000000⟩) s.root s.log =
        .error (.concurrentModification []) ∧
      ¬ ∃ w ∈ s.log, w.Clashes (measuring ⟨0x7ff8000000000000⟩) s.root
        (measuring ⟨0x7ff8000000000000⟩)) ∧
    ∃ s merged, (measured .zero [.set "v" (.double Binary64.zero.neg)]).staging = some s ∧
      Merge.merge (measuring .zero) (measuring .zero) s.root s.log = .ok merged ∧
      s.root.attribute? "v" = some (.double Binary64.zero.neg) ∧
      merged.attribute? "v" = some (.double .zero) := by
  refine ⟨⟨_, rfl, rfl, ?_⟩, _, _, rfl, rfl, rfl, rfl⟩
  rintro ⟨w, hw, hclash⟩
  obtain rfl : w = .update [] := List.mem_singleton.mp hw
  rcases hclash with ⟨hthere, hgone⟩ | ⟨name, -, hother⟩
  · exact hgone hthere
  · exact hother (.refl _)

end Transaction

end ManagementPlane
