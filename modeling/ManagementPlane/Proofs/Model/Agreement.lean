import ManagementPlane.Proofs.Model.Merging
import ManagementPlane.Proofs.Model.Refused

/-!
# Proofs/Model/Agreement — a commit is the same on an equal root

A commit publishes the staged root as it is while the base still stands, and merges its writes when
another root was published.  When that other root is equal to the base the two should come to the
same.  `Transaction.commit_paths_agree` says that they do, for a log in which no structural write,
read as a pattern, covers a write beside it (`Write.Plain`).  That is so of every log of concrete
addresses, and what goes wrong without it is in `commit_paths_differ`: the write of `/item=b` is
taken for one that comes along with the new resource `/item=*`.

No write clashes with an equal root (`Merge.not_clashes_of_equal`), so the merge succeeds, and a
three-way merge onto the base is the staged side (`View.patch_self`).
-/

namespace ManagementPlane

namespace Resource

variable {r s : Resource}

/-- **The same view is agreement at every address.** -/
theorem agree_of_view (h : r.view.Same s.view) : r.Agree Value.Alike s := by
  intro a
  have hholds := h.holds a
  have hattribute := h.attribute? a
  simp only [view] at hholds hattribute
  generalize r.at? a = d, s.at? a = d' at hholds hattribute ⊢
  cases d with
  | none =>
    cases d' with
    | none => exact .none
    | some d' => simp at hholds
  | some d =>
    cases d' with
    | none => simp at hholds
    | some d' => exact .some hattribute

/-- Equal resources have equal subtrees. -/
theorem same_navigate? (hr : r.Orderly) (h : same r s = true) (a : Address) :
    Option.Rel (fun c d => same c d = true) (r.navigate? a) (s.navigate? a) := by
  induction a generalizing r s with
  | nil => exact .some h
  | cons e a ih =>
    have hchild := same_child? hr h e
    rw [navigate?, navigate?]
    generalize hc : r.child? e = o, s.child? e = o' at hchild ⊢
    cases hchild with
    | none => exact .none
    | some hcd => exact ih (hr.child? hc) hcd

/-- Where a resource stands its parent does. -/
theorem holds_parent {a : Address} (h : (r.at? a).isSome = true) :
    (r.at? a.parent).isSome = true := by
  rcases List.eq_nil_or_concat a with rfl | ⟨p, e, rfl⟩
  · exact h
  · rw [List.concat_eq_append] at h ⊢
    rw [Address.parent, List.dropLast_concat]
    cases hp : r.at? p with
    | some d => rfl
    | none =>
      rw [at?_append_of_none (at?_eq_none_iff.mp hp)] at h
      cases h

end Resource

namespace Merge

open Write

variable {base staged current : Resource} {log : List Write}

section Equal

variable (hr : Record base staged log) (hcurrent : current.Orderly)
  (hequal : (current == base) = true)

include hr hcurrent hequal

/-- **No write clashes with a root that is equal to the base**, unless another one carries it. -/
theorem not_clashes_of_equal {w : Write} (hw : w ∈ log) (hcarried : ¬ w.Carried log) :
    ¬ w.Clashes base staged current := by
  have hsame := Resource.view_same_of_beq hcurrent hequal
  cases w with
  | update a =>
    rintro (⟨hbase, hgone⟩ | ⟨name, -, hother⟩)
    · exact hgone ((hsame.holds a).mpr hbase)
    · exact hother (hsame.attribute? a name)
  | create a =>
    rintro ⟨hstaged, hnew, htaken | hparent⟩
    · exact hnew ((hsame.holds a).mp htaken)
    · -- nothing comes or goes on the way to the parent, so it is there as in the staged root
      have houter : Outermost log a := fun o ho hs hpre => by
        by_contra hne
        exact hcarried ⟨o, ho, hs, hpre, fun _ => hne⟩
      have hfree : Untouched log a.parent := fun o ho hs hpre => by
        have heq := houter o ho hs (hpre.trans (List.dropLast_prefix a))
        have hne : a ≠ [] := fun hnil => hr.named o ho hs (heq.trans hnil)
        have hlen := hpre.length_le
        rw [heq, Address.parent, List.length_dropLast] at hlen
        have hpos := List.length_pos_of_ne_nil hne
        omega
      have hstill : (staged.at? a.parent).isSome = (base.at? a.parent).isSome :=
        (hr.still _ hfree).1
      have hbase : base.view.holds a.parent := hstill.symm.trans (Resource.holds_parent hstaged)
      exact hparent ((hsame.holds _).mpr hbase)
  | remove a =>
    rintro ⟨was, hwas, hother⟩
    have hfound := Resource.same_navigate? hcurrent hequal a
    rw [hwas] at hfound
    generalize hnow : current.navigate? a = o at hfound
    cases hfound with
    | some hsame => exact hother _ hnow (.inr hsame)

/-- **Brought onto an equal root, the writes give what is staged.** -/
theorem merge_of_equal (hbase : base.Orderly) (hstaged : staged.Orderly) :
    ∃ merged, merge current base staged log = .ok merged ∧ merged.Orderly ∧
      merged.view.Same staged.view := by
  cases hm : merge current base staged log with
  | error e =>
    obtain ⟨w, hw, hcarried, hclash⟩ :=
      (merge_error_iff_exists hr hbase hstaged hcurrent).mp ⟨e, hm⟩
    have hnumbers := Resource.nanFree_of_same hcurrent hbase hequal
    exact absurd (hclash.resolve_right (w.not_meetsNaN hnumbers))
      (not_clashes_of_equal hr hcurrent hequal hw hcarried)
  | ok merged =>
    have horderly := merge_orderly hr hstaged hcurrent hm
    have honto := (Resource.view_same_of_beq hcurrent hequal).patch base.view staged.view
    have hpatch := (view_merge hr hstaged hcurrent hm).trans (Resource.view_orderly horderly) honto
    exact ⟨merged, rfl, horderly,
      hpatch.trans (Resource.view_orderly horderly) (View.patch_self _ _)⟩

end Equal

end Merge

namespace Transaction

variable {x : Transaction} {t : Tree}

/-! ## The writes of a transaction -/

theorem traced_edited (hx : x.Traced) {edits : List Edit} (hedits : ∀ e ∈ edits, e.Orderly) :
    (x.edited edits).Traced := by
  induction edits generalizing x with
  | nil => exact hx
  | cons e edits ih =>
    exact ih (Edit.traced_apply hx (hedits e List.mem_cons_self))
      fun e he => hedits e (List.mem_cons_of_mem _ he)

theorem Dense.edited (hx : x.Dense) {edits : List Edit} (hedits : ∀ e ∈ edits, e.Dense) :
    (x.edited edits).Dense := by
  induction edits generalizing x with
  | nil => exact hx
  | cons e edits ih =>
    exact ih (hx.apply (hedits e List.mem_cons_self))
      fun e he => hedits e (List.mem_cons_of_mem _ he)

theorem Even.edited (h : x.Even t) (edits : List Edit) : (x.edited edits).Even t := by
  induction edits generalizing x with
  | nil => exact h
  | cons e edits ih => exact ih (h.apply e)

/-! ## Committing -/

/-- **While the base still stands a commit publishes what the transaction reads.** -/
theorem commit_at_base (hbegan : t.version = x.began) (hbase : t.root = x.base)
    (hclean : x.Clean) :
    (x.commit t).1 = .ok () ∧ (x.commit t).2.1.root = x.root := by
  cases hs : x.staging with
  | none =>
    rw [commit_of_clean (by rw [staged?, hs]; rfl), root, hs]
    exact ⟨rfl, (keeps_finish x t).1.trans hbase⟩
  | some s =>
    cases hdirty : s.dirty with
    | false =>
      rw [commit_of_clean (by rw [staged?, hs, Option.bind_some, hdirty]; rfl), root, hs]
      exact ⟨rfl, ((keeps_finish x t).1.trans hbase).trans (hclean s hs hdirty).symm⟩
    | true =>
      rw [commit, root, hs]
      simp only [hdirty, if_true, Tree.publish, if_pos hbegan]
      exact ⟨trivial, (keeps_finish _ _).1⟩

/-- **On a root that is equal to the base a commit publishes the same resources.** -/
theorem commit_of_equal (hx : x.Mergeable) (hbase : x.base.Orderly) (ht : t.root.Orderly)
    (hequal : (t.root == x.base) = true) (hclean : x.Clean) :
    (x.commit t).1 = .ok () ∧ (x.commit t).2.1.root.Orderly ∧
      (x.commit t).2.1.root.view.Same x.root.view := by
  have hsame := Resource.view_same_of_beq ht hequal
  have hidle : x.staged? = none → x.root = x.base → (x.commit t).1 = .ok () ∧
      (x.commit t).2.1.root.Orderly ∧ (x.commit t).2.1.root.view.Same x.root.view := by
    intro hstaged hroot
    rw [commit_of_clean hstaged, (keeps_finish x t).1, hroot]
    exact ⟨rfl, ht, hsame⟩
  cases hs : x.staging with
  | none => exact hidle (by rw [staged?, hs]; rfl) (by rw [root, hs]; rfl)
  | some s =>
    cases hdirty : s.dirty with
    | false =>
      refine hidle (by rw [staged?, hs, Option.bind_some, hdirty]; rfl) ?_
      rw [root, hs]
      exact hclean s hs hdirty
    | true =>
      obtain ⟨hrecord, horderly⟩ := hx s hs
      obtain ⟨published, hpublish, hpublished, hview⟩ : ∃ published,
          t.publish x.base x.began s.root s.log = .ok published ∧ published.root.Orderly ∧
            published.root.view.Same s.root.view := by
        rw [Tree.publish]
        split
        · exact ⟨_, rfl, horderly, .refl _⟩
        · obtain ⟨merged, hmerged, hview⟩ :=
            Merge.merge_of_equal hrecord ht hequal hbase horderly
          exact ⟨_, by rw [hmerged]; rfl, hview⟩
      rw [commit, root, hs]
      simp only [hdirty, if_true, hpublish, (keeps_finish _ _).1]
      exact ⟨trivial, hpublished, hview⟩

theorem Mergeable.releaseLock (hx : x.Mergeable) (t : Tree) : (x.releaseLock t).2.Mergeable := by
  rw [releaseLock_snd]
  rintro s hs
  obtain ⟨s', hs', rfl⟩ := Option.map_eq_some_iff.mp hs
  exact hx s' hs'

theorem dense_commit (hx : x.Dense) (ht : t.root.Dense) : (x.commit t).2.1.root.Dense := by
  obtain ⟨hkeeps, -⟩ | ⟨s, published, hs, hpublish, hkeeps, -⟩ := x.commit_cases t
  · exact hkeeps.1 ▸ ht
  · exact hkeeps.1 ▸ Tree.dense_publish ht (hx.of_staging hs) hpublish

/-- **A commit comes to the same whether or not an equal root was published meanwhile.**  Whatever
was written since the transaction began to stage, as long as no structural write covers a write
beside it:

* both commits succeed;
* the one on the base publishes what the transaction reads, the other one the same resources with
  the same attributes;
* without a NaN in it the two published roots are equal. -/
theorem commit_paths_agree {t u v : Tree} (ht : t.root.Orderly) (hdense : t.root.Dense)
    (x : Transaction) {edits : List Edit} (hedits : ∀ e ∈ edits, e.Orderly ∧ e.Dense)
    (hplain : ∀ s ∈ ((x.stage t).edited edits).staging, Write.Plain s.log)
    (hu : Keeps t u) (hv : v.root.Orderly) (hvdense : v.root.Dense)
    (hequal : (v.root == t.root) = true) :
    let y := (((x.stage t).edited edits).releaseLock t).2
    (y.commit u).1 = .ok () ∧ (y.commit v).1 = .ok () ∧
      (y.commit u).2.1.root = y.root ∧ (y.commit v).2.1.root.view.Same y.root.view ∧
      (y.root.NanFree → ((y.commit u).2.1.root == (y.commit v).2.1.root) = true) := by
  intro y
  have htraced := traced_edited (recorded_stage x ht).traced fun e he => (hedits e he).1
  have hmergeable : ((x.stage t).edited edits).Mergeable := fun s hs =>
    ⟨⟨(htraced s hs).trace, hplain s hs⟩, (htraced s hs).orderly⟩
  have hymergeable : y.Mergeable := hmergeable.releaseLock t
  have heven : y.Even t := ((even_stage x t).edited edits).releaseLock
  have hclean : y.Clean := fun s hs hdirty => (heven.clean s hs hdirty).1
  have hdenseEdited : ((x.stage t).edited edits).Dense :=
    Dense.edited (x := x.stage t) ⟨hdense, hdense⟩ fun e he => (hedits e he).2
  have hydense : y.Dense := hdenseEdited.releaseLock t
  have halong : Alongside (x.stage t) y :=
    (alongside_edited (x.stage t) edits).trans (alongside_releaseLock _ t)
  have hbase : y.base = t.root := halong.base
  have hbegan : y.began = t.version := halong.began
  obtain ⟨hok, hroot⟩ := commit_at_base (hu.2.trans hbegan.symm) (hu.1.trans hbase.symm) hclean
  obtain ⟨hok', horderly', hview⟩ :=
    commit_of_equal hymergeable (hbase ▸ ht) hv (by rwa [hbase]) hclean
  refine ⟨hok, hok', hroot, hview, fun hnan => ?_⟩
  obtain ⟨s, hs⟩ : ∃ s, y.staging = some s := Option.isSome_iff_exists.mp halong.staging
  have hyroot : y.root.Orderly := by
    rw [root, hs]
    exact (hymergeable s hs).2
  have hvview := hview.symm (Resource.view_orderly horderly') (Resource.view_orderly hyroot)
  rw [hroot]
  exact Resource.same_of_agree hyroot horderly' hydense.root (dense_commit hydense hvdense)
    ((Resource.agree_iff_alike hyroot hnan).mpr (Resource.agree_of_view hvview))

/-- An item whose name is a star is created and changed, and so is the root. -/
def starring : List Edit :=
  [.create [⟨"item", "*"⟩] {}, .update [⟨"item", "*"⟩] [.set "v" (.integer 1)],
    .update Address.root [.set "n" (.integer 2)]]

/-- Two items in one order, and in the other one. -/
def there : Tree where
  root := { children := [("item", [("a", {}), ("b", {})])] }

def back : Tree where
  root := { children := [("item", [("b", {}), ("a", {})])] }
  version := 2

theorem commit_paths_agree_starring :
    let y := ((((begin there 0 0).stage there).edited starring).releaseLock there).2
    (y.commit there).1 = .ok () ∧ (y.commit back).1 = .ok () ∧
      (y.commit back).2.1.root.view.Same y.root.view := by
  have hthere : there.root.Built := .put [] ⟨"item", "b"⟩ (.put [] ⟨"item", "a"⟩ .new .new) .new
  have hback : back.root.Built := .put [] ⟨"item", "a"⟩ (.put [] ⟨"item", "b"⟩ .new .new) .new
  have hedits : ∀ e ∈ starring, e.Orderly ∧ e.Dense := by
    intro e he
    simp only [starring, List.mem_cons, List.not_mem_nil, or_false] at he
    rcases he with rfl | rfl | rfl
    · exact ⟨Resource.Built.new.orderly, Resource.Built.new.dense⟩
    · exact ⟨by simp [Edit.Orderly, AttributeChange.Proper, Value.Orderly.integer], trivial⟩
    · exact ⟨by simp [Edit.Orderly, AttributeChange.Proper, Value.Orderly.integer], trivial⟩
  have hplain : ∀ s ∈ (((begin there 0 0).stage there).edited starring).staging,
      Write.Plain s.log := by
    rintro s hs
    obtain rfl := Option.some.inj hs
    show Write.Plain [.create [⟨"item", "*"⟩], .update [⟨"item", "*"⟩], .update Address.root]
    simp only [Write.Plain, Write.address, Write.isStructural]
    decide
  obtain ⟨hok, hok', -, hview, -⟩ := commit_paths_agree hthere.orderly hthere.dense
    (begin there 0 0) hedits hplain ⟨rfl, rfl⟩ hback.orderly hback.dense (by decide +kernel)
  exact ⟨hok, hok', hview⟩

/-- An item whose name is a star is created, and the one that stands beside it is changed. -/
def widening : List Edit :=
  [.create [⟨"item", "*"⟩] {}, .update [⟨"item", "b"⟩] [.set "v" (.integer 2)]]

/-- One item, and the same again after another commit. -/
def lone : Tree where
  root := { children := [("item", [("b", { attributes := [("v", .integer 1)] })])] }

def touched : Tree := { lone with version := 1 }

/-- Both writes succeed and both commits do; brought onto the same root again, the change of the
item is lost. -/
theorem commit_paths_differ :
    let y := ((((begin lone 0 0).stage lone).edited widening).releaseLock lone).2
    let v (t : Tree) := ((y.commit t).2.1.root.navigate? [⟨"item", "b"⟩]).bind (·.attribute? "v")
    y.staging.map (·.log) = some [.create [⟨"item", "*"⟩], .update [⟨"item", "b"⟩]] ∧
      (touched.root == y.base) = true ∧
      (y.commit lone).1 = .ok () ∧ (y.commit touched).1 = .ok () ∧
      v lone = some (.integer 2) ∧ v touched = some (.integer 1) ∧
      ((y.commit lone).2.1.root == (y.commit touched).2.1.root) = false := by
  exact ⟨rfl, by decide +kernel, rfl, rfl, rfl, rfl, by decide +kernel⟩

end Transaction

end ManagementPlane
