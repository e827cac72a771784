import ManagementPlane.Proofs.Model.Density
import ManagementPlane.Proofs.Model.Locking

/-!
# Proofs/Model/Refused — a write that is refused leaves nothing behind

A write that fails leaves what the transaction reads, its log and its lock as they were; all that it
can leave is the mark that something was tried (`Transaction.untried` forgets it).  That mark makes
the next commit publish, yet what is published then is what stands there already: so a history
without the refused writes of a transaction ends in the same commit
(`Shared.refused_writes_vanish`).

The program writes in place: it opens the group of a type before it looks whether the name is free,
and drops a group that is empty after a removal.  On a root where every type has a child
(`Resource.Dense`), which all writes keep, that is no different (`Edit.inPlace_eq`).
-/

namespace ManagementPlane

/-! ## A merge keeps every type filled -/

namespace Merge

variable {base staged root root' : Resource}

theorem children_mergeAttributes {before after node node' : Resource} {names : List String}
    (h : mergeAttributes before after names node = some node') :
    node'.children = node.children := by
  induction names generalizing node with
  | nil => exact Option.some.inj h ▸ rfl
  | cons name names ih =>
    rw [mergeAttributes] at h
    split at h
    · exact ih h
    · split at h
      · cases h
      · rw [ih h]
        split <;> rfl

theorem dense_applyWrite (hstaged : staged.Dense) (hroot : root.Dense) {w : Write}
    (h : applyWrite base staged root w = some root') : root'.Dense := by
  cases w with
  | update a =>
    obtain ⟨-, rfl⟩ | ⟨before, after, n, n', -, -, hn, hmerge, rfl⟩ := applyWrite_update h
    · exact hroot
    · exact hroot.modifyAt fun _ _ =>
        (hroot.navigate? hn).of_children (children_mergeAttributes hmerge)
  | create a =>
    by_cases ha : a = []
    · subst ha
      cases h
    · obtain ⟨-, rfl⟩ | ⟨p, e, n, c, rfl, hn, -, hc, rfl⟩ := applyWrite_create ha h
      · exact hroot
      · exact hroot.modifyAt fun m hm => (hroot.navigate? hm).putChild e (hstaged.navigate? hc)
  | remove a =>
    by_cases ha : a = []
    · subst ha
      cases h
    · obtain ⟨-, rfl⟩ | ⟨p, e, n, was, now, rfl, hn, -, -, -, rfl⟩ := applyWrite_remove ha h
      · exact hroot
      · exact hroot.modifyAt fun m hm => (hroot.navigate? hm).removeChild e

theorem dense_merge (hstaged : staged.Dense) (hroot : root.Dense) {log : List Write}
    (h : merge root base staged log = .ok root') : root'.Dense := by
  rw [merge] at h
  generalize log.filter (!Write.isCarried log ·) = ws at h
  induction ws generalizing root with
  | nil => exact Except.ok.inj h ▸ hroot
  | cons w ws ih =>
    rw [applyWrites] at h
    split at h
    · rename_i next hnext
      exact ih (dense_applyWrite hstaged hroot hnext) h
    · cases h

end Merge

/-! ## Writing in place -/

/-- What a new resource brings along has a child of every type. -/
def Edit.Dense : Edit → Prop
  | create _ r => r.Dense
  | update .. | remove _ => True

namespace Edit

variable {x : Transaction} {s : Staging}

/-- The write as the program makes it, on the root itself. -/
def inPlace (root : Resource) : Edit → Except OperationError Unit × Resource
  | update a changes =>
    match root.navigate? a with
    | none => (.error (.resourceNotFound a), root)
    | some _ => (.ok (), root.modifyAt a (changes.foldl AttributeChange.apply ·))
  | create a r =>
    match a.getLast?, root.navigate? a.parent with
    | none, _ => (.error (.duplicateResource Address.root), root)
    | some _, none => (.error (.resourceNotFound a.parent), root)
    | some e, some node =>
      (if (node.insertChild e r).1 then .ok () else .error (.duplicateResource a),
        root.modifyAt a.parent fun node => (node.insertChild e r).2)
  | remove a =>
    match a.getLast?, root.navigate? a.parent with
    | none, _ => (.error (.contractViolation "the root resource cannot be removed"), root)
    | some _, none => (.error (.resourceNotFound a.parent), root)
    | some e, some node =>
      (if node.hasChild e then .ok () else .error (.resourceNotFound a),
        root.modifyAt a.parent (·.removeChild e))

theorem dense_inPlace {root : Resource} (hroot : root.Dense) {e : Edit}
    (he : e.Dense) : (e.inPlace root).2.Dense := by
  cases e with
  | update a changes =>
    rw [inPlace]
    split
    · exact hroot
    · exact hroot.modifyAt fun n hn =>
        (hroot.navigate? hn).of_children (Resource.children_foldl_change changes n)
  | create a r =>
    rw [inPlace]
    split
    · exact hroot
    · exact hroot
    · exact hroot.modifyAt fun n hn => (hroot.navigate? hn).insertChild _ he
  | remove a =>
    rw [inPlace]
    split
    · exact hroot
    · exact hroot
    · exact hroot.modifyAt fun n hn => (hroot.navigate? hn).removeChild _

/-- **Writing in place is no different**, whether the write succeeds or not. -/
theorem inPlace_eq (hx : x.staging = some s) (hs : s.root.Dense) (e : Edit) :
    e.inPlace s.root = ((e.perform x).1, (e.perform x).2.root) := by
  have hroot : x.root = s.root := by rw [Transaction.root, hx]; rfl
  cases e with
  | update a changes =>
    rw [inPlace, perform, Transaction.update, Transaction.write, hx]
    dsimp only
    cases hn : s.root.navigate? a with
    | none => rfl
    | some n => exact Prod.ext rfl (Resource.modifyAt_congr hn rfl)
  | create a r =>
    rw [inPlace, perform, Transaction.create]
    cases a.getLast? with
    | none => exact Prod.ext rfl hroot.symm
    | some e =>
      dsimp only
      rw [Transaction.write, hx]
      dsimp only
      cases hn : s.root.navigate? a.parent with
      | none => rfl
      | some n =>
        dsimp only
        by_cases hfree : n.hasChild e = true
        · rw [if_pos hfree, Resource.insertChild_of_hasChild hfree]
          refine Prod.ext rfl (Resource.modifyAt_of_eq hn ?_)
          rw [Resource.insertChild_of_hasChild hfree]
        · rw [if_neg hfree, Resource.insertChild_of_free hfree]
          refine Prod.ext rfl (Resource.modifyAt_congr hn ?_)
          rw [Resource.insertChild_of_free hfree]
  | remove a =>
    rw [inPlace, perform, Transaction.remove]
    cases a.getLast? with
    | none => exact Prod.ext rfl hroot.symm
    | some e =>
      dsimp only
      rw [Transaction.write, hx]
      dsimp only
      cases hn : s.root.navigate? a.parent with
      | none => rfl
      | some n =>
        dsimp only
        rw [Resource.hasChild]
        cases hchild : n.child? e with
        | none =>
          refine Prod.ext rfl (Resource.modifyAt_of_eq hn ?_)
          exact (hs.navigate? hn).removeChild_of_free hchild
        | some c => rfl

end Edit

/-! ## What a refused write leaves -/

namespace Transaction

variable {α : Type} {x y : Transaction} {t : Tree}
  {f : Resource → Except OperationError (α × Resource × Write)}

/-- The transaction as if nothing had been tried yet. -/
def untried (x : Transaction) : Transaction :=
  { x with staging := x.staging.map ({ · with dirty := false }) }

/-- The transaction as if something had been tried. -/
def tried (x : Transaction) : Transaction :=
  { x with staging := x.staging.map ({ · with dirty := true }) }

@[simp] theorem tried_untried (x : Transaction) : x.untried.tried = x.tried := by
  unfold tried untried
  cases x.staging <;> rfl

theorem untried_untried (x : Transaction) : x.untried.untried = x.untried := by
  unfold untried
  cases x.staging <;> rfl

@[simp] theorem root_untried (x : Transaction) : x.untried.root = x.root := by
  unfold root untried
  cases x.staging <;> rfl

@[simp] theorem log_untried (x : Transaction) : x.untried.log = x.log := by
  unfold log untried
  cases x.staging <;> rfl

@[simp] theorem holdsLock_untried (x : Transaction) : x.untried.holdsLock = x.holdsLock := by
  unfold holdsLock untried
  cases x.staging <;> rfl

@[simp] theorem hasIntent_untried (x : Transaction) : x.untried.hasIntent = x.hasIntent := by
  unfold hasIntent untried
  cases x.staging <;> rfl

theorem releaseLock_untried (x : Transaction) (t : Tree) :
    (x.untried.releaseLock t).1 = (x.releaseLock t).1 ∧
      (x.untried.releaseLock t).2.untried = (x.releaseLock t).2.untried := by
  constructor
  · rw [releaseLock, releaseLock, untried]
    cases x.staging with
    | none => rfl
    | some s => cases hlocked : s.locked <;> simp [hlocked]
  · rw [releaseLock_snd, releaseLock_snd, unlocked, unlocked, untried, untried]
    cases x.staging <;> rfl

theorem untried_write_of_error {err : OperationError} (h : (x.write f).1 = .error err) :
    (x.write f).2.untried = x.untried := by
  rw [write] at h ⊢
  cases hs : x.staging with
  | none => rfl
  | some s =>
    rw [hs] at h
    dsimp only at h ⊢
    cases hout : f s.root with
    | error e => simp only [untried, hs, Option.map_some]
    | ok out =>
      rw [hout] at h
      cases h

/-- A write goes by what the transaction reads and logged. -/
theorem write_untried (x : Transaction)
    (f : Resource → Except OperationError (α × Resource × Write)) :
    (x.untried.write f).1 = (x.write f).1 ∧
      (x.untried.write f).2.untried = (x.write f).2.untried := by
  rw [write, write, untried]
  cases hs : x.staging with
  | none => exact ⟨rfl, by simp only [untried, hs, Option.map_none]⟩
  | some s =>
    rw [Option.map_some]
    dsimp only
    cases f s.root with
    | error e => exact ⟨rfl, rfl⟩
    | ok out => exact ⟨rfl, rfl⟩

end Transaction

namespace Edit

open Transaction

variable {x y : Transaction}

/-- **A refused write leaves the transaction as it was**, but for the mark that it was tried. -/
theorem untried_of_error {e : Edit} {err : OperationError} (h : (e.perform x).1 = .error err) :
    (e.perform x).2.untried = x.untried := by
  obtain ⟨err', hf⟩ | ⟨f, hf⟩ := perform_cases e
  · rw [hf]
  · rw [hf] at h ⊢
    exact untried_write_of_error h

/-- A write does the same whether or not something was tried before. -/
theorem perform_congr (h : x.untried = y.untried) (e : Edit) :
    (e.perform x).1 = (e.perform y).1 ∧ (e.perform x).2.untried = (e.perform y).2.untried := by
  obtain ⟨err, hf⟩ | ⟨f, hf⟩ := perform_cases e
  · rw [hf, hf]
    exact ⟨rfl, h⟩
  · rw [hf, hf]
    obtain ⟨hx, hx'⟩ := write_untried x f
    obtain ⟨hy, hy'⟩ := write_untried y f
    rw [h] at hx hx'
    exact ⟨hx.symm.trans hy, hx'.symm.trans hy'⟩

end Edit

/-! ## What the mark costs

A commit publishes when something was tried.  If nothing succeeded, that is the root that stands
there already. -/

namespace Transaction

variable {x y : Transaction} {t t' : Tree}

/-- The transaction knows what its base is worth, and has staged nothing without trying. -/
structure Even (x : Transaction) (t : Tree) : Prop where
  current : x.Current t
  clean : ∀ s ∈ x.staging, s.dirty = false → s.root = x.base ∧ s.log = []

theorem Even.of_keeps (h : x.Even t) (ht : Keeps t t') : x.Even t' :=
  ⟨h.current.of_keeps ht, h.clean⟩

theorem even_of_staging (h : x.Current t) (hx : x.staging = none) : x.Even t :=
  ⟨h, fun s hs => by rw [hx] at hs; cases hs⟩

theorem even_stage (x : Transaction) (t : Tree) : (x.stage t).Even t where
  current := ⟨le_refl _, fun _ => rfl⟩
  clean s hs _ := by
    obtain rfl : { root := t.root } = s := Option.some.inj hs
    exact ⟨rfl, rfl⟩

theorem Even.apply (h : x.Even t) (e : Edit) : (e.apply x).Even t := by
  refine ⟨(Edit.alongside_apply x e).current h.current, ?_⟩
  rw [← Edit.snd_perform]
  obtain ⟨err, hf⟩ | ⟨f, hf⟩ := e.perform_cases
  · rw [hf]
    exact h.clean
  · rw [hf, write]
    cases hs : x.staging with
    | none => exact h.clean
    | some s =>
      -- whatever comes of it, it was tried
      dsimp only
      split <;> (rintro s' ⟨⟩ hclean; cases hclean)

theorem Even.releaseLock (h : x.Even t) : (x.releaseLock t').2.Even t := by
  refine ⟨(x.alongside_releaseLock t').current h.current, ?_⟩
  rw [releaseLock_snd]
  rintro s hs hclean
  obtain ⟨s', hs', rfl⟩ := Option.map_eq_some_iff.mp hs
  exact h.clean s' hs' hclean

/-- A commit keeps the published root, or starts afresh on the one that it publishes. -/
theorem commit_cases (x : Transaction) (t : Tree) :
    (Keeps t (x.commit t).2.1 ∧ (x.commit t).2.2 = { x with staging := none }) ∨
    ∃ s published, x.staging = some s ∧ t.publish x.base x.began s.root s.log = .ok published ∧
      Keeps published (x.commit t).2.1 ∧ (x.commit t).2.2 =
        { x with base := published.root, began := published.version, staging := none } := by
  have hfinish : Keeps t (x.finish t).1 ∧ (x.finish t).2 = { x with staging := none } :=
    ⟨x.keeps_finish t, x.finish_snd t⟩
  rw [commit]
  split
  · rename_i s hs
    split
    · split
      · rename_i published hp
        exact .inr ⟨s, published, hs, hp, keeps_finish _ _, by rw [finish_snd]⟩
      · exact .inl hfinish
    · exact .inl hfinish
  · exact .inl hfinish

theorem Even.commit (h : x.Even t) : (x.commit t).2.2.Even (x.commit t).2.1 := by
  obtain ⟨hkeeps, hx⟩ | ⟨s, published, -, -, hkeeps, hx⟩ := x.commit_cases t
  · have hended : Even { x with staging := none } t :=
      even_of_staging ⟨h.current.began, h.current.base⟩ rfl
    rw [hx]
    exact hended.of_keeps hkeeps
  · have hended : Even { x with
        base := published.root, began := published.version, staging := none } published :=
      even_of_staging ⟨le_refl _, fun _ => rfl⟩ rfl
    rw [hx]
    exact hended.of_keeps hkeeps

/-- Nothing, brought onto the published root, is the published root. -/
theorem Current.publish_base (h : x.Current t) :
    ∃ published, t.publish x.base x.began x.base [] = .ok published ∧ published.root = t.root := by
  rw [Tree.publish]
  split
  · rename_i hversion
    exact ⟨_, rfl, h.base hversion.symm⟩
  · exact ⟨_, rfl, rfl⟩

/-- **The mark alone publishes what stands there.** -/
theorem Even.commit_tried (h : x.Even t) :
    (x.tried.commit t).1 = (x.commit t).1 ∧
      (x.tried.commit t).2.1.root = (x.commit t).2.1.root := by
  cases hs : x.staging with
  | none =>
    have htried : x.tried = x := by rw [tried, hs, Option.map_none, ← hs]
    rw [htried]
    exact ⟨rfl, rfl⟩
  | some s =>
    cases hdirty : s.dirty with
    | true =>
      have htried : x.tried = x := by
        rw [tried, hs, Option.map_some, ← hdirty, ← hs]
      rw [htried]
      exact ⟨rfl, rfl⟩
    | false =>
      obtain ⟨hroot, hlog⟩ := h.clean s hs hdirty
      obtain ⟨published, hpublish, hpublished⟩ := h.current.publish_base
      have hclean : x.staged? = none := by
        rw [staged?, hs, Option.bind_some, hdirty]
        rfl
      have htried : x.tried.commit t = (.ok (), finish
          { x.tried with base := published.root, began := published.version } published) := by
        rw [Transaction.commit, tried, hs]
        simp only [Option.map_some, if_true, hroot, hlog, hpublish]
      rw [commit_of_clean hclean, htried]
      exact ⟨rfl, (keeps_finish _ _).1.trans (hpublished.trans (x.keeps_finish t).1.symm)⟩

/-- What was tried in vain is not to be seen in a commit. -/
theorem Even.commit_congr (hx : x.Even t) (hy : y.Even t) (h : x.untried = y.untried) :
    (x.commit t).1 = (y.commit t).1 ∧ (x.commit t).2.1.root = (y.commit t).2.1.root := by
  obtain ⟨hx, hx'⟩ := hx.commit_tried
  obtain ⟨hy, hy'⟩ := hy.commit_tried
  rw [← tried_untried, h, tried_untried] at hx hx'
  exact ⟨hx.symm.trans hy, hx'.symm.trans hy'⟩

end Transaction

/-! ## Histories with and without refused writes -/

namespace Shared

open Transaction (Keeps)

variable {s t : Shared} {e : Event} {i j : Nat} {x y : Transaction} {span : List Event}

def Even (s : Shared) : Prop := ∀ i, ∀ x ∈ s.transaction? i, x.Even s.tree

theorem Even.onTransaction {f : Transaction → Tree × Option Transaction} (hs : s.Even)
    (hkeeps : ∀ x ∈ s.transaction? i, Keeps s.tree (f x).1)
    (hx : ∀ x, x.Even s.tree → ∀ y ∈ (f x).2, y.Even s.tree) : (s.onTransaction i f).Even := by
  have htree := keeps_onTransaction hkeeps
  intro j y hy
  rw [transaction?_onTransaction] at hy
  split at hy
  · obtain ⟨x, hxs, hy⟩ := Option.bind_eq_some_iff.mp hy
    exact (hx x (hs i x hxs) y hy).of_keeps htree
  · exact (hs j y hy).of_keeps htree

theorem Even.step (hs : s.Even) (e : Event) : (s.step e).Even := by
  have hends : ∀ x : Transaction, x.Even s.tree → (x.finish s.tree).2.Even s.tree := by
    intro x hx
    rw [Transaction.finish_snd]
    exact Transaction.even_of_staging ⟨hx.current.began, hx.current.base⟩ rfl
  cases e with
  | begin timeout =>
    intro j y hy
    rw [transaction?_begin] at hy
    split at hy
    · exact Option.some.inj hy ▸ Transaction.even_of_staging ⟨le_refl _, fun _ => rfl⟩ rfl
    · exact hs j y hy
  | acquire i =>
    refine hs.onTransaction (fun x _ => ?_) fun x hx y hy => ?_
    · split
      · rename_i tree z hz
        exact (Transaction.acquire?_eq_some hz).1
      · exact ⟨rfl, rfl⟩
    · split at hy
      · rename_i tree z hz
        obtain rfl := Option.some.inj hy
        obtain rfl | rfl := (Transaction.acquire?_eq_some hz).2
        · exact hx
        · exact x.even_stage s.tree
      · exact Option.some.inj hy ▸ hx
  | giveUp i =>
    exact hs.onTransaction (fun x _ => ⟨rfl, rfl⟩) fun x hx y hy => Option.some.inj hy ▸ hx
  | write i e =>
    exact hs.onTransaction (fun x _ => ⟨rfl, rfl⟩) fun x hx y hy => Option.some.inj hy ▸ hx.apply e
  | release i =>
    refine hs.onTransaction (fun x _ => x.keeps_releaseLock s.tree) fun x hx y hy => ?_
    obtain rfl : (x.releaseLock s.tree).2 = y := Option.some.inj hy
    exact hx.releaseLock
  | rollback i =>
    refine hs.onTransaction (fun x _ => x.keeps_finish s.tree) fun x hx y hy => ?_
    obtain rfl : (x.finish s.tree).2 = y := Option.some.inj hy
    exact hends x hx
  | drop i =>
    exact hs.onTransaction (fun x _ => x.keeps_finish s.tree) fun x hx y hy => by cases hy
  | commit i =>
    cases hi : s.transaction? i with
    | none =>
      rw [step_of_actor? rfl hi]
      exact hs
    | some x =>
      have htree : (s.step (.commit i)).tree = (x.commit s.tree).2.1 := by
        rw [Shared.step, tree_onTransaction, hi]
        rfl
      intro j y hy
      rw [htree]
      rw [Shared.step, transaction?_onTransaction] at hy
      split at hy
      · rw [hi] at hy
        obtain rfl : (x.commit s.tree).2.2 = y := Option.some.inj hy
        exact (hs i x hi).commit
      · have hy := hs j y hy
        obtain ⟨hkeeps, -⟩ | ⟨staged, published, -, hpublish, hkeeps, -⟩ := x.commit_cases s.tree
        · exact hy.of_keeps hkeeps
        · obtain ⟨root, rfl⟩ := Tree.publish_eq_ok hpublish
          exact ⟨hy.current.of_version hkeeps.2, hy.clean⟩

theorem even_run (root : Resource) (events : List Event) : ((of root).run events).Even := by
  suffices H : ∀ s : Shared, s.Even → (s.run events).Even from
    H _ fun i x hx => by simp [of, transaction?] at hx
  induction events with
  | nil => exact fun s hs => hs
  | cons e events ih => exact fun s hs => ih _ (hs.step e)

/-- Whether the event is a write of transaction `i` that fails. -/
def refuses (s : Shared) (i : Nat) : Event → Bool
  | .write j e => decide (j = i) && (s.transaction? i).any fun x => !(e.perform x).1.isOk
  | _ => false

/-- The events without the writes of transaction `i` that fail. -/
def heeded (i : Nat) : Shared → List Event → List Event
  | _, [] => []
  | s, e :: events =>
    if s.refuses i e then heeded i (s.step e) events else e :: heeded i (s.step e) events

/-- The same, but for what transaction `i` tried in vain. -/
structure SameBut (i : Nat) (s t : Shared) : Prop where
  tree : t.tree = s.tree
  length : t.transactions.length = s.transactions.length
  others : ∀ j ≠ i, t.transaction? j = s.transaction? j
  own : (t.transaction? i).map Transaction.untried = (s.transaction? i).map Transaction.untried

theorem SameBut.refl (i : Nat) (s : Shared) : SameBut i s s := ⟨rfl, rfl, fun _ _ => rfl, rfl⟩

/-- What is done with a transaction does not depend on whether something was tried. -/
def Blind (f : Transaction → Tree × Option Transaction) : Prop :=
  ∀ x, (f x.untried).1 = (f x).1 ∧
    (f x.untried).2.map Transaction.untried = (f x).2.map Transaction.untried

variable {f : Transaction → Tree × Option Transaction}

theorem SameBut.onTransaction (h : SameBut i s t) (hf : j = i → Blind f) :
    SameBut i (s.onTransaction j f) (t.onTransaction j f) := by
  by_cases hj : j = i
  · subst hj
    have hblind := hf rfl
    have hown := h.own
    have hnone : s.transaction? j = none ↔ t.transaction? j = none := by
      rw [← Option.map_eq_none_iff (f := Transaction.untried), ← hown, Option.map_eq_none_iff]
    cases hx : s.transaction? j with
    | none =>
      rw [Shared.onTransaction, Shared.onTransaction, hx, hnone.mp hx]
      exact h
    | some x =>
      cases hy : t.transaction? j with
      | none =>
        rw [hnone.mpr hy] at hx
        cases hx
      | some y =>
        rw [hx, hy] at hown
        have hxy : y.untried = x.untried := Option.some.inj hown
        obtain ⟨hx₁, hx₂⟩ := hblind x
        obtain ⟨hy₁, hy₂⟩ := hblind y
        rw [hxy] at hy₁ hy₂
        refine ⟨?_, ?_, fun k hk => ?_, ?_⟩
        · rw [tree_onTransaction, tree_onTransaction, hx, hy]
          exact hy₁.symm.trans hx₁
        · rw [length_onTransaction, length_onTransaction, h.length]
        · rw [transaction?_onTransaction, transaction?_onTransaction, if_neg (Ne.symm hk),
            if_neg (Ne.symm hk), h.others k hk]
        · rw [transaction?_onTransaction, transaction?_onTransaction, if_pos rfl, if_pos rfl, hx,
            hy]
          exact hy₂.symm.trans hx₂
  · refine ⟨?_, ?_, fun k hk => ?_, ?_⟩
    · rw [tree_onTransaction, tree_onTransaction, h.others j hj, h.tree]
    · rw [length_onTransaction, length_onTransaction, h.length]
    · rw [transaction?_onTransaction, transaction?_onTransaction, h.others j hj, h.others k hk]
    · rw [transaction?_onTransaction, transaction?_onTransaction, if_neg hj, if_neg hj, h.own]

theorem blind_acquire (t : Tree) : Blind fun x => match x.acquire? t with
    | some (tree, x) => (tree, some x)
    | none => ({ t with lock := t.lock.request x.writer }, some x) := by
  intro x
  have hwriter : x.untried.writer = x.writer := rfl
  have hstage : x.untried.stage t = x.stage t := rfl
  dsimp only
  rw [Transaction.acquire?, Transaction.acquire?, Transaction.hasIntent_untried, hwriter, hstage]
  by_cases hintent : x.hasIntent = true
  · rw [if_pos hintent, if_pos hintent]
    exact ⟨rfl, congrArg some x.untried_untried⟩
  · rw [if_neg hintent, if_neg hintent]
    by_cases hholder : (t.lock.request x.writer).holder = some x.writer
    · rw [if_pos hholder]
      exact ⟨rfl, rfl⟩
    · rw [if_neg hholder]
      exact ⟨rfl, congrArg some x.untried_untried⟩

theorem blind_giveUp (t : Tree) : Blind fun x => (forgo t x, some x) := by
  intro x
  have hwriter : x.untried.writer = x.writer := rfl
  refine ⟨?_, congrArg some x.untried_untried⟩
  simp only [forgo, Transaction.hasIntent_untried, hwriter]

theorem blind_write (t : Tree) (e : Edit) : Blind fun x => (t, some (e.apply x)) := by
  intro x
  have hwrite := (Edit.perform_congr x.untried_untried e).2
  rw [Edit.snd_perform, Edit.snd_perform] at hwrite
  exact ⟨rfl, congrArg some hwrite⟩

theorem blind_release (t : Tree) : Blind fun x => (x.releaseLock t).map id some := by
  intro x
  obtain ⟨hlock, hx⟩ := x.releaseLock_untried t
  exact ⟨hlock, congrArg some hx⟩

theorem blind_rollback (t : Tree) : Blind fun x => (x.rollback t).map id some := by
  intro x
  refine ⟨(x.releaseLock_untried t).1, congrArg some ?_⟩
  change (x.untried.finish t).2.untried = (x.finish t).2.untried
  rw [Transaction.finish_snd, Transaction.finish_snd]
  rfl

theorem blind_drop (t : Tree) : Blind fun x => ((x.rollback t).1, none) :=
  fun x => ⟨(x.releaseLock_untried t).1, rfl⟩

/-- **Everything but the commit goes on the same.** -/
theorem SameBut.step (h : SameBut i s t) (he : e ≠ .commit i) :
    SameBut i (s.step e) (t.step e) := by
  cases e with
  | begin timeout =>
    have hbegin : ∀ j, (t.step (.begin timeout)).transaction? j =
        if j = s.transactions.length then some (Transaction.begin s.tree j timeout)
        else t.transaction? j := by
      intro j
      rw [transaction?_begin, h.length, h.tree]
    refine ⟨h.tree, ?_, fun j hj => ?_, ?_⟩
    · simp only [Shared.step, List.length_append, h.length]
      rfl
    · rw [hbegin, transaction?_begin, h.others j hj]
    · rw [hbegin, transaction?_begin]
      split
      · rfl
      · exact h.own
  | acquire j =>
    rw [Shared.step, Shared.step, h.tree]
    exact h.onTransaction fun _ => blind_acquire s.tree
  | giveUp j =>
    rw [Shared.step, Shared.step, h.tree]
    exact h.onTransaction fun _ => blind_giveUp s.tree
  | write j e =>
    rw [Shared.step, Shared.step, h.tree]
    exact h.onTransaction fun _ => blind_write s.tree e
  | release j =>
    rw [Shared.step, Shared.step, h.tree]
    exact h.onTransaction fun _ => blind_release s.tree
  | commit j =>
    rw [Shared.step, Shared.step, h.tree]
    exact h.onTransaction fun hj => absurd (congrArg Event.commit hj) he
  | rollback j =>
    rw [Shared.step, Shared.step, h.tree]
    exact h.onTransaction fun _ => blind_rollback s.tree
  | drop j =>
    rw [Shared.step, Shared.step, h.tree]
    exact h.onTransaction fun _ => blind_drop s.tree

theorem SameBut.trans {u : Shared} (h : SameBut i s t) (h' : SameBut i t u) : SameBut i s u where
  tree := h'.tree.trans h.tree
  length := h'.length.trans h.length
  others j hj := (h'.others j hj).trans (h.others j hj)
  own := h'.own.trans h.own

/-- A refused write changes nothing but that mark. -/
theorem sameBut_of_refuses (h : s.refuses i e = true) : SameBut i (s.step e) s := by
  cases e with
  | write j e =>
    obtain ⟨hj, hany⟩ := Bool.and_eq_true_iff.mp h
    obtain rfl := of_decide_eq_true hj
    cases hx : s.transaction? j with
    | none =>
      rw [step_of_actor? rfl hx]
      exact .refl j s
    | some x =>
      rw [hx, Option.any_some] at hany
      obtain ⟨err, herr⟩ : ∃ err, (e.perform x).1 = .error err := by
        cases hout : (e.perform x).1 with
        | error err => exact ⟨err, rfl⟩
        | ok =>
          rw [hout] at hany
          cases hany
      refine ⟨?_, (length_onTransaction _ _ _).symm, fun k hk => ?_, ?_⟩
      · rw [Shared.step, tree_onTransaction, hx]
        rfl
      · rw [Shared.step, transaction?_onTransaction, if_neg (Ne.symm hk)]
      · rw [Shared.step, transaction?_onTransaction, if_pos rfl, hx]
        have huntried := Edit.untried_of_error herr
        rw [Edit.snd_perform] at huntried
        exact congrArg some huntried.symm
  | _ => cases h

/-- **Without its refused writes a transaction comes to the same.** -/
theorem SameBut.run (h : SameBut i s t) (hspan : .commit i ∉ span) :
    SameBut i (s.run span) (t.run (heeded i s span)) := by
  induction span generalizing s t with
  | nil => exact h
  | cons e span ih =>
    have he : e ≠ .commit i := fun he => hspan (he ▸ List.mem_cons_self)
    have hspan' : .commit i ∉ span := fun h => hspan (List.mem_cons_of_mem _ h)
    rw [heeded]
    split
    · rename_i hrefuses
      exact ih ((sameBut_of_refuses hrefuses).trans h) hspan'
    · exact ih (h.step he) hspan'

/-! ## No group is left empty -/

end Shared

def Event.Dense : Event → Prop
  | write _ e => e.Dense
  | _ => True

theorem Tree.dense_publish {t published : Tree} {base staged : Resource} {began : Nat}
    {log : List Write} (ht : t.root.Dense) (hstaged : staged.Dense)
    (h : t.publish base began staged log = .ok published) : published.root.Dense := by
  rw [publish] at h
  split at h
  · exact Except.ok.inj h ▸ hstaged
  · cases hmerged : Merge.merge t.root base staged log with
    | error e =>
      rw [hmerged] at h
      cases h
    | ok merged =>
      rw [hmerged] at h
      exact Except.ok.inj h ▸ Merge.dense_merge hstaged ht hmerged

namespace Transaction

variable {x : Transaction}

/-- Neither the root that the transaction began with nor the one that it reads has an empty
group. -/
structure Dense (x : Transaction) : Prop where
  base : x.base.Dense
  root : x.root.Dense

theorem Dense.of_staging (hx : x.Dense) {s : Staging} (hs : x.staging = some s) : s.root.Dense := by
  have hroot := hx.root
  rw [Transaction.root, hs] at hroot
  exact hroot

theorem Dense.apply (hx : x.Dense) {e : Edit} (he : e.Dense) : (e.apply x).Dense := by
  have hsame := Edit.alongside_apply x e
  refine ⟨hsame.base ▸ hx.base, ?_⟩
  cases hs : x.staging with
  | none =>
    rw [hsame.eq (by rw [hasIntent, hs]; rfl)]
    exact hx.root
  | some s =>
    have hroot := hx.of_staging hs
    have hinPlace : (e.inPlace s.root).2 = (e.perform x).2.root :=
      congrArg Prod.snd (e.inPlace_eq hs hroot)
    rw [← Edit.snd_perform, ← hinPlace]
    exact Edit.dense_inPlace hroot he

theorem Dense.ended (hx : x.Dense) : Dense { x with staging := none } := ⟨hx.base, hx.base⟩

theorem Dense.releaseLock (hx : x.Dense) (t : Tree) : (x.releaseLock t).2.Dense := by
  rw [releaseLock_snd]
  refine ⟨hx.base, ?_⟩
  have hroot : x.unlocked.root = x.root := by
    unfold Transaction.root unlocked
    cases x.staging <;> rfl
  exact hroot ▸ hx.root

end Transaction

namespace Shared

open Transaction (Keeps)

variable {s : Shared} {e : Event} {i : Nat} {events : List Event}

/-- No root has an empty group, neither the published one nor that of any transaction. -/
structure Dense (s : Shared) : Prop where
  tree : s.tree.root.Dense
  each : ∀ i, ∀ x ∈ s.transaction? i, x.Dense

theorem Dense.onTransaction {f : Transaction → Tree × Option Transaction} (hs : s.Dense)
    (htree : ∀ x ∈ s.transaction? i, (f x).1.root.Dense)
    (hx : ∀ x, x.Dense → ∀ y ∈ (f x).2, y.Dense) : (s.onTransaction i f).Dense := by
  refine ⟨?_, fun j y hy => ?_⟩
  · rw [tree_onTransaction]
    cases hi : s.transaction? i with
    | none => exact hs.tree
    | some x => exact htree x hi
  · rw [transaction?_onTransaction] at hy
    split at hy
    · obtain ⟨x, hxs, hy⟩ := Option.bind_eq_some_iff.mp hy
      exact hx x (hs.each i x hxs) y hy
    · exact hs.each j y hy

theorem Dense.step (hs : s.Dense) (he : e.Dense) : (s.step e).Dense := by
  have hkeeps : ∀ {t : Tree}, Keeps s.tree t → t.root.Dense := fun ht => ht.1 ▸ hs.tree
  have hfinish : ∀ x : Transaction, x.Dense → (x.finish s.tree).2.Dense := by
    intro x hx
    rw [Transaction.finish_snd]
    exact hx.ended
  cases e with
  | begin timeout =>
    refine ⟨hs.tree, fun j y hy => ?_⟩
    rw [transaction?_begin] at hy
    split at hy
    · exact Option.some.inj hy ▸ ⟨hs.tree, hs.tree⟩
    · exact hs.each j y hy
  | acquire i =>
    refine hs.onTransaction (fun x _ => ?_) fun x hx y hy => ?_
    · split
      · rename_i tree z hz
        exact hkeeps (Transaction.acquire?_eq_some hz).1
      · exact hs.tree
    · split at hy
      · rename_i tree z hz
        obtain rfl := Option.some.inj hy
        obtain rfl | rfl := (Transaction.acquire?_eq_some hz).2
        · exact hx
        · exact ⟨hs.tree, hs.tree⟩
      · exact Option.some.inj hy ▸ hx
  | giveUp i => exact hs.onTransaction (fun x _ => hs.tree) fun x hx y hy => Option.some.inj hy ▸ hx
  | write i e =>
    exact hs.onTransaction (fun x _ => hs.tree) fun x hx y hy => Option.some.inj hy ▸ hx.apply he
  | release i =>
    refine hs.onTransaction (fun x _ => hkeeps (x.keeps_releaseLock s.tree)) fun x hx y hy => ?_
    obtain rfl : (x.releaseLock s.tree).2 = y := Option.some.inj hy
    exact hx.releaseLock s.tree
  | rollback i =>
    refine hs.onTransaction (fun x _ => hkeeps (x.keeps_finish s.tree)) fun x hx y hy => ?_
    obtain rfl : (x.finish s.tree).2 = y := Option.some.inj hy
    exact hfinish x hx
  | drop i =>
    exact hs.onTransaction (fun x _ => hkeeps (x.keeps_finish s.tree)) fun x hx y hy => by cases hy
  | commit i =>
    have hcommit : ∀ x : Transaction, x.Dense →
        (x.commit s.tree).2.1.root.Dense ∧ (x.commit s.tree).2.2.Dense := by
      intro x hx
      obtain ⟨hsame, hx'⟩ | ⟨staged, published, hstaged, hpublish, hsame, hx'⟩ :=
        x.commit_cases s.tree
      · rw [hx']
        exact ⟨hkeeps hsame, hx.ended⟩
      · have hpublished := Tree.dense_publish hs.tree (hx.of_staging hstaged) hpublish
        rw [hx', hsame.1]
        exact ⟨hpublished, ⟨hpublished, hpublished⟩⟩
    refine hs.onTransaction (fun x hx => (hcommit x (hs.each i x hx)).1) fun x hx y hy => ?_
    obtain rfl : (x.commit s.tree).2.2 = y := Option.some.inj hy
    exact (hcommit x hx).2

theorem dense_run {root : Resource} (hroot : root.Dense) (hevents : ∀ e ∈ events, e.Dense) :
    ((of root).run events).Dense := by
  suffices H : ∀ s : Shared, s.Dense → (s.run events).Dense from
    H _ ⟨hroot, fun i x hx => by simp [of, transaction?] at hx⟩
  induction events with
  | nil => exact fun s hs => hs
  | cons e events ih =>
    exact fun s hs => ih (fun e he => hevents e (List.mem_cons_of_mem _ he)) _
      (hs.step (hevents e List.mem_cons_self))

/-! ## Refused writes vanish -/

/-- **Refused writes vanish.**

* A write that fails leaves what its transaction reads, its log, its intent and its lock.
* It leaves the tree and all other transactions.
* Whatever else happens until a transaction commits, without its refused writes it would read the
  same and have logged the same by then, and the commit would come to the same end and publish the
  same root.
* And it is no different that the program writes in place, wherever no group is empty: that is so
  of every root that it can come to. -/
theorem refused_writes_vanish :
    (∀ (x : Transaction) (e : Edit) err, (e.perform x).1 = .error err →
      (e.perform x).2.root = x.root ∧ (e.perform x).2.log = x.log ∧
        (e.perform x).2.hasIntent = x.hasIntent ∧ (e.perform x).2.holdsLock = x.holdsLock ∧
        (e.perform x).2.base = x.base ∧ (e.perform x).2.began = x.began) ∧
    (∀ (s : Shared) i e, s.refuses i e = true →
      (s.step e).tree = s.tree ∧ ∀ j ≠ i, (s.step e).transaction? j = s.transaction? j) ∧
    (∀ root before i span, Event.commit i ∉ span →
      let s := (of root).run before
      let t := s.run (heeded i s span)
      t.tree = (s.run span).tree ∧ ∀ x ∈ (s.run span).transaction? i, ∃ y ∈ t.transaction? i,
        y.root = x.root ∧ y.log = x.log ∧
          (y.commit t.tree).1 = (x.commit (s.run span).tree).1 ∧
          (y.commit t.tree).2.1.root = (x.commit (s.run span).tree).2.1.root) ∧
    (∀ root before, root.Dense → (∀ e ∈ before, e.Dense) →
      ∀ i, ∀ x ∈ ((of root).run before).transaction? i, ∀ s ∈ x.staging, ∀ e : Edit,
        e.inPlace s.root = ((e.perform x).1, (e.perform x).2.root)) := by
  refine ⟨fun x e err herr => ?_, fun s i e h => ?_, fun root before i span hspan => ?_,
    fun root before hroot hbefore i x hx s hs e => ?_⟩
  · have huntried := Edit.untried_of_error herr
    have hbase := congrArg Transaction.base huntried
    have hbegan := congrArg Transaction.began huntried
    refine ⟨?_, ?_, ?_, ?_, hbase, hbegan⟩
    · rw [← Transaction.root_untried, huntried, Transaction.root_untried]
    · rw [← Transaction.log_untried, huntried, Transaction.log_untried]
    · rw [← Transaction.hasIntent_untried, huntried, Transaction.hasIntent_untried]
    · rw [← Transaction.holdsLock_untried, huntried, Transaction.holdsLock_untried]
  · have hsame := sameBut_of_refuses h
    exact ⟨hsame.tree.symm, fun j hj => (hsame.others j hj).symm⟩
  · intro s t
    have hsame : SameBut i (s.run span) t := (SameBut.refl i s).run hspan
    have hs : (s.run span).Even := by
      rw [← run_append]
      exact even_run root _
    have ht : t.Even := by
      change (s.run (heeded i s span)).Even
      rw [← run_append]
      exact even_run root _
    refine ⟨hsame.tree, fun x hx => ?_⟩
    have hown := hsame.own
    rw [hx, Option.map_some] at hown
    obtain ⟨y, hy, hxy⟩ := Option.map_eq_some_iff.mp hown
    have heven := ht i y hy
    rw [hsame.tree] at heven ⊢
    refine ⟨y, hy, ?_, ?_, heven.commit_congr (hs i x hx) hxy⟩
    · rw [← Transaction.root_untried, hxy, Transaction.root_untried]
    · rw [← Transaction.log_untried, hxy, Transaction.log_untried]
  · exact e.inPlace_eq hs (((dense_run hroot hbefore).each i x hx).of_staging hs)

/-- A name that is taken, and a resource that is missing. -/
def vain : List Event :=
  [.write 0 (.create [⟨"item", "a"⟩] {}), .write 0 (.remove [⟨"item", "b"⟩])]

theorem refused_writes_vanish_vain :
    let root : Resource := { children := [("item", [("a", {})])] }
    let s := (of root).run [.begin 1000, .acquire 0]
    heeded 0 s vain = [] ∧ (s.run vain).tree = s.tree ∧
      ∀ x ∈ (s.run vain).transaction? 0, x.isDirty = true ∧ ∃ y ∈ s.transaction? 0,
        y.isDirty = false ∧ (y.commit s.tree).1 = (x.commit (s.run vain).tree).1 ∧
          (y.commit s.tree).2.1.root = (x.commit (s.run vain).tree).2.1.root := by
  intro root s
  have hnone : heeded 0 s vain = [] := rfl
  obtain ⟨-, -, hvanish, -⟩ := refused_writes_vanish
  obtain ⟨htree, hcommit⟩ := hvanish root [.begin 1000, .acquire 0] 0 vain (by simp [vain])
  refine ⟨hnone, htree.symm, fun x hx => ?_⟩
  obtain ⟨y, hy, -, -, hout, hroot⟩ := hcommit x hx
  obtain rfl := Option.some.inj hx
  obtain rfl := Option.some.inj hy
  exact ⟨rfl, _, rfl, rfl, hout, hroot⟩

end Shared

end ManagementPlane
