import ManagementPlane.Proofs.Model.Staged

/-!
# Proofs/Model/History — no update is lost, whoever else writes

Any number of transactions share one tree (`Shared`), and an `Event` is whatever one of them does
next.  A commit that succeeds publishes its net change, the `Change` from its base to its staged
root; `commits` lists the changes of a whole history in the order in which they were published.

`Shared.history` says that the tree is, up to the order of keys, what these changes make of the
initial root, one on top of the other.  What carries it is `Shared.Sound`: a transaction that began
at the published version has the published root for its base, and every log is a record.
-/

namespace ManagementPlane

/-! ## What a transaction does to its tree -/

namespace Transaction

variable {x y : Transaction} {t t' : Tree}

/-- The published root is the same one, published as often. -/
def Keeps (t t' : Tree) : Prop := t'.root = t.root ∧ t'.version = t.version

theorem acquire?_eq_some (h : x.acquire? t = some (t', y)) :
    Keeps t t' ∧ (y = x ∨ y = x.stage t) := by
  rw [acquire?] at h
  split at h
  · obtain ⟨rfl, rfl⟩ := Prod.mk.inj (Option.some.inj h)
    exact ⟨⟨rfl, rfl⟩, Or.inl rfl⟩
  · dsimp only at h
    split at h
    · obtain ⟨rfl, rfl⟩ := Prod.mk.inj (Option.some.inj h)
      exact ⟨⟨rfl, rfl⟩, Or.inr rfl⟩
    · cases h

theorem keeps_releaseLock (x : Transaction) (t : Tree) : Keeps t (x.releaseLock t).1 := by
  rw [releaseLock]
  split
  · split <;> exact ⟨rfl, rfl⟩
  · exact ⟨rfl, rfl⟩

theorem alongside_releaseLock (x : Transaction) (t : Tree) :
    Alongside x (x.releaseLock t).2 := by
  rw [releaseLock]
  split
  · rename_i s hs
    split
    · exact ⟨rfl, rfl, rfl, rfl, by rw [hs]; rfl⟩
    · exact .refl x
  · exact .refl x

theorem recorded_releaseLock (hx : x.Recorded) (t : Tree) : (x.releaseLock t).2.Recorded := by
  rw [releaseLock]
  split
  · rename_i s hs
    split
    · rintro s' hs'
      obtain rfl : { s with locked := false } = s' := Option.some.inj hs'
      exact ⟨⟨(hx s hs).trace, (hx s hs).orderly⟩, (hx s hs).concrete⟩
    · exact hx
  · exact hx

theorem keeps_finish (x : Transaction) (t : Tree) : Keeps t (x.finish t).1 := x.keeps_releaseLock t

theorem finish_snd (x : Transaction) (t : Tree) : (x.finish t).2 = { x with staging := none } := by
  obtain ⟨hwriter, hbase, hbegan, htimeout, -⟩ := x.alongside_releaseLock t
  rw [finish]
  simp only [hwriter, hbase, hbegan, htimeout]

/-- The base of a transaction that began at the published version is the published root. -/
structure Current (x : Transaction) (t : Tree) : Prop where
  began : x.began ≤ t.version
  base : x.began = t.version → x.base = t.root

theorem Alongside.current (h : Alongside x y) (hx : x.Current t) : y.Current t := by
  obtain ⟨-, hbase, hbegan, -, -⟩ := h
  exact ⟨hbegan ▸ hx.began, fun hy => hbase.trans (hx.base (hbegan ▸ hy))⟩

theorem Current.of_keeps (h : x.Current t) (ht : Keeps t t') : x.Current t' :=
  ⟨ht.2 ▸ h.began, fun hx => (h.base (ht.2 ▸ hx)).trans ht.1.symm⟩

/-- Once another root was published the transaction has fallen behind. -/
theorem Current.of_version (h : x.Current t) (ht : t'.version = t.version + 1) : x.Current t' := by
  have := h.began
  exact ⟨by omega, fun hx => absurd hx (by omega)⟩

/-- What a commit would publish. -/
def staged? (x : Transaction) : Option Resource :=
  x.staging.bind fun s => if s.dirty then some s.root else none

/-- Without anything staged a commit publishes nothing. -/
theorem commit_of_clean (h : x.staged? = none) (t : Tree) : x.commit t = (.ok (), x.finish t) := by
  rw [commit]
  split
  · rename_i s hs
    have hdirty : ¬ s.dirty = true := by simpa [staged?, hs] using h
    rw [if_neg hdirty]
  · rfl

/-- A commit that fails publishes nothing. -/
theorem commit_of_error {e : OperationError} (h : (x.commit t).1 = .error e) :
    (x.commit t).2 = x.finish t := by
  rw [commit] at h ⊢
  split
  · rename_i s hs
    rw [hs] at h
    dsimp only at h ⊢
    split
    · rename_i hdirty
      rw [if_pos hdirty] at h
      split at h
      · cases h
      · rfl
    · rfl
  · rfl

/-- What is staged can be brought onto other roots. -/
def Mergeable (x : Transaction) : Prop :=
  ∀ s ∈ x.staging, Merge.Record x.base s.root s.log ∧ s.root.Orderly

theorem Recorded.mergeable (hx : x.Recorded) : x.Mergeable := fun s hs =>
  ⟨(hx s hs).record, (hx s hs).orderly⟩

/-- **What a commit publishes** is the net change of the transaction, on top of the root that it
finds. -/
theorem commit_of_ok {staged : Resource} (hx : x.Mergeable) (hcurrent : x.Current t)
    (ht : t.root.Orderly) (hstaged : x.staged? = some staged) (h : (x.commit t).1 = .ok ()) :
    (x.commit t).2.1.root.Orderly ∧
      (x.commit t).2.1.root.view.Same (View.patch x.base.view staged.view t.root.view) ∧
      (x.commit t).2.1.version = t.version + 1 ∧
      (x.commit t).2.2 = { x with
        base := (x.commit t).2.1.root, began := (x.commit t).2.1.version, staging := none } := by
  obtain ⟨s, hs, hdirty⟩ := Option.bind_eq_some_iff.mp hstaged
  have hd : s.dirty = true := by
    by_contra hd
    rw [if_neg hd] at hdirty
    cases hdirty
  rw [if_pos hd] at hdirty
  obtain rfl := Option.some.inj hdirty
  obtain ⟨hrecord, horderly⟩ := hx s hs
  obtain ⟨published, hp⟩ : ∃ published, t.publish x.base x.began s.root s.log = .ok published := by
    rw [commit, hs] at h
    dsimp only at h
    rw [if_pos hd] at h
    split at h
    · exact ⟨_, ‹_›⟩
    · cases h
  have hcommit : x.commit t = (.ok (),
      { x with base := published.root, began := published.version }.finish published) := by
    rw [commit, hs]
    dsimp only
    rw [if_pos hd, hp]
  obtain ⟨hroot, hversion⟩ := keeps_finish
    { x with base := published.root, began := published.version } published
  rw [hcommit, hroot, hversion, finish_snd]
  suffices hpublished : published.root.Orderly ∧
      published.root.view.Same (View.patch x.base.view s.root.view t.root.view) ∧
      published.version = t.version + 1 from
    ⟨hpublished.1, hpublished.2.1, hpublished.2.2, rfl⟩
  rw [Tree.publish] at hp
  split at hp
  · rename_i heq
    obtain rfl := Except.ok.inj hp
    rw [hcurrent.base heq.symm]
    have hs := Resource.view_orderly horderly
    have hroot := Resource.view_orderly ht
    exact ⟨horderly, (View.patch_self _ _).symm (hs.patch hroot _) hs, rfl⟩
  · cases hm : Merge.merge t.root x.base s.root s.log with
    | error e =>
      rw [hm] at hp
      cases hp
    | ok merged =>
      rw [hm] at hp
      obtain rfl := Except.ok.inj hp
      exact ⟨Merge.merge_orderly hrecord horderly ht hm,
        Merge.view_merge hrecord horderly ht hm, rfl⟩

end Transaction

/-! ## Changes -/

/-- The net change that a commit publishes. -/
structure Change where
  base : Resource
  staged : Resource
  deriving Inhabited, Repr

namespace Change

/-- The change on top of another view. -/
noncomputable def on (c : Change) (v : View) : View := View.patch c.base.view c.staged.view v

/-- Whether the change gives an attribute another value, or takes it away. -/
def Writes (c : Change) (a : Address) (name : String) : Prop :=
  ¬ Value.SameOption (c.base.view.attribute? a name) (c.staged.view.attribute? a name)

/-- Whether a resource comes or goes with the change. -/
def Moves (c : Change) (a : Address) : Prop := ¬ (c.base.view.holds a ↔ c.staged.view.holds a)

/-- One change on top of the other, the first one lowest. -/
noncomputable def pile (v : View) (cs : List Change) : View := cs.foldl (fun v c => c.on v) v

variable {v w : View} {cs : List Change} {a : Address} {name : String}

theorem same_pile (h : v.Same w) (cs : List Change) : (pile v cs).Same (pile w cs) := by
  induction cs generalizing v w with
  | nil => exact h
  | cons c cs ih => exact ih (h.patch c.base.view c.staged.view)

/-- An attribute that no later change writes is found as it was. -/
theorem attribute?_pile (h : ∀ d ∈ cs, ¬ d.Writes a name) :
    (pile v cs).attribute? a name = v.attribute? a name := by
  induction cs generalizing v with
  | nil => rfl
  | cons c cs ih =>
    have hc := not_not.mp (h c List.mem_cons_self)
    rw [pile, List.foldl_cons]
    exact (ih fun d hd => h d (List.mem_cons_of_mem _ hd)).trans (View.patch_attribute?_of_same hc)

/-- A resource that no later change moves is there as before. -/
theorem holds_pile (h : ∀ d ∈ cs, ¬ d.Moves a) : (pile v cs).holds a ↔ v.holds a := by
  induction cs generalizing v with
  | nil => exact Iff.rfl
  | cons c cs ih =>
    have hc := not_not.mp (h c List.mem_cons_self)
    rw [pile, List.foldl_cons]
    exact (ih fun d hd => h d (List.mem_cons_of_mem _ hd)).trans (View.patch_holds_of_iff hc)

end Change

/-! ## Sharing a tree -/

/-- A tree and the transactions on it, each at the number under which it asks for the lock; one
that was dropped is gone. -/
structure Shared where
  tree : Tree
  transactions : List (Option Transaction) := []
  deriving Inhabited, Repr

/-- What a transaction does next. -/
inductive Event
  | begin (lockTimeout : Nat)
  /-- Asks for write intent, and waits for the lock while another one has it. -/
  | acquire (i : Nat)
  /-- Stops waiting for the lock. -/
  | giveUp (i : Nat)
  | write (i : Nat) (e : Edit)
  | release (i : Nat)
  | commit (i : Nat)
  | rollback (i : Nat)
  | drop (i : Nat)
  deriving Inhabited, Repr

def Event.Proper : Event → Prop
  | write _ e => e.Proper
  | _ => True

namespace Shared

/-- A tree that nobody uses yet. -/
def of (root : Resource) : Shared := { tree := { root } }

def transaction? (s : Shared) (i : Nat) : Option Transaction := (s.transactions[i]?).join

/-- Lets a transaction do something; it may be gone afterwards. -/
def onTransaction (s : Shared) (i : Nat) (f : Transaction → Tree × Option Transaction) : Shared :=
  match s.transaction? i with
  | some x => { tree := (f x).1, transactions := s.transactions.set i (f x).2 }
  | none => s

/-- Leaves the queue for the lock, and hands a lock on that was handed over in the meantime. -/
def forgo (t : Tree) (x : Transaction) : Tree :=
  let lock := t.lock.withdraw x.writer
  { t with lock := if lock.holder = some x.writer ∧ !x.hasIntent then lock.release else lock }

def step (s : Shared) : Event → Shared
  | .begin timeout => { s with transactions :=
      s.transactions ++ [some (Transaction.begin s.tree s.transactions.length timeout)] }
  | .acquire i => s.onTransaction i fun x =>
    match x.acquire? s.tree with
    | some (tree, x) => (tree, some x)
    | none => ({ s.tree with lock := s.tree.lock.request x.writer }, some x)
  | .giveUp i => s.onTransaction i fun x => (forgo s.tree x, some x)
  | .write i e => s.onTransaction i fun x => (s.tree, some (e.apply x))
  | .release i => s.onTransaction i fun x => (x.releaseLock s.tree).map id some
  | .commit i => s.onTransaction i fun x => (x.commit s.tree).2.map id some
  | .rollback i => s.onTransaction i fun x => (x.rollback s.tree).map id some
  | .drop i => s.onTransaction i fun x => ((x.rollback s.tree).1, none)

def run (s : Shared) (events : List Event) : Shared := events.foldl step s

/-- The change that an event publishes: a commit does that which succeeds and has something
staged. -/
def published? (s : Shared) : Event → Option Change
  | .commit i => (s.transaction? i).bind fun x =>
    match (x.commit s.tree).1 with
    | .ok () => x.staged?.map fun staged => { base := x.base, staged }
    | .error _ => none
  | _ => none

/-- The changes that a history publishes, in order. -/
def commits (s : Shared) : List Event → List Change
  | [] => []
  | e :: events => (s.published? e).toList ++ (s.step e).commits events

theorem run_append (s : Shared) (events later : List Event) :
    s.run (events ++ later) = (s.run events).run later := List.foldl_append

/-! ## One event -/

variable {s : Shared} {e : Event} {i j : Nat} {f : Transaction → Tree × Option Transaction}

theorem transaction?_onTransaction (s : Shared) (i j : Nat)
    (f : Transaction → Tree × Option Transaction) :
    (s.onTransaction i f).transaction? j =
      if i = j then (s.transaction? i).bind fun x => (f x).2 else s.transaction? j := by
  rw [onTransaction]
  cases hx : s.transaction? i with
  | none =>
    show s.transaction? j = _
    split
    · rename_i hij
      exact hij ▸ hx
    · rfl
  | some x =>
    have hi : i < s.transactions.length := by
      by_contra hlen
      rw [transaction?, List.getElem?_eq_none (not_lt.mp hlen)] at hx
      cases hx
    simp only [transaction?]
    by_cases hij : i = j
    · subst hij
      rw [List.getElem?_set_self hi, if_pos rfl]
      rfl
    · rw [List.getElem?_set_ne hij, if_neg hij]

theorem transaction?_begin (s : Shared) (timeout j : Nat) :
    (s.step (.begin timeout)).transaction? j =
      if j = s.transactions.length then some (Transaction.begin s.tree j timeout)
      else s.transaction? j := by
  simp only [step, transaction?]
  split
  · rename_i hj
    rw [hj, List.getElem?_concat_length]
    rfl
  · rename_i hj
    rcases Nat.lt_or_ge j s.transactions.length with hlt | hge
    · rw [List.getElem?_append_left hlt]
    · rw [List.getElem?_eq_none (by simp; omega), List.getElem?_eq_none hge]

theorem tree_onTransaction (s : Shared) (i : Nat) (f : Transaction → Tree × Option Transaction) :
    (s.onTransaction i f).tree = ((s.transaction? i).map fun x => (f x).1).getD s.tree := by
  rw [onTransaction]
  cases s.transaction? i <;> rfl

/-- What leaves every transaction with the same tree leaves the tree the same. -/
theorem keeps_onTransaction (h : ∀ x ∈ s.transaction? i, Transaction.Keeps s.tree (f x).1) :
    Transaction.Keeps s.tree (s.onTransaction i f).tree := by
  rw [tree_onTransaction]
  cases hx : s.transaction? i with
  | none => exact ⟨rfl, rfl⟩
  | some x => exact h x hx

/-- **An event that publishes nothing leaves root and version alone.** -/
theorem keeps_step (h : s.published? e = none) : Transaction.Keeps s.tree (s.step e).tree := by
  cases e with
  | begin timeout => exact ⟨rfl, rfl⟩
  | acquire i =>
    refine keeps_onTransaction fun x _ => ?_
    split
    · rename_i tree y hy
      exact (Transaction.acquire?_eq_some hy).1
    · exact ⟨rfl, rfl⟩
  | giveUp i => exact keeps_onTransaction fun x _ => ⟨rfl, rfl⟩
  | write i e => exact keeps_onTransaction fun x _ => ⟨rfl, rfl⟩
  | release i => exact keeps_onTransaction fun x _ => x.keeps_releaseLock s.tree
  | rollback i => exact keeps_onTransaction fun x _ => x.keeps_finish s.tree
  | drop i => exact keeps_onTransaction fun x _ => x.keeps_finish s.tree
  | commit i =>
    refine keeps_onTransaction fun x hx => ?_
    have hx : s.transaction? i = some x := hx
    simp only [published?, hx, Option.bind_some] at h
    cases hout : (x.commit s.tree).1 with
    | error err =>
      show Transaction.Keeps s.tree (x.commit s.tree).2.1
      rw [Transaction.commit_of_error hout]
      exact x.keeps_finish s.tree
    | ok =>
      rw [hout] at h
      show Transaction.Keeps s.tree (x.commit s.tree).2.1
      rw [Transaction.commit_of_clean (Option.map_eq_none_iff.mp h)]
      exact x.keeps_finish s.tree

/-- Every log is a record, and only a transaction that fell behind has another base than the
published root. -/
structure Sound (s : Shared) : Prop where
  orderly : s.tree.root.Orderly
  recorded : ∀ i, ∀ x ∈ s.transaction? i, x.Recorded
  current : ∀ i, ∀ x ∈ s.transaction? i, x.Current s.tree

theorem sound_of {root : Resource} (h : root.Orderly) : (of root).Sound where
  orderly := h
  recorded := fun i x hx => by simp [of, transaction?] at hx
  current := fun i x hx => by simp [of, transaction?] at hx

theorem Sound.onTransaction (hs : s.Sound)
    (hkeep : ∀ x ∈ s.transaction? i, Transaction.Keeps s.tree (f x).1)
    (hx : ∀ x ∈ s.transaction? i, ∀ y ∈ (f x).2, y.Recorded ∧ y.Current s.tree) :
    (s.onTransaction i f).Sound := by
  have hkeeps := keeps_onTransaction hkeep
  suffices H : ∀ j, ∀ y ∈ (s.onTransaction i f).transaction? j, y.Recorded ∧ y.Current s.tree from
    ⟨by rw [hkeeps.1]; exact hs.orderly, fun j y hy => (H j y hy).1,
      fun j y hy => (H j y hy).2.of_keeps hkeeps⟩
  intro j y hy
  rw [transaction?_onTransaction] at hy
  split at hy
  · obtain ⟨x, hxs, hy⟩ := Option.bind_eq_some_iff.mp hy
    exact hx x hxs y hy
  · exact ⟨hs.recorded j y hy, hs.current j y hy⟩

/-- **Events that publish nothing keep a history sound.** -/
theorem Sound.step_quiet (hs : s.Sound) (he : e.Proper) (h : s.published? e = none) :
    (s.step e).Sound := by
  have ended : ∀ i, ∀ x ∈ s.transaction? i, ∀ y ∈ some (x.finish s.tree).2,
      y.Recorded ∧ y.Current s.tree := by
    rintro i x hx y ⟨⟩
    rw [Transaction.finish_snd]
    exact ⟨fun _ h => (by cases h), ⟨(hs.current i x hx).began, (hs.current i x hx).base⟩⟩
  cases e with
  | begin timeout =>
    refine ⟨hs.orderly, fun j y hy => ?_, fun j y hy => ?_⟩
    · rw [transaction?_begin] at hy
      split at hy
      · obtain rfl := Option.some.inj hy
        exact Transaction.recorded_begin _ _ _
      · exact hs.recorded j y hy
    · rw [transaction?_begin] at hy
      split at hy
      · obtain rfl := Option.some.inj hy
        exact ⟨le_refl _, fun _ => rfl⟩
      · exact hs.current j y hy
  | acquire i =>
    refine hs.onTransaction (fun x _ => ?_) fun x hx y hy => ?_
    · split
      · rename_i tree z hz
        exact (Transaction.acquire?_eq_some hz).1
      · exact ⟨rfl, rfl⟩
    · split at hy
      · rename_i tree z hz
        obtain rfl := Option.some.inj hy
        rcases (Transaction.acquire?_eq_some hz).2 with rfl | rfl
        · exact ⟨hs.recorded i _ hx, hs.current i _ hx⟩
        · exact ⟨x.recorded_stage hs.orderly, ⟨le_refl _, fun _ => rfl⟩⟩
      · obtain rfl := Option.some.inj hy
        exact ⟨hs.recorded i x hx, hs.current i x hx⟩
  | giveUp i =>
    refine hs.onTransaction (fun x _ => ⟨rfl, rfl⟩) fun x hx y hy => ?_
    obtain rfl := Option.some.inj hy
    exact ⟨hs.recorded i x hx, hs.current i x hx⟩
  | write i e =>
    refine hs.onTransaction (fun x _ => ⟨rfl, rfl⟩) fun x hx y hy => ?_
    obtain rfl := Option.some.inj hy
    exact ⟨Edit.recorded_apply (hs.recorded i x hx) he,
      (Edit.alongside_apply x e).current (hs.current i x hx)⟩
  | release i =>
    refine hs.onTransaction (fun x _ => x.keeps_releaseLock s.tree) fun x hx y hy => ?_
    obtain rfl := Option.some.inj hy
    exact ⟨Transaction.recorded_releaseLock (hs.recorded i x hx) s.tree,
      (x.alongside_releaseLock s.tree).current (hs.current i x hx)⟩
  | rollback i => exact hs.onTransaction (fun x _ => x.keeps_finish s.tree) (ended i)
  | drop i =>
    refine hs.onTransaction (fun x _ => x.keeps_finish s.tree) fun x hx y hy => ?_
    cases hy
  | commit i =>
    have hfinish : ∀ x ∈ s.transaction? i, (x.commit s.tree).2 = x.finish s.tree := by
      intro x hx
      have hx : s.transaction? i = some x := hx
      simp only [published?, hx, Option.bind_some] at h
      cases hout : (x.commit s.tree).1 with
      | error err => exact Transaction.commit_of_error hout
      | ok =>
        rw [hout] at h
        rw [Transaction.commit_of_clean (Option.map_eq_none_iff.mp h)]
    refine hs.onTransaction (fun x hx => ?_) fun x hx => ?_
    · rw [hfinish x hx]
      exact x.keeps_finish s.tree
    · rw [hfinish x hx]
      exact ended i x hx

/-- **A commit that publishes a change** puts it on top of the root that it finds. -/
theorem Sound.step_published (hs : s.Sound) {c : Change} (h : s.published? e = some c) :
    (s.step e).Sound ∧ (s.step e).tree.root.view.Same (c.on s.tree.root.view) ∧
      (s.step e).tree.version = s.tree.version + 1 := by
  cases e with
  | commit i =>
    obtain ⟨x, hx, h⟩ := Option.bind_eq_some_iff.mp h
    cases hout : (x.commit s.tree).1 with
    | error err =>
      rw [hout] at h
      cases h
    | ok =>
      rw [hout] at h
      obtain ⟨staged, hstaged, rfl⟩ := Option.map_eq_some_iff.mp h
      obtain ⟨horderly, hsame, hversion, hafter⟩ := Transaction.commit_of_ok
        (hs.recorded i x hx).mergeable (hs.current i x hx) hs.orderly hstaged hout
      have htree : (s.step (.commit i)).tree = (x.commit s.tree).2.1 := by
        rw [step, tree_onTransaction, hx]
        rfl
      have heach : ∀ j, ∀ y ∈ (s.step (.commit i)).transaction? j,
          y.Recorded ∧ y.Current (x.commit s.tree).2.1 := by
        intro j y hy
        rw [step, transaction?_onTransaction] at hy
        split at hy
        · rw [hx] at hy
          obtain rfl : (x.commit s.tree).2.2 = y := Option.some.inj hy
          rw [hafter]
          exact ⟨fun _ h => (by cases h), ⟨le_refl _, fun _ => rfl⟩⟩
        · exact ⟨hs.recorded j y hy, (hs.current j y hy).of_version hversion⟩
      rw [htree]
      refine ⟨⟨?_, fun j y hy => (heach j y hy).1, fun j y hy => ?_⟩, hsame, hversion⟩
      · rw [htree]
        exact horderly
      · rw [htree]
        exact (heach j y hy).2
  | _ => cases h

theorem Sound.step (hs : s.Sound) (he : e.Proper) : (s.step e).Sound := by
  cases h : s.published? e with
  | none => exact hs.step_quiet he h
  | some c => exact (hs.step_published h).1

theorem Sound.run (hs : s.Sound) {events : List Event} (he : ∀ e ∈ events, e.Proper) :
    (s.run events).Sound := by
  induction events generalizing s with
  | nil => exact hs
  | cons e events ih =>
    exact ih (hs.step (he e List.mem_cons_self)) fun e he' => he e (List.mem_cons_of_mem _ he')

/-! ## Whole histories -/

variable {events : List Event}

theorem Sound.view_run (hs : s.Sound) (he : ∀ e ∈ events, e.Proper) :
    (s.run events).tree.root.view.Same (Change.pile s.tree.root.view (s.commits events)) := by
  induction events generalizing s with
  | nil => exact .refl _
  | cons e events ih =>
    have he' : ∀ e ∈ events, e.Proper := fun e h => he e (List.mem_cons_of_mem _ h)
    have hs' := hs.step (he e List.mem_cons_self)
    have hrest := ih hs' he'
    have horderly := Resource.view_orderly (hs'.run he').orderly
    rw [commits]
    cases h : s.published? e with
    | none =>
      rw [(keeps_step h).1] at hrest
      exact hrest
    | some c =>
      exact hrest.trans horderly (Change.same_pile (hs.step_published h).2.1 _)

theorem Sound.version_run (hs : s.Sound) (he : ∀ e ∈ events, e.Proper) :
    (s.run events).tree.version = s.tree.version + (s.commits events).length := by
  induction events generalizing s with
  | nil => rfl
  | cons e events ih =>
    have hrest := ih (hs.step (he e List.mem_cons_self)) fun e h => he e (List.mem_cons_of_mem _ h)
    rw [commits, List.length_append]
    show ((s.step e).run events).tree.version = _
    rw [hrest]
    cases h : s.published? e with
    | none =>
      rw [(keeps_step h).2]
      simp
    | some c =>
      rw [(hs.step_published h).2.2]
      simp only [Option.toList_some, List.length_singleton]
      omega

/-! ## Readers -/

theorem reader_onTransaction {x y : Transaction} (hx : s.transaction? i = some x)
    (hf : ∀ y ∈ (f x).2, y.hasIntent = false → y = x)
    (hy : (s.onTransaction j f).transaction? i = some y) (hread : y.hasIntent = false) : y = x := by
  rw [transaction?_onTransaction] at hy
  split at hy
  · rename_i hji
    rw [hji, hx, Option.bind_some] at hy
    exact hf y hy hread
  · exact Option.some.inj (hy.symm.trans hx)

/-- **A transaction without write intent stays as it is**, as long as it does without and is not
dropped. -/
theorem reader_step {x y : Transaction} (hx : s.transaction? i = some x)
    (hreads : x.hasIntent = false) (hy : (s.step e).transaction? i = some y)
    (hread : y.hasIntent = false) : y = x := by
  have hno : x.staging = none := by simpa [Transaction.hasIntent] using hreads
  have hfinish : (x.finish s.tree).2 = x := by
    rw [Transaction.finish_snd]
    cases x
    simp_all
  cases e with
  | begin timeout =>
    rw [transaction?_begin] at hy
    split at hy
    · rename_i hi
      rw [hi, transaction?, List.getElem?_eq_none (le_refl _)] at hx
      cases hx
    · exact Option.some.inj (hy.symm.trans hx)
  | acquire j =>
    refine reader_onTransaction hx (fun z hz hr => ?_) hy hread
    split at hz
    · rename_i tree w hw
      obtain rfl := Option.some.inj hz
      rcases (Transaction.acquire?_eq_some hw).2 with rfl | rfl
      · rfl
      · cases hr
    · exact (Option.some.inj hz).symm
  | giveUp j => exact reader_onTransaction hx (fun z hz _ => (Option.some.inj hz).symm) hy hread
  | write j e =>
    refine reader_onTransaction hx (fun z hz _ => ?_) hy hread
    exact Option.some.inj hz ▸ (Edit.alongside_apply x e).eq hreads
  | release j =>
    refine reader_onTransaction hx (fun z hz _ => ?_) hy hread
    exact Option.some.inj hz ▸ (x.alongside_releaseLock s.tree).eq hreads
  | commit j =>
    refine reader_onTransaction hx (fun z hz _ => ?_) hy hread
    have hclean : x.staged? = none := by
      rw [Transaction.staged?, hno]
      rfl
    rw [Transaction.commit_of_clean hclean] at hz
    exact (Option.some.inj hz).symm.trans hfinish
  | rollback j =>
    exact reader_onTransaction hx (fun z hz _ => (Option.some.inj hz).symm.trans hfinish) hy hread
  | drop j => exact reader_onTransaction hx (fun z hz _ => by cases hz) hy hread

theorem length_onTransaction (s : Shared) (i : Nat) (f : Transaction → Tree × Option Transaction) :
    (s.onTransaction i f).transactions.length = s.transactions.length := by
  rw [onTransaction]
  split
  · exact List.length_set
  · rfl

theorem length_step (s : Shared) (e : Event) :
    s.transactions.length ≤ (s.step e).transactions.length := by
  cases e with
  | begin timeout => simp [step]
  | _ => exact (length_onTransaction _ _ _).ge

/-- A transaction that was dropped does not come back. -/
theorem transaction?_step_of_none (hi : i < s.transactions.length) (h : s.transaction? i = none)
    (e : Event) : (s.step e).transaction? i = none := by
  have stays : ∀ j f, (s.onTransaction j f).transaction? i = none := by
    intro j f
    rw [transaction?_onTransaction]
    split
    · rename_i hji
      rw [hji, h]
      rfl
    · exact h
  cases e with
  | begin timeout => rw [transaction?_begin, if_neg hi.ne, h]
  | _ => exact stays _ _

/-- Whatever is found at a number that was given out is what stood there before. -/
theorem reader_run {x : Transaction} (hi : i < s.transactions.length)
    (hx : ∀ y ∈ s.transaction? i, y = x) (hreads : x.hasIntent = false)
    (hread : ∀ events', events' <+: events → ∀ y ∈ (s.run events').transaction? i,
      y.hasIntent = false) :
    ∀ y ∈ (s.run events).transaction? i, y = x := by
  induction events generalizing s with
  | nil => exact hx
  | cons e events ih =>
    refine ih (hi.trans_le (s.length_step e)) (fun y hy => ?_) fun events' h y hy =>
      hread (e :: events') (List.cons_prefix_cons.mpr ⟨rfl, h⟩) y hy
    have hr : y.hasIntent = false :=
      hread [e] (List.cons_prefix_cons.mpr ⟨rfl, List.nil_prefix⟩) y hy
    cases hs : s.transaction? i with
    | some z =>
      obtain rfl := hx z hs
      exact reader_step hs hreads hy hr
    | none => exact absurd hy (by rw [transaction?_step_of_none hi hs e]; simp)

/-! ## No update is lost -/

variable {before after : List Event} {c : Change}

/-- Right after a commit the resources that its change moves, and the attributes that it writes,
are as they were staged. -/
theorem Sound.as_staged (hs : s.Sound) (h : s.published? e = some c) (he : e.Proper)
    (hafter : ∀ e ∈ after, e.Proper) :
    (∀ a name, c.Writes a name → (∀ d ∈ (s.step e).commits after, ¬ d.Writes a name) →
      Value.SameOption (((s.step e).run after).tree.root.view.attribute? a name)
        (c.staged.view.attribute? a name)) ∧
    (∀ a, c.Moves a → (∀ d ∈ (s.step e).commits after, ¬ d.Moves a) →
      (((s.step e).run after).tree.root.view.holds a ↔ c.staged.view.holds a)) := by
  have hs' := hs.step he
  have hrest := hs'.view_run hafter
  have hsame := (hs.step_published h).2.1
  refine ⟨fun a name hc hd => ?_, fun a hc hd => ?_⟩
  · have hlast := hrest.attribute? a name
    rw [Change.attribute?_pile hd] at hlast
    have hfirst := hsame.attribute? a name
    rw [Change.on, View.patch_attribute?_of_not_same hc] at hfirst
    exact hlast.trans (Resource.view_orderly (hs'.run hafter).orderly a name) hfirst
  · rw [hrest.holds a, Change.holds_pile hd, hsame.holds a]
    exact View.patch_holds_of_not_iff hc

/-- **No update is lost.**  After any history on one tree:

* the published root is the initial one with the changes of the successful commits on top, in the
  order in which they were committed;
* the version counts them;
* every other event leaves root and version as they are;
* what a commit wrote stays as it was written, until a later commit writes it;
* and as long as a transaction does without write intent it reads the root that it began with. -/
theorem history {root : Resource} (hroot : root.Orderly) {events : List Event}
    (hevents : ∀ e ∈ events, e.Proper) :
    ((of root).run events).tree.root.view.Same
        (Change.pile root.view ((of root).commits events)) ∧
    ((of root).run events).tree.version = ((of root).commits events).length ∧
    (∀ before e after, events = before ++ e :: after →
      ((of root).run before).published? e = none →
        Transaction.Keeps ((of root).run before).tree ((of root).run (before ++ [e])).tree) ∧
    (∀ before e after c, events = before ++ e :: after →
      ((of root).run before).published? e = some c →
        (∀ a name, c.Writes a name →
          (∀ d ∈ ((of root).run (before ++ [e])).commits after, ¬ d.Writes a name) →
            Value.SameOption (((of root).run events).tree.root.view.attribute? a name)
              (c.staged.view.attribute? a name)) ∧
        (∀ a, c.Moves a →
          (∀ d ∈ ((of root).run (before ++ [e])).commits after, ¬ d.Moves a) →
            (((of root).run events).tree.root.view.holds a ↔ c.staged.view.holds a))) ∧
    (∀ before timeout after, events = before ++ .begin timeout :: after →
      let i := ((of root).run before).transactions.length
      (∀ events', events' <+: after →
        ∀ x ∈ ((of root).run (before ++ .begin timeout :: events')).transaction? i,
          x.hasIntent = false) →
        ∀ x ∈ ((of root).run events).transaction? i,
          x.root = ((of root).run before).tree.root) := by
  have hs := sound_of hroot
  refine ⟨hs.view_run hevents, ?_, ?_, ?_, ?_⟩
  · rw [hs.version_run hevents]
    exact Nat.zero_add _
  · rintro before e after rfl hnone
    rw [run_append]
    exact keeps_step hnone
  · rintro before e after c rfl hsome
    have hbefore := hs.run fun e h => hevents e (List.mem_append_left _ h)
    have hrest : ∀ e' ∈ e :: after, e'.Proper := fun e h => hevents e (List.mem_append_right _ h)
    rw [run_append, run_append]
    exact hbefore.as_staged hsome (hrest e List.mem_cons_self)
      fun e h => hrest e (List.mem_cons_of_mem _ h)
  · rintro before timeout after rfl i hread x hx
    have hstart := transaction?_begin ((of root).run before) timeout i
    rw [if_pos rfl] at hstart
    rw [run_append] at hx
    have heq := reader_run (s := ((of root).run before).step (.begin timeout)) (i := i)
      (by simp [step, i]) (fun y hy => (Option.some.inj (hstart.symm.trans hy)).symm) rfl
      (fun events' h y hy => hread events' h y (by rw [run_append]; exact hy)) x hx
    rw [heq]
    rfl

/-- Two writers overlap: the second one commits first, and the first one is merged on top. -/
def overlapping : List Event :=
  [.begin 1000, .begin 1000, .acquire 0, .write 0 (.update Address.root [.set "a" (.integer 1)]),
    .release 0, .acquire 1, .write 1 (.update Address.root [.set "b" (.integer 2)]),
    .release 1, .commit 1, .commit 0]

theorem history_overlapping :
    let root : Resource := { attributes := [("a", .integer 0), ("b", .integer 0)] }
    ((of root).run overlapping).tree.root.view.Same
        (Change.pile root.view ((of root).commits overlapping)) ∧
      ((of root).run overlapping).tree.version = ((of root).commits overlapping).length ∧
      ((of root).commits overlapping).length = 2 := by
  intro root
  have hroot : root.Orderly := by
    refine ⟨by decide, fun p hp => ?_, by decide, fun g hg => absurd hg List.not_mem_nil,
      fun g hg => absurd hg List.not_mem_nil⟩
    simp only [root, List.mem_cons, List.not_mem_nil, or_false] at hp
    rcases hp with rfl | rfl <;> exact .integer 0
  have hproper : ∀ e ∈ overlapping, e.Proper := by
    intro e he
    simp only [overlapping, List.mem_cons, List.not_mem_nil, or_false] at he
    rcases he with rfl | rfl | rfl | rfl | rfl | rfl | rfl | rfl | rfl | rfl <;>
      simp [Event.Proper, Edit.Proper, Edit.address, AttributeChange.Proper, Value.Orderly.integer,
        Address.root, Address.isConcrete]
  obtain ⟨hview, hversion, -⟩ := history hroot hproper
  exact ⟨hview, hversion, by decide +kernel⟩

end Shared

end ManagementPlane
