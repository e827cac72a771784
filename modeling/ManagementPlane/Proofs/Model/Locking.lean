import ManagementPlane.Proofs.Model.History
import ManagementPlane.Proofs.Model.Lock

/-!
# Proofs/Model/Locking — one writer at a time

The write lock of a shared tree belongs to one transaction at most, in every history
(`Shared.write_lock`).  A transaction that takes the lock starts from the root that is published
then; one that has write intent already keeps what it has, even when it let the lock go, and starts
from nothing new (`Shared.acquire_not_renewed`).

What carries it is `Shared.Locked`: a transaction that holds the lock is the holder that the tree
names, and one with intent is on the lock only when it holds it.  A step moves the lock only as the
transaction that makes it can (`WriteLock.Yields`).
-/

namespace ManagementPlane

/-! ## Without intent -/

namespace Transaction

variable {x : Transaction}

/-- What a transaction wrote, as far as it is still to be published. -/
def log (x : Transaction) : List Write := (x.staging.map (·.log)).getD []

theorem staging_of_hasIntent (h : x.hasIntent = false) : x.staging = none :=
  Option.isNone_iff_eq_none.mp (by simpa [hasIntent] using h)

theorem log_of_hasIntent (h : x.hasIntent = false) : x.log = [] := by
  rw [log, staging_of_hasIntent h]
  rfl

end Transaction

/-! ## The writes of a caller, with their outcome -/

/-- What is done with the answer of a write is not the write's business. -/
theorem Transaction.map_write {α β : Type} (x : Transaction)
    (f : Resource → Except OperationError (α × Resource × Write)) (g : α → β) :
    Prod.map (Except.map g) id (x.write f) =
      x.write fun root => (f root).map (Prod.map g id) := by
  unfold write
  cases x.staging with
  | none => rfl
  | some s => cases h : f s.root <;> simp [Except.map, h]

namespace Edit

/-- The write with its outcome. -/
def perform (x : Transaction) : Edit → Except OperationError Unit × Transaction
  | update a changes => x.update a fun r => ((), changes.foldl AttributeChange.apply r)
  | create a r => x.create a r
  | remove a => (x.remove a).map (Except.map fun _ => ()) id

variable {x : Transaction}

@[simp] theorem snd_perform (x : Transaction) (e : Edit) : (e.perform x).2 = e.apply x := by
  cases e <;> rfl

/-- A write through a transaction changes the staged root, or is refused before it comes to that. -/
theorem perform_cases (e : Edit) : (∃ err, ∀ x, e.perform x = (.error err, x)) ∨
    ∃ f : Resource → Except OperationError (Unit × Resource × Write),
      ∀ x, e.perform x = x.write f := by
  cases e with
  | update a changes =>
    simp only [perform, Transaction.update]
    exact .inr ⟨_, fun _ => rfl⟩
  | create a r =>
    simp only [perform, Transaction.create]
    cases a.getLast? with
    | none => exact .inl ⟨_, fun _ => rfl⟩
    | some e => exact .inr ⟨_, fun _ => rfl⟩
  | remove a =>
    simp only [perform, Transaction.remove]
    cases a.getLast? with
    | none => exact .inl ⟨_, fun _ => rfl⟩
    | some e => exact .inr ⟨_, fun x => Transaction.map_write x _ _⟩

/-- Without intent every write fails, and changes nothing. -/
theorem perform_of_hasIntent (hx : x.hasIntent = false) (e : Edit) :
    ∃ err, e.perform x = (.error err, x) := by
  obtain ⟨err, h⟩ | ⟨f, hf⟩ := perform_cases e
  · exact ⟨err, h x⟩
  · rw [hf, Transaction.write, Transaction.staging_of_hasIntent hx]
    exact ⟨_, rfl⟩

theorem holdsLock_apply (x : Transaction) (e : Edit) : (e.apply x).holdsLock = x.holdsLock := by
  rw [← snd_perform]
  obtain ⟨err, h⟩ | ⟨f, hf⟩ := perform_cases e
  · rw [h]
  · rw [hf, Transaction.write]
    cases hs : x.staging with
    | none => rfl
    | some s => cases h : f s.root <;> simp [Transaction.holdsLock, hs, h]

end Edit

namespace Shared

variable {s : Shared} {e : Event} {i j : Nat} {x y : Transaction}
  {f : Transaction → Tree × Option Transaction} {events span : List Event}

/-- The transaction that acts. -/
def actor? : Event → Option Nat
  | .begin _ => none
  | .acquire i | .giveUp i | .write i _ | .release i | .commit i | .rollback i | .drop i => some i

theorem lt_length_of_transaction? (h : s.transaction? i = some x) : i < s.transactions.length := by
  by_contra hlen
  rw [transaction?, List.getElem?_eq_none (not_lt.mp hlen)] at h
  cases h

theorem step_of_actor? (he : actor? e = some i) (hi : s.transaction? i = none) : s.step e = s := by
  have hgone : ∀ f, s.onTransaction i f = s := fun f => by rw [onTransaction, hi]
  cases e with
  | begin timeout => cases he
  | _ =>
    obtain rfl := Option.some.inj he
    exact hgone _

/-- An event is its own transaction's business. -/
theorem transaction?_step_of_ne (hx : s.transaction? i = some x) (he : actor? e ≠ some i) :
    (s.step e).transaction? i = some x := by
  have apart : ∀ j f, actor? e = some j → (s.onTransaction j f).transaction? i = some x := by
    intro j f hj
    have hji : j ≠ i := fun hji => he (hj.trans (congrArg some hji))
    rw [transaction?_onTransaction, if_neg hji, hx]
  cases e with
  | begin timeout => rw [transaction?_begin, if_neg (lt_length_of_transaction? hx).ne, hx]
  | _ => exact apart _ _ rfl

theorem transaction?_run_of_ne (hx : s.transaction? i = some x)
    (hspan : ∀ e ∈ span, actor? e ≠ some i) : (s.run span).transaction? i = some x := by
  induction span generalizing s with
  | nil => exact hx
  | cons e span ih =>
    exact ih (transaction?_step_of_ne hx (hspan e List.mem_cons_self))
      fun e he => hspan e (List.mem_cons_of_mem _ he)

/-! ## The lock has one holder -/

/-- A transaction knows its number.  With intent it is the holder when it has the lock, and on the
lock only then. -/
structure Locked (s : Shared) : Prop where
  sane : s.tree.lock.Sane
  writer : ∀ i, ∀ x ∈ s.transaction? i, x.writer = i
  intent : ∀ i, ∀ x ∈ s.transaction? i, x.hasIntent = true →
    (x.holdsLock = true → s.tree.lock.holder = some i) ∧
      (i ∈ s.tree.lock.writers → x.holdsLock = true)

theorem locked_of (root : Resource) : (of root).Locked where
  sane := ⟨List.nodup_nil, fun _ => rfl⟩
  writer i x hx := by simp [of, transaction?] at hx
  intent i x hx := by simp [of, transaction?] at hx

/-- What one transaction does to the lock leaves the others on it as they are. -/
theorem Locked.intent_of_yields (hs : s.Locked) {l : WriteLock}
    (hl : WriteLock.Yields i s.tree.lock l) (hij : j ≠ i) (hy : s.transaction? j = some y)
    (hintent : y.hasIntent = true) :
    (y.holdsLock = true → l.holder = some j) ∧ (j ∈ l.writers → y.holdsLock = true) := by
  obtain ⟨hholds, hwriters⟩ := hs.intent j y hy hintent
  exact ⟨fun h => hl.stays j hij (hholds h), fun h => hwriters (hl.comes j hij h)⟩

theorem Locked.onTransaction (hs : s.Locked)
    (hlock : ∀ x ∈ s.transaction? i, WriteLock.Yields i s.tree.lock (f x).1.lock)
    (hx : ∀ x ∈ s.transaction? i, ∀ y ∈ (f x).2, y.writer = i ∧ (y.hasIntent = true →
      (y.holdsLock = true → (f x).1.lock.holder = some i) ∧
        (i ∈ (f x).1.lock.writers → y.holdsLock = true))) :
    (s.onTransaction i f).Locked := by
  cases hi : s.transaction? i with
  | none =>
    rw [Shared.onTransaction, hi]
    exact hs
  | some x =>
    have htree : (s.onTransaction i f).tree = (f x).1 := by rw [tree_onTransaction, hi]; rfl
    suffices H : ∀ j, ∀ y ∈ (s.onTransaction i f).transaction? j, y.writer = j ∧
        (y.hasIntent = true → (y.holdsLock = true → (f x).1.lock.holder = some j) ∧
          (j ∈ (f x).1.lock.writers → y.holdsLock = true)) by
      refine ⟨?_, fun j y hy => (H j y hy).1, fun j y hy => ?_⟩
      · rw [htree]
        exact (hlock x hi).sane hs.sane
      · rw [htree]
        exact (H j y hy).2
    intro j y hy
    rw [transaction?_onTransaction] at hy
    split at hy
    · rename_i hij
      subst hij
      rw [hi] at hy
      exact hx x hi y hy
    · rename_i hij
      exact ⟨hs.writer j y hy, hs.intent_of_yields (hlock x hi) (Ne.symm hij) hy⟩

/-- The lock once a transaction has given up what it has of it. -/
def freed (s : Shared) (x : Transaction) : WriteLock :=
  if x.holdsLock then s.tree.lock.release else s.tree.lock

theorem Locked.yields_freed (hs : s.Locked) (hx : s.transaction? i = some x) :
    WriteLock.Yields i s.tree.lock (s.freed x) := by
  rw [freed]
  split
  · rename_i hholds
    exact WriteLock.yields_release
      ((hs.intent i x hx (Transaction.hasIntent_of_holdsLock _ hholds)).1 hholds)
  · exact .refl i _

/-- Who had intent is no longer on the lock. -/
theorem Locked.notMem_freed (hs : s.Locked) (hx : s.transaction? i = some x)
    (hintent : x.hasIntent = true) : i ∉ (s.freed x).writers := by
  obtain ⟨hholder, hwriters⟩ := hs.intent i x hx hintent
  rw [freed]
  split
  · rename_i hholds
    exact hs.sane.notMem_release (hholder hholds)
  · rename_i hholds
    exact fun hmem => hholds (hwriters hmem)

theorem Locked.step (hs : s.Locked) (e : Event) : (s.step e).Locked := by
  -- whatever the lock is, it says nothing about a transaction without intent
  have resting : ∀ {i : Nat} {y : Transaction}, y.hasIntent = false → y.writer = i →
      ∀ l : WriteLock, y.writer = i ∧ (y.hasIntent = true →
        (y.holdsLock = true → l.holder = some i) ∧ (i ∈ l.writers → y.holdsLock = true)) :=
    fun hrest hwriter _ => ⟨hwriter, fun hintent => absurd (hrest.symm.trans hintent) (by decide)⟩
  cases e with
  | begin timeout =>
    have htransaction := transaction?_begin s timeout
    refine ⟨hs.sane, fun j y hy => ?_, fun j y hy hintent => ?_⟩
    · rw [htransaction] at hy
      split at hy
      · exact Option.some.inj hy ▸ rfl
      · exact hs.writer j y hy
    · rw [htransaction] at hy
      split at hy
      · obtain rfl := Option.some.inj hy
        cases hintent
      · exact hs.intent j y hy hintent
  | acquire i =>
    refine hs.onTransaction (fun x hx => ?_) fun x hx y hy => ?_
    · have hwriter := hs.writer i x hx
      split
      · rename_i tree z hz
        obtain ⟨-, rfl, -⟩ | ⟨-, -, rfl, -⟩ := Transaction.acquire?_cases hz
        · exact .refl i _
        · rw [hwriter]
          exact WriteLock.yields_request i _
      · rw [hwriter]
        exact WriteLock.yields_request i _
    · have hwriter := hs.writer i x hx
      split at hy
      · rename_i tree z hz
        obtain rfl := Option.some.inj hy
        obtain ⟨-, rfl, rfl⟩ | ⟨-, hholder, rfl, rfl⟩ := Transaction.acquire?_cases hz
        · exact ⟨hwriter, hs.intent i _ hx⟩
        · rw [hwriter] at hholder ⊢
          exact ⟨hwriter, fun _ => ⟨fun _ => hholder, fun _ => rfl⟩⟩
      · rename_i hnone
        obtain rfl := Option.some.inj hy
        exact resting (Transaction.acquire?_eq_none hnone).1 hwriter _
  | giveUp i =>
    refine hs.onTransaction (fun x hx => ?_) fun x hx y hy => ?_
    · have hwriter := hs.writer i x hx
      simp only [forgo, hwriter]
      split
      · rename_i hholder
        exact (WriteLock.yields_withdraw i _).trans (WriteLock.yields_release hholder.1)
      · exact WriteLock.yields_withdraw i _
    · have hwriter := hs.writer i x hx
      obtain rfl := Option.some.inj hy
      refine ⟨hwriter, fun hintent => ?_⟩
      obtain ⟨hholder, hwriters⟩ := hs.intent i x hx hintent
      simp only [forgo, hwriter, hintent, Bool.not_true, Bool.false_eq_true, and_false, if_false]
      exact ⟨hholder, fun h => hwriters (WriteLock.writers_withdraw_sublist.subset h)⟩
  | write i e =>
    refine hs.onTransaction (fun x _ => .refl i _) fun x hx y hy => ?_
    obtain rfl := Option.some.inj hy
    have hsame := Edit.alongside_apply x e
    refine ⟨hsame.writer.trans (hs.writer i x hx), fun hintent => ?_⟩
    rw [Edit.holdsLock_apply]
    exact hs.intent i x hx (hsame.staging.symm.trans hintent)
  | release i =>
    refine hs.onTransaction (fun x hx => ?_) fun x hx y hy => ?_
    · change WriteLock.Yields i s.tree.lock (x.releaseLock s.tree).1.lock
      rw [Transaction.lock_releaseLock]
      exact hs.yields_freed hx
    · obtain rfl : (x.releaseLock s.tree).2 = y := Option.some.inj hy
      have hsame := x.alongside_releaseLock s.tree
      refine ⟨hsame.writer.trans (hs.writer i x hx), fun hintent => ?_⟩
      have hfreed := hs.notMem_freed hx (hsame.staging.symm.trans hintent)
      change (_ → (x.releaseLock s.tree).1.lock.holder = some i) ∧
        (i ∈ (x.releaseLock s.tree).1.lock.writers → _)
      rw [Transaction.releaseLock_snd, Transaction.holdsLock_unlocked, Transaction.lock_releaseLock]
      exact ⟨fun h => (by cases h), fun h => absurd h hfreed⟩
  | commit i =>
    refine hs.onTransaction (fun x hx => ?_) fun x hx y hy => ?_
    · change WriteLock.Yields i s.tree.lock (x.commit s.tree).2.1.lock
      rw [Transaction.lock_commit]
      exact hs.yields_freed hx
    · obtain rfl := Option.some.inj hy
      exact resting (x.hasIntent_commit s.tree)
        ((x.writer_commit s.tree).trans (hs.writer i x hx)) _
  | rollback i =>
    refine hs.onTransaction (fun x hx => ?_) fun x hx y hy => ?_
    · change WriteLock.Yields i s.tree.lock (x.releaseLock s.tree).1.lock
      rw [Transaction.lock_releaseLock]
      exact hs.yields_freed hx
    · obtain rfl : (x.finish s.tree).2 = y := Option.some.inj hy
      have hfinish := x.finish_snd s.tree
      exact resting (hfinish ▸ rfl) (hfinish ▸ hs.writer i x hx) _
  | drop i =>
    refine hs.onTransaction (fun x hx => ?_) fun x hx y hy => by cases hy
    change WriteLock.Yields i s.tree.lock (x.releaseLock s.tree).1.lock
    rw [Transaction.lock_releaseLock]
    exact hs.yields_freed hx

theorem Locked.run (hs : s.Locked) (events : List Event) : (s.run events).Locked := by
  induction events generalizing s with
  | nil => exact hs
  | cons e events ih => exact ih (hs.step e)

/-! ## Transactions at rest -/

theorem onTransaction_of_rest (hx : s.transaction? i = some x) (hf : f x = (s.tree, some x)) :
    s.onTransaction i f = s := by
  have hi := lt_length_of_transaction? hx
  have hget : s.transactions[i] = some x := by
    rw [transaction?, List.getElem?_eq_getElem hi] at hx
    exact hx
  rw [onTransaction, hx]
  simp only [hf, ← hget, List.set_getElem_self]

theorem finish_of_hasIntent (hx : x.hasIntent = false) (t : Tree) : x.finish t = (t, x) := by
  have hno := Transaction.staging_of_hasIntent hx
  rw [Transaction.finish, Transaction.releaseLock, hno]
  simp only [← hno]

/-- **Without intent a transaction neither writes nor publishes**, and has nothing to forget. -/
theorem step_of_rest (hx : s.transaction? i = some x) (hrest : x.hasIntent = false) :
    (∀ e, s.step (.write i e) = s) ∧ (x.commit s.tree).1 = .ok () ∧ s.step (.commit i) = s ∧
      s.step (.rollback i) = s := by
  have hclean : x.staged? = none := by
    rw [Transaction.staged?, Transaction.staging_of_hasIntent hrest]
    rfl
  have hcommit := Transaction.commit_of_clean hclean s.tree
  have hfinish := finish_of_hasIntent hrest s.tree
  refine ⟨fun e => ?_, congrArg Prod.fst hcommit, ?_, ?_⟩
  · obtain ⟨err, herr⟩ := Edit.perform_of_hasIntent hrest e
    refine onTransaction_of_rest hx ?_
    rw [← Edit.snd_perform, herr]
  · refine onTransaction_of_rest hx ?_
    rw [hcommit, hfinish]
    rfl
  · refine onTransaction_of_rest hx ?_
    rw [Transaction.rollback, hfinish]
    rfl

/-- What rests does so until it acquires again. -/
theorem rest_step (hx : s.transaction? i = some x) (hrest : x.hasIntent = false)
    (he : e ≠ .acquire i) (hy : (s.step e).transaction? i = some y) : y = x := by
  refine reader_step hx hrest hy ?_
  by_cases hactor : actor? e = some i
  · have own : ∀ {f}, (∀ z ∈ (f x).2, z.hasIntent = false) →
        (s.onTransaction i f).transaction? i = some y → y.hasIntent = false := by
      intro f hf hy
      rw [transaction?_onTransaction, if_pos rfl, hx] at hy
      exact hf y hy
    have hno := Transaction.staging_of_hasIntent hrest
    obtain ⟨hwrite, -, hcommit, hrollback⟩ := step_of_rest hx hrest
    cases e with
    | begin timeout => cases hactor
    | acquire j => exact absurd (congrArg Event.acquire (Option.some.inj hactor)) he
    | giveUp j =>
      obtain rfl := Option.some.inj hactor
      refine own (fun z hz => ?_) hy
      exact Option.some.inj hz ▸ hrest
    | write j e =>
      obtain rfl := Option.some.inj hactor
      rw [hwrite e, hx] at hy
      exact Option.some.inj hy ▸ hrest
    | release j =>
      obtain rfl := Option.some.inj hactor
      refine own (fun z hz => ?_) hy
      obtain rfl : (x.releaseLock s.tree).2 = z := Option.some.inj hz
      exact (x.alongside_releaseLock s.tree).staging.trans hrest
    | commit j =>
      obtain rfl := Option.some.inj hactor
      rw [hcommit, hx] at hy
      exact Option.some.inj hy ▸ hrest
    | rollback j =>
      obtain rfl := Option.some.inj hactor
      rw [hrollback, hx] at hy
      exact Option.some.inj hy ▸ hrest
    | drop j =>
      obtain rfl := Option.some.inj hactor
      exact own (fun z hz => by cases hz) hy
  · rw [transaction?_step_of_ne hx hactor] at hy
    exact Option.some.inj hy ▸ hrest

theorem transaction?_run_of_none (hi : i < s.transactions.length) (h : s.transaction? i = none)
    (span : List Event) : (s.run span).transaction? i = none := by
  induction span generalizing s with
  | nil => exact h
  | cons e span ih =>
    exact ih (hi.trans_le (s.length_step e)) (transaction?_step_of_none hi h e)

theorem rest_run (hx : s.transaction? i = some x) (hrest : x.hasIntent = false)
    (hspan : .acquire i ∉ span) : ∀ y ∈ (s.run span).transaction? i, y = x := by
  induction span generalizing s with
  | nil => exact fun y hy => Option.some.inj (hy.symm.trans hx)
  | cons e span ih =>
    intro y hy
    cases hz : (s.step e).transaction? i with
    | none =>
      have hi := (lt_length_of_transaction? hx).trans_le (s.length_step e)
      rw [run, List.foldl_cons] at hy
      exact absurd hy (by rw [← run, transaction?_run_of_none hi hz]; simp)
    | some z =>
      obtain rfl := rest_step hx hrest (fun he => hspan (he ▸ List.mem_cons_self)) hz
      exact ih hz (fun h => hspan (List.mem_cons_of_mem _ h)) y hy

/-! ## One writer at a time -/

/-- What the transactions on one tree can rely on, now and in any continuation. -/
structure OneWriter (s : Shared) : Prop where
  exclusive : ∀ i j x y, s.transaction? i = some x → s.transaction? j = some y →
    x.holdsLock = true → y.holdsLock = true → i = j
  holder : ∀ i x, s.transaction? i = some x → x.holdsLock = true →
    x.hasIntent = true ∧ s.tree.lock.holder = some i
  /-- Without intent nothing is logged, every write fails, and nothing is published. -/
  idle : ∀ i x, s.transaction? i = some x → x.hasIntent = false →
    x.log = [] ∧ (∀ e, (∃ err, e.perform x = (.error err, x)) ∧ s.step (.write i e) = s) ∧
      s.step (.commit i) = s
  /-- Waiting for the lock in vain leaves the transaction as it was, and everybody else with what
  they have by then. -/
  timedOut : ∀ i x, s.transaction? i = some x → x.acquire? s.tree = none →
    ∀ span, (∀ e ∈ span, actor? e ≠ some i) →
      let t := (s.step (.acquire i)).run span
      (t.step (.giveUp i)).transaction? i = some x ∧
        i ∉ (t.step (.giveUp i)).tree.lock.writers ∧
        ∀ j y, t.transaction? j = some y → (t.step (.giveUp i)).transaction? j = some y ∧
          (y.holdsLock = true → (t.step (.giveUp i)).tree.lock.holder = some j)
  /-- After its end, whether that succeeds or not, a transaction has neither lock nor intent nor
  log, and ending it again does nothing until it acquires. -/
  ended : ∀ i x e, s.transaction? i = some x → e = .commit i ∨ e = .rollback i →
    ∃ x', (s.step e).transaction? i = some x' ∧ x'.holdsLock = false ∧ x'.hasIntent = false ∧
      x'.log = [] ∧ (x.hasIntent = true → i ∉ (s.step e).tree.lock.writers) ∧
      ∀ span, .acquire i ∉ span → ∀ y ∈ ((s.step e).run span).transaction? i, y = x' ∧
        (y.commit ((s.step e).run span).tree).1 = .ok () ∧
        ((s.step e).run span).step (.commit i) = (s.step e).run span ∧
        ((s.step e).run span).step (.rollback i) = (s.step e).run span
  /-- One that was dropped is gone for good, and so is its hold on the lock. -/
  dropped : ∀ i x, s.transaction? i = some x →
    (x.hasIntent = true → i ∉ (s.step (.drop i)).tree.lock.writers) ∧
      ∀ span, ((s.step (.drop i)).run span).transaction? i = none
  /-- Taking the lock starts from the published root, and publishes nothing; with intent there is
  nothing to take. -/
  acquired : ∀ i x t x', s.transaction? i = some x → x.acquire? s.tree = some (t, x') →
    (x.hasIntent = false → x'.base = s.tree.root ∧ x'.root = s.tree.root ∧
      x'.began = s.tree.version ∧ x'.log = [] ∧ x'.holdsLock = true ∧
      Transaction.Keeps s.tree t) ∧
    (x.hasIntent = true → x' = x ∧ t = s.tree)

namespace Locked

theorem exclusive (hs : s.Locked) (hx : s.transaction? i = some x) (hy : s.transaction? j = some y)
    (hxl : x.holdsLock = true) (hyl : y.holdsLock = true) : i = j := by
  have hi := (hs.intent i x hx (Transaction.hasIntent_of_holdsLock _ hxl)).1 hxl
  have hj := (hs.intent j y hy (Transaction.hasIntent_of_holdsLock _ hyl)).1 hyl
  exact Option.some.inj (hi.symm.trans hj)

theorem timedOut (hs : s.Locked) (hx : s.transaction? i = some x)
    (hwait : x.acquire? s.tree = none) (hspan : ∀ e ∈ span, actor? e ≠ some i) :
    let t := (s.step (.acquire i)).run span
    (t.step (.giveUp i)).transaction? i = some x ∧
      i ∉ (t.step (.giveUp i)).tree.lock.writers ∧
      ∀ j y, t.transaction? j = some y → (t.step (.giveUp i)).transaction? j = some y ∧
        (y.holdsLock = true → (t.step (.giveUp i)).tree.lock.holder = some j) := by
  intro t
  have hrest := (Transaction.acquire?_eq_none hwait).1
  have hacquire : (s.step (.acquire i)).transaction? i = some x := by
    rw [Shared.step, transaction?_onTransaction, if_pos rfl, hx, Option.bind_some, hwait]
  have htx : t.transaction? i = some x := transaction?_run_of_ne hacquire hspan
  have ht : t.Locked := (hs.step _).run span
  have hstill : ∀ j y, t.transaction? j = some y →
      (t.step (.giveUp i)).transaction? j = some y := by
    intro j y hy
    rw [Shared.step, transaction?_onTransaction]
    split
    · rename_i hij
      subst hij
      rw [htx, Option.bind_some, ← hy, htx]
    · exact hy
  refine ⟨hstill i x htx, ?_, fun j y hy => ⟨hstill j y hy, fun hyl => ?_⟩⟩
  · rw [Shared.step, tree_onTransaction, htx]
    simp only [Option.map_some, Option.getD_some, forgo, ht.writer i x htx, hrest, Bool.not_false,
      and_true]
    split
    · rename_i hholder
      exact ht.sane.withdraw.notMem_release hholder
    · rename_i hholder
      exact WriteLock.notMem_withdraw hholder
  · exact (((ht.step (.giveUp i)).intent j y (hstill j y hy)
      (Transaction.hasIntent_of_holdsLock _ hyl)).1) hyl

/-- A transaction that has just ended. -/
theorem ended (hs : s.Locked) (hx : s.transaction? i = some x)
    (he : e = .commit i ∨ e = .rollback i) :
    ∃ x', (s.step e).transaction? i = some x' ∧ x'.hasIntent = false ∧
      (x.hasIntent = true → i ∉ (s.step e).tree.lock.writers) := by
  obtain rfl | rfl := he
  · refine ⟨(x.commit s.tree).2.2, ?_, ?_, fun hintent => ?_⟩
    · rw [Shared.step, transaction?_onTransaction, if_pos rfl, hx]
      rfl
    · exact x.hasIntent_commit s.tree
    · rw [Shared.step, tree_onTransaction, hx]
      change i ∉ (x.commit s.tree).2.1.lock.writers
      rw [Transaction.lock_commit]
      exact hs.notMem_freed hx hintent
  · refine ⟨(x.finish s.tree).2, ?_, ?_, fun hintent => ?_⟩
    · rw [Shared.step, transaction?_onTransaction, if_pos rfl, hx]
      rfl
    · rw [Transaction.finish_snd]
      rfl
    · rw [Shared.step, tree_onTransaction, hx]
      change i ∉ (x.releaseLock s.tree).1.lock.writers
      rw [Transaction.lock_releaseLock]
      exact hs.notMem_freed hx hintent

theorem dropped (hs : s.Locked) (hx : s.transaction? i = some x) (hintent : x.hasIntent = true) :
    i ∉ (s.step (.drop i)).tree.lock.writers := by
  rw [Shared.step, tree_onTransaction, hx]
  change i ∉ (x.releaseLock s.tree).1.lock.writers
  rw [Transaction.lock_releaseLock]
  exact hs.notMem_freed hx hintent

theorem oneWriter (hs : s.Locked) : OneWriter s where
  exclusive i j x y hx hy := hs.exclusive hx hy
  holder i x hx hholds :=
    have hintent := Transaction.hasIntent_of_holdsLock _ hholds
    ⟨hintent, (hs.intent i x hx hintent).1 hholds⟩
  idle i x hx hrest :=
    have ⟨hwrite, _, hcommit, _⟩ := step_of_rest hx hrest
    ⟨Transaction.log_of_hasIntent hrest,
      fun e => ⟨Edit.perform_of_hasIntent hrest e, hwrite e⟩, hcommit⟩
  timedOut i x hx hwait span hspan := hs.timedOut hx hwait hspan
  ended i x e hx he := by
    obtain ⟨x', hx', hrest, hlock⟩ := hs.ended hx he
    refine ⟨x', hx', ?_, hrest, Transaction.log_of_hasIntent hrest, hlock,
      fun span hspan y hy => ?_⟩
    · refine Bool.eq_false_iff.mpr fun hholds => ?_
      exact absurd ((Transaction.hasIntent_of_holdsLock _ hholds).symm.trans hrest) (by decide)
    · obtain rfl := rest_run hx' hrest hspan y hy
      exact ⟨rfl, (step_of_rest hy hrest).2⟩
  dropped i x hx := by
    refine ⟨hs.dropped hx, fun span => transaction?_run_of_none ?_ ?_ span⟩
    · exact (lt_length_of_transaction? hx).trans_le (s.length_step _)
    · rw [Shared.step, transaction?_onTransaction, if_pos rfl, hx]
      rfl
  acquired i x t x' hx hacquire := by
    obtain ⟨hintent, rfl, rfl⟩ | ⟨hrest, -, rfl, rfl⟩ := Transaction.acquire?_cases hacquire
    · exact ⟨fun hrest => absurd (hintent.symm.trans hrest) (by decide), fun _ => ⟨rfl, rfl⟩⟩
    · exact ⟨fun _ => ⟨rfl, rfl, rfl, rfl, rfl, ⟨rfl, rfl⟩⟩,
        fun hintent => absurd (hintent.symm.trans hrest) (by decide)⟩

end Locked

/-- **One writer at a time.**  Whatever any number of transactions on one tree did so far, at most
one holds the write lock, and it has write intent; without intent nothing is logged, written or
published; giving up the wait for the lock takes nothing from anybody; the end of a transaction
leaves it without lock, intent and log; and who takes the lock starts from the published root. -/
theorem one_writer (root : Resource) (events : List Event) : ((of root).run events).OneWriter :=
  ((locked_of root).run events).oneWriter

/-- The first transaction lets the lock go, the second one takes it and publishes. -/
def overtaken : List Event :=
  [.begin 1000, .begin 1000, .acquire 0, .release 0, .acquire 1,
    .write 1 (.update Address.root [.set "a" (.integer 1)]), .commit 1]

/-- Acquiring again what was never given back succeeds, and starts from nothing new. -/
theorem acquire_not_renewed :
    let s := (of { attributes := [("a", .integer 0)] }).run overtaken
    ¬ ∀ i x t x', s.transaction? i = some x → x.acquire? s.tree = some (t, x') →
      x'.root = s.tree.root := by
  intro s h
  have hroot := h 0 _ _ _ rfl rfl
  have hvalue := congrArg (·.attribute? "a") hroot
  cases hvalue

end Shared

end ManagementPlane
