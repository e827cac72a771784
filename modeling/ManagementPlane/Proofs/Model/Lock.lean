import ManagementPlane.Proofs.Model.History

/-!
# Proofs/Model/Lock — who has the write lock, and who waits for it

A lock is sane when nobody is on it twice and nobody waits for a free one (`WriteLock.Sane`).
Asking, leaving the queue and releasing keep it so, and are one writer's business: the others stay
where they are, or come to hold what they waited for.
-/

namespace ManagementPlane

namespace WriteLock

/-- The writers that hold the lock or wait for it. -/
def writers (l : WriteLock) : List Nat := l.holder.toList ++ l.waiting

variable {l : WriteLock} {u v : Nat}

/-- A lock that is held stays with its holder. -/
theorem holder_request (h : l.holder = some u) : (l.request v).holder = some u := by
  rw [request, if_neg (by rw [h]; rintro ⟨⟩)]
  split <;> exact h

/-- A request adds nobody but the one that makes it. -/
theorem mem_writers_request (h : u ∈ (l.request v).writers) : u = v ∨ u ∈ l.writers := by
  rw [request] at h
  split at h
  · next hfree =>
    rw [writers, hfree]
    exact List.mem_cons.mp h
  · split at h
    · exact .inr h
    · rw [writers, ← List.append_assoc] at h
      exact (List.mem_append.mp h).symm.imp List.mem_singleton.mp id

/-- Nobody stands in the queue twice, unless a waiting one finds the lock free. -/
theorem nodup_request (hl : l.writers.Nodup) (hv : v ∈ l.waiting → l.holder ≠ none) :
    (l.request v).writers.Nodup := by
  rw [request]
  split
  · next hfree =>
    rw [writers, hfree] at hl
    exact List.nodup_cons.mpr ⟨fun h => hv h hfree, hl⟩
  · split
    · exact hl
    · next hnot =>
      rw [not_or] at hnot
      rw [writers, ← List.append_assoc]
      refine List.nodup_append.mpr ⟨hl, List.nodup_singleton v, fun w hw w' hw' => ?_⟩
      obtain rfl := List.mem_singleton.mp hw'
      rintro rfl
      rcases List.mem_append.mp hw with hw | hw
      · exact hnot.1 (Option.mem_toList.mp hw)
      · exact hnot.2 hw

theorem writers_withdraw_sublist : (l.withdraw v).writers.Sublist l.writers :=
  List.filter_sublist.append_left _

/-- Whoever withdraws and does not hold the lock is gone. -/
theorem notMem_withdraw (h : l.holder ≠ some v) : v ∉ (l.withdraw v).writers := by
  intro hv
  rcases List.mem_append.mp hv with hv | hv
  · exact h (Option.mem_toList.mp hv)
  · have := (List.mem_filter.mp hv).2
    simp at this

/-- The holder leaves, and the others keep their order. -/
theorem writers_release : l.release.writers = l.waiting := by
  rw [release]
  split
  · next h => rw [h]; rfl
  · next h => rw [h]; rfl

/-- A lock with a queue is held. -/
structure Sane (l : WriteLock) : Prop where
  nodup : l.writers.Nodup
  held : l.holder = none → l.waiting = []

/-- A request leaves the lock sane. -/
theorem Sane.request (h : l.Sane) : (l.request v).Sane := by
  refine ⟨nodup_request h.nodup fun hv hfree => ?_, fun hfree => ?_⟩
  · rw [h.held hfree] at hv
    cases hv
  · rw [WriteLock.request] at hfree
    split at hfree
    · cases hfree
    · next hheld => split at hfree <;> exact absurd hfree hheld

/-- To withdraw leaves the lock sane. -/
theorem Sane.withdraw (h : l.Sane) : (l.withdraw v).Sane := by
  refine ⟨h.nodup.sublist writers_withdraw_sublist, fun hfree => ?_⟩
  show l.waiting.filter _ = []
  rw [h.held hfree]
  rfl

/-- To release leaves the lock sane. -/
theorem Sane.release (h : l.Sane) : l.release.Sane := by
  refine ⟨?_, ?_⟩
  · rw [writers_release]
    exact h.nodup.sublist (List.sublist_append_right _ _)
  · rw [WriteLock.release]
    split
    · exact fun _ => rfl
    · rintro ⟨⟩

/-- Whoever held the lock is gone once it is released. -/
theorem Sane.notMem_release (h : l.Sane) (hv : l.holder = some v) : v ∉ l.release.writers := by
  have hnodup := h.nodup
  rw [writers, hv] at hnodup
  rw [writers_release]
  exact (List.nodup_cons.mp hnodup).1

/-! ## What one writer can do -/

/-- What writer `v` can do to the lock: others keep it, and do not come to it. -/
structure Yields (v : Nat) (l l' : WriteLock) : Prop where
  sane : l.Sane → l'.Sane
  comes : ∀ u ≠ v, u ∈ l'.writers → u ∈ l.writers
  stays : ∀ u ≠ v, l.holder = some u → l'.holder = some u

theorem Yields.refl (v : Nat) (l : WriteLock) : Yields v l l :=
  ⟨id, fun _ _ => id, fun _ _ => id⟩

/-- One step after another. -/
theorem Yields.trans {l' l'' : WriteLock} (h : Yields v l l') (h' : Yields v l' l'') :
    Yields v l l'' where
  sane := h'.sane ∘ h.sane
  comes u hu hmem := h.comes u hu (h'.comes u hu hmem)
  stays u hu hheld := h'.stays u hu (h.stays u hu hheld)

theorem yields_request (v : Nat) (l : WriteLock) : Yields v l (l.request v) where
  sane h := h.request
  comes _ hu hmem := (mem_writers_request hmem).resolve_left hu
  stays _ _ := holder_request

theorem yields_withdraw (v : Nat) (l : WriteLock) : Yields v l (l.withdraw v) where
  sane h := h.withdraw
  comes _ _ hmem := writers_withdraw_sublist.subset hmem
  stays _ _ h := h

/-- The holder alone may pass the lock on. -/
theorem yields_release (hv : l.holder = some v) : Yields v l l.release where
  sane h := h.release
  comes u _ hmem := by
    rw [writers_release] at hmem
    exact List.mem_append_right _ hmem
  stays u hu hheld := absurd (Option.some.inj (hheld.symm.trans hv)) hu

end WriteLock

/-! ## Where a writer stands -/

/-- Where somebody stands who may want the lock. -/
inductive Grip
  | away
  | waiting
  | holding
  deriving DecidableEq

namespace WriteLock

variable {l : WriteLock} {v : Nat}

/-- What writer `v` can do to the lock, and where it stands then. -/
inductive Turns (v : Nat) (l : WriteLock) : Grip → WriteLock → Grip → Prop
  | stays {g : Grip} : Turns v l g l g
  | takes {g : Grip} (h : (l.request v).holder = some v) : Turns v l g (l.request v) .holding
  | queues {g : Grip} : Turns v l g (l.request v) .waiting
  | leaves (h : (l.request v).holder ≠ some v) : Turns v l .waiting (l.withdraw v) .away
  | releases : Turns v l .holding l.release .away

/-- **Whatever a writer does with the lock** leaves what the others have of it. -/
theorem Turns.yields {g g' : Grip} {l' : WriteLock} (h : Turns v l g l' g')
    (hholds : g = .holding → l.holder = some v) : Yields v l l' := by
  cases h with
  | stays => exact .refl v l
  | takes | queues => exact yields_request v l
  | leaves => exact yields_withdraw v l
  | releases => exact yields_release (hholds rfl)

/-- **The lock follows its writers**: it stays sane, writer `v` is on it only while it waits or
holds, and nobody else comes or goes. -/
theorem Turns.spec {g g' : Grip} {l' : WriteLock} (h : Turns v l g l' g') (hl : l.Sane)
    (hwaits : v ∈ l.writers → g ≠ .away) (hholds : g = .holding → l.holder = some v) :
    l'.Sane ∧ (v ∈ l'.writers → g' ≠ .away) ∧ (g' = .holding → l'.holder = some v) ∧
      (∀ u ≠ v, u ∈ l'.writers → u ∈ l.writers) ∧
        ∀ u ≠ v, l.holder = some u → l'.holder = some u := by
  obtain ⟨hsane, hcomes, hstays⟩ := h.yields hholds
  suffices hown : (v ∈ l'.writers → g' ≠ .away) ∧ (g' = .holding → l'.holder = some v) from
    ⟨hsane hl, hown.1, hown.2, hcomes, hstays⟩
  cases h with
  | stays => exact ⟨hwaits, hholds⟩
  | takes h => exact ⟨fun _ => by rintro ⟨⟩, fun _ => h⟩
  | queues => exact ⟨fun _ => by rintro ⟨⟩, by rintro ⟨⟩⟩
  | leaves h =>
    have hheld : l.holder ≠ some v := fun hv => h (holder_request hv)
    exact ⟨fun hv => absurd hv (notMem_withdraw hheld), by rintro ⟨⟩⟩
  | releases => exact ⟨fun hv => absurd hv (hl.notMem_release (hholds rfl)), by rintro ⟨⟩⟩

end WriteLock

/-! ## What a transaction does to the lock -/

/-- Publishing replaces the root, and nothing else. -/
theorem Tree.publish_eq_ok {t published : Tree} {base staged : Resource} {began : Nat}
    {log : List Write} (h : t.publish base began staged log = .ok published) :
    ∃ root, published = { t with root, version := t.version + 1 } := by
  rw [publish] at h
  split at h
  · exact ⟨staged, (Except.ok.inj h).symm⟩
  · cases hmerged : Merge.merge t.root base staged log with
    | error e =>
      rw [hmerged] at h
      cases h
    | ok merged =>
      rw [hmerged] at h
      exact ⟨merged, (Except.ok.inj h).symm⟩

namespace Transaction

section Acquiring

variable {x y : Transaction} {t t' : Tree}

/-- Taking the lock starts from the published root; with intent there is nothing to take. -/
theorem acquire?_cases (h : x.acquire? t = some (t', y)) :
    (x.hasIntent = true ∧ t' = t ∧ y = x) ∨
    (x.hasIntent = false ∧ (t.lock.request x.writer).holder = some x.writer ∧
      t' = { t with lock := t.lock.request x.writer } ∧ y = x.stage t) := by
  rw [acquire?] at h
  split at h
  · rename_i hintent
    obtain ⟨rfl, rfl⟩ := Prod.mk.inj (Option.some.inj h)
    exact .inl ⟨hintent, rfl, rfl⟩
  · rename_i hintent
    dsimp only at h
    split at h
    · rename_i hholder
      obtain ⟨rfl, rfl⟩ := Prod.mk.inj (Option.some.inj h)
      exact .inr ⟨Bool.eq_false_iff.mpr hintent, hholder, rfl, rfl⟩
    · cases h

/-- Whoever waits has no intent yet, and is not the holder. -/
theorem acquire?_eq_none (h : x.acquire? t = none) :
    x.hasIntent = false ∧ (t.lock.request x.writer).holder ≠ some x.writer := by
  rw [acquire?] at h
  split at h
  · cases h
  · rename_i hintent
    dsimp only at h
    split at h
    · cases h
    · rename_i hholder
      exact ⟨Bool.eq_false_iff.mpr hintent, hholder⟩

end Acquiring

variable (x : Transaction) (t : Tree)

/-- The transaction without the lock. -/
def unlocked : Transaction :=
  { x with staging := x.staging.map ({ · with locked := false }) }

theorem releaseLock_snd : (x.releaseLock t).2 = x.unlocked := by
  obtain ⟨writer, base, began, staging, lockTimeout⟩ := x
  cases staging with
  | none => rfl
  | some s =>
    rw [releaseLock]
    dsimp only
    split
    · rfl
    · next h =>
      rw [unlocked, Option.map_some, ← Bool.eq_false_iff.mpr h]

/-- A transaction without its lock holds none. -/
theorem holdsLock_unlocked : x.unlocked.holdsLock = false := by
  rw [holdsLock, unlocked]
  cases x.staging <;> rfl

/-- Whoever holds the lock has staged a model. -/
theorem hasIntent_of_holdsLock (h : x.holdsLock = true) : x.hasIntent = true := by
  rw [holdsLock] at h
  rw [hasIntent]
  cases hs : x.staging with
  | none => rw [hs] at h; cases h
  | some s => rfl

/-- Only the holder gives the lock back. -/
theorem lock_releaseLock :
    (x.releaseLock t).1.lock = if x.holdsLock then t.lock.release else t.lock := by
  rw [releaseLock, holdsLock]
  cases hs : x.staging with
  | none => rfl
  | some s =>
    dsimp only
    cases hlocked : s.locked <;> simp [hlocked]

theorem staging_finish (x : Transaction) (t : Tree) : (x.finish t).2.staging = none := by
  rw [finish_snd]

theorem staging_commit (x : Transaction) (t : Tree) : (x.commit t).2.2.staging = none := by
  rw [commit]
  split
  · split
    · split <;> exact staging_finish _ _
    · exact staging_finish _ _
  · exact staging_finish _ _

/-- A transaction that has committed has nothing staged. -/
theorem hasIntent_commit : (x.commit t).2.2.hasIntent = false := by
  rw [hasIntent, staging_commit]
  rfl

theorem writer_commit : (x.commit t).2.2.writer = x.writer := by
  have hfinish : ∀ (y : Transaction) (t : Tree), (y.finish t).2.writer = y.writer := by
    intro y t
    rw [finish_snd]
  rw [commit]
  split
  · split
    · split <;> exact hfinish _ _
    · exact hfinish _ _
  · exact hfinish _ _

/-- A commit does with the lock what every end of a transaction does. -/
theorem lock_commit :
    (x.commit t).2.1.lock = if x.holdsLock then t.lock.release else t.lock := by
  rw [commit]
  split
  · split
    · split
      · next published hpublished =>
        obtain ⟨root, rfl⟩ := Tree.publish_eq_ok hpublished
        exact lock_releaseLock { x with base := root, began := t.version + 1 } _
      · exact x.lock_releaseLock t
    · exact x.lock_releaseLock t
  · exact x.lock_releaseLock t

end Transaction

end ManagementPlane
