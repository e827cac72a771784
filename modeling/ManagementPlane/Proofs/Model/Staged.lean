import ManagementPlane.Proofs.Model.ThreeWay
import ManagementPlane.Tree.Transaction

/-!
# Proofs/Model/Staged — the log of a transaction records its writes

`Merge.Trace` is what a log tells of the staged root, and every write of a transaction keeps it:
`Trace.note_update` for a change of attributes, `Trace.note_structural` for a resource that comes or
goes.  A merge goes by patterns, and needs to know besides that they cover nothing by accident; of
writes that name one place they never do (`Merge.Record`).  `Edit` lists the writes that a caller
can make, and `Edit.recorded_apply` puts the two together: what stands in the staging of a
transaction is a record of how it came from its base.
-/

namespace ManagementPlane

namespace Merge

open Write

/-- The log after a write. -/
def note (log : List Write) (w : Write) : List Write := if w ∈ log then log else log ++ [w]

theorem mem_note {log : List Write} {w o : Write} : o ∈ note log w ↔ o ∈ log ∨ o = w := by
  rw [note]
  split
  · rename_i hw
    exact ⟨Or.inl, fun h => h.elim id fun h => h ▸ hw⟩
  · simp

theorem nodup_note {log : List Write} (h : log.Nodup) (w : Write) : (note log w).Nodup := by
  rw [note]
  split
  · exact h
  · rename_i hw
    refine List.nodup_append.mpr ⟨h, List.nodup_singleton w, fun a ha b hb hab => hw ?_⟩
    rwa [← List.mem_singleton.mp hb, ← hab]

/-- The first structural write at an address stays the first. -/
theorem find?_note {log : List Write} {w o : Write} {p : Write → Bool}
    (h : (note log w).find? p = some o) :
    log.find? p = some o ∨ log.find? p = none ∧ o = w := by
  rw [note] at h
  split at h
  · exact Or.inl h
  · rw [List.find?_append] at h
    cases hf : log.find? p with
    | some o' =>
      rw [hf] at h
      exact Or.inl h
    | none =>
      rw [hf, Option.none_or] at h
      exact Or.inr ⟨rfl, List.mem_singleton.mp (List.mem_of_find?_eq_some h)⟩

theorem untouched_of_note {log : List Write} {w : Write} {b : Address}
    (h : Untouched (note log w) b) : Untouched log b := fun o ho => h o (mem_note.mpr (Or.inl ho))

theorem outermost_of_note {log : List Write} {w : Write} {a : Address}
    (h : Outermost (note log w) a) : Outermost log a := fun o ho => h o (mem_note.mpr (Or.inl ho))

/-- Nothing was written, and nothing is recorded. -/
theorem Trace.nil (base : Resource) : Trace base base [] where
  nodup := List.nodup_nil
  named := fun _ h => absurd h List.not_mem_nil
  still := fun _ _ => ⟨rfl, fun _ => rfl⟩
  first := fun _ _ _ h => by simp at h
  created := fun _ _ ⟨_, h, _⟩ => absurd h List.not_mem_nil

variable {base staged next : Resource} {log : List Write} {a : Address}

/-- An address with no structural write on its path that is outermost has none at itself either. -/
theorem untouched_of_outermost (ha : Outermost log a) (hno : log.find? (Write.changes a) = none) :
    Untouched log a := by
  intro o ho hs hpre
  have hoa : o.changes a = true := by
    rw [Write.changes, hs, ha o ho hs hpre]
    simp
  exact List.find?_eq_none.mp hno o ho hoa

/-- **A change of attributes is recorded** by an update. -/
theorem Trace.note_update (hr : Trace base staged log)
    (hholds : ∀ b, (next.at? b).isSome = (staged.at? b).isSome)
    (hoff : ∀ b, b ≠ a → next.at? b = staged.at? b) :
    Trace base next (note log (.update a)) where
  nodup := nodup_note hr.nodup _
  named := fun w hw hs => (mem_note.mp hw).elim (fun hw => hr.named w hw hs) fun h => by
    subst h
    cases hs
  still := fun b hb => by
    obtain ⟨hsome, hsame⟩ := hr.still b (untouched_of_note hb)
    refine ⟨(hholds b).trans hsome, fun hno => ?_⟩
    have hne : b ≠ a := fun h => hno (mem_note.mpr (Or.inr (h ▸ rfl)))
    rw [hoff b hne]
    exact hsame fun hup => hno (mem_note.mpr (Or.inl hup))
  first := fun b hb w hw => by
    rcases find?_note hw with hw | ⟨-, rfl⟩
    · exact hr.first b (outermost_of_note hb) w hw
    · exact absurd (List.find?_some hw) (by simp [Write.changes, isStructural])
  created := fun b hb ⟨w, hw, hc⟩ hs => by
    rcases mem_note.mp hw with hw | rfl
    · exact mem_note.mpr (Or.inl (hr.created b (outermost_of_note hb) ⟨w, hw, hc⟩ (hholds b ▸ hs)))
    · exact absurd hc (by simp [Write.changes, isStructural])

/-- **A resource that comes or goes is recorded** by a structural write. -/
theorem Trace.note_structural (hr : Trace base staged log) (hne : a ≠ []) {w : Write}
    (hw : w = if (staged.at? a).isSome then .remove a else .create a)
    (hnext : (next.at? a).isSome = !(staged.at? a).isSome)
    (hoff : ∀ b, ¬ a <+: b → next.at? b = staged.at? b) :
    Trace base next (note log w) := by
  have hstructural : w.isStructural = true ∧ w.address = a := by
    rw [hw]
    split <;> exact ⟨rfl, rfl⟩
  obtain ⟨hws, hwa⟩ := hstructural
  refine ⟨nodup_note hr.nodup _, fun o ho hs => ?_, fun b hb => ?_, fun b hb o ho => ?_,
    fun b hb hat hs => ?_⟩
  · exact (mem_note.mp ho).elim (fun ho => hr.named o ho hs) fun h => by rw [h, hwa]; exact hne
  · have hab : ¬ a <+: b := hwa ▸ hb w (mem_note.mpr (Or.inr rfl)) hws
    obtain ⟨hsome, hsame⟩ := hr.still b (untouched_of_note hb)
    rw [hoff b hab]
    exact ⟨hsome, fun hno => hsame fun hup => hno (mem_note.mpr (Or.inl hup))⟩
  · rcases find?_note ho with ho | ⟨hno, rfl⟩
    · exact hr.first b (outermost_of_note hb) o ho
    · -- the first structural write at `b`: nothing came or went there before
      have hba : a = b := by
        have hc : o.changes b = true := List.find?_some ho
        rw [Write.changes, hwa] at hc
        simpa [hws] using hc
      subst hba
      rw [← (hr.still a (untouched_of_outermost (outermost_of_note hb) hno)).1]
      exact hw
  · by_cases hab : a <+: b
    · have hba : a = b := hwa ▸ hb w (mem_note.mpr (Or.inr rfl)) hws (hwa.symm ▸ hab)
      subst hba
      rw [hnext] at hs
      rw [if_neg (by simpa using hs)] at hw
      exact mem_note.mpr (Or.inr hw.symm)
    · obtain ⟨o, ho, hc⟩ := hat
      have hlog : o ∈ log := (mem_note.mp ho).resolve_right fun h => hab (by
        rw [Write.changes, h, hwa] at hc
        have hba : a = b := by simpa [hws] using hc
        exact hba ▸ List.prefix_rfl)
      rw [hoff b hab] at hs
      exact mem_note.mpr (Or.inl (hr.created b (outermost_of_note hb) ⟨o, hlog, hc⟩ hs))

end Merge

/-! ## The writes of a caller -/

/-- A change of one attribute. -/
inductive AttributeChange
  | set (name : String) (value : Value)
  | unset (name : String)
  deriving Inhabited, Repr

namespace AttributeChange

def apply (r : Resource) : AttributeChange → Resource
  | set name value => r.setAttribute name value
  | unset name => r.removeAttribute name

/-- Whatever is stored is orderly. -/
def Proper : AttributeChange → Prop
  | set _ value => value.Orderly
  | unset _ => True

end AttributeChange

/-- A write through a transaction. -/
inductive Edit
  | update (address : Address) (changes : List AttributeChange)
  | create (address : Address) (resource : Resource)
  | remove (address : Address)
  deriving Inhabited, Repr

namespace Edit

def address : Edit → Address
  | update a _ => a
  | create a _ => a
  | remove a => a

/-- The write names one place, and what it brings is orderly. -/
def Proper (e : Edit) : Prop :=
  e.address.isConcrete = true ∧ match e with
    | update _ changes => ∀ c ∈ changes, c.Proper
    | create _ resource => resource.Orderly
    | remove _ => True

/-- The transaction after the write, whether or not that succeeds. -/
def apply (x : Transaction) : Edit → Transaction
  | update a changes => (x.update a fun r => ((), changes.foldl AttributeChange.apply r)).2
  | create a r => (x.create a r).2
  | remove a => (x.remove a).2

end Edit

namespace Resource

theorem children_foldl_change (changes : List AttributeChange) (r : Resource) :
    (changes.foldl AttributeChange.apply r).children = r.children := by
  induction changes generalizing r with
  | nil => rfl
  | cons c changes ih =>
    rw [List.foldl_cons, ih]
    cases c <;> rfl

theorem Orderly.foldl_change {r : Resource} (hr : r.Orderly) {changes : List AttributeChange}
    (hc : ∀ c ∈ changes, c.Proper) : (changes.foldl AttributeChange.apply r).Orderly := by
  induction changes generalizing r with
  | nil => exact hr
  | cons c changes ih =>
    refine ih ?_ fun c hc' => hc c (List.mem_cons_of_mem _ hc')
    have hproper := hc c List.mem_cons_self
    cases c with
    | set name value => exact hr.setAttribute name hproper
    | unset name => exact hr.removeAttribute name

end Resource

/-! ## What a transaction has staged -/

/-- What is staged is orderly, and the log tells how it came from the base. -/
structure Staging.Traced (base : Resource) (s : Staging) : Prop where
  trace : Merge.Trace base s.root s.log
  orderly : s.root.Orderly

/-- What is staged came by writes that name one place each. -/
structure Staging.Recorded (base : Resource) (s : Staging) : Prop extends s.Traced base where
  concrete : ∀ w ∈ s.log, w.address.isConcrete = true

theorem Staging.Recorded.record {base : Resource} {s : Staging} (h : s.Recorded base) :
    Merge.Record base s.root s.log := ⟨h.trace, Write.plain_of_concrete h.concrete⟩

namespace Transaction

/-- The log tells how whatever the transaction has staged came from its base. -/
def Traced (x : Transaction) : Prop := ∀ s ∈ x.staging, s.Traced x.base

/-- Whatever the transaction has staged is recorded. -/
def Recorded (x : Transaction) : Prop := ∀ s ∈ x.staging, s.Recorded x.base

theorem Recorded.traced {x : Transaction} (hx : x.Recorded) : x.Traced :=
  fun s hs => (hx s hs).toTraced

theorem recorded_begin (t : Tree) (writer lockTimeout : Nat) :
    (begin t writer lockTimeout).Recorded := fun _ h => by cases h

theorem recorded_stage (x : Transaction) {t : Tree} (ht : t.root.Orderly) :
    (x.stage t).Recorded := by
  rintro s hs
  obtain rfl : { root := t.root } = s := Option.some.inj hs
  exact ⟨⟨Merge.Trace.nil t.root, ht⟩, fun _ h => absurd h List.not_mem_nil⟩

variable {α : Type} {x : Transaction}

/-- The two transactions began together, and differ at most in what they have staged. -/
structure Alongside (x y : Transaction) : Prop where
  writer : y.writer = x.writer
  base : y.base = x.base
  began : y.began = x.began
  lockTimeout : y.lockTimeout = x.lockTimeout
  staging : y.staging.isSome = x.staging.isSome

theorem Alongside.refl (x : Transaction) : Alongside x x := ⟨rfl, rfl, rfl, rfl, rfl⟩

theorem Alongside.trans {y z : Transaction} (h : Alongside x y) (h' : Alongside y z) :
    Alongside x z :=
  ⟨h'.writer.trans h.writer, h'.base.trans h.base, h'.began.trans h.began,
    h'.lockTimeout.trans h.lockTimeout, h'.staging.trans h.staging⟩

theorem Alongside.eq {y : Transaction} (h : Alongside x y) (hx : x.hasIntent = false) : y = x := by
  obtain ⟨hwriter, hbase, hbegan, htimeout, hstaging⟩ := h
  have hno : x.staging = none := by simpa [hasIntent] using hx
  rw [hno, Option.isSome_none, Option.isSome_eq_false_iff, Option.isNone_iff_eq_none] at hstaging
  cases x
  cases y
  simp_all

theorem alongside_write (x : Transaction)
    (f : Resource → Except OperationError (α × Resource × Write)) : Alongside x (x.write f).2 := by
  cases hs : x.staging with
  | none => simpa only [write, hs] using Alongside.refl x
  | some s =>
    simp only [write, hs]
    split <;> exact ⟨rfl, rfl, rfl, rfl, by rw [hs]; rfl⟩

/-- What was not written to is as it was. -/
def Clean (x : Transaction) : Prop := ∀ s ∈ x.staging, s.dirty = false → s.root = x.base

theorem traced_write (hx : x.Traced)
    {f : Resource → Except OperationError (α × Resource × Write)}
    (hf : ∀ s : Staging, s.Traced x.base → ∀ a root w, f s.root = .ok (a, root, w) →
      Staging.Traced x.base { s with root, log := Merge.note s.log w }) :
    (x.write f).2.Traced := by
  cases hs : x.staging with
  | none => simpa only [write, hs] using hx
  | some s =>
    have hsx := hx s hs
    rintro s' hs'
    rw [(x.alongside_write f).base]
    rw [write, hs] at hs'
    cases hout : f s.root with
    | error e =>
      simp only [hout, Option.mem_def, Option.some.injEq] at hs'
      exact hs' ▸ ⟨hsx.trace, hsx.orderly⟩
    | ok out =>
      obtain ⟨a, root, w⟩ := out
      simp only [hout, Option.mem_def, Option.some.injEq] at hs'
      obtain ⟨htrace, horderly⟩ := hf s hsx a root w hout
      exact hs' ▸ ⟨htrace, horderly⟩

/-- A write is logged at its own address. -/
theorem log_write {a : Address} {f : Resource → Except OperationError (α × Resource × Write)}
    (hf : ∀ root out root' w, f root = .ok (out, root', w) → w.address = a) {s : Staging}
    (hs : s ∈ (x.write f).2.staging) {w : Write} (hw : w ∈ s.log) :
    w.address = a ∨ ∃ s' ∈ x.staging, w ∈ s'.log := by
  cases hx : x.staging with
  | none =>
    simp only [write, hx] at hs
    cases hs
  | some t =>
    rw [write, hx] at hs
    cases hout : f t.root with
    | error e =>
      simp only [hout, Option.mem_def, Option.some.injEq] at hs
      subst hs
      exact .inr ⟨t, rfl, hw⟩
    | ok out =>
      obtain ⟨out, root, v⟩ := out
      simp only [hout, Option.mem_def, Option.some.injEq] at hs
      subst hs
      rcases Merge.mem_note.mp hw with hw | rfl
      · exact .inr ⟨t, rfl, hw⟩
      · exact .inl (hf _ _ _ _ hout)

end Transaction

namespace Edit

open Merge

theorem alongside_apply (x : Transaction) (e : Edit) : Transaction.Alongside x (e.apply x) := by
  cases e with
  | update a changes => exact x.alongside_write _
  | create a r =>
    simp only [apply, Transaction.create]
    split
    · exact .refl x
    · exact x.alongside_write _
  | remove a =>
    simp only [apply, Transaction.remove]
    split
    · exact .refl x
    · exact x.alongside_write _

variable {x : Transaction} {base : Resource} {s : Staging}

theorem traced_update {a : Address} {changes : List AttributeChange}
    (hc : ∀ c ∈ changes, c.Proper) (hs : s.Traced base) {n : Resource}
    (hn : s.root.navigate? a = some n) :
    Staging.Traced base { s with
      root := s.root.modifyAt a fun _ => changes.foldl AttributeChange.apply n
      log := note s.log (.update a) } := by
  have hno : n.Orderly := hs.orderly.navigate? hn
  have hat : s.root.at? a = some n.attributes := by
    rw [Resource.at?, hn]
    rfl
  have hoff : ∀ b, b ≠ a → (s.root.modifyAt a fun _ =>
      changes.foldl AttributeChange.apply n).at? b = s.root.at? b := fun b hb =>
    Resource.at?_modify_off hn (Resource.children_foldl_change changes n) hb
  refine ⟨hs.trace.note_update (fun b => ?_) hoff, hs.orderly.modifyAt ?_ a⟩
  · by_cases hb : b = a
    · subst hb
      rw [Resource.at?_modify hn, hat]
      rfl
    · rw [hoff b hb]
  · exact fun _ _ => hno.foldl_change hc

theorem traced_create {p : Address} {e : Element} {r : Resource} (hr : r.Orderly)
    (hs : s.Traced base) {n : Resource} (hn : s.root.navigate? p = some n)
    (hfree : n.child? e = none) :
    Staging.Traced base { s with
      root := s.root.modifyAt p (·.putChild e r)
      log := note s.log (.create (p ++ [e])) } := by
  have hat : s.root.at? (p ++ [e]) = none := by
    rw [Resource.at?_append hn, Resource.at?_cons, hfree]
    rfl
  refine ⟨hs.trace.note_structural (by simp) (by rw [hat]; rfl) ?_ fun b hb =>
    Resource.at?_add_off e hn r hb, hs.orderly.modifyAt (fun _ hn => hn.putChild e hr) p⟩
  rw [Resource.at?_add e hn r [], hat]
  rfl

theorem traced_remove {p : Address} {e : Element} (hs : s.Traced base) {n c : Resource}
    (hn : s.root.navigate? p = some n) (hchild : n.child? e = some c) :
    Staging.Traced base { s with
      root := s.root.modifyAt p (·.removeChild e)
      log := note s.log (.remove (p ++ [e])) } := by
  have hat : s.root.at? (p ++ [e]) = some c.attributes := by
    rw [Resource.at?_append hn, Resource.at?_cons, hchild]
    rfl
  refine ⟨hs.trace.note_structural (by simp) (by rw [hat]; rfl) ?_ fun b hb =>
    Resource.at?_remove_off e hs.orderly hn hb,
    hs.orderly.modifyAt (fun _ hn => hn.removeChild e) p⟩
  rw [Resource.at?_remove e hs.orderly hn [], hat]
  rfl

/-- What the write brings is orderly. -/
def Orderly : Edit → Prop
  | update _ changes => ∀ c ∈ changes, c.Proper
  | create _ resource => resource.Orderly
  | remove _ => True

theorem Proper.orderly {e : Edit} (he : e.Proper) : e.Orderly := by
  cases e <;> exact he.2

/-- **The log keeps telling how what is staged came about**, whether or not a write succeeds. -/
theorem traced_apply (hx : x.Traced) {e : Edit} (he : e.Orderly) : (e.apply x).Traced := by
  cases e with
  | update a changes =>
    refine Transaction.traced_write hx fun s hs out root w hout => ?_
    split at hout
    · cases hout
    · rename_i n hn
      obtain ⟨rfl, rfl⟩ : _ ∧ _ := by simpa using hout
      exact traced_update he hs hn
  | create a r =>
    simp only [apply, Transaction.create]
    split
    · exact hx
    · rename_i e hlast
      have hae : a.parent ++ [e] = a := List.dropLast_append_getLast? e hlast
      refine Transaction.traced_write hx fun s hs out root w hout => ?_
      split at hout
      · cases hout
      · rename_i n hn
        split at hout
        · cases hout
        · rename_i hfree
          obtain ⟨rfl, rfl⟩ : _ ∧ _ := by simpa using hout
          have hfree : n.child? e = none := by simpa [Resource.hasChild] using hfree
          have := traced_create he hs hn hfree
          rwa [hae] at this
  | remove a =>
    simp only [apply, Transaction.remove]
    split
    · exact hx
    · rename_i e hlast
      have hae : a.parent ++ [e] = a := List.dropLast_append_getLast? e hlast
      refine Transaction.traced_write hx fun s hs out root w hout => ?_
      split at hout
      · cases hout
      · rename_i n hn
        split at hout
        · cases hout
        · rename_i c hchild
          obtain ⟨-, rfl, rfl⟩ : _ ∧ _ ∧ _ := by simpa using hout
          have := traced_remove hs hn hchild
          rwa [hae] at this

theorem log_apply (x : Transaction) {e : Edit} {s : Staging} (hs : s ∈ (e.apply x).staging)
    {w : Write} (hw : w ∈ s.log) : w.address = e.address ∨ ∃ s' ∈ x.staging, w ∈ s'.log := by
  cases e with
  | update a changes =>
    refine Transaction.log_write (fun root out root' w hout => ?_) hs hw
    split at hout
    · cases hout
    · obtain ⟨-, rfl⟩ : _ ∧ _ := by simpa using hout
      rfl
  | create a r =>
    simp only [apply, Transaction.create] at hs
    split at hs
    · exact .inr ⟨s, hs, hw⟩
    · refine Transaction.log_write (fun root out root' w hout => ?_) hs hw
      repeat' split at hout
      · cases hout
      · cases hout
      · obtain ⟨-, rfl⟩ : _ ∧ _ := by simpa using hout
        rfl
  | remove a =>
    simp only [apply, Transaction.remove] at hs
    split at hs
    · exact .inr ⟨s, hs, hw⟩
    · refine Transaction.log_write (fun root out root' w hout => ?_) hs hw
      repeat' split at hout
      · cases hout
      · cases hout
      · obtain ⟨-, -, rfl⟩ : _ ∧ _ ∧ _ := by simpa using hout
        rfl

/-- **A write keeps what is staged recorded**, whether or not it succeeds. -/
theorem recorded_apply (hx : x.Recorded) {e : Edit} (he : e.Proper) : (e.apply x).Recorded := by
  refine fun s hs => ⟨traced_apply hx.traced he.orderly s hs, fun w hw => ?_⟩
  rcases log_apply x hs hw with haddress | ⟨s', hs', hw'⟩
  · exact haddress ▸ he.1
  · exact (hx s' hs').concrete w hw'

end Edit

end ManagementPlane
