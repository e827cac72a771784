import Mathlib.Data.List.Nodup
import Mathlib.Data.Nat.Find
import ManagementPlane.Proofs.Address.Patterns
import ManagementPlane.Proofs.Model.View
import ManagementPlane.Tree.Merge

/-!
# Proofs/Model/ThreeWay — bringing writes onto another root is a three-way merge

`View.patch base staged current` is what a three-way merge has to give: the staged side wherever it
differs from the base, the current side everywhere else.  `Merge.view_merge` says that a merge that
succeeds gives just that, for a log that is a `Record` of the writes from base to staged root.

The addresses of a recorded log fall into regions.  An address with no structural write on its path
is changed by its own update alone (`resolved_of_untouched`).  All other addresses lie behind the
outermost structural write on their path, and that one carries everything below it: it replaces the
whole region by the staged one, after it has found the base there (`resolved_of_base`) or nothing at
all (`resolved_of_new`).
-/

namespace ManagementPlane

/-! ## What a merge has to give -/

namespace View

open Classical in
/-- The net changes from `base` to `staged`, on top of `current`. -/
noncomputable def patch (base staged current : View) : View where
  holds a := if base.holds a ↔ staged.holds a then current.holds a else staged.holds a
  attribute? a name :=
    if Value.SameOption (base.attribute? a name) (staged.attribute? a name) then
      current.attribute? a name
    else staged.attribute? a name

section Patch

variable {base staged current : View} {a : Address} {name : String}

theorem patch_holds_of_iff (h : base.holds a ↔ staged.holds a) :
    (patch base staged current).holds a ↔ current.holds a := Iff.of_eq (if_pos h)

theorem patch_holds_of_not_iff (h : ¬ (base.holds a ↔ staged.holds a)) :
    (patch base staged current).holds a ↔ staged.holds a := Iff.of_eq (if_neg h)

theorem patch_attribute?_of_same
    (h : Value.SameOption (base.attribute? a name) (staged.attribute? a name)) :
    (patch base staged current).attribute? a name = current.attribute? a name := if_pos h

theorem patch_attribute?_of_not_same
    (h : ¬ Value.SameOption (base.attribute? a name) (staged.attribute? a name)) :
    (patch base staged current).attribute? a name = staged.attribute? a name := if_neg h

end Patch

theorem patch_self (base staged : View) : (patch base staged base).Same staged := by
  refine ⟨fun a => ?_, fun a name => ?_⟩ <;> simp only [patch] <;> split
  · assumption
  · exact Iff.rfl
  · assumption
  · exact .refl _

theorem Orderly.patch {staged current : View} (hs : staged.Orderly) (hc : current.Orderly)
    (base : View) : (View.patch base staged current).Orderly := by
  intro a name x hx
  simp only [View.patch] at hx
  split at hx
  · exact hc a name x hx
  · exact hs a name x hx

theorem Same.patch {v w : View} (h : v.Same w) (base staged : View) :
    (View.patch base staged v).Same (View.patch base staged w) := by
  refine ⟨fun a => ?_, fun a name => ?_⟩ <;> simp only [View.patch] <;> split
  · exact h.holds a
  · exact Iff.rfl
  · exact h.attribute? a name
  · exact .refl _

end View

namespace Resource

theorem modifyAt_congr {r n : Resource} {a : Address} (h : r.navigate? a = some n)
    {f g : Resource → Resource} (hfg : f n = g n) : modifyAt a f r = modifyAt a g r := by
  induction a generalizing r with
  | nil => exact Option.some.inj h ▸ hfg
  | cons e a ih =>
    obtain ⟨c, hc, h⟩ := Option.bind_eq_some_iff.mp h
    simp only [modifyAt, hc, ih h]

theorem at?_eq_none_iff {r : Resource} {a : Address} : r.at? a = none ↔ r.navigate? a = none :=
  Option.map_eq_none_iff

theorem at?_append_of_none {r : Resource} {a : Address} (h : r.navigate? a = none)
    (b : Address) : r.at? (a ++ b) = none := by
  rw [at?, navigate?_append, h]
  rfl

end Resource

/-! ## Logs of writes -/

namespace Write

/-- No structural write of the log stands on the path to `b`. -/
def Untouched (log : List Write) (b : Address) : Prop :=
  ∀ w ∈ log, w.isStructural = true → ¬ w.address <+: b

/-- No structural write of the log stands on the path to `a`, but perhaps at `a` itself. -/
def Outermost (log : List Write) (a : Address) : Prop :=
  ∀ w ∈ log, w.isStructural = true → w.address <+: a → w.address = a

/-- Read as patterns, the structural writes of the log cover no other write than those below
them. -/
def Plain (log : List Write) : Prop :=
  ∀ o ∈ log, o.isStructural = true → ∀ w ∈ log,
    o.address.covers w.address = true → o.address <+: w.address

theorem plain_of_concrete {log : List Write} (h : ∀ w ∈ log, w.address.isConcrete = true) :
    Plain log := fun o ho _ _ _ => (Address.covers_iff_prefix (h o ho)).mp

/-- Whether `w` is a structural write at `a`. -/
def changes (a : Address) (w : Write) : Bool := w.isStructural && w.address == a

theorem changes_iff {a : Address} {w : Write} :
    w.changes a = true ↔ w = .create a ∨ w = .remove a := by
  cases w <;> simp [changes, isStructural, address]

/-- **Every address is untouched or lies behind an outermost structural write.** -/
theorem untouched_or_outermost (log : List Write) (b : Address) :
    Untouched log b ∨ ∃ a c, b = a ++ c ∧ Outermost log a ∧ ∃ w ∈ log, w.changes a = true := by
  by_cases h : ∃ n, ∃ w ∈ log, w.isStructural = true ∧ w.address = b.take n
  · right
    classical
    obtain ⟨w, hw, hs, ha⟩ := Nat.find_spec h
    refine ⟨b.take (Nat.find h), b.drop (Nat.find h), (List.take_append_drop _ b).symm,
      fun o ho hos hpre => ?_, w, hw, by simp [changes, hs, ha]⟩
    have hob : o.address <+: b := hpre.trans (List.take_prefix _ b)
    have hle : Nat.find h ≤ o.address.length :=
      Nat.find_min' h ⟨o, ho, hos, List.prefix_iff_eq_take.mp hob⟩
    refine hpre.eq_of_length_le ?_
    exact (List.length_take_le _ b).trans hle
  · left
    intro w hw hs hpre
    exact h ⟨_, w, hw, hs, List.prefix_iff_eq_take.mp hpre⟩

end Write

namespace Merge

open Write

/-- What a log tells of how `staged` came from `base`. -/
structure Trace (base staged : Resource) (log : List Write) : Prop where
  nodup : log.Nodup
  named : ∀ w ∈ log, w.isStructural = true → w.address ≠ []
  /-- Off the structural writes the same resources stand, changed by their updates only. -/
  still : ∀ b, Untouched log b → (staged.at? b).isSome = (base.at? b).isSome
    ∧ (.update b ∉ log → staged.at? b = base.at? b)
  /-- What was there is removed before it is created. -/
  first : ∀ a, Outermost log a → ∀ w, log.find? (Write.changes a) = some w →
    w = if (base.at? a).isSome then .remove a else .create a
  created : ∀ a, Outermost log a → (∃ w ∈ log, w.changes a = true) →
    (staged.at? a).isSome = true → .create a ∈ log

/-- The log tells how `staged` came from `base`, and can be brought onto other roots. -/
structure Record (base staged : Resource) (log : List Write) : Prop
    extends Trace base staged log where
  plain : Plain log

/-! ## One write -/

theorem changeAt_eq_some {a : Address} {f : Resource → Option Resource} {m m' : Resource}
    (h : changeAt a f m = some m') : ∃ n n', m.navigate? a = some n ∧ f n = some n' ∧
      m' = Resource.modifyAt a (fun _ => n') m := by
  obtain ⟨n', hn', rfl⟩ := Option.map_eq_some_iff.mp h
  obtain ⟨n, hn, hf⟩ := Option.bind_eq_some_iff.mp hn'
  exact ⟨n, n', hn, hf, rfl⟩

variable {base staged m m' : Resource} {log : List Write}

/-- An applied creation: it skips what is not there in the end, and needs a free name. -/
theorem applyWrite_create {a : Address} (ha : a ≠ [])
    (h : applyWrite base staged m (.create a) = some m') :
    (staged.navigate? a = none ∧ m' = m) ∨ ∃ p e n c, a = p ++ [e] ∧ m.navigate? p = some n ∧
      n.child? e = none ∧ staged.navigate? a = some c ∧
      m' = Resource.modifyAt p (·.putChild e c) m := by
  rw [applyWrite] at h
  obtain ⟨e, he⟩ : ∃ e, a.getLast? = some e := by
    rw [List.getLast?_eq_some_getLast ha]
    exact ⟨_, rfl⟩
  cases hc : staged.navigate? a with
  | none =>
    simp only [hc, Option.some.injEq] at h
    exact Or.inl ⟨rfl, h.symm⟩
  | some c =>
    simp only [hc, he] at h
    obtain ⟨n, n', hn, hf, rfl⟩ := changeAt_eq_some h
    rw [addChild] at hf
    split at hf
    · cases hf
    · rename_i hfree
      refine Or.inr ⟨a.parent, e, n, c, (List.dropLast_append_getLast? e he).symm, hn, ?_, rfl, ?_⟩
      · simpa [Resource.hasChild] using hfree
      · exact Resource.modifyAt_congr hn (Option.some.inj hf).symm

/-- An applied removal: it skips what was not there to begin with, and must find it as it was. -/
theorem applyWrite_remove {a : Address} (ha : a ≠ [])
    (h : applyWrite base staged m (.remove a) = some m') :
    (base.navigate? a = none ∧ m' = m) ∨ ∃ p e n was now, a = p ++ [e] ∧ m.navigate? p = some n ∧
      n.child? e = some now ∧ base.navigate? a = some was ∧ (now == was) = true ∧
      m' = Resource.modifyAt p (·.removeChild e) m := by
  rw [applyWrite] at h
  obtain ⟨e, he⟩ : ∃ e, a.getLast? = some e := by
    rw [List.getLast?_eq_some_getLast ha]
    exact ⟨_, rfl⟩
  cases hc : base.navigate? a with
  | none =>
    simp only [hc, Option.some.injEq] at h
    exact Or.inl ⟨rfl, h.symm⟩
  | some was =>
    simp only [hc, he] at h
    obtain ⟨n, n', hn, hf, rfl⟩ := changeAt_eq_some h
    rw [dropChild] at hf
    split at hf
    · rename_i now hnow
      split at hf
      · rename_i heq
        exact Or.inr ⟨a.parent, e, n, was, now, (List.dropLast_append_getLast? e he).symm, hn,
          hnow, rfl, heq, Resource.modifyAt_congr hn (Option.some.inj hf).symm⟩
      · cases hf
    · cases hf

/-! ## Attributes -/

theorem sameOption_of_sameAttribute {o o' : Option Value} (h : sameAttribute o o' = true) :
    Value.SameOption o o' := by
  cases o <;> cases o' <;> simp only [sameAttribute, Bool.false_eq_true] at h
  · exact Option.Rel.none
  · exact Option.Rel.some (Or.inr h)

/-- Storing what may be missing. -/
theorem putOption_spec {node : Resource} (hn : node.Orderly) {o : Option Value}
    (ho : ∀ v, o = some v → v.Orderly) (x : String) :
    let next := match o with
      | some v => node.setAttribute x v
      | none => node.removeAttribute x
    next.Orderly ∧ next.children = node.children ∧
      ∀ name, next.attribute? name = if x = name then o else node.attribute? name := by
  cases o with
  | some v =>
    exact ⟨hn.setAttribute x (ho v rfl), rfl, fun name => node.attribute?_setAttribute x name v⟩
  | none => exact ⟨hn.removeAttribute x, rfl, Resource.attribute?_removeAttribute hn x⟩

/-- **What merging the attributes of one resource gives**: a changed attribute takes its new value,
after its old one was found; the others stay. -/
theorem mergeAttributes_spec {before after : Resource} {names : List String}
    {node node' : Resource} (hn : node.Orderly) (ha : after.Orderly)
    (h : mergeAttributes before after names node = some node') :
    node'.Orderly ∧ node'.children = node.children ∧ ∀ name,
      if name ∈ names ∧ sameAttribute (before.attribute? name) (after.attribute? name) = false then
        node'.attribute? name = after.attribute? name
          ∧ sameAttribute (node.attribute? name) (before.attribute? name) = true
      else node'.attribute? name = node.attribute? name := by
  induction names generalizing node with
  | nil =>
    obtain rfl := Option.some.inj h
    exact ⟨hn, rfl, fun name => by simp⟩
  | cons x names ih =>
    simp only [mergeAttributes] at h
    split at h
    · rename_i hsame
      obtain ⟨ho, hc, hspec⟩ := ih hn h
      refine ⟨ho, hc, fun name => ?_⟩
      have := hspec name
      by_cases hx : name = x
      · subst hx
        simpa [hsame] using this
      · simpa [hx] using this
    · rename_i hdiff
      split at h
      · cases h
      · rename_i hold
        have hold : sameAttribute (node.attribute? x) (before.attribute? x) = true := by
          simpa using hold
        have hstep := putOption_spec hn (fun v hv => ha.attribute? hv) x (o := after.attribute? x)
        obtain ⟨ho, hc, hspec⟩ := ih hstep.1 h
        refine ⟨ho, hc.trans hstep.2.1, fun name => ?_⟩
        have hname := hspec name
        rw [hstep.2.2 name] at hname
        by_cases hx : x = name
        · subst hx
          rw [if_pos rfl] at hname
          rw [if_pos ⟨List.mem_cons_self, by simpa using hdiff⟩]
          refine ⟨?_, hold⟩
          split at hname
          · exact hname.1
          · exact hname
        · have hx' : ¬ name = x := fun h => hx h.symm
          simpa [hx, hx'] using hname

/-- An attribute that neither resource has is not merged. -/
theorem attribute?_eq_none_of_notMem {before after : Resource} {name : String}
    (h : name ∉ attributeNames before after) :
    before.attribute? name = none ∧ after.attribute? name = none := by
  have hbefore : before.attribute? name = none := Dict.get?_eq_none_iff.mpr fun hk =>
    h (List.mem_append_left _ hk)
  refine ⟨hbefore, Dict.get?_eq_none_iff.mpr fun hk => h ?_⟩
  refine List.mem_append_right _ (List.mem_filter.mpr ⟨hk, ?_⟩)
  rw [Dict.has, show Dict.get? before.attributes name = none from hbefore]
  rfl

/-- **A merged attribute is the new one where the two sides differ, and else what it was.** -/
theorem mergeAttributes_threeWay {before after node node' : Resource} (hn : node.Orderly)
    (ha : after.Orderly)
    (h : mergeAttributes before after (attributeNames before after) node = some node')
    (name : String) :
    (Value.SameOption (before.attribute? name) (after.attribute? name) →
      Value.SameOption (node'.attribute? name) (node.attribute? name)) ∧
    (¬ Value.SameOption (before.attribute? name) (after.attribute? name) →
      node'.attribute? name = after.attribute? name) := by
  have hspec := (mergeAttributes_spec hn ha h).2.2 name
  split at hspec
  · refine ⟨fun hagree => ?_, fun _ => hspec.1⟩
    -- the two agree and yet differ: both are the same value, one that differs from itself
    have hfound := sameOption_of_sameAttribute hspec.2
    rw [hspec.1]
    exact (hfound.trans (fun v hv => hn.attribute? hv) hagree).symm
      (fun v hv => hn.attribute? hv) (fun v hv => ha.attribute? hv)
  · rename_i hkept
    refine ⟨fun _ => hspec ▸ .refl _, fun hdiffer => absurd ⟨?_, ?_⟩ hkept⟩
    · by_contra hmem
      obtain ⟨hbefore, hafter⟩ := attribute?_eq_none_of_notMem hmem
      rw [hbefore, hafter] at hdiffer
      exact hdiffer (.refl _)
    · cases hsa : sameAttribute (before.attribute? name) (after.attribute? name) with
      | false => rfl
      | true => exact absurd (sameOption_of_sameAttribute hsa) hdiffer

/-- An applied update: it skips what is missing on either side. -/
theorem applyWrite_update {b : Address}
    (h : applyWrite base staged m (.update b) = some m') :
    ((base.navigate? b = none ∨ staged.navigate? b = none) ∧ m' = m) ∨
      ∃ before after n n', base.navigate? b = some before ∧ staged.navigate? b = some after ∧
        m.navigate? b = some n ∧
        mergeAttributes before after (attributeNames before after) n = some n' ∧
        m' = Resource.modifyAt b (fun _ => n') m := by
  rw [applyWrite] at h
  cases hb : base.navigate? b with
  | none =>
    simp only [hb, Option.some.injEq] at h
    exact Or.inl ⟨Or.inl rfl, h.symm⟩
  | some before =>
    cases hs : staged.navigate? b with
    | none =>
      simp only [hb, hs, Option.some.injEq] at h
      exact Or.inl ⟨Or.inr rfl, h.symm⟩
    | some after =>
      simp only [hb, hs] at h
      obtain ⟨n, n', hn, hf, rfl⟩ := changeAt_eq_some h
      exact Or.inr ⟨before, after, n, n', rfl, rfl, hn, hf, rfl⟩

/-! ## What one write leaves alone -/

/-- A write that is not seen at `b`: it is made elsewhere, or there is nothing for it to do. -/
def Off (base staged : Resource) (b : Address) : Write → Prop
  | .update a => b ≠ a
  | .create a => staged.navigate? a = none ∨ ¬ a <+: b
  | .remove a => base.navigate? a = none ∨ ¬ a <+: b

section Step

variable (hm : m.Orderly) (hstaged : staged.Orderly)

include hm hstaged in
theorem applyWrite_orderly {w : Write} (hw : w.isStructural = true → w.address ≠ [])
    (h : applyWrite base staged m w = some m') : m'.Orderly := by
  cases w with
  | update b =>
    rcases applyWrite_update h with ⟨-, rfl⟩ | ⟨before, after, n, n', -, hs, hn, hmerge, rfl⟩
    · exact hm
    · have hn' := (mergeAttributes_spec (hm.navigate? hn) (hstaged.navigate? hs) hmerge).1
      exact hm.modifyAt (fun _ _ => hn') b
  | create a =>
    rcases applyWrite_create (hw rfl) h with ⟨-, rfl⟩ | ⟨p, e, n, c, -, -, -, hc, rfl⟩
    · exact hm
    · exact hm.modifyAt (fun _ hn => hn.putChild e (hstaged.navigate? hc)) p
  | remove a =>
    rcases applyWrite_remove (hw rfl) h with ⟨-, rfl⟩ | ⟨p, e, n, was, now, -, -, -, -, -, rfl⟩
    · exact hm
    · exact hm.modifyAt (fun _ hn => hn.removeChild e) p

include hm hstaged in
theorem applyWrite_off {w : Write} (hw : w.isStructural = true → w.address ≠ [])
    (h : applyWrite base staged m w = some m') {b : Address} (hb : Off base staged b w) :
    m'.at? b = m.at? b := by
  cases w with
  | update a =>
    rcases applyWrite_update h with ⟨-, rfl⟩ | ⟨before, after, n, n', -, hs, hn, hmerge, rfl⟩
    · rfl
    · have hchildren := (mergeAttributes_spec (hm.navigate? hn) (hstaged.navigate? hs) hmerge).2.1
      exact Resource.at?_modify_off hn hchildren hb
  | create a =>
    rcases applyWrite_create (hw rfl) h with ⟨-, rfl⟩ | ⟨p, e, n, c, rfl, hn, -, hc, rfl⟩
    · rfl
    · rcases hb with hb | hb
      · cases hb.symm.trans hc
      · exact Resource.at?_add_off e hn c hb
  | remove a =>
    rcases applyWrite_remove (hw rfl) h with
      ⟨-, rfl⟩ | ⟨p, e, n, was, now, rfl, hn, -, hwas, -, rfl⟩
    · rfl
    · rcases hb with hb | hb
      · cases hb.symm.trans hwas
      · exact Resource.at?_remove_off e hm hn hb

end Step

/-! ## All writes in turn -/

theorem applyWrites_cons_eq_ok {w : Write} {ws : List Write}
    (h : applyWrites base staged (w :: ws) m = .ok m') :
    ∃ n, applyWrite base staged m w = some n ∧ applyWrites base staged ws n = .ok m' := by
  rw [applyWrites] at h
  split at h
  · rename_i n hn
    exact ⟨n, hn, h⟩
  · cases h

theorem applyWrites_append_eq_ok {ws ws' : List Write}
    (h : applyWrites base staged (ws ++ ws') m = .ok m') :
    ∃ n, applyWrites base staged ws m = .ok n ∧ applyWrites base staged ws' n = .ok m' := by
  induction ws generalizing m with
  | nil => exact ⟨m, rfl, h⟩
  | cons w ws ih =>
    obtain ⟨n, hn, h⟩ := applyWrites_cons_eq_ok h
    obtain ⟨k, hk, h⟩ := ih h
    exact ⟨k, by rw [applyWrites, hn]; exact hk, h⟩

section Run

variable {ws : List Write} (hnamed : ∀ w ∈ ws, w.isStructural = true → w.address ≠ [])
  (hm : m.Orderly) (hstaged : staged.Orderly) (h : applyWrites base staged ws m = .ok m')

include hnamed hm hstaged h in
theorem applyWrites_orderly : m'.Orderly := by
  induction ws generalizing m with
  | nil => exact Except.ok.inj h ▸ hm
  | cons w ws ih =>
    obtain ⟨n, hn, h⟩ := applyWrites_cons_eq_ok h
    exact ih (fun w hw => hnamed w (List.mem_cons_of_mem _ hw))
      (applyWrite_orderly hm hstaged (hnamed w List.mem_cons_self) hn) h

include hnamed hm hstaged h in
theorem applyWrites_off {b : Address}
    (hb : ∀ w ∈ ws, Off base staged b w) : m'.at? b = m.at? b := by
  induction ws generalizing m with
  | nil => rw [Except.ok.inj h]
  | cons w ws ih =>
    obtain ⟨n, hn, h⟩ := applyWrites_cons_eq_ok h
    have hw := hnamed w List.mem_cons_self
    rw [ih (fun w hw => hnamed w (List.mem_cons_of_mem _ hw))
        (applyWrite_orderly hm hstaged hw hn) h
        (fun w hw => hb w (List.mem_cons_of_mem _ hw)),
      applyWrite_off hm hstaged hw hn (hb w List.mem_cons_self)]

end Run

/-! ## The writes that are brought over -/

/-- The writes of a log that no other write carries along. -/
def uncarried (log : List Write) : List Write := log.filter (!isCarried log ·)

theorem mem_uncarried_iff (hr : Record base staged log) {w : Write} :
    w ∈ uncarried log ↔ w ∈ log ∧
      if w.isStructural then Outermost log w.address else Untouched log w.address := by
  have hcarried : w ∈ log → (isCarried log w = true ↔ ∃ o ∈ log, o.isStructural = true ∧
      o.address <+: w.address ∧
        (o.address.length < w.address.length ∨ w.isStructural = false)) := by
    intro hw
    simp only [isCarried, List.any_eq_true, Bool.and_eq_true, Bool.or_eq_true, decide_eq_true_eq,
      Bool.not_eq_true']
    refine exists_congr fun o => and_congr_right fun ho => ?_
    rw [and_assoc]
    refine and_congr_right fun hs => and_congr_left fun _ => ?_
    exact ⟨hr.plain o ho hs w hw, Address.covers_of_prefix⟩
  rw [uncarried, List.mem_filter, Bool.not_eq_true', ← Bool.not_eq_true]
  refine and_congr_right fun hw => ?_
  rw [hcarried hw]
  split
  · rename_i hw
    constructor
    · intro h o ho hs hpre
      by_contra hne
      refine h ⟨o, ho, hs, hpre, Or.inl ?_⟩
      exact lt_of_le_of_ne hpre.length_le fun hlen => hne (hpre.eq_of_length hlen)
    · rintro h ⟨o, ho, hs, hpre, hlt | hw'⟩
      · rw [h o ho hs hpre] at hlt
        exact lt_irrefl _ hlt
      · rw [hw] at hw'
        cases hw'
  · rename_i hw
    constructor
    · intro h o ho hs hpre
      exact h ⟨o, ho, hs, hpre, Or.inr (by simpa using hw)⟩
    · rintro h ⟨o, ho, hs, hpre, -⟩
      exact h o ho hs hpre

theorem Record.named_uncarried (hr : Record base staged log) :
    ∀ w ∈ uncarried log, w.isStructural = true → w.address ≠ [] :=
  fun w hw => hr.named w ((mem_uncarried_iff hr).mp hw).1

theorem Record.nodup_uncarried (hr : Record base staged log) : (uncarried log).Nodup :=
  hr.nodup.filter _

/-- The writes at an outermost address are all brought over. -/
theorem mem_uncarried_of_changes (hr : Record base staged log) {a : Address}
    (ha : Outermost log a) {w : Write} (hw : w ∈ log) (hc : w.changes a = true) :
    w ∈ uncarried log := by
  obtain ⟨hs, haddr⟩ : w.isStructural = true ∧ w.address = a := by
    simpa [Write.changes] using hc
  rw [mem_uncarried_iff hr, if_pos hs, haddr]
  exact ⟨hw, ha⟩

/-- **Behind an outermost structural write only the structural writes there are seen.** -/
theorem off_of_not_changes (hr : Record base staged log) {a : Address} (ha : Outermost log a)
    (hat : ∃ o ∈ log, o.changes a = true) {w : Write} (hw : w ∈ uncarried log)
    (hne : w.changes a = false) (c : Address) : Off base staged (a ++ c) w := by
  obtain ⟨o, ho, hoc⟩ := hat
  obtain ⟨hos, rfl⟩ : o.isStructural = true ∧ o.address = a := by
    simpa [Write.changes] using hoc
  obtain ⟨hlog, hout⟩ := (mem_uncarried_iff hr).mp hw
  have hapart : w.isStructural = true → ¬ w.address <+: o.address ++ c := by
    intro hs hpre
    rw [if_pos hs] at hout
    have heq : w.address = o.address := by
      rcases List.prefix_or_prefix_of_prefix hpre (List.prefix_append _ c) with h | h
      · exact ha w hlog hs h
      · exact (hout o ho hos h).symm
    simp [Write.changes, hs, heq] at hne
  cases w with
  | update b =>
    rintro rfl
    exact hout o ho hos (List.prefix_append _ c)
  | create b => exact Or.inr (hapart rfl)
  | remove b => exact Or.inr (hapart rfl)

/-- **At an untouched address only its own update is seen.** -/
theorem off_of_untouched (hr : Record base staged log) {b : Address} (hb : Untouched log b)
    {w : Write} (hw : w ∈ uncarried log) (hne : w ≠ .update b) : Off base staged b w := by
  have hlog := ((mem_uncarried_iff hr).mp hw).1
  cases w with
  | update c => exact fun hbc => hne (hbc ▸ rfl)
  | create c => exact Or.inr (hb _ hlog rfl)
  | remove c => exact Or.inr (hb _ hlog rfl)

/-! ## The merge as a whole -/

section Whole

variable {current merged : Resource}
variable (hr : Record base staged log) (hstaged : staged.Orderly)
  (hcurrent : current.Orderly) (h : merge current base staged log = .ok merged)

include hr hstaged hcurrent h in
theorem merge_orderly : merged.Orderly :=
  applyWrites_orderly hr.named_uncarried hcurrent hstaged h

/-- The writes of a log around one of those that are brought over. -/
structure Around (current base staged merged : Resource) (log : List Write) (w : Write) where
  before : List Write
  after : List Write
  uncarried_eq : uncarried log = before ++ w :: after
  reached : Resource
  next : Resource
  reach : applyWrites base staged before current = .ok reached
  step : applyWrite base staged reached w = some next
  rest : applyWrites base staged after next = .ok merged

include h in
theorem nonempty_around {before after : List Write} {w : Write}
    (hw : uncarried log = before ++ w :: after) :
    ∃ x : Around current base staged merged log w, x.before = before ∧ x.after = after := by
  have h : applyWrites base staged (uncarried log) current = .ok merged := h
  rw [hw] at h
  obtain ⟨reached, hreach, h⟩ := applyWrites_append_eq_ok h
  obtain ⟨next, hstep, hrest⟩ := applyWrites_cons_eq_ok h
  exact ⟨⟨before, after, hw, reached, next, hreach, hstep, hrest⟩, rfl, rfl⟩

namespace Around

variable {w : Write} (x : Around current base staged merged log w)

theorem mem_uncarried_of_mem_before {o : Write} (ho : o ∈ x.before) : o ∈ uncarried log := by
  rw [x.uncarried_eq]
  exact List.mem_append_left _ ho

theorem mem_uncarried_of_mem_after {o : Write} (ho : o ∈ x.after) : o ∈ uncarried log := by
  rw [x.uncarried_eq]
  exact List.mem_append_right _ (List.mem_cons_of_mem _ ho)

include x in
theorem mem_uncarried : w ∈ uncarried log := by
  rw [x.uncarried_eq]
  exact List.mem_append_right _ List.mem_cons_self

include hr

theorem not_mem_before : w ∉ x.before := by
  have hnodup := hr.nodup_uncarried
  rw [x.uncarried_eq, List.nodup_append] at hnodup
  exact fun hw => hnodup.2.2 w hw w List.mem_cons_self rfl

theorem not_mem_after : w ∉ x.after := by
  have hnodup := hr.nodup_uncarried
  rw [x.uncarried_eq, List.nodup_append] at hnodup
  exact (List.nodup_cons.mp hnodup.2.1).1

include hstaged hcurrent

theorem reached_orderly : x.reached.Orderly :=
  applyWrites_orderly (fun o ho => hr.named_uncarried o (x.mem_uncarried_of_mem_before ho))
    hcurrent hstaged x.reach

theorem next_orderly : x.next.Orderly :=
  applyWrite_orderly (x.reached_orderly hr hstaged hcurrent) hstaged
    (hr.named_uncarried w x.mem_uncarried) x.step

theorem at?_reached {b : Address} (hb : ∀ o ∈ x.before, Off base staged b o) :
    x.reached.at? b = current.at? b :=
  applyWrites_off (fun o ho => hr.named_uncarried o (x.mem_uncarried_of_mem_before ho))
    hcurrent hstaged x.reach hb

theorem at?_merged {b : Address} (hb : ∀ o ∈ x.after, Off base staged b o) :
    merged.at? b = x.next.at? b :=
  applyWrites_off (fun o ho => hr.named_uncarried o (x.mem_uncarried_of_mem_after ho))
    (x.next_orderly hr hstaged hcurrent) hstaged x.rest hb

end Around

/-- The two outcomes at an address: what stands in the end is the current side's, where the other
two sides agree, or the staged side's, where the current side is as the base. -/
inductive Resolved (base staged current merged : Resource) (b : Address) : Prop
  | current (h : merged.at? b = current.at? b) (hstill : staged.at? b = base.at? b)
  | staged (h : merged.at? b = staged.at? b)
      (holds : (current.at? b).isSome = (base.at? b).isSome)
      (attribute? : ∀ name, Value.SameOption (current.view.attribute? b name)
        (base.view.attribute? b name))
  | attributes (holds : (merged.at? b).isSome = (current.at? b).isSome)
      (hstill : (staged.at? b).isSome = (base.at? b).isSome)
      (attribute? : ∀ name, Value.SameOption (merged.view.attribute? b name)
        ((View.patch base.view staged.view current.view).attribute? b name))

include hr hstaged hcurrent h in
theorem resolved_of_untouched {b : Address} (hb : Untouched log b) :
    Resolved base staged current merged b := by
  obtain ⟨hsome, hsame⟩ := hr.still b hb
  have hoff : ∀ o ∈ uncarried log, o ≠ .update b → Off base staged b o :=
    fun o => off_of_untouched hr hb
  by_cases hup : Write.update b ∈ log
  · have hmem : Write.update b ∈ uncarried log := by
      rw [mem_uncarried_iff hr]
      exact ⟨hup, hb⟩
    obtain ⟨before, after, hsplit⟩ := List.append_of_mem hmem
    obtain ⟨x, -, -⟩ := nonempty_around h hsplit
    have hreached := x.at?_reached hr hstaged hcurrent (b := b) fun o ho =>
      hoff o (x.mem_uncarried_of_mem_before ho) fun he => x.not_mem_before hr (he ▸ ho)
    have hmerged := x.at?_merged hr hstaged hcurrent (b := b) fun o ho =>
      hoff o (x.mem_uncarried_of_mem_after ho) fun he => x.not_mem_after hr (he ▸ ho)
    rcases applyWrite_update x.step with ⟨hmissing, hnext⟩ | ⟨old, new, n, n', hold, hnew, hn,
      hmerge, hnext⟩
    · rw [hnext, hreached] at hmerged
      have hnone : base.at? b = none ∧ staged.at? b = none := by
        rcases hmissing with hm | hm
        · have := Resource.at?_eq_none_iff.mpr hm
          simp_all
        · have := Resource.at?_eq_none_iff.mpr hm
          simp_all
      exact .current hmerged (hnone.2.trans hnone.1.symm)
    · have hno := (x.reached_orderly hr hstaged hcurrent).navigate? hn
      have hthree := mergeAttributes_threeWay hno (hstaged.navigate? hnew) hmerge
      rw [hnext, Resource.at?_modify hn] at hmerged
      have hcur : current.at? b = some n.attributes := by
        rw [← hreached, Resource.at?, hn]
        rfl
      have hold' : base.at? b = some old.attributes := by rw [Resource.at?, hold]; rfl
      have hnew' : staged.at? b = some new.attributes := by rw [Resource.at?, hnew]; rfl
      have hview := fun {r n : Resource} => Resource.view_attribute? (r := r) (n := n) (a := b)
      refine .attributes (by rw [hmerged, hcur]; rfl) hsome fun name => ?_
      by_cases hagree : Value.SameOption (old.attribute? name) (new.attribute? name)
      · rw [View.patch_attribute?_of_same (by rwa [hview hold', hview hnew']), hview hmerged,
          hview hcur]
        exact (hthree name).1 hagree
      · rw [View.patch_attribute?_of_not_same (by rwa [hview hold', hview hnew']), hview hmerged,
          hview hnew', (hthree name).2 hagree]
        exact .refl _
  · have hmerged : merged.at? b = current.at? b :=
      applyWrites_off hr.named_uncarried hcurrent hstaged h fun o ho =>
        hoff o ho fun he => hup (he ▸ ((mem_uncarried_iff hr).mp ho).1)
    exact .current hmerged (hsame hup)

/-- The first structural write at an outermost address splits the writes that are brought over. -/
theorem uncarried_split (hr : Record base staged log) {a : Address} (ha : Outermost log a)
    {w : Write} (hw : log.find? (Write.changes a) = some w) : ∃ before after,
      uncarried log = before ++ w :: after ∧ ∀ o ∈ before, o.changes a = false := by
  obtain ⟨hc, as, bs, hsplit, has⟩ := List.find?_eq_some_iff_append.mp hw
  have hmem : w ∈ uncarried log :=
    mem_uncarried_of_changes hr ha (List.mem_of_find?_eq_some hw) hc
  have hkept : (!isCarried log w) = true := (List.mem_filter.mp hmem).2
  refine ⟨as.filter (!isCarried log ·), bs.filter (!isCarried log ·), ?_, fun o ho => ?_⟩
  · rw [uncarried]
    nth_rewrite 2 [hsplit]
    rw [List.filter_append, List.filter_cons_of_pos (p := (!isCarried log ·)) hkept]
  · simpa using has o (List.mem_of_mem_filter ho)

section Region

variable {a : Address} (ha : Outermost log a) (hat : ∃ w ∈ log, w.changes a = true)

include hr hstaged hcurrent ha hat in
/-- A write after which only other places are written gives the region at its address. -/
theorem Around.region {w : Write} (x : Around current base staged merged log w)
    (hafter : ∀ o ∈ x.after, o.changes a = true → ∀ c, Off base staged (a ++ c) o) (c : Address) :
    merged.at? (a ++ c) = x.next.at? (a ++ c) :=
  x.at?_merged hr hstaged hcurrent fun o ho => by
    cases hc : o.changes a with
    | false => exact off_of_not_changes hr ha hat (x.mem_uncarried_of_mem_after ho) hc c
    | true => exact hafter o ho hc c

include hr hstaged hcurrent ha hat in
/-- Before the first structural write at its address a region is the current one. -/
theorem Around.region_reached {w : Write} (x : Around current base staged merged log w)
    (hbefore : ∀ o ∈ x.before, o.changes a = false) (c : Address) :
    x.reached.at? (a ++ c) = current.at? (a ++ c) :=
  x.at?_reached hr hstaged hcurrent fun o ho =>
    off_of_not_changes hr ha hat (x.mem_uncarried_of_mem_before ho) (hbefore o ho) c

include hr hstaged hcurrent ha hat in
/-- **A created region is the staged one**, once it is not written again. -/
theorem Around.region_create (x : Around current base staged merged log (.create a))
    {s : Resource} (hs : staged.navigate? a = some s)
    (hafter : ∀ o ∈ x.after, o.changes a = true → ∀ c, Off base staged (a ++ c) o) (c : Address) :
    merged.at? (a ++ c) = staged.at? (a ++ c) := by
  rw [x.region hr hstaged hcurrent ha hat hafter]
  have hne : a ≠ [] := hr.named_uncarried _ x.mem_uncarried rfl
  rcases applyWrite_create hne x.step with ⟨hnone, -⟩ | ⟨p, e, n, s', rfl, hn, -, hs', hnext⟩
  · cases hnone.symm.trans hs
  · obtain rfl : s = s' := Option.some.inj (hs.symm.trans hs')
    rw [hnext, Resource.at?_append hs, List.append_assoc, List.singleton_append]
    exact Resource.at?_add e hn s c

include hr hstaged hcurrent ha hat h in
/-- After its removal a region is created again when it is staged, and gone when it is not. -/
theorem region_of_remove (x : Around current base staged merged log (.remove a))
    (hbefore : ∀ o ∈ x.before, o.changes a = false) (hgone : ∀ c, x.next.at? (a ++ c) = none)
    (c : Address) : merged.at? (a ++ c) = staged.at? (a ++ c) := by
  have hcreate : ∀ o ∈ x.after, o.changes a = true → o = .create a := by
    intro o ho hc
    rcases Write.changes_iff.mp hc with rfl | rfl
    · rfl
    · exact absurd ho (x.not_mem_after hr)
  cases hs : staged.navigate? a with
  | none =>
    rw [Resource.at?_append_of_none hs, ← hgone c]
    refine x.region hr hstaged hcurrent ha hat (fun o ho hc d => ?_) c
    obtain rfl := hcreate o ho hc
    exact Or.inl hs
  | some s =>
    have hlog : Write.create a ∈ log := hr.created a ha hat (by
      rw [Resource.at?, hs]
      rfl)
    have hafter : Write.create a ∈ x.after := by
      have hmem := mem_uncarried_of_changes hr ha hlog (Write.changes_iff.mpr (Or.inl rfl))
      rw [x.uncarried_eq, List.mem_append, List.mem_cons] at hmem
      rcases hmem with hmem | hmem | hmem
      · exact absurd (hbefore _ hmem) (by simp [Write.changes, isStructural, address])
      · cases hmem
      · exact hmem
    obtain ⟨bs, cs, hcs⟩ := List.append_of_mem hafter
    have hsplit : uncarried log = (x.before ++ .remove a :: bs) ++ .create a :: cs := by
      rw [x.uncarried_eq, hcs, List.append_assoc, List.cons_append]
    obtain ⟨y, -, hy⟩ := nonempty_around h hsplit
    refine y.region_create hr hstaged hcurrent ha hat hs (fun o ho hc d => ?_) c
    have hox : o ∈ x.after := by
      rw [hcs]
      exact List.mem_append_right _ (List.mem_cons_of_mem _ (hy ▸ ho))
    obtain rfl := hcreate o hox hc
    exact absurd ho (y.not_mem_after hr)

include hr hstaged hcurrent h ha hat in
/-- **A region that was there** is found as it was before it takes its staged form. -/
theorem resolved_of_base (hbase : (base.at? a).isSome = true) (c : Address) :
    Resolved base staged current merged (a ++ c) := by
  obtain ⟨w, hw⟩ : ∃ w, log.find? (Write.changes a) = some w := by
    obtain ⟨o, ho, hoc⟩ := hat
    exact Option.isSome_iff_exists.mp (List.find?_isSome.mpr ⟨o, ho, hoc⟩)
  have hremove := hr.first a ha w hw
  rw [if_pos hbase] at hremove
  subst hremove
  obtain ⟨before, after, hsplit, hbefore⟩ := uncarried_split hr ha hw
  obtain ⟨x, rfl, rfl⟩ := nonempty_around h hsplit
  have hreached := x.region_reached hr hstaged hcurrent ha hat hbefore
  have hne : a ≠ [] := hr.named_uncarried _ x.mem_uncarried rfl
  rcases applyWrite_remove hne x.step with ⟨hnone, -⟩ | ⟨p, e, n, was, now, rfl, hn, hnow, hwas,
    heq, hnext⟩
  · rw [Resource.at?_eq_none_iff.mpr hnone] at hbase
    cases hbase
  have hro := x.reached_orderly hr hstaged hcurrent
  have hsame : now.view.Same was.view :=
    Resource.view_same_of_beq ((hro.navigate? hn).child? hnow) heq
  have hcur : current.at? (p ++ [e] ++ c) = now.at? c := by
    rw [← hreached, List.append_assoc, Resource.at?_append hn, List.singleton_append,
      Resource.at?_cons, hnow]
    rfl
  have hbas : base.at? (p ++ [e] ++ c) = was.at? c := Resource.at?_append hwas c
  have hgone : ∀ d, x.next.at? (p ++ [e] ++ d) = none := fun d => by
    rw [hnext, List.append_assoc, List.singleton_append]
    exact Resource.at?_remove e hro hn d
  have hholds : (now.at? c).isSome = (was.at? c).isSome := by
    rw [Bool.eq_iff_iff]
    exact hsame.holds c
  refine .staged (region_of_remove hr hstaged hcurrent h ha hat x hbefore hgone c)
    (by rw [hcur, hbas, hholds]) fun name => ?_
  simpa only [Resource.view, hcur, hbas] using hsame.attribute? c name

include hr hstaged hcurrent h ha hat in
/-- **A region that is new** finds its name free, unless it is gone again. -/
theorem resolved_of_new (hbase : base.navigate? a = none) (c : Address) :
    Resolved base staged current merged (a ++ c) := by
  have hnone : ∀ d, base.at? (a ++ d) = none := Resource.at?_append_of_none hbase
  cases hs : staged.navigate? a with
  | none =>
    refine .current (applyWrites_off hr.named_uncarried hcurrent hstaged h fun o ho => ?_)
      (by rw [Resource.at?_append_of_none hs, hnone])
    cases hc : o.changes a with
    | false => exact off_of_not_changes hr ha hat ho hc c
    | true =>
      rcases Write.changes_iff.mp hc with rfl | rfl
      · exact Or.inl hs
      · exact Or.inl hbase
  | some s =>
    obtain ⟨w, hw⟩ : ∃ w, log.find? (Write.changes a) = some w := by
      obtain ⟨o, ho, hoc⟩ := hat
      exact Option.isSome_iff_exists.mp (List.find?_isSome.mpr ⟨o, ho, hoc⟩)
    have hcreate := hr.first a ha w hw
    rw [if_neg (by rw [Resource.at?_eq_none_iff.mpr hbase]; simp)] at hcreate
    subst hcreate
    obtain ⟨before, after, hsplit, hbefore⟩ := uncarried_split hr ha hw
    obtain ⟨x, rfl, rfl⟩ := nonempty_around h hsplit
    have hstaged' : merged.at? (a ++ c) = staged.at? (a ++ c) := by
      refine x.region_create hr hstaged hcurrent ha hat hs (fun o ho hc d => ?_) c
      rcases Write.changes_iff.mp hc with rfl | rfl
      · exact absurd ho (x.not_mem_after hr)
      · exact Or.inl hbase
    have hcur : current.at? (a ++ c) = none := by
      rw [← x.region_reached hr hstaged hcurrent ha hat hbefore c]
      have hne : a ≠ [] := hr.named_uncarried _ x.mem_uncarried rfl
      rcases applyWrite_create hne x.step with ⟨hnone, -⟩ | ⟨p, e, n, s', rfl, hn, hfree, -, -⟩
      · cases hnone.symm.trans hs
      · rw [List.append_assoc, Resource.at?_append hn, List.singleton_append, Resource.at?_cons,
          hfree]
        rfl
    refine .staged hstaged' (by rw [hcur, hnone]) fun name => ?_
    simp only [Resource.view, hcur, hnone]
    exact .refl _

end Region

include hr hstaged hcurrent h in
theorem resolved (b : Address) : Resolved base staged current merged b := by
  rcases Write.untouched_or_outermost log b with hb | ⟨a, c, rfl, ha, hat⟩
  · exact resolved_of_untouched hr hstaged hcurrent h hb
  · cases hbase : base.navigate? a with
    | none => exact resolved_of_new hr hstaged hcurrent h ha hat hbase c
    | some n =>
      exact resolved_of_base hr hstaged hcurrent h ha hat (by rw [Resource.at?, hbase]; rfl) c

include hr hstaged hcurrent h in
/-- **A merge that succeeds is the three-way merge.** -/
theorem view_merge : merged.view.Same (View.patch base.view staged.view current.view) := by
  have horder := Resource.view_orderly hstaged
  have horder' := Resource.view_orderly hcurrent
  refine ⟨fun b => ?_, fun b name => ?_⟩
  · by_cases hagree : base.view.holds b ↔ staged.view.holds b
    · rw [View.patch_holds_of_iff hagree]
      simp only [Resource.view] at hagree ⊢
      cases resolved hr hstaged hcurrent h b with
      | current hm => rw [hm]
      | staged hm hholds => rw [hm, hholds, hagree]
      | attributes hholds => rw [hholds]
    · rw [View.patch_holds_of_not_iff hagree]
      simp only [Resource.view] at hagree ⊢
      cases resolved hr hstaged hcurrent h b with
      | current hm hstill => exact absurd (by rw [hstill]) hagree
      | staged hm => rw [hm]
      | attributes hholds hstill => exact absurd (by rw [hstill]) hagree
  · cases resolved hr hstaged hcurrent h b with
    | current hm hstill =>
      have hagree : Value.SameOption (base.view.attribute? b name)
          (staged.view.attribute? b name) := by
        simp only [Resource.view, hstill]
        exact .refl _
      rw [View.patch_attribute?_of_same hagree]
      simp only [Resource.view, hm]
      exact .refl _
    | staged hm _ hattribute =>
      have hmerged : merged.view.attribute? b name = staged.view.attribute? b name := by
        simp only [Resource.view, hm]
      rw [hmerged]
      by_cases hagree : Value.SameOption (base.view.attribute? b name)
          (staged.view.attribute? b name)
      · rw [View.patch_attribute?_of_same hagree]
        exact ((hattribute name).trans (horder' b name) hagree).symm (horder' b name)
          (horder b name)
      · rw [View.patch_attribute?_of_not_same hagree]
        exact .refl _
    | attributes _ _ hattribute => exact hattribute name

end Whole

end Merge

end ManagementPlane
