import ManagementPlane.Proofs.Model.Extensional

/-!
# Proofs/Model/Conflicts — a write is refused exactly where both sides wrote

`Write.Clashes` says when a write runs into a difference between the base and the current root, in
terms of these two and the staged root alone.  Here as in `View.patch` a value counts as the same as
itself.  A NaN is not equal to itself, so a write that has to find one again fails as well, though
nothing differs there (`Write.MeetsNaN`).

The merge itself looks at the root that the writes before have made of the current one, and
`refused_iff_fails` says that it finds the same: what a write looks at was not written before it,
but for a name that is given up and taken again.
-/

namespace ManagementPlane

namespace Resource

theorem navigate?_modifyAt {r n : Resource} {a : Address} (h : r.navigate? a = some n)
    (f : Resource → Resource) (b : Address) :
    (modifyAt a f r).navigate? (a ++ b) = (f n).navigate? b := by
  induction a generalizing r with
  | nil =>
    obtain rfl := Option.some.inj h
    rfl
  | cons e a ih =>
    obtain ⟨c, hc, h⟩ := Option.bind_eq_some_iff.mp h
    simp only [modifyAt, hc, List.cons_append, navigate?]
    rw [child?_putChild, if_pos rfl]
    exact ih h

theorem navigate?_modifyAt_off {a b : Address} (r : Resource) (f : Resource → Resource)
    (hab : ¬ a <+: b) (hba : ¬ b <+: a) : (modifyAt a f r).navigate? b = r.navigate? b := by
  induction a generalizing r b with
  | nil => exact absurd List.nil_prefix hab
  | cons e a ih =>
    cases b with
    | nil => exact absurd List.nil_prefix hba
    | cons e' b =>
      cases hc : r.child? e with
      | none => simp only [modifyAt, hc]
      | some c =>
        simp only [modifyAt, hc, navigate?]
        rw [child?_putChild]
        split
        · rename_i he
          obtain rfl := he
          rw [hc]
          exact ih c (fun h => hab (List.cons_prefix_cons.mpr ⟨rfl, h⟩))
            fun h => hba (List.cons_prefix_cons.mpr ⟨rfl, h⟩)
        · rfl

/-- **A subtree stays the same** while no resource in it is changed and its branch is kept. -/
theorem navigate?_modifyAt_apart {r n : Resource} {p a : Address} (h : r.navigate? p = some n)
    {f : Resource → Resource} (hap : ¬ a <+: p)
    (hchild : ∀ e d, a = p ++ e :: d → (f n).child? e = n.child? e) :
    (modifyAt p f r).navigate? a = r.navigate? a := by
  by_cases hpa : p <+: a
  · obtain ⟨d, rfl⟩ := hpa
    rw [navigate?_modifyAt h, navigate?_append, h]
    cases d with
    | nil => simp at hap
    | cons e d =>
      rw [navigate?, hchild e d rfl]
      rfl
  · exact navigate?_modifyAt_off r f hpa hap

end Resource

namespace Write

/-- The write runs into a difference between base and current root: the resource that it updated is
gone or holds another value for an attribute that was changed, the name that it took is taken or has
no parent any more, or the subtree that it removed is another one. -/
def Clashes (base staged current : Resource) : Write → Prop
  | update a => base.view.holds a ∧ ¬ current.view.holds a ∨ ∃ name,
      ¬ Value.SameOption (base.view.attribute? a name) (staged.view.attribute? a name) ∧
      ¬ Value.SameOption (current.view.attribute? a name) (base.view.attribute? a name)
  | create a => staged.view.holds a ∧ ¬ base.view.holds a ∧
      (current.view.holds a ∨ ¬ current.view.holds a.parent)
  | remove a => ∃ was, base.navigate? a = some was ∧
      ∀ now, current.navigate? a = some now → ¬ now.Alike was

/-- The write has to find a NaN again: in the base it stands in the resource that the write updates,
or in the subtree that it removes. -/
def MeetsNaN (base : Resource) : Write → Prop
  | update a => ∃ name, ∃ v ∈ base.view.attribute? a name, ¬ v.NanFree
  | create _ => False
  | remove a => ∃ was, base.navigate? a = some was ∧ ¬ was.NanFree

theorem not_meetsNaN {base : Resource} (h : base.NanFree) (w : Write) : ¬ w.MeetsNaN base := by
  cases w with
  | update a =>
    rintro ⟨name, v, hv, hnan⟩
    obtain ⟨d, hd, hget⟩ := Option.bind_eq_some_iff.mp hv
    exact hnan (h.at? hd _ (Dict.mem_of_get? hget))
  | create a => exact id
  | remove a =>
    rintro ⟨was, hwas, hnan⟩
    exact hnan (h.navigate? hwas)

/-- The write cannot be brought onto the current root. -/
def Fails (base staged current : Resource) (w : Write) : Prop :=
  w.Clashes base staged current ∨ w.MeetsNaN base

/-- A structural write of the log carries `w` along: one at an ancestor or, for an update, one at
its own resource. -/
def Carried (log : List Write) (w : Write) : Prop :=
  ∃ o ∈ log, o.isStructural = true ∧ o.address <+: w.address ∧
    (w.isStructural = true → o.address ≠ w.address)

end Write

namespace Merge

open Write

variable {base staged m m' : Resource} {log : List Write}

theorem mem_uncarried_iff_not_carried (hr : Record base staged log) {w : Write} :
    w ∈ uncarried log ↔ w ∈ log ∧ ¬ Carried log w := by
  rw [mem_uncarried_iff hr]
  refine and_congr_right fun _ => ?_
  split
  · rename_i hw
    constructor
    · rintro h ⟨o, ho, hs, hpre, hne⟩
      exact hne hw (h o ho hs hpre)
    · intro h o ho hs hpre
      by_contra hne
      exact h ⟨o, ho, hs, hpre, fun _ => hne⟩
  · rename_i hw
    constructor
    · rintro h ⟨o, ho, hs, hpre, -⟩
      exact h o ho hs hpre
    · intro h o ho hs hpre
      exact h ⟨o, ho, hs, hpre, fun hs' => absurd hs' hw⟩

theorem notCarried_iff (hr : Record base staged log) {w : Write} (hw : w ∈ log) :
    (!isCarried log w) = true ↔ ¬ w.Carried log := by
  have h := mem_uncarried_iff_not_carried hr (w := w)
  rw [uncarried, List.mem_filter] at h
  simpa [hw] using h

/-- Where a write that is brought over stands in the log. -/
theorem log_of_uncarried (hr : Record base staged log) {before after : List Write} {w : Write}
    (h : uncarried log = before ++ w :: after) : ∃ front back, log = front ++ w :: back ∧
      ¬ w.Carried log ∧ ∀ o, o ∈ before ↔ o ∈ front ∧ ¬ o.Carried log := by
  obtain ⟨front, rest, hlog, rfl, hrest⟩ := List.filter_eq_append_iff.mp h
  obtain ⟨gap, back, rfl, hgap, hw, -⟩ := List.filter_eq_cons_iff.mp hrest
  have hlog : log = (front ++ gap) ++ w :: back := by rw [hlog, List.append_assoc]
  have hin : ∀ o, o ∈ front ++ gap → o ∈ log := fun o ho => by
    rw [hlog]
    exact List.mem_append_left _ ho
  have hwlog : w ∈ log := by
    rw [hlog]
    exact List.mem_append_right _ List.mem_cons_self
  refine ⟨front ++ gap, back, hlog, (notCarried_iff hr hwlog).mp hw, fun o => ?_⟩
  rw [List.mem_filter]
  constructor
  · rintro ⟨ho, hc⟩
    have ho := List.mem_append_left gap ho
    exact ⟨ho, (notCarried_iff hr (hin o ho)).mp hc⟩
  · rintro ⟨ho, hc⟩
    have hc := (notCarried_iff hr (hin o ho)).mpr hc
    exact ⟨(List.mem_append.mp ho).resolve_right fun ho => hgap o ho hc, hc⟩

theorem uncarried_of_log (hr : Record base staged log) {front back : List Write} {w : Write}
    (hlog : log = front ++ w :: back) (hw : ¬ w.Carried log) : ∃ before after,
      uncarried log = before ++ w :: after ∧ ∀ o, o ∈ before ↔ o ∈ front ∧ ¬ o.Carried log := by
  have hin : ∀ o, o ∈ front → o ∈ log := fun o ho => by
    rw [hlog]
    exact List.mem_append_left _ ho
  have hwlog : w ∈ log := by
    rw [hlog]
    exact List.mem_append_right _ List.mem_cons_self
  refine ⟨front.filter (!isCarried log ·), back.filter (!isCarried log ·), ?_, fun o => ?_⟩
  · rw [uncarried]
    nth_rewrite 2 [hlog]
    rw [List.filter_append, List.filter_cons_of_pos (p := (!isCarried log ·))
      ((notCarried_iff hr hwlog).mpr hw)]
  · rw [List.mem_filter]
    exact and_congr_right fun ho => notCarried_iff hr (hin o ho)

/-! ## When one write is refused -/

theorem changeAt_eq_none_iff {a : Address} {f : Resource → Option Resource} :
    changeAt a f m = none ↔ ∀ n, m.navigate? a = some n → f n = none := by
  rw [changeAt, Option.map_eq_none_iff, Option.bind_eq_none_iff]

/-- **Merging attributes fails** when a changed one is found with another value. -/
theorem mergeAttributes_eq_none_iff {before after : Resource} {names : List String}
    (hnames : names.Nodup) {node : Resource} (hn : node.Orderly) (ha : after.Orderly) :
    mergeAttributes before after names node = none ↔ ∃ name ∈ names,
      sameAttribute (before.attribute? name) (after.attribute? name) = false ∧
      sameAttribute (node.attribute? name) (before.attribute? name) = false := by
  induction names generalizing node with
  | nil => simp [mergeAttributes]
  | cons x names ih =>
    obtain ⟨hx, hnames⟩ := List.nodup_cons.mp hnames
    simp only [mergeAttributes, List.exists_mem_cons_iff]
    split
    · rename_i hsame
      rw [ih hnames hn, hsame]
      simp
    · rename_i hdiff
      split
      · rename_i hold
        exact iff_of_true rfl (Or.inl ⟨by simpa using hdiff, by simpa using hold⟩)
      · rename_i hold
        have hstep := putOption_spec hn (fun v hv => ha.attribute? hv) x (o := after.attribute? x)
        refine (ih hnames hstep.1).trans ?_
        have hold : sameAttribute (node.attribute? x) (before.attribute? x) = true := by
          simpa using hold
        simp only [hold, Bool.true_eq_false, and_false, false_or]
        refine exists_congr fun name => and_congr_right fun hmem => and_congr_right fun _ => ?_
        have hne : ¬ x = name := fun h => hx (h ▸ hmem)
        rw [hstep.2.2 name, if_neg hne]

/-- Values that equal themselves are compared as one would expect. -/
theorem sameAttribute_iff_sameOption {o o' : Option Value}
    (h : ∀ v ∈ o, v ∈ o' → (v == v) = true) :
    sameAttribute o o' = true ↔ Value.SameOption o o' := by
  refine ⟨sameOption_of_sameAttribute, fun hsame => ?_⟩
  cases hsame with
  | none => rfl
  | some halike =>
    rcases halike with rfl | hequal
    · exact h _ rfl rfl
    · exact hequal

/-- An attribute that equals another one holds no NaN. -/
theorem nanFree_of_sameAttribute {o o' : Option Value} (ho : ∀ v ∈ o, v.Orderly)
    (ho' : ∀ v ∈ o', v.Orderly) (h : sameAttribute o o' = true) :
    (∀ v ∈ o, v.NanFree) ∧ ∀ v ∈ o', v.NanFree := by
  cases o with
  | none =>
    cases o' with
    | none => exact ⟨nofun, nofun⟩
    | some v => cases h
  | some v =>
    cases o' with
    | none => cases h
    | some w =>
      obtain ⟨hv, hw⟩ := Value.nanFree_of_same (ho v rfl) (ho' w rfl) h
      exact ⟨by rintro _ ⟨⟩; exact hv, by rintro _ ⟨⟩; exact hw⟩

/-- **A changed attribute is found with another value**, or the base has a NaN there, and then
nothing is found to be what it was. -/
theorem found_otherwise_iff {before after now : Option Value} (hb : ∀ v ∈ before, v.Orderly)
    (ha : ∀ v ∈ after, v.Orderly) (hn : ∀ v ∈ now, v.Orderly) :
    (sameAttribute before after = false ∧ sameAttribute now before = false) ↔
      (¬ Value.SameOption before after ∧ ¬ Value.SameOption now before) ∨
        ∃ v ∈ before, ¬ v.NanFree := by
  by_cases hnan : ∃ v ∈ before, ¬ v.NanFree
  · refine iff_of_true ⟨Bool.eq_false_iff.mpr fun h => ?_, Bool.eq_false_iff.mpr fun h => ?_⟩
      (.inr hnan)
    · obtain ⟨v, hv, hnot⟩ := hnan
      exact hnot ((nanFree_of_sameAttribute hb ha h).1 v hv)
    · obtain ⟨v, hv, hnot⟩ := hnan
      exact hnot ((nanFree_of_sameAttribute hn hb h).2 v hv)
  · have hself : ∀ v ∈ before, (v == v) = true := fun v hv =>
      Value.same_self (hb v hv) (not_not.mp fun hnot => hnan ⟨v, hv, hnot⟩)
    rw [or_iff_left hnan, ← sameAttribute_iff_sameOption fun v hv _ => hself v hv,
      ← sameAttribute_iff_sameOption fun v _ hv => hself v hv, Bool.not_eq_true, Bool.not_eq_true]

theorem nodup_attributeNames {before after : Resource} (hb : before.Orderly)
    (ha : after.Orderly) : (attributeNames before after).Nodup := by
  obtain ⟨hb, -, -, -, -⟩ := hb
  obtain ⟨ha, -, -, -, -⟩ := ha
  refine List.nodup_append.mpr ⟨hb, ha.filter _, fun k hk l hl hkl => ?_⟩
  subst hkl
  have hl := (List.mem_filter.mp hl).2
  rw [Dict.has, Bool.not_eq_true', Option.isSome_eq_false_iff, Option.isNone_iff_eq_none,
    Dict.get?_eq_none_iff] at hl
  exact hl hk

section Refused

variable (hm : m.Orderly) (hbase : base.Orderly) (hstaged : staged.Orderly)

include hm hbase hstaged in
theorem applyWrite_update_eq_none_iff {a : Address}
    (hsome : (staged.at? a).isSome = (base.at? a).isSome) :
    applyWrite base staged m (.update a) = none ↔ (Write.update a).Fails base staged m := by
  cases hb : base.navigate? a with
  | none =>
    have hb' := Resource.at?_eq_none_iff.mpr hb
    have hs' : staged.at? a = none := by simpa [hb'] using hsome
    simp [applyWrite, hb, Fails, Clashes, MeetsNaN, Resource.view, hb', hs']
  | some before =>
    have hb' : base.at? a = some before.attributes := by rw [Resource.at?, hb]; rfl
    obtain ⟨after, hs⟩ : ∃ after, staged.navigate? a = some after := by
      rw [hb', Option.isSome_some, Resource.at?, Option.isSome_map] at hsome
      exact Option.isSome_iff_exists.mp hsome
    have hs' : staged.at? a = some after.attributes := by rw [Resource.at?, hs]; rfl
    simp only [applyWrite, hb, hs, changeAt_eq_none_iff, Fails, Clashes, MeetsNaN,
      Resource.view_attribute? hb', Resource.view_attribute? hs']
    cases hn : m.navigate? a with
    | none =>
      have hm' := Resource.at?_eq_none_iff.mpr hn
      simp [Resource.view, hb', hm']
    | some n =>
      have hm' : m.at? a = some n.attributes := by rw [Resource.at?, hn]; rfl
      have hno := hm.navigate? hn
      have hnames := nodup_attributeNames (hbase.navigate? hb) (hstaged.navigate? hs)
      simp only [Option.some.injEq, forall_eq', Resource.view_attribute? hm',
        mergeAttributes_eq_none_iff hnames hno (hstaged.navigate? hs)]
      have hholds : m.view.holds a := by simp [Resource.view, hm']
      simp only [hholds, not_true_eq_false, and_false, false_or]
      rw [← exists_or]
      refine exists_congr fun name => ?_
      rw [← found_otherwise_iff (fun v hv => (hbase.navigate? hb).attribute? hv)
        (fun v hv => (hstaged.navigate? hs).attribute? hv) fun v hv => hno.attribute? hv]
      refine and_iff_right_of_imp fun h => ?_
      by_contra hmem
      obtain ⟨hbefore, hafter⟩ := attribute?_eq_none_of_notMem hmem
      rw [hbefore, hafter] at h
      cases h.1

theorem applyWrite_create_eq_none_iff {a : Address} (hne : a ≠ [])
    (hnew : base.navigate? a = none) :
    applyWrite base staged m (.create a) = none ↔ (Write.create a).Fails base staged m := by
  rw [Fails, MeetsNaN, or_false]
  obtain ⟨e, he⟩ : ∃ e, a.getLast? = some e := ⟨_, List.getLast?_eq_some_getLast hne⟩
  have hae : a = a.parent ++ [e] := (List.dropLast_append_getLast? e he).symm
  have hb' := Resource.at?_eq_none_iff.mpr hnew
  cases hs : staged.navigate? a with
  | none =>
    have hs' := Resource.at?_eq_none_iff.mpr hs
    simp [applyWrite, hs, Clashes, Resource.view, hs']
  | some c =>
    have hs' : staged.at? a = some c.attributes := by rw [Resource.at?, hs]; rfl
    simp only [applyWrite, hs, he, changeAt_eq_none_iff, Clashes, Resource.view, hs', hb',
      Option.isSome_some, Option.isSome_none, Bool.false_eq_true, not_false_eq_true, true_and]
    cases hn : m.navigate? a.parent with
    | none => simp [Resource.at?, hn]
    | some n =>
      have hat : m.at? a = (n.child? e).map (·.attributes) := by
        rw [hae, Resource.at?_append hn, Resource.at?_cons]
        cases n.child? e <;> rfl
      have hparent : (m.at? a.parent).isSome = true := by rw [Resource.at?, hn]; rfl
      rw [hat, hparent]
      cases hc : n.child? e <;> simp [addChild, Resource.hasChild, hc]

include hm hbase in
theorem applyWrite_remove_eq_none_iff {a : Address} (hne : a ≠ []) :
    applyWrite base staged m (.remove a) = none ↔ (Write.remove a).Fails base staged m := by
  obtain ⟨e, he⟩ : ∃ e, a.getLast? = some e := ⟨_, List.getLast?_eq_some_getLast hne⟩
  have hae : a = a.parent ++ [e] := (List.dropLast_append_getLast? e he).symm
  cases hb : base.navigate? a with
  | none => simp [applyWrite, hb, Fails, Clashes, MeetsNaN]
  | some was =>
    have hnav : m.navigate? a = (m.navigate? a.parent).bind (·.child? e) := by
      conv_lhs => rw [hae, Resource.navigate?_append]
      refine congrArg _ (funext fun n => ?_)
      simp [Resource.navigate?]
    have hdrop : applyWrite base staged m (.remove a) = none ↔
        ∀ now, m.navigate? a = some now → (now == was) = false := by
      simp only [applyWrite, hb, he, changeAt_eq_none_iff, hnav]
      cases hn : m.navigate? a.parent with
      | none => simp
      | some n =>
        cases hc : n.child? e <;> simp [dropChild, hc]
    rw [hdrop, Fails, Clashes, MeetsNaN]
    simp only [hb, Option.some.injEq, exists_eq_left']
    have hwas := hbase.navigate? hb
    constructor
    · intro h
      by_cases hnan : was.NanFree
      · refine .inl fun now hnow => ?_
        rintro (rfl | hequal)
        · exact Bool.false_ne_true ((h _ hnow).symm.trans (Resource.same_self hwas hnan))
        · exact Bool.false_ne_true ((h _ hnow).symm.trans hequal)
      · exact .inr hnan
    · rintro (h | hnan) now hnow
      · exact Bool.eq_false_iff.mpr fun hequal => h now hnow (.inr hequal)
      · exact Bool.eq_false_iff.mpr fun hequal =>
          hnan (Resource.nanFree_of_same (hm.navigate? hnow) hwas hequal)

end Refused

/-! ## What the writes before leave alone -/

section Step

variable (hm : m.Orderly) (hstaged : staged.Orderly) {w : Write}
  (hw : w.isStructural = true → w.address ≠ []) (h : applyWrite base staged m w = some m')

include hm hstaged hw h

theorem applyWrite_holds {b : Address} (hb : w.isStructural = true → Off base staged b w) :
    (m'.at? b).isSome = (m.at? b).isSome := by
  cases w with
  | update a =>
    rcases applyWrite_update h with ⟨-, rfl⟩ | ⟨before, after, n, n', -, hs, hn, hmerge, rfl⟩
    · rfl
    · by_cases hba : b = a
      · subst hba
        rw [Resource.at?_modify hn, Resource.at?, hn]
        rfl
      · rw [applyWrite_off hm hstaged hw h hba]
  | create a => rw [applyWrite_off hm hstaged hw h (hb rfl)]
  | remove a => rw [applyWrite_off hm hstaged hw h (hb rfl)]

/-- A write that changes nothing in a subtree and does not carry it leaves the subtree as it is. -/
theorem applyWrite_navigate? {a : Address} (ha : ¬ a <+: w.address)
    (hs : w.isStructural = true → ¬ w.address <+: a) : m'.navigate? a = m.navigate? a := by
  have hchild : ∀ {p e}, w.address = p ++ [e] → w.isStructural = true →
      ¬ a <+: p ∧ ∀ e' d, a = p ++ e' :: d → ¬ e' = e := by
    intro p e he hs'
    rw [he] at ha hs
    refine ⟨fun hap => ha (hap.trans (List.prefix_append _ _)), ?_⟩
    rintro e' d rfl rfl
    exact hs hs' ⟨d, by simp⟩
  cases w with
  | update b =>
    rcases applyWrite_update h with ⟨-, rfl⟩ | ⟨before, after, n, n', -, hs', hn, hmerge, rfl⟩
    · rfl
    · have hchildren := (mergeAttributes_spec (hm.navigate? hn) (hstaged.navigate? hs') hmerge).2.1
      refine Resource.navigate?_modifyAt_apart hn ha fun e d _ => ?_
      rw [Resource.child?, Resource.child?, Resource.group, Resource.group, hchildren]
  | create b =>
    rcases applyWrite_create (hw rfl) h with ⟨-, rfl⟩ | ⟨p, e, n, c, rfl, hn, -, -, rfl⟩
    · rfl
    · obtain ⟨hap, hne⟩ := hchild rfl rfl
      refine Resource.navigate?_modifyAt_apart hn hap fun e' d he => ?_
      rw [Resource.child?_putChild, if_neg (hne e' d he)]
  | remove b =>
    rcases applyWrite_remove (hw rfl) h with ⟨-, rfl⟩ | ⟨p, e, n, was, now, rfl, hn, -, -, -, rfl⟩
    · rfl
    · obtain ⟨hap, hne⟩ := hchild rfl rfl
      refine Resource.navigate?_modifyAt_apart hn hap fun e' d he => ?_
      rw [Resource.child?_removeChild (hm.navigate? hn), if_neg (hne e' d he)]

end Step

theorem applyWrites_append {ws ws' : List Write} {n : Resource}
    (h : applyWrites base staged ws m = .ok n) :
    applyWrites base staged (ws ++ ws') m = applyWrites base staged ws' n := by
  induction ws generalizing m with
  | nil => rw [Except.ok.inj h]; rfl
  | cons w ws ih =>
    obtain ⟨k, hk, h⟩ := applyWrites_cons_eq_ok h
    rw [List.cons_append, applyWrites, hk]
    exact ih h

/-- What no single write changes stays through all of them. -/
theorem applyWrites_same {β : Type} {ws : List Write}
    (hnamed : ∀ w ∈ ws, w.isStructural = true → w.address ≠ []) (hm : m.Orderly)
    (hstaged : staged.Orderly) (h : applyWrites base staged ws m = .ok m') (f : Resource → β)
    (hf : ∀ w ∈ ws, ∀ r r', r.Orderly → applyWrite base staged r w = some r' → f r' = f r) :
    f m' = f m := by
  induction ws generalizing m with
  | nil => rw [Except.ok.inj h]
  | cons w ws ih =>
    obtain ⟨n, hn, h⟩ := applyWrites_cons_eq_ok h
    have hw := hnamed w List.mem_cons_self
    rw [ih (fun w hw => hnamed w (List.mem_cons_of_mem _ hw))
        (applyWrite_orderly hm hstaged hw hn) h fun w hw => hf w (List.mem_cons_of_mem _ hw),
      hf w List.mem_cons_self m n hm hn]

/-! ## When a write is refused that others go before -/

section Reached

variable {current reached : Resource} {before after : List Write} {w : Write}
variable (hr : Record base staged log) (hbase : base.Orderly) (hstaged : staged.Orderly)
  (hcurrent : current.Orderly) (hsplit : uncarried log = before ++ w :: after)
  (hreach : applyWrites base staged before current = .ok reached)

include hsplit in
theorem mem_uncarried_of_split : w ∈ uncarried log := by
  rw [hsplit]
  exact List.mem_append_right _ List.mem_cons_self

include hsplit in
theorem mem_uncarried_of_before {o : Write} (ho : o ∈ before) : o ∈ uncarried log := by
  rw [hsplit]
  exact List.mem_append_left _ ho

include hr hsplit in
theorem ne_of_before {o : Write} (ho : o ∈ before) : o ≠ w := by
  have hnodup := hr.nodup_uncarried
  rw [hsplit, List.nodup_append] at hnodup
  exact hnodup.2.2 o ho w List.mem_cons_self

include hr hsplit in
theorem named_of_before : ∀ o ∈ before, o.isStructural = true → o.address ≠ [] :=
  fun o ho => hr.named_uncarried o (mem_uncarried_of_before hsplit ho)

include hr hstaged hcurrent hsplit hreach in
theorem reached_orderly : reached.Orderly :=
  applyWrites_orderly (named_of_before hr hsplit) hcurrent hstaged hreach

include hr hstaged hcurrent hsplit hreach in
theorem at?_reached {b : Address} (hb : ∀ o ∈ before, Off base staged b o) :
    reached.at? b = current.at? b :=
  applyWrites_off (named_of_before hr hsplit) hcurrent hstaged hreach hb

include hr hstaged hcurrent hsplit hreach in
theorem holds_reached {b : Address}
    (hb : ∀ o ∈ before, o.isStructural = true → Off base staged b o) :
    (reached.at? b).isSome = (current.at? b).isSome :=
  applyWrites_same (named_of_before hr hsplit) hcurrent hstaged hreach (fun r => (r.at? b).isSome)
    fun o ho _ _ hm h => applyWrite_holds hm hstaged (named_of_before hr hsplit o ho) h (hb o ho)

/-- Above an outermost address no structural write stands. -/
theorem off_parent {a : Address} (hne : a ≠ []) (ha : Outermost log a) {o : Write}
    (ho : o ∈ log) (hs : o.isStructural = true) : Off base staged a.parent o := by
  have hapart : ¬ o.address <+: a.parent := by
    intro hpre
    have heq := ha o ho hs (hpre.trans (List.dropLast_prefix a))
    have hlen := hpre.length_le
    rw [heq, Address.parent, List.length_dropLast] at hlen
    have := List.length_pos_of_ne_nil hne
    omega
  cases o with
  | update b => cases hs
  | create b => exact Or.inr hapart
  | remove b => exact Or.inr hapart

include hr hsplit in
/-- What stood at an address is removed before anything is created there. -/
theorem before_of_base {a : Address} (ha : Outermost log a) (hw : w.changes a = true)
    (hold : (base.at? a).isSome = true) :
    w = .remove a ∧ (∀ o ∈ before, o.changes a = false) ∨
      w = .create a ∧ ∃ before' mid, before = before' ++ .remove a :: mid := by
  have hlog : w ∈ log := ((mem_uncarried_iff hr).mp (mem_uncarried_of_split hsplit)).1
  obtain ⟨v, hv⟩ : ∃ v, log.find? (Write.changes a) = some v :=
    Option.isSome_iff_exists.mp (List.find?_isSome.mpr ⟨w, hlog, hw⟩)
  have hremove := hr.first a ha v hv
  rw [if_pos hold] at hremove
  subst hremove
  obtain ⟨before', after', hsplit', hbefore'⟩ := uncarried_split hr ha hv
  have heq : before ++ w :: after = before' ++ .remove a :: after' := hsplit.symm.trans hsplit'
  have hnodup := hr.nodup_uncarried
  rcases Write.changes_iff.mp hw with rfl | rfl
  · refine Or.inr ⟨rfl, ?_⟩
    rcases List.append_eq_append_iff.mp heq with ⟨as, hb, hc⟩ | ⟨bs, hb, hc⟩
    · cases as with
      | nil => simp at hc
      | cons x as =>
        obtain ⟨rfl, -⟩ := List.cons.inj hc
        exact absurd (hbefore' (.create a) (by simp [hb])) (by
          simp [Write.changes, isStructural, address])
    · cases bs with
      | nil => simp at hc
      | cons x bs =>
        obtain ⟨rfl, -⟩ := List.cons.inj hc
        exact ⟨before', bs, hb⟩
  · refine Or.inl ⟨rfl, ?_⟩
    rw [hsplit', List.nodup_append] at hnodup
    have hnodup' := hnodup.2.1
    obtain ⟨rfl, -⟩ := (List.append_cons_inj_of_notMem
      (fun h => hnodup.2.2 _ h _ List.mem_cons_self rfl)
      (List.nodup_cons.mp hnodup').1).mp heq.symm
    exact hbefore'

include hr hstaged hcurrent hsplit hreach

include hbase in
theorem refused_update_iff {a : Address} (hw : w = .update a) :
    applyWrite base staged reached w = none ↔ w.Fails base staged current := by
  subst hw
  have ha : Untouched log a := ((mem_uncarried_iff hr).mp (mem_uncarried_of_split hsplit)).2
  have hat : reached.at? a = current.at? a := at?_reached hr hstaged hcurrent hsplit hreach
    fun o ho => off_of_untouched hr ha (mem_uncarried_of_before hsplit ho)
      (ne_of_before hr hsplit ho)
  rw [applyWrite_update_eq_none_iff (reached_orderly hr hstaged hcurrent hsplit hreach) hbase
    hstaged (hr.still a ha).1]
  simp only [Fails, Clashes, Resource.view, hat]

include hbase in
theorem refused_remove_iff {a : Address} (hw : w = .remove a) :
    applyWrite base staged reached w = none ↔ w.Fails base staged current := by
  subst hw
  have hmem := mem_uncarried_of_split hsplit
  have ha : Outermost log a := ((mem_uncarried_iff hr).mp hmem).2
  have hlog := ((mem_uncarried_iff hr).mp hmem).1
  have hne : a ≠ [] := hr.named_uncarried _ hmem rfl
  rw [applyWrite_remove_eq_none_iff (reached_orderly hr hstaged hcurrent hsplit hreach) hbase hne]
  cases hb : base.navigate? a with
  | none => simp [Fails, Clashes, hb]
  | some was =>
    have hfirst : ∀ o ∈ before, o.changes a = false := by
      have hc : (Write.remove a).changes a = true := Write.changes_iff.mpr (Or.inr rfl)
      rcases before_of_base hr hsplit ha hc (by rw [Resource.at?, hb]; rfl) with ⟨-, h⟩ | ⟨h, -⟩
      · exact h
      · cases h
    have hsame : reached.navigate? a = current.navigate? a := by
      refine applyWrites_same (named_of_before hr hsplit) hcurrent hstaged hreach
        (fun r => r.navigate? a) fun o ho r r' hm h => ?_
      obtain ⟨holog, hout⟩ := (mem_uncarried_iff hr).mp (mem_uncarried_of_before hsplit ho)
      have hapart : o.isStructural = true → o.address ≠ a := fun hs hoa => by
        have := hfirst o ho
        simp [Write.changes, hs, hoa] at this
      refine applyWrite_navigate? hm hstaged (named_of_before hr hsplit o ho) h (fun hpre => ?_)
        fun hs hpre => hapart hs (ha o holog hs hpre)
      -- a write at or behind `a` is carried by the removal
      split at hout
      · rename_i hs
        exact hapart hs (hout _ hlog rfl hpre).symm
      · exact hout _ hlog rfl hpre
    simp only [Fails, Clashes, hsame]

/-- **A name that was given up is free again**, and its parent is still there. -/
theorem reached_of_recreated {a : Address} (hw : w = .create a)
    (hold : (base.at? a).isSome = true) :
    reached.at? a = none ∧ (reached.at? a.parent).isSome = true := by
  subst hw
  have hmem := mem_uncarried_of_split hsplit
  obtain ⟨hlog, ha⟩ : Write.create a ∈ log ∧ Outermost log a := (mem_uncarried_iff hr).mp hmem
  have hc : (Write.create a).changes a = true := Write.changes_iff.mpr (Or.inl rfl)
  have hne : a ≠ [] := hr.named_uncarried _ hmem rfl
  obtain ⟨before', mid, rfl⟩ : ∃ before' mid, before = before' ++ .remove a :: mid := by
    rcases before_of_base hr hsplit ha hc hold with ⟨h, -⟩ | ⟨-, h⟩
    · cases h
    · exact h
  obtain ⟨m₁, hm₁, hrest⟩ := applyWrites_append_eq_ok hreach
  obtain ⟨m₂, hm₂, hmid⟩ := applyWrites_cons_eq_ok hrest
  have hsplit' : uncarried log = before' ++ .remove a :: (mid ++ .create a :: after) := by
    rw [hsplit, List.append_assoc, List.cons_append]
  have ho₁ := reached_orderly hr hstaged hcurrent hsplit' hm₁
  have hnamed := hr.named_uncarried _ (mem_uncarried_of_split hsplit')
  have ho₂ := applyWrite_orderly ho₁ hstaged hnamed hm₂
  -- what the removal leaves
  have hleft : m₂.at? a = none ∧ (m₂.at? a.parent).isSome = true := by
    rcases applyWrite_remove hne hm₂ with ⟨hnone, -⟩ | ⟨p, e, n, was, now, rfl, hn, -, -, -, rfl⟩
    · rw [Resource.at?_eq_none_iff.mpr hnone] at hold
      cases hold
    · refine ⟨Resource.at?_remove e ho₁ hn [], ?_⟩
      have hparent : Address.parent (p ++ [e]) = p := List.dropLast_concat
      rw [hparent, Resource.at?_remove_off e ho₁ hn (fun h => by
        have := h.length_le
        simp only [List.length_append, List.length_singleton] at this
        omega),
        Resource.at?, hn]
      rfl
  -- and nothing else is written there before it is created
  have hin : ∀ o ∈ mid, o ∈ uncarried log := fun o ho =>
    mem_uncarried_of_before hsplit (List.mem_append_right _ (List.mem_cons_of_mem _ ho))
  have hnamed' : ∀ o ∈ mid, o.isStructural = true → o.address ≠ [] :=
    fun o ho => hr.named_uncarried o (hin o ho)
  have hoff : ∀ o ∈ mid, Off base staged a o := by
    intro o ho
    have hoc : o.changes a = false := by
      by_contra h
      rcases Write.changes_iff.mp (by simpa using h) with rfl | rfl
      · exact ne_of_before hr hsplit (List.mem_append_right _ (List.mem_cons_of_mem _ ho)) rfl
      · have hnodup := hr.nodup_uncarried
        rw [hsplit', List.nodup_append] at hnodup
        exact (List.nodup_cons.mp hnodup.2.1).1 (List.mem_append_left _ ho)
    simpa using off_of_not_changes hr ha ⟨_, hlog, hc⟩ (hin o ho) hoc []
  rw [applyWrites_off hnamed' ho₂ hstaged hmid hoff]
  refine ⟨hleft.1, ?_⟩
  rw [applyWrites_same hnamed' ho₂ hstaged hmid (fun r => (r.at? a.parent).isSome)
    fun o ho r r' hm h => applyWrite_holds hm hstaged (hnamed' o ho) h
      fun hs => off_parent hne ha ((mem_uncarried_iff hr).mp (hin o ho)).1 hs]
  exact hleft.2

theorem refused_create_iff {a : Address} (hw : w = .create a) :
    applyWrite base staged reached w = none ↔ w.Fails base staged current := by
  have hmem := mem_uncarried_of_split hsplit
  cases hb : base.navigate? a with
  | none =>
    subst hw
    obtain ⟨hlog, ha⟩ : Write.create a ∈ log ∧ Outermost log a := (mem_uncarried_iff hr).mp hmem
    have hne : a ≠ [] := hr.named_uncarried _ hmem rfl
    have hc : (Write.create a).changes a = true := Write.changes_iff.mpr (Or.inl rfl)
    have hat : reached.at? a = current.at? a := by
      refine at?_reached hr hstaged hcurrent hsplit hreach fun o ho => ?_
      cases hoc : o.changes a with
      | false =>
        simpa using off_of_not_changes hr ha ⟨_, hlog, hc⟩ (mem_uncarried_of_before hsplit ho)
          hoc []
      | true =>
        rcases Write.changes_iff.mp hoc with rfl | rfl
        · exact absurd rfl (ne_of_before hr hsplit ho)
        · exact Or.inl hb
    have hparent : (reached.at? a.parent).isSome = (current.at? a.parent).isSome :=
      holds_reached hr hstaged hcurrent hsplit hreach fun o ho hs =>
        off_parent hne ha ((mem_uncarried_iff hr).mp (mem_uncarried_of_before hsplit ho)).1 hs
    rw [applyWrite_create_eq_none_iff hne hb]
    simp only [Fails, Clashes, Resource.view, hat, hparent]
  | some was =>
    have hold : (base.at? a).isSome = true := by rw [Resource.at?, hb]; rfl
    obtain ⟨hfree, hparent⟩ :=
      reached_of_recreated hr hstaged hcurrent hsplit hreach hw hold
    subst hw
    have hne : a ≠ [] := hr.named_uncarried _ hmem rfl
    obtain ⟨e, he⟩ : ∃ e, a.getLast? = some e := ⟨_, List.getLast?_eq_some_getLast hne⟩
    have hae : a = a.parent ++ [e] := (List.dropLast_append_getLast? e he).symm
    refine iff_of_false (fun h => ?_) fun h => (h.resolve_right id).2.1 hold
    cases hs : staged.navigate? a with
    | none => simp [applyWrite, hs] at h
    | some c =>
      simp only [applyWrite, hs, he, changeAt_eq_none_iff] at h
      obtain ⟨n, hn⟩ : ∃ n, reached.navigate? a.parent = some n := by
        rw [Resource.at?, Option.isSome_map] at hparent
        exact Option.isSome_iff_exists.mp hparent
      have hchild : n.child? e = none := by
        rw [hae, Resource.at?_append hn, Resource.at?_cons] at hfree
        cases hcc : n.child? e with
        | none => rfl
        | some d => simp [hcc] at hfree
      simpa [addChild, Resource.hasChild, hchild] using h n hn

include hbase in
/-- **What was written before a write makes no difference** to whether it is refused. -/
theorem refused_iff_fails :
    applyWrite base staged reached w = none ↔ w.Fails base staged current := by
  cases hw : w with
  | update a => exact hw ▸ refused_update_iff hr hbase hstaged hcurrent hsplit hreach hw
  | create a => exact hw ▸ refused_create_iff hr hstaged hcurrent hsplit hreach hw
  | remove a => exact hw ▸ refused_remove_iff hr hbase hstaged hcurrent hsplit hreach hw

end Reached

end Merge

end ManagementPlane
