import ManagementPlane.Proofs.Model.View

/-!
# Proofs/Model/Density — every child type has a child

The groups of children stand in a map of their own, so a group could be empty: equality would tell
it from a missing one, though there is no address at which they differ.  No operation leaves one
(`Resource.Dense`): a group comes with its first child (`Dense.putChild`), also when it is opened
before the name is looked up (`Dense.insertChild`), and it goes with its last one
(`Dense.removeChild`).  So the types that are listed are those with a child
(`Dense.mem_childTypes_iff`).
-/

namespace ManagementPlane

namespace Dict

variable {α : Type}

/-- To put what is there already changes nothing. -/
theorem put_of_get? {d : Dict α} {k : String} {v : α} (h : get? d k = some v) : put d k v = d := by
  induction d with
  | nil => cases h
  | cons p d ih =>
    obtain ⟨l, w⟩ := p
    rw [get?] at h
    rw [put]
    split
    · rename_i hl
      rw [if_pos hl] at h
      rw [Option.some.inj h]
    · rename_i hl
      rw [if_neg hl] at h
      rw [ih h]

/-- The last value that is put stands. -/
theorem put_put (d : Dict α) (k : String) (v w : α) : put (put d k v) k w = put d k w := by
  induction d with
  | nil => simp [put]
  | cons p d ih =>
    obtain ⟨l, u⟩ := p
    by_cases hl : l = k
    · simp [put, hl]
    · simp [put, hl, ih]

theorem put_ne_nil (d : Dict α) (k : String) (v : α) : put d k v ≠ [] := by
  cases d with
  | nil => exact List.cons_ne_nil _ _
  | cons p d =>
    rw [put]
    split <;> exact List.cons_ne_nil _ _

end Dict

namespace Resource

/-- No child type is without a child, here or below. -/
inductive Dense : Resource → Prop
  | mk {r : Resource} (filled : ∀ g ∈ r.children, g.2 ≠ [])
      (each : ∀ g ∈ r.children, ∀ c ∈ g.2, Dense c.2) : Dense r

variable {r c n : Resource} {e : Element} {a : Address}

theorem Dense.mem_group (hr : r.Dense) {type : String} {c : String × Resource}
    (hc : c ∈ r.group type) : c.2.Dense := by
  obtain ⟨-, heach⟩ := hr
  obtain ⟨g, hg, hc⟩ := Dict.exists_of_mem_group hc
  exact heach _ hg c hc

theorem Dense.child? (hr : r.Dense) (h : r.child? e = some c) : c.Dense :=
  hr.mem_group (Dict.mem_of_get? h)

/-- What is below a dense resource is dense. -/
theorem Dense.navigate? (hr : r.Dense) (h : r.navigate? a = some n) : n.Dense := by
  induction a generalizing r with
  | nil => exact Option.some.inj h ▸ hr
  | cons e a ih =>
    obtain ⟨c, hc, h⟩ := Option.bind_eq_some_iff.mp h
    exact ih (hr.child? hc) h

/-- Whether a resource is dense is a matter of its children. -/
theorem Dense.of_children (hr : r.Dense) (h : n.children = r.children) : n.Dense := by
  obtain ⟨hfilled, heach⟩ := hr
  exact ⟨h ▸ hfilled, h ▸ heach⟩

/-- A dense child keeps its parent dense. -/
theorem Dense.putChild (hr : r.Dense) (e : Element) (hc : c.Dense) : (r.putChild e c).Dense := by
  obtain ⟨hfilled, heach⟩ := hr
  refine ⟨fun g hg => ?_, fun g hg x hx => ?_⟩
  · rcases Dict.mem_of_mem_put hg with rfl | hg
    · exact Dict.put_ne_nil _ _ _
    · exact hfilled g hg
  · obtain ⟨-, rfl⟩ | ⟨h, hh, hx⟩ := mem_of_mem_putChild hg hx
    · exact hc
    · exact heach _ hh x hx

/-- **The last child of a type takes its group along.** -/
theorem Dense.removeChild (hr : r.Dense) (e : Element) : (r.removeChild e).Dense := by
  obtain ⟨hfilled, heach⟩ := hr
  refine ⟨fun g hg => ?_, fun g hg x hx => ?_⟩
  · rcases mem_children_removeChild hg with hg | ⟨h, -, rfl, hleft⟩
    · exact hfilled g hg
    · exact hleft
  · obtain ⟨h, hh, hx⟩ := mem_of_mem_removeChild hg hx
    exact heach _ hh x hx

/-- A change that keeps one resource dense keeps the tree dense. -/
theorem Dense.modifyAt (hr : r.Dense) {f : Resource → Resource}
    (hf : ∀ n, r.navigate? a = some n → (f n).Dense) : (Resource.modifyAt a f r).Dense := by
  induction a generalizing r with
  | nil => exact hf r rfl
  | cons e a ih =>
    cases hc : r.child? e with
    | none => simpa only [Resource.modifyAt, hc] using hr
    | some c =>
      simp only [Resource.modifyAt, hc]
      refine hr.putChild e (ih (hr.child? hc) fun n hn => hf n ?_)
      rw [Resource.navigate?, hc]
      exact hn

theorem eta (r : Resource) : (⟨r.attributes, r.children⟩ : Resource) = r := by
  cases r
  rfl

/-- A change that leaves the node it is made at leaves everything. -/
theorem modifyAt_of_eq {f : Resource → Resource} (h : r.navigate? a = some n) (hf : f n = n) :
    Resource.modifyAt a f r = r := by
  induction a generalizing r with
  | nil =>
    obtain rfl := Option.some.inj h
    exact hf
  | cons e a ih =>
    obtain ⟨c, hc, h⟩ := Option.bind_eq_some_iff.mp h
    simp only [Resource.modifyAt, hc]
    rw [ih h, Resource.putChild, Dict.put_of_get? hc]
    cases hg : Dict.get? r.children e.key with
    | none =>
      rw [Resource.child?, group, hg] at hc
      cases hc
    | some g =>
      rw [group, hg, Option.getD_some, Dict.put_of_get? hg]
      exact eta _

/-! ## The types with a child -/

/-- A group that is not empty has a child. -/
theorem exists_hasChild_of_group_ne_nil {type : String} (h : r.group type ≠ []) :
    ∃ name, r.hasChild ⟨type, name⟩ = true := by
  obtain ⟨⟨name, c⟩, hc⟩ := List.exists_mem_of_ne_nil _ h
  refine ⟨name, ?_⟩
  rw [hasChild, Resource.child?, Option.isSome_iff_ne_none, Ne, Dict.get?_eq_none_iff, not_not]
  exact Dict.mem_keys_of_mem hc

/-- **A dense resource has no group to spare**: a type that has none has no child, and the other
way round. -/
theorem Dense.get?_children_eq_none_iff (hr : r.Dense) {type : String} :
    Dict.get? r.children type = none ↔ ∀ name, r.child? ⟨type, name⟩ = none := by
  constructor
  · intro h name
    rw [Resource.child?, group, h]
    rfl
  · intro h
    cases hg : Dict.get? r.children type with
    | none => rfl
    | some g =>
      obtain ⟨hfilled, -⟩ := hr
      have hgroup : r.group type = g := by rw [group, hg]; rfl
      have hne : r.group type ≠ [] := hgroup ▸ hfilled _ (Dict.mem_of_get? hg)
      obtain ⟨name, hname⟩ := exists_hasChild_of_group_ne_nil hne
      rw [hasChild, h name] at hname
      cases hname

/-- No group is passed over when the types are listed. -/
theorem Dense.childTypes (hr : r.Dense) : r.childTypes = Dict.keys r.children := by
  obtain ⟨hfilled, -⟩ := hr
  rw [Resource.childTypes, List.filter_eq_self.mpr fun g hg => ?_, Dict.keys]
  simpa using hfilled g hg

/-- **The listed types are those with a child.** -/
theorem Dense.mem_childTypes_iff (hr : r.Dense) {type : String} :
    type ∈ r.childTypes ↔ ∃ name, r.hasChild ⟨type, name⟩ = true := by
  rw [hr.childTypes, ← not_iff_not, ← Dict.get?_eq_none_iff, hr.get?_children_eq_none_iff]
  simp [hasChild]

/-! ## In place

The program adds and removes children in place. -/

/-- Opens the group of a type, which stays as it is when there is one. -/
def openGroup (r : Resource) (type : String) : Resource :=
  { r with children := Dict.put r.children type (r.group type) }

/-- Adds a child in the group of its type, which is opened before the name is looked up, and says
whether the name was free. -/
def insertChild (r : Resource) (e : Element) (c : Resource) : Bool × Resource :=
  let opened := r.openGroup e.key
  if opened.hasChild e then (false, opened) else (true, opened.putChild e c)

/-- To open a group adds no child. -/
theorem group_openGroup (r : Resource) (type : String) :
    (r.openGroup type).group type = r.group type := by
  rw [group, openGroup, Dict.get?_put_self]
  rfl

theorem hasChild_openGroup (r : Resource) (e : Element) :
    (r.openGroup e.key).hasChild e = r.hasChild e := by
  rw [hasChild, Resource.child?, group_openGroup]
  rfl

/-- A name that is taken has a group around it already. -/
theorem openGroup_of_hasChild (h : r.hasChild e = true) : r.openGroup e.key = r := by
  cases hg : Dict.get? r.children e.key with
  | none =>
    rw [hasChild, Resource.child?, group, hg] at h
    cases h
  | some g =>
    rw [openGroup, group, hg, Option.getD_some, Dict.put_of_get? hg]
    exact eta _

/-- A child whose name is taken is not inserted. -/
theorem insertChild_of_hasChild (h : r.hasChild e = true) (c : Resource) :
    r.insertChild e c = (false, r) := by
  rw [insertChild, hasChild_openGroup, if_pos h, openGroup_of_hasChild h]

/-- A child whose name is free is put. -/
theorem insertChild_of_free (h : ¬ r.hasChild e = true) (c : Resource) :
    r.insertChild e c = (true, r.putChild e c) := by
  rw [insertChild, hasChild_openGroup, if_neg h, Resource.putChild, group_openGroup, openGroup,
    Dict.put_put]
  rfl

theorem snd_insertChild (r : Resource) (e : Element) (c : Resource) :
    (r.insertChild e c).2 = if r.hasChild e = true then r else r.putChild e c := by
  split
  · next htaken => rw [insertChild_of_hasChild htaken]
  · next hfree => rw [insertChild_of_free hfree]

theorem Orderly.insertChild (hr : r.Orderly) (e : Element) (hc : c.Orderly) :
    (r.insertChild e c).2.Orderly := by
  rw [snd_insertChild]
  split
  · exact hr
  · exact hr.putChild e hc

theorem Dense.insertChild (hr : r.Dense) (e : Element) (hc : c.Dense) :
    (r.insertChild e c).2.Dense := by
  rw [snd_insertChild]
  split
  · exact hr
  · exact hr.putChild e hc

/-- Only a group without children could be lost with a child that is not there. -/
theorem Dense.removeChild_of_free (hr : r.Dense) (h : r.child? e = none) : r.removeChild e = r := by
  rw [Resource.removeChild]
  split
  · rfl
  · rename_i g hg
    obtain ⟨hfilled, -⟩ := hr
    rw [Resource.child?, group, hg, Option.getD_some] at h
    have hne : ¬ g.isEmpty = true :=
      fun hg' => hfilled _ (Dict.mem_of_get? hg) (List.isEmpty_iff.mp hg')
    dsimp only
    rw [Dict.erase_of_notMem (Dict.get?_eq_none_iff.mp h), if_neg hne, Dict.put_of_get? hg]
    exact eta _

end Resource

end ManagementPlane
