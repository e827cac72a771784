import Mathlib.Data.List.Infix
import ManagementPlane.Proofs.Model.Equality
import ManagementPlane.Resource.Basic

/-!
# Proofs/Model/View — a model as what stands at each address

`Resource.at? a` is what stands at `a` and not below it.  Adding, removing and changing a resource
are read off it without following any path: at an address behind the one that was written the new
subtree answers, and everywhere else nothing changed (`at?_add`, `at?_remove`, `at?_modify`, each
with its `…_off` companion).

A `View` forgets the order in which attributes and children stand: which addresses hold a resource,
and which attributes it has.  Equal resources agree at every address (`Resource.agree_of_same`), so
they have the same view (`Resource.view_same_of_beq`).
-/

namespace ManagementPlane

theorem Element.eq_iff {e e' : Element} : e' = e ↔ e.key = e'.key ∧ e.value = e'.value := by
  obtain ⟨k, v⟩ := e
  obtain ⟨k', v'⟩ := e'
  simp [eq_comm]

namespace Resource

/-- Neither attributes, nor child types, nor names repeat, here or below, and the values are
orderly. -/
inductive Orderly : Resource → Prop
  | mk {r : Resource} (attributes : (Dict.keys r.attributes).Nodup)
      (values : ∀ p ∈ r.attributes, p.2.Orderly)
      (types : (Dict.keys r.children).Nodup)
      (names : ∀ g ∈ r.children, (Dict.keys g.2).Nodup)
      (each : ∀ g ∈ r.children, ∀ c ∈ g.2, Orderly c.2) : Orderly r

/-- The attributes of the resource at an address. -/
def at? (r : Resource) (a : Address) : Option (Dict Value) :=
  (r.navigate? a).map (·.attributes)

@[simp] theorem at?_nil (r : Resource) : r.at? [] = some r.attributes := rfl

/-- A resource is found in its parent. -/
theorem at?_cons (r : Resource) (e : Element) (a : Address) :
    r.at? (e :: a) = (r.child? e).bind (·.at? a) := by
  rw [at?, navigate?, Option.map_bind]
  rfl

/-- A way goes on where its first part ends. -/
theorem navigate?_append (r : Resource) (a b : Address) :
    r.navigate? (a ++ b) = (r.navigate? a).bind (·.navigate? b) := by
  induction a generalizing r with
  | nil => rfl
  | cons e a ih =>
    rw [List.cons_append, navigate?, navigate?, Option.bind_assoc]
    exact congrArg _ (funext fun c => ih c)

theorem at?_append {r n : Resource} {a : Address} (h : r.navigate? a = some n) (b : Address) :
    r.at? (a ++ b) = n.at? b := by
  rw [at?, navigate?_append, h]
  rfl

/-! ## One child -/

theorem group_putChild (r : Resource) (e : Element) (c : Resource) (type : String) :
    (r.putChild e c).group type
      = if e.key = type then Dict.put (r.group e.key) e.value c else r.group type := by
  rw [group, putChild, Dict.get?_put]
  split <;> rfl

/-- To put a child replaces the one of its name, if there is one. -/
theorem child?_putChild (r : Resource) (e : Element) (c : Resource) (e' : Element) :
    (r.putChild e c).child? e' = if e' = e then some c else r.child? e' := by
  rw [child?, group_putChild]
  by_cases hk : e.key = e'.key
  · rw [if_pos hk, Dict.get?_put]
    by_cases hv : e.value = e'.value
    · rw [if_pos hv, if_pos (Element.eq_iff.mpr ⟨hk, hv⟩)]
    · rw [if_neg hv, if_neg (fun he => hv (Element.eq_iff.mp he).2), child?, hk]
  · rw [if_neg hk, if_neg (fun he => hk (Element.eq_iff.mp he).1), child?]

theorem at?_putChild_cons (r : Resource) (e : Element) (c : Resource) (e' : Element)
    (a : Address) :
    (r.putChild e c).at? (e' :: a) = if e' = e then c.at? a else r.at? (e' :: a) := by
  rw [at?_cons, child?_putChild]
  split
  · rfl
  · rw [at?_cons]

/-- After a child was put every child is that one, or was there before. -/
theorem mem_of_mem_putChild {r c : Resource} {e : Element} {g : String × List (String × Resource)}
    {x : String × Resource} (hg : g ∈ (r.putChild e c).children) (hx : x ∈ g.2) :
    g.1 = e.key ∧ x = (e.value, c) ∨ ∃ h, (g.1, h) ∈ r.children ∧ x ∈ h := by
  rcases Dict.mem_of_mem_put hg with rfl | hg
  · rcases Dict.mem_of_mem_put hx with rfl | hx
    · exact .inl ⟨rfl, rfl⟩
    · exact .inr (Dict.exists_of_mem_group hx)
  · exact .inr ⟨g.2, hg, hx⟩

/-- **After a removal every group is one of before**, or what is left of the one that the child was
in: no empty group is left. -/
theorem mem_children_removeChild {r : Resource} {e : Element}
    {g : String × List (String × Resource)} (hg : g ∈ (r.removeChild e).children) :
    g ∈ r.children ∨
      ∃ h, (e.key, h) ∈ r.children ∧ g = (e.key, Dict.erase h e.value) ∧ g.2 ≠ [] := by
  rw [removeChild] at hg
  split at hg
  · exact .inl hg
  · next h hget =>
    dsimp only at hg
    split at hg
    · exact .inl (Dict.mem_of_mem_erase hg)
    · next hrest =>
      rcases Dict.mem_of_mem_put hg with rfl | hg
      · exact .inr ⟨h, Dict.mem_of_get? hget, rfl, fun hnil => hrest (List.isEmpty_iff.mpr hnil)⟩
      · exact .inl hg

/-- After a removal every child was there before. -/
theorem mem_of_mem_removeChild {r : Resource} {e : Element}
    {g : String × List (String × Resource)} {x : String × Resource}
    (hg : g ∈ (r.removeChild e).children) (hx : x ∈ g.2) :
    ∃ h, (g.1, h) ∈ r.children ∧ x ∈ h := by
  rcases mem_children_removeChild hg with hg | ⟨h, hh, rfl, -⟩
  · exact ⟨g.2, hg, hx⟩
  · exact ⟨h, hh, Dict.mem_of_mem_erase hx⟩

theorem nodup_types_removeChild {r : Resource} (h : (Dict.keys r.children).Nodup) (e : Element) :
    (Dict.keys (r.removeChild e).children).Nodup := by
  rw [removeChild]
  split
  · exact h
  · dsimp only
    split
    · exact Dict.nodup_keys_erase h _
    · exact Dict.nodup_keys_put h _ _

theorem Orderly.nodup_group {r : Resource} (hr : r.Orderly) (type : String) :
    (Dict.keys (r.group type)).Nodup := by
  obtain ⟨-, -, -, hnames, -⟩ := hr
  exact Dict.nodup_keys_group hnames type

theorem Orderly.mem_group {r : Resource} (hr : r.Orderly) {type : String}
    {c : String × Resource} (hc : c ∈ r.group type) : c.2.Orderly := by
  obtain ⟨-, -, -, -, heach⟩ := hr
  obtain ⟨g, hg, hc⟩ := Dict.exists_of_mem_group hc
  exact heach _ hg c hc

theorem Orderly.child? {r c : Resource} {e : Element} (hr : r.Orderly)
    (h : r.child? e = some c) : c.Orderly := hr.mem_group (Dict.mem_of_get? h)

/-- What is below an orderly resource is orderly. -/
theorem Orderly.navigate? {r n : Resource} {a : Address} (hr : r.Orderly)
    (h : r.navigate? a = some n) : n.Orderly := by
  induction a generalizing r with
  | nil => exact Option.some.inj h ▸ hr
  | cons e a ih =>
    obtain ⟨c, hc, h⟩ := Option.bind_eq_some_iff.mp h
    exact ih (hr.child? hc) h

/-- An orderly child keeps its parent orderly. -/
theorem Orderly.putChild {r c : Resource} (hr : r.Orderly) (e : Element) (hc : c.Orderly) :
    (r.putChild e c).Orderly := by
  have hgroup := hr.nodup_group e.key
  obtain ⟨hattributes, hvalues, htypes, hnames, heach⟩ := hr
  refine ⟨hattributes, hvalues, Dict.nodup_keys_put htypes _ _, fun g hg => ?_, fun g hg x hx => ?_⟩
  · rcases Dict.mem_of_mem_put hg with rfl | hg
    · exact Dict.nodup_keys_put hgroup _ _
    · exact hnames g hg
  · obtain ⟨-, rfl⟩ | ⟨h, hh, hx⟩ := mem_of_mem_putChild hg hx
    · exact hc
    · exact heach _ hh x hx

/-- The dictionary of children after a removal. -/
theorem get?_children_removeChild {r : Resource} (htypes : (Dict.keys r.children).Nodup)
    (e : Element) (type : String) : (Dict.get? (r.removeChild e).children type).getD []
      = if e.key = type then Dict.erase (r.group e.key) e.value else r.group type := by
  cases h : Dict.get? r.children e.key with
  | none =>
    have hg : r.group e.key = [] := by rw [group, h]; rfl
    simp only [removeChild, h]
    split
    · rename_i hk
      rw [← hk, h, hg]
      rfl
    · rfl
  | some g =>
    have hg : r.group e.key = g := by rw [group, h]; rfl
    simp only [removeChild, h, hg]
    split
    · rename_i hempty
      rw [Dict.get?_erase htypes]
      split
      · exact (List.isEmpty_iff.mp hempty).symm
      · rfl
    · rw [Dict.get?_put]
      split <;> rfl

/-- Only the names beside the removed child have to be distinct. -/
theorem child?_removeChild_of_nodup {r : Resource} (htypes : (Dict.keys r.children).Nodup)
    {e : Element} (hnames : (Dict.keys (r.group e.key)).Nodup) (e' : Element) :
    (r.removeChild e).child? e' = if e' = e then none else r.child? e' := by
  rw [Resource.child?, group, get?_children_removeChild htypes]
  by_cases hk : e.key = e'.key
  · rw [if_pos hk, Dict.get?_erase hnames]
    by_cases hv : e.value = e'.value
    · rw [if_pos hv, if_pos (Element.eq_iff.mpr ⟨hk, hv⟩)]
    · rw [if_neg hv, if_neg (fun he => hv (Element.eq_iff.mp he).2), Resource.child?, hk]
  · rw [if_neg hk, if_neg (fun he => hk (Element.eq_iff.mp he).1), Resource.child?]

/-- To remove a child spares the others. -/
theorem child?_removeChild {r : Resource} (hr : r.Orderly) (e e' : Element) :
    (r.removeChild e).child? e' = if e' = e then none else r.child? e' := by
  have hnames := hr.nodup_group e.key
  obtain ⟨-, -, htypes, -, -⟩ := hr
  exact child?_removeChild_of_nodup htypes hnames e'

@[simp] theorem attributes_removeChild (r : Resource) (e : Element) :
    (r.removeChild e).attributes = r.attributes := by
  rw [removeChild]
  split <;> rfl

theorem at?_removeChild_cons {r : Resource} (hr : r.Orderly) (e e' : Element) (a : Address) :
    (r.removeChild e).at? (e' :: a) = if e' = e then none else r.at? (e' :: a) := by
  rw [at?_cons, child?_removeChild hr]
  split
  · rfl
  · rw [at?_cons]

/-- To remove a child leaves the others distinct. -/
theorem Orderly.removeChild {r : Resource} (hr : r.Orderly) (e : Element) :
    (r.removeChild e).Orderly := by
  obtain ⟨hattributes, hvalues, htypes, hnames, heach⟩ := hr
  rw [← attributes_removeChild r e] at hattributes hvalues
  refine ⟨hattributes, hvalues, nodup_types_removeChild htypes e, fun g hg => ?_,
    fun g hg x hx => ?_⟩
  · rcases mem_children_removeChild hg with hg | ⟨h, hh, rfl, -⟩
    · exact hnames g hg
    · exact Dict.nodup_keys_erase (hnames _ hh) _
  · obtain ⟨h, hh, hx⟩ := mem_of_mem_removeChild hg hx
    exact heach _ hh x hx

/-! ## Attributes -/

theorem Orderly.attribute? {r : Resource} (hr : r.Orderly) {name : String} {v : Value}
    (h : r.attribute? name = some v) : v.Orderly := by
  obtain ⟨-, hvalues, -, -, -⟩ := hr
  exact hvalues _ (Dict.mem_of_get? h)

/-- To set an attribute spares the others. -/
theorem attribute?_setAttribute (r : Resource) (name other : String) (v : Value) :
    (r.setAttribute name v).attribute? other
      = if name = other then some v else r.attribute? other := Dict.get?_put _ _ _ _

/-- To remove an attribute spares the others. -/
theorem attribute?_removeAttribute {r : Resource} (hr : r.Orderly) (name other : String) :
    (r.removeAttribute name).attribute? other
      = if name = other then none else r.attribute? other := by
  obtain ⟨hattributes, -, -, -, -⟩ := hr
  exact Dict.get?_erase hattributes _ _

/-- An orderly value keeps its resource orderly. -/
theorem Orderly.setAttribute {r : Resource} (hr : r.Orderly) (name : String) {v : Value}
    (hv : v.Orderly) : (r.setAttribute name v).Orderly := by
  obtain ⟨hattributes, hvalues, htypes, hnames, heach⟩ := hr
  refine ⟨Dict.nodup_keys_put hattributes _ _, fun p hp => ?_, htypes, hnames, heach⟩
  rcases Dict.mem_of_mem_put hp with rfl | hp
  · exact hv
  · exact hvalues p hp

theorem Orderly.removeAttribute {r : Resource} (hr : r.Orderly) (name : String) :
    (r.removeAttribute name).Orderly := by
  obtain ⟨hattributes, hvalues, htypes, hnames, heach⟩ := hr
  exact ⟨Dict.nodup_keys_erase hattributes _, fun p hp => hvalues p (Dict.mem_of_mem_erase hp),
    htypes, hnames, heach⟩

/-! ## Along an address

A change at `a` is seen at the addresses behind `a` and nowhere else. -/

/-- A change of the resource at an address is seen there and below. -/
theorem at?_modifyAt {r n : Resource} {a : Address} (h : r.navigate? a = some n)
    (f : Resource → Resource) (b : Address) :
    (modifyAt a f r).at? (a ++ b) = (f n).at? b := by
  induction a generalizing r with
  | nil =>
    obtain rfl := Option.some.inj h
    rfl
  | cons e a ih =>
    obtain ⟨c, hc, h⟩ := Option.bind_eq_some_iff.mp h
    simp only [modifyAt, hc, List.cons_append]
    rw [at?_putChild_cons, if_pos rfl, ih h]

/-- A change of the resource at an address is seen nowhere else. -/
theorem at?_modifyAt_off {a b : Address} (r : Resource) (f : Resource → Resource)
    (hab : ¬ a <+: b) : (modifyAt a f r).at? b = r.at? b := by
  induction a generalizing r b with
  | nil => exact absurd List.nil_prefix hab
  | cons e a ih =>
    cases hc : r.child? e with
    | none => simp only [modifyAt, hc]
    | some c =>
      simp only [modifyAt, hc]
      cases b with
      | nil => rfl
      | cons e' b =>
        rw [at?_putChild_cons]
        split
        · rename_i he
          obtain rfl := he
          have hab' : ¬ a <+: b := fun h => hab (List.cons_prefix_cons.mpr ⟨rfl, h⟩)
          rw [ih c hab', at?_cons, hc]
          rfl
        · rfl

theorem Orderly.modifyAt {r : Resource} (hr : r.Orderly) {f : Resource → Resource}
    (hf : ∀ n : Resource, n.Orderly → (f n).Orderly) (a : Address) :
    (Resource.modifyAt a f r).Orderly := by
  induction a generalizing r with
  | nil => exact hf r hr
  | cons e a ih =>
    cases hc : r.child? e with
    | none => simpa only [Resource.modifyAt, hc] using hr
    | some c =>
      simp only [Resource.modifyAt, hc]
      exact hr.putChild e (ih (hr.child? hc))

section Child

variable {r n : Resource} {a : Address} (e : Element)

/-- **Behind a new resource stands what it brings along.** -/
theorem at?_add (h : r.navigate? a = some n) (c : Resource) (b : Address) :
    (modifyAt a (·.putChild e c) r).at? (a ++ e :: b) = c.at? b := by
  rw [at?_modifyAt h, at?_putChild_cons, if_pos rfl]

/-- A new child is seen at its own address and below, and nowhere else. -/
theorem at?_add_off (h : r.navigate? a = some n) (c : Resource) {b : Address}
    (hb : ¬ (a ++ [e]) <+: b) : (modifyAt a (·.putChild e c) r).at? b = r.at? b := by
  by_cases hab : a <+: b
  · obtain ⟨b, rfl⟩ := hab
    rw [at?_modifyAt h, at?_append h]
    cases b with
    | nil => rfl
    | cons e' b =>
      have he : ¬ e' = e := fun he => hb ⟨b, by simp [he]⟩
      rw [at?_putChild_cons, if_neg he]
  · exact at?_modifyAt_off r _ hab

/-- **Behind a removed resource stands nothing.** -/
theorem at?_remove (hr : r.Orderly) (h : r.navigate? a = some n) (b : Address) :
    (modifyAt a (·.removeChild e) r).at? (a ++ e :: b) = none := by
  rw [at?_modifyAt h, at?_removeChild_cons (hr.navigate? h), if_pos rfl]

/-- A removed child is missing at its own address and below, and nowhere else. -/
theorem at?_remove_off (hr : r.Orderly) (h : r.navigate? a = some n) {b : Address}
    (hb : ¬ (a ++ [e]) <+: b) : (modifyAt a (·.removeChild e) r).at? b = r.at? b := by
  by_cases hab : a <+: b
  · obtain ⟨b, rfl⟩ := hab
    rw [at?_modifyAt h, at?_append h]
    cases b with
    | nil => rw [at?_nil, at?_nil, attributes_removeChild]
    | cons e' b =>
      have he : ¬ e' = e := fun he => hb ⟨b, by simp [he]⟩
      rw [at?_removeChild_cons (hr.navigate? h), if_neg he]
  · exact at?_modifyAt_off r _ hab

end Child

/-- A change of attributes is seen at its own address. -/
theorem at?_modify {r n : Resource} {a : Address} (h : r.navigate? a = some n)
    (f : Resource → Resource) : (modifyAt a f r).at? a = some (f n).attributes := by
  simpa using at?_modifyAt h f []

/-- A change that leaves the children alone is seen at one address. -/
theorem at?_modify_off {r n : Resource} {a : Address} (h : r.navigate? a = some n)
    {f : Resource → Resource} (hf : (f n).children = n.children) {b : Address} (hb : b ≠ a) :
    (modifyAt a f r).at? b = r.at? b := by
  by_cases hab : a <+: b
  · obtain ⟨b, rfl⟩ := hab
    rw [at?_modifyAt h, at?_append h]
    cases b with
    | nil => simp at hb
    | cons e b => rw [at?_cons, at?_cons, child?, child?, group, group, hf]
  · exact at?_modifyAt_off r f hab

end Resource

/-! ## Views -/

/-- What can be read off a model when order does not matter. -/
structure View where
  /-- Whether a resource stands at an address. -/
  holds : Address → Prop
  attribute? : Address → String → Option Value

namespace View

/-- The same resources with the same attributes. -/
structure Same (v w : View) : Prop where
  holds : ∀ a, v.holds a ↔ w.holds a
  attribute? : ∀ a name, Value.SameOption (v.attribute? a name) (w.attribute? a name)

/-- Every attribute is an orderly value. -/
def Orderly (v : View) : Prop := ∀ a name, ∀ x ∈ v.attribute? a name, x.Orderly

@[simp] theorem Same.refl (v : View) : v.Same v := ⟨fun _ => Iff.rfl, fun _ _ => .refl _⟩

/-- Views are the same from either side. -/
theorem Same.symm {v w : View} (hv : v.Orderly) (hw : w.Orderly) (h : v.Same w) : w.Same v :=
  ⟨fun a => (h.holds a).symm, fun a name => (h.attribute? a name).symm (hv a name) (hw a name)⟩

/-- What looks the same as one view looks the same as each other. -/
theorem Same.trans {u v w : View} (hu : u.Orderly) (h : u.Same v) (h' : v.Same w) : u.Same w :=
  ⟨fun a => (h.holds a).trans (h'.holds a),
    fun a name => (h.attribute? a name).trans (hu a name) (h'.attribute? a name)⟩

end View

namespace Resource

/-- What is found at every address. -/
def view (r : Resource) : View where
  holds a := (r.at? a).isSome
  attribute? a name := (r.at? a).bind (Dict.get? · name)

theorem view_attribute? {r n : Resource} {a : Address} (h : r.at? a = some n.attributes)
    (name : String) : r.view.attribute? a name = n.attribute? name := by
  simp only [view, h, Option.bind_some]
  rfl

/-- The attributes of an orderly resource are orderly. -/
theorem view_orderly {r : Resource} (hr : r.Orderly) : r.view.Orderly := by
  intro a name v hv
  obtain ⟨d, hd, hv⟩ := Option.bind_eq_some_iff.mp hv
  obtain ⟨n, hn, rfl⟩ := Option.map_eq_some_iff.mp hd
  exact (hr.navigate? hn).attribute? hv

/-! ## Equal resources look the same -/

/-- Children are looked up in the other group by their names. -/
theorem childrenIn_iff {g h : List (String × Resource)} :
    childrenIn g h = true ↔ ∀ c ∈ g, ∃ d, Dict.get? h c.1 = some d ∧ same c.2 d = true := by
  induction g with
  | nil => simp [childrenIn]
  | cons c g ih =>
    obtain ⟨name, c⟩ := c
    rw [childrenIn, Bool.and_eq_true, ih, List.forall_mem_cons]
    refine and_congr_left fun _ => ?_
    cases Dict.get? h name <;> simp

/-- Groups are looked up in the other resource by their types. -/
theorem groupsIn_iff {gs hs : List (String × List (String × Resource))} :
    groupsIn gs hs = true ↔ ∀ g ∈ gs, ∃ h, Dict.get? hs g.1 = some h ∧
      g.2.length = h.length ∧ childrenIn g.2 h = true := by
  induction gs with
  | nil => simp [groupsIn]
  | cons g gs ih =>
    obtain ⟨type, g⟩ := g
    rw [groupsIn, Bool.and_eq_true, ih, List.forall_mem_cons]
    refine and_congr_left fun _ => ?_
    cases Dict.get? hs type <;> simp

/-- **Resources are compared as maps**, of their attributes and of their groups. -/
theorem same_iff {r s : Resource} : same r s = true ↔
    (r.attributes.length = s.attributes.length
      ∧ Value.fieldsIn r.attributes s.attributes = true)
    ∧ r.children.length = s.children.length ∧ groupsIn r.children s.children = true := by
  obtain ⟨attributes, children⟩ := r
  simp [same]

theorem agree_attributes {r s : Resource} (hr : r.Orderly) (h : same r s = true) :
    Dict.Agree (fun v w => (v == w) = true) r.attributes s.attributes := by
  obtain ⟨hattributes, -, -, -, -⟩ := hr
  obtain ⟨⟨hlen, hfields⟩, -⟩ := same_iff.mp h
  exact .of_found hattributes hlen (Value.fieldsIn_iff.mp hfields)

/-- Equal resources have equal children. -/
theorem same_child? {r s : Resource} (hr : r.Orderly) (h : same r s = true) (e : Element) :
    Option.Rel (fun c d => same c d = true) (r.child? e) (s.child? e) := by
  have hnames := hr.nodup_group e.key
  obtain ⟨-, -, htypes, -, -⟩ := hr
  obtain ⟨-, hlen, hgroups⟩ := same_iff.mp h
  have hgroup := Dict.Agree.of_found (R := fun g h => g.length = h.length ∧ childrenIn g h = true)
    htypes hlen (groupsIn_iff.mp hgroups) e.key
  rw [child?, child?]
  rw [group] at hnames ⊢
  rw [group]
  generalize Dict.get? r.children e.key = g, Dict.get? s.children e.key = g' at hgroup hnames ⊢
  cases hgroup with
  | none => exact .none
  | some hchildren =>
    exact Dict.Agree.of_found (R := fun c d : Resource => same c d = true) hnames hchildren.1
      (childrenIn_iff.mp hchildren.2) e.value

/-- At every address both hold nothing, or resources whose attributes are related. -/
def Agree (R : Value → Value → Prop) (r s : Resource) : Prop :=
  ∀ a, Option.Rel (Dict.Agree R) (r.at? a) (s.at? a)

/-- **Equal resources hold the same**, wherever one looks. -/
theorem agree_of_same {r s : Resource} (hr : r.Orderly) (h : same r s = true) :
    r.Agree (fun v w => (v == w) = true) s := by
  intro a
  induction a generalizing r s with
  | nil => exact .some (agree_attributes hr h)
  | cons e a ih =>
    have hchild := same_child? hr h e
    rw [at?_cons, at?_cons]
    generalize hc : r.child? e = o, s.child? e = o' at hchild ⊢
    cases hchild with
    | none => exact .none
    | some hcd => exact ih (hr.child? hc) hcd

/-- Resources that agree in everything look the same. -/
theorem Agree.view {r s : Resource} (h : r.Agree Value.Alike s) : r.view.Same s.view := by
  refine ⟨fun a => ?_, fun a name => ?_⟩ <;> simp only [Resource.view] <;> have ha := h a <;>
    generalize r.at? a = d, s.at? a = d' at ha ⊢
  · cases ha <;> simp
  · cases ha with
    | none => exact .none
    | some hd => exact hd name

/-- **Equal resources have the same view.** -/
theorem view_same_of_beq {r s : Resource} (hr : r.Orderly) (h : (r == s) = true) :
    r.view.Same s.view :=
  Agree.view fun a => Dict.rel_mono (fun _ _ => Dict.Agree.mono fun _ _ => .inr)
    (agree_of_same hr h a)

end Resource

end ManagementPlane
