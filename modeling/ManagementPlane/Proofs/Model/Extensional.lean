import ManagementPlane.Proofs.Model.Density
import ManagementPlane.Proofs.Model.Staged

/-!
# Proofs/Model/Extensional — equal resources are those that hold the same

Equality of resources compares two levels of maps at every node: groups by type, children by name.
What an address shows of it is whether a resource stands there and which attributes that has
(`Resource.Agree`).  `Built.extensional` says that for resources that were built, by whatever
changes and in whatever order, the one is the other.

That equal resources agree needs no more than distinct keys (`agree_of_same`).  The converse needs
in addition that no group is empty, since no address leads to a group: with that, groups agree when
children do (`agree_children`), and children are equal by induction on the resource
(`same_of_agree`).
-/

namespace ManagementPlane

namespace Resource

variable {r s c n : Resource} {a : Address} {e : Element} {d : Dict Value}

/-! ## Resources that were built -/

/-- **What the program can build**: a new resource, with or without attributes, after any changes
of attributes and children.  A change is made at an address: the empty one is that of the resource
itself.  Values are orderly, as all are that can be read or made. -/
inductive Built : Resource → Prop
  | new : Built empty
  | ofAttributes {pairs : List (String × Value)} (orderly : ∀ p ∈ pairs, p.2.Orderly) :
    Built (ofAttributes (Dict.ofList pairs))
  /-- Sets and removes attributes. -/
  | attributes {r : Resource} (a : Address) {changes : List AttributeChange} (built : Built r)
    (proper : ∀ change ∈ changes, change.Proper) :
    Built (modifyAt a (changes.foldl AttributeChange.apply ·) r)
  /-- Adds a child, or replaces the one of its name. -/
  | put {r c : Resource} (a : Address) (e : Element) (built : Built r) (child : Built c) :
    Built (modifyAt a (·.putChild e c) r)
  /-- Adds a child unless its name is taken. -/
  | insert {r c : Resource} (a : Address) (e : Element) (built : Built r) (child : Built c) :
    Built (modifyAt a (fun n => (n.insertChild e c).2) r)
  /-- Removes a child, if there is one. -/
  | remove {r : Resource} (a : Address) (e : Element) (built : Built r) :
    Built (modifyAt a (·.removeChild e) r)

theorem orderly_ofAttributes {pairs : List (String × Value)} (h : ∀ p ∈ pairs, p.2.Orderly) :
    (ofAttributes (Dict.ofList pairs)).Orderly :=
  ⟨Dict.nodup_keys_ofList pairs, fun p hp => h p (Dict.mem_of_mem_ofList hp), List.nodup_nil,
    fun _ hg => absurd hg List.not_mem_nil, fun _ hg => absurd hg List.not_mem_nil⟩

theorem dense_ofAttributes (attributes : Dict Value) : (ofAttributes attributes).Dense :=
  ⟨fun _ hg => absurd hg List.not_mem_nil, fun _ hg => absurd hg List.not_mem_nil⟩

theorem Built.orderly (h : r.Built) : r.Orderly := by
  induction h with
  | new =>
    show (Resource.ofAttributes (Dict.ofList [])).Orderly
    exact orderly_ofAttributes fun _ hp => absurd hp List.not_mem_nil
  | ofAttributes horderly => exact orderly_ofAttributes horderly
  | attributes a _ hproper ih => exact ih.modifyAt (fun _ hn => hn.foldl_change hproper) a
  | put a e _ _ ih ihchild => exact ih.modifyAt (fun _ hn => hn.putChild e ihchild) a
  | insert a e _ _ ih ihchild => exact ih.modifyAt (fun _ hn => hn.insertChild e ihchild) a
  | remove a e _ ih => exact ih.modifyAt (fun _ hn => hn.removeChild e) a

/-- **No change leaves an empty group behind**, wherever it is made. -/
theorem Built.dense (h : r.Built) : r.Dense := by
  induction h with
  | new => exact dense_ofAttributes []
  | ofAttributes => exact dense_ofAttributes _
  | attributes a _ _ ih =>
    exact ih.modifyAt fun n hn => (ih.navigate? hn).of_children (children_foldl_change _ n)
  | put a e _ _ ih ihchild => exact ih.modifyAt fun _ hn => (ih.navigate? hn).putChild e ihchild
  | insert a e _ _ ih ihchild =>
    exact ih.modifyAt fun _ hn => (ih.navigate? hn).insertChild e ihchild
  | remove a e _ ih => exact ih.modifyAt fun _ hn => (ih.navigate? hn).removeChild e

/-! ## From addresses to equality -/

/-- What agrees everywhere agrees behind every child. -/
theorem Agree.child? {R : Value → Value → Prop} (h : r.Agree R s) (e : Element) :
    Option.Rel (Resource.Agree R) (r.child? e) (s.child? e) := by
  have hbelow : ∀ a, Option.Rel (Dict.Agree R)
      ((r.child? e).bind (·.at? a)) ((s.child? e).bind (·.at? a)) := fun a => by
    rw [← at?_cons, ← at?_cons]
    exact h (e :: a)
  generalize r.child? e = o, s.child? e = o' at hbelow ⊢
  cases o with
  | none =>
    cases o' with
    | none => exact .none
    | some c' => cases hbelow []
  | some c =>
    cases o' with
    | none => cases hbelow []
    | some c' => exact .some hbelow

/-- **Where no group is empty, groups agree when children do.** -/
theorem agree_children {S : Resource → Resource → Prop} (hr : r.Dense) (hs : s.Dense)
    (h : ∀ e, Option.Rel S (r.child? e) (s.child? e)) :
    Dict.Agree (Dict.Agree S) r.children s.children := by
  intro type
  -- no address leads to a group: that both miss it has to be read off the children it would have
  have hnone : Dict.get? r.children type = none ↔ Dict.get? s.children type = none := by
    rw [hr.get?_children_eq_none_iff, hs.get?_children_eq_none_iff]
    exact forall_congr' fun name => Dict.eq_none_iff_of_rel (h ⟨type, name⟩)
  have hsome : ∀ name, Option.Rel S (Dict.get? ((Dict.get? r.children type).getD []) name)
      (Dict.get? ((Dict.get? s.children type).getD []) name) := fun name => h ⟨type, name⟩
  generalize Dict.get? r.children type = g, Dict.get? s.children type = g' at hnone hsome ⊢
  cases g with
  | none =>
    rw [hnone.mp rfl]
    exact .none
  | some g =>
    cases g' with
    | none => cases hnone.mpr rfl
    | some g' => exact .some hsome

/-- **Resources that agree are equal**, when neither has an empty group. -/
theorem same_of_agree (hr : r.Orderly) (hs : s.Orderly) (hdense : r.Dense) (hdense' : s.Dense)
    (h : r.Agree (fun v w => (v == w) = true) s) : same r s = true := by
  induction hr generalizing s with
  | @mk r hattributes hvalues htypes hnames heach ih =>
    have hfields : Dict.Agree (fun v w => (v == w) = true) r.attributes s.attributes :=
      Option.rel_some_some.mp (h [])
    have hgroups := agree_children hdense hdense' h.child?
    obtain ⟨hattributes', -, htypes', hnames', heach'⟩ := hs
    obtain ⟨-, hbelow⟩ := hdense
    obtain ⟨-, hbelow'⟩ := hdense'
    obtain ⟨hlen, hfields⟩ := (Dict.agree_iff hattributes hattributes').mp hfields
    obtain ⟨hlen', hgroups⟩ := (Dict.agree_iff htypes htypes').mp hgroups
    refine same_iff.mpr ⟨⟨hlen, Value.fieldsIn_iff.mpr hfields⟩, hlen',
      groupsIn_iff.mpr fun g hg => ?_⟩
    obtain ⟨g', hget, hchildren⟩ := hgroups g hg
    have hg' := Dict.mem_of_get? hget
    obtain ⟨hlen, hchildren⟩ := (Dict.agree_iff (hnames g hg) (hnames' _ hg')).mp hchildren
    refine ⟨g', hget, hlen, childrenIn_iff.mpr fun c hc => ?_⟩
    obtain ⟨c', hget', hagree⟩ := hchildren c hc
    have hc' := Dict.mem_of_get? hget'
    exact ⟨c', hget', ih g hg c hc (heach' _ hg' _ hc') (hbelow g hg c hc) (hbelow' _ hg' _ hc')
      hagree⟩

/-- An empty group is told from a missing one, though the two agree everywhere. -/
example : (({ children := [("item", [])] } : Resource) == empty) = false := by decide +kernel

/-! ## Values that equal themselves -/

/-- No attribute holds a NaN, here or below. -/
inductive NanFree : Resource → Prop
  | mk {r : Resource} (values : ∀ p ∈ r.attributes, p.2.NanFree)
      (each : ∀ g ∈ r.children, ∀ c ∈ g.2, NanFree c.2) : NanFree r

theorem NanFree.child? (h : r.NanFree) (hc : r.child? e = some c) : c.NanFree := by
  obtain ⟨-, heach⟩ := h
  obtain ⟨g, hg, hmem⟩ := Dict.exists_of_mem_group (Dict.mem_of_get? hc)
  exact heach _ hg _ hmem

theorem NanFree.navigate? (h : r.NanFree) (hn : r.navigate? a = some n) : n.NanFree := by
  induction a generalizing r with
  | nil => exact Option.some.inj hn ▸ h
  | cons e a ih =>
    obtain ⟨c, hc, hn⟩ := Option.bind_eq_some_iff.mp hn
    exact ih (h.child? hc) hn

theorem NanFree.at? (h : r.NanFree) (hd : r.at? a = some d) : ∀ p ∈ d, p.2.NanFree := by
  obtain ⟨n, hn, rfl⟩ := Option.map_eq_some_iff.mp hd
  obtain ⟨hvalues, -⟩ := h.navigate? hn
  exact hvalues

theorem NanFree.of_at? (hr : r.Orderly) (h : ∀ a, ∀ d ∈ r.at? a, ∀ p ∈ d, p.2.NanFree) :
    r.NanFree := by
  induction hr with
  | @mk r hattributes _ htypes hnames _ ih =>
    refine ⟨h [] _ rfl, fun g hg c hc => ih g hg c hc fun a d hd => h (⟨g.1, c.1⟩ :: a) d ?_⟩
    have hchild : r.child? ⟨g.1, c.1⟩ = some c.2 := by
      rw [Resource.child?, group, Dict.get?_eq_some_of_mem htypes hg]
      exact Dict.get?_eq_some_of_mem (hnames g hg) hc
    rw [at?_cons, hchild]
    exact hd

theorem Orderly.at? (h : r.Orderly) (hd : r.at? a = some d) : ∀ p ∈ d, p.2.Orderly := by
  obtain ⟨n, hn, rfl⟩ := Option.map_eq_some_iff.mp hd
  obtain ⟨-, hvalues, -, -, -⟩ := h.navigate? hn
  exact hvalues

/-- **What equals another resource holds no NaN**, and nor does the other one. -/
theorem nanFree_of_same (hr : r.Orderly) (hs : s.Orderly) (h : same r s = true) : s.NanFree := by
  refine .of_at? hs fun a d hd p hp => ?_
  have hagree := agree_of_same hr h a
  rw [hd] at hagree
  generalize hd' : r.at? a = o at hagree
  cases hagree with
  | @some d' _ hfields =>
    have hdistinct : (Dict.keys d).Nodup := by
      obtain ⟨n, hn, rfl⟩ := Option.map_eq_some_iff.mp hd
      obtain ⟨hattributes, -, -, -, -⟩ := hs.navigate? hn
      exact hattributes
    obtain ⟨v, hv, hsame⟩ := hfields.swap.found hdistinct p hp
    have hvd := hr.at? hd' _ (Dict.mem_of_get? hv)
    exact (Value.nanFree_of_same hvd (hs.at? hd p hp) hsame).2

theorem same_self (hr : r.Orderly) (h : r.NanFree) : same r r = true := by
  induction hr with
  | @mk r hattributes hvalues htypes hnames _ ih =>
    obtain ⟨hnumbers, hbelow⟩ := h
    refine same_iff.mpr ⟨⟨rfl, Value.fieldsIn_iff.mpr fun p hp => ?_⟩, rfl,
      groupsIn_iff.mpr fun g hg => ?_⟩
    · exact ⟨p.2, Dict.get?_eq_some_of_mem hattributes hp,
        Value.same_self (hvalues p hp) (hnumbers p hp)⟩
    · exact ⟨g.2, Dict.get?_eq_some_of_mem htypes hg, rfl, childrenIn_iff.mpr fun c hc =>
        ⟨c.2, Dict.get?_eq_some_of_mem (hnames g hg) hc, ih g hg c hc (hbelow g hg c hc)⟩⟩

/-- The same resource, or equal ones. -/
def Alike (r s : Resource) : Prop := r = s ∨ (r == s) = true

/-- Without a NaN it makes no difference whether the same value counts as equal. -/
theorem agree_iff_alike (hr : r.Orderly) (h : r.NanFree) :
    r.Agree (fun v w => (v == w) = true) s ↔ r.Agree Value.Alike s :=
  forall_congr' fun a => Dict.rel_congr fun d hd d' _ => Dict.Agree.congr fun k v hv w _ => by
    have hmem := Dict.mem_of_get? hv
    exact (Value.alike_iff_same (hr.at? hd _ hmem) (h.at? hd _ hmem)).symm

/-! ## Equality is extensional -/

/-- **Equality of resources is extensional.**

* No group of children is empty, here or below, so at every address the listed types are those of
  the groups, and those with a child.
* Two resources are equal exactly when at every address both hold nothing, or resources with equal
  attributes: nothing else is left of how they were built.
* When no value is a NaN, equal attributes are those that hold the same values, up to the order of
  keys. -/
theorem Built.extensional (hr : r.Built) (hs : s.Built) :
    r.Dense ∧
    (∀ a n, r.navigate? a = some n → n.childTypes = Dict.keys n.children ∧
      ∀ type, type ∈ n.childTypes ↔ ∃ name, n.hasChild ⟨type, name⟩ = true) ∧
    ((r == s) = true ↔ r.Agree (fun v w => (v == w) = true) s) ∧
    (r.NanFree → ((r == s) = true ↔ r.Agree Value.Alike s)) := by
  have hiff : (r == s) = true ↔ r.Agree (fun v w => (v == w) = true) s :=
    ⟨agree_of_same hr.orderly, same_of_agree hr.orderly hs.orderly hr.dense hs.dense⟩
  refine ⟨hr.dense, fun a n hn => ?_, hiff,
    fun hnan => hiff.trans (agree_iff_alike hr.orderly hnan)⟩
  have hdense : n.Dense := hr.dense.navigate? hn
  exact ⟨hdense.childTypes, fun type => hdense.mem_childTypes_iff⟩

/-- An item with one attribute. -/
def item (value : Int64) : Resource := ofAttributes (Dict.ofList [("value", .integer value)])

/-- Two items, and a box that comes and goes. -/
def inOrder : Resource :=
  modifyAt [] (·.removeChild ⟨"box", "x"⟩) <|
    modifyAt [] (·.putChild ⟨"item", "b"⟩ (item 2)) <|
    modifyAt [] (·.putChild ⟨"box", "x"⟩ empty) <|
    modifyAt [] (fun n => (n.insertChild ⟨"item", "a"⟩ (item 1)).2) empty

/-- The same items the other way round, one of them changed where it stands. -/
def shuffled : Resource :=
  modifyAt [⟨"item", "a"⟩]
      ([AttributeChange.set "value" (.integer 1)].foldl AttributeChange.apply ·) <|
    modifyAt [] (fun n => (n.insertChild ⟨"item", "a"⟩ (item 3)).2) <|
    modifyAt [] (·.putChild ⟨"item", "b"⟩ (item 2)) empty

theorem built_item (value : Int64) : (item value).Built :=
  .ofAttributes fun p hp => by
    obtain rfl := List.mem_singleton.mp hp
    exact .integer value

theorem nanFree_item (value : Int64) : (item value).NanFree :=
  ⟨fun p hp => by
    obtain rfl := List.mem_singleton.mp hp
    exact .integer value, fun _ hg => absurd hg List.not_mem_nil⟩

theorem nanFree_inOrder : inOrder.NanFree := by
  refine ⟨fun _ hp => absurd hp List.not_mem_nil, fun g hg c hc => ?_⟩
  obtain rfl : g = ("item", [("a", item 1), ("b", item 2)]) := List.mem_singleton.mp hg
  rcases List.mem_cons.mp hc with rfl | hc
  · exact nanFree_item 1
  · obtain rfl := List.mem_singleton.mp hc
    exact nanFree_item 2

theorem extensional_shuffled :
    inOrder.Built ∧ shuffled.Built ∧ inOrder.NanFree ∧
      inOrder.childNames "item" = ["a", "b"] ∧ shuffled.childNames "item" = ["b", "a"] ∧
      (inOrder == shuffled) = true ∧ inOrder.Agree Value.Alike shuffled ∧
      inOrder.childTypes = ["item"] := by
  have hinOrder : inOrder.Built :=
    .remove [] _ (.put [] _ (.put [] _ (.insert [] _ .new (built_item 1)) .new) (built_item 2))
  have hshuffled : shuffled.Built :=
    .attributes _ (.insert [] _ (.put [] _ .new (built_item 2)) (built_item 3))
      fun change hchange => by
        obtain rfl := List.mem_singleton.mp hchange
        exact .integer 1
  obtain ⟨-, htypes, -, halike⟩ := hinOrder.extensional hshuffled
  have hequal : (inOrder == shuffled) = true := by decide +kernel
  refine ⟨hinOrder, hshuffled, nanFree_inOrder, rfl, rfl, hequal,
    (halike nanFree_inOrder).mp hequal, ?_⟩
  obtain ⟨hkeys, -⟩ := htypes [] inOrder rfl
  rw [hkeys]
  rfl

end Resource

end ManagementPlane
