import ManagementPlane.Global.Rendering
import ManagementPlane.Proofs.Model.View
import ManagementPlane.Proofs.Registration.Naming
import ManagementPlane.Proofs.Value.RoundTrip

/-!
# Proofs/Global/Rendered — what a read shows of a resource

Reading walks the model and the registration side by side.  One level of it is `renderChild`, and
`view` is what comes of it for the one who reads; it depends neither on the place of the resource
nor on whether proxies are asked (`renderResource_fst`).  The questions that are left to proxies are
those for the proxied children below, each once (`mem_questions_iff`, `pairwise_apart_questions`).
-/

namespace ManagementPlane

namespace Dict

variable {α β : Type} {d e : Dict α}

/-- Dictionaries with the same keys in the same order are told apart by a value. -/
theorem ext_of_nodup (hd : (keys d).Nodup) (hkeys : keys d = keys e)
    (hget : ∀ k, get? d k = get? e k) : d = e := by
  induction d generalizing e with
  | nil => simpa [keys] using hkeys.symm
  | cons p d ih =>
    cases e with
    | nil => simp [keys] at hkeys
    | cons q e =>
      obtain ⟨k, v⟩ := p
      obtain ⟨l, w⟩ := q
      obtain ⟨rfl, htail⟩ : k = l ∧ keys d = keys e := by simpa [keys] using hkeys
      obtain ⟨hk, hd⟩ := List.nodup_cons.mp hd
      have hvw : v = w := by simpa [get?] using hget k
      have hde : d = e := by
        refine ih hd htail fun m => ?_
        by_cases hm : k = m
        · subst hm
          rw [get?_eq_none_iff.mpr hk, get?_eq_none_iff.mpr (htail ▸ hk)]
        · simpa [get?, hm] using hget m
      rw [hvw, hde]

theorem get?_map (f : String → α → β) (d : Dict α) (k : String) :
    get? (d.map fun p => (p.1, f p.1 p.2)) k = (get? d k).map (f k) := by
  induction d with
  | nil => rfl
  | cons p d ih =>
    obtain ⟨l, v⟩ := p
    by_cases hl : l = k
    · subst hl
      simp [get?]
    · simp [get?, hl, ih]

theorem get?_foldl_put (g : String → α) (names : List String) (d : Dict α) (k : String) :
    get? (names.foldl (fun d name => put d name (g name)) d) k =
      if k ∈ names then some (g k) else get? d k := by
  induction names generalizing d with
  | nil => simp
  | cons name names ih =>
    rw [List.foldl_cons, ih, get?_put]
    by_cases hk : k ∈ names
    · simp [hk]
    · by_cases hname : name = k
      · simp [hname]
      · simp [hk, hname, Ne.symm hname]

theorem nodup_keys_foldl_put {d : Dict α} (hd : (keys d).Nodup) (g : String → α)
    (names : List String) :
    (keys (names.foldl (fun d name => put d name (g name)) d)).Nodup := by
  induction names generalizing d with
  | nil => exact hd
  | cons name names ih => exact ih (nodup_keys_put hd name (g name))

theorem keys_foldl_put (g : String → α) (names : List String) (d : Dict α) :
    keys (names.foldl (fun d name => put d name (g name)) d) =
      names.foldl Registration.insertNew (keys d) := by
  induction names generalizing d with
  | nil => rfl
  | cons name names ih =>
    rw [List.foldl_cons, ih, keys_put]
    rfl

theorem get?_filter_of_nodup {d : Dict α} (hd : (keys d).Nodup) (p : α → Bool) (k : String) :
    get? (d.filter fun f => p f.2) k = (get? d k).filter p := by
  induction d with
  | nil => rfl
  | cons f d ih =>
    obtain ⟨l, v⟩ := f
    obtain ⟨hl, hd⟩ := List.nodup_cons.mp hd
    rw [List.filter_cons]
    by_cases hlk : l = k
    · subst hlk
      have hnone : get? d l = none := get?_eq_none_iff.mpr hl
      by_cases hv : p v <;> simp [get?, hv, ih hd, hnone, Option.filter]
    · by_cases hv : p v <;> simp [get?, hv, ih hd, hlk]

end Dict

namespace Rendering

open Registration (Walk)

variable {o : ReadOptions} {r c : Registration} {address b : Address} {path : List String}
  {resource child : Resource} {e : Element} {proxy : Proxy} {d : Delegation}

/-! ## One level -/

/-- What is shown of a child, and what is left to ask for it. -/
def renderChild (o : ReadOptions) (r : Registration) (address : Address) (path : List String)
    (e : Element) (child : Resource) : Value × List Delegation :=
  match r.child? e with
  | none => (.undefined, [])
  | some c =>
    match c.proxy with
    | some proxy =>
      (.undefined, if o.recursive && o.proxies then
        [question proxy (address ++ [e]) (path ++ [e.key, e.value]) o] else [])
    | none =>
      if o.recursive then renderResource o c (address ++ [e]) (path ++ [e.key, e.value]) child
      else (.undefined, [])

/-- The children of a type as they are shown. -/
def renderType (o : ReadOptions) (r : Registration) (address : Address) (path : List String)
    (resource : Resource) (type : String) : List (String × Value × List Delegation) :=
  (resource.group type).map fun c => (c.1, renderChild o r address path ⟨type, c.1⟩ c.2)

/-- The registered attributes of a resource as they are shown. -/
def ownFields (r : Registration) (includeDefaults : Bool) (resource : Resource) : Dict Value :=
  r.storedAttributes.map fun f => (f.1, f.2.shown (resource.attribute? f.1) includeDefaults)

theorem renderChildren_eq (type : String) (group : List (String × Resource)) :
    renderChildren o r address path type group =
      group.map fun c => (c.1, renderChild o r address path ⟨type, c.1⟩ c.2) := by
  induction group with
  | nil => rw [renderChildren]; rfl
  | cons c group ih => rw [renderChildren, ih]; rfl

theorem get?_renderGroups (groups : List (String × List (String × Resource))) (type : String) :
    Dict.get? (renderGroups o r address path groups) type =
      (Dict.get? groups type).map (renderChildren o r address path type) := by
  induction groups with
  | nil => rw [renderGroups]; rfl
  | cons g groups ih =>
    obtain ⟨other, group⟩ := g
    rw [renderGroups, Dict.get?, Dict.get?, ih]
    split
    · next hother => rw [hother]; rfl
    · rfl

/-- **One level of a read**: the attributes, and the children by type. -/
theorem renderResource_eq (hr : (Dict.keys r.attributes).Nodup) (address : Address)
    (path : List String) (resource : Resource) :
    renderResource o r address path resource =
      (.object (r.childTypes.foldl (fun fields type =>
          Dict.put fields type (groupValue (renderType o r address path resource type)))
        (ownFields r o.includeDefaults resource)),
      r.childTypes.flatMap fun type =>
        (renderType o r address path resource type).flatMap (·.2.2)) := by
  obtain ⟨attributes, children⟩ := resource
  have htype : ∀ type, (Dict.get? (renderGroups o r address path children) type).getD [] =
      renderType o r address path ⟨attributes, children⟩ type := by
    intro type
    rw [get?_renderGroups, renderType, Resource.group]
    cases Dict.get? children type with
    | none => rfl
    | some group => exact renderChildren_eq type group
  have hown : r.storedAttributes.foldl (fun fields f =>
      Dict.put fields f.1 (f.2.shown (Dict.get? attributes f.1) o.includeDefaults)) [] =
        ownFields r o.includeDefaults ⟨attributes, children⟩ := by
    have hkeys :
        (Dict.keys ([] ++ ownFields r o.includeDefaults ⟨attributes, children⟩)).Nodup := by
      rw [List.nil_append, Dict.keys, ownFields, List.map_map]
      exact hr.sublist (List.filter_sublist.map _)
    rw [← List.nil_append (ownFields _ _ _), ← Dict.foldl_put_of_nodup hkeys, ownFields,
      List.foldl_map]
    rfl
  rw [renderResource]
  refine (congrArg (arrange _ _) hown).trans ?_
  rw [arrange]
  simp only [htype]

/-! ## What is shown -/

/-- What a read without proxies shows of a resource. -/
def view (recursive includeDefaults : Bool) (r : Registration) (resource : Resource) : Value :=
  (renderResource { recursive, proxies := false, includeDefaults } r [] [] resource).1

/-- What such a read shows of a child. -/
def childView (recursive includeDefaults : Bool) (r : Registration) (e : Element)
    (child : Resource) : Value :=
  (renderChild { recursive, proxies := false, includeDefaults } r [] [] e child).1

/-- What such a read shows of the children of a type. -/
def typeView (recursive includeDefaults : Bool) (r : Registration) (resource : Resource)
    (type : String) : Value :=
  groupValue (renderType { recursive, proxies := false, includeDefaults } r [] [] resource type)

theorem groupValue_renderType_congr {o o' : ReadOptions} {address' : Address}
    {path' : List String} {type : String}
    (h : ∀ child ∈ resource.group type, (renderChild o r address path ⟨type, child.1⟩ child.2).1 =
      (renderChild o' r address' path' ⟨type, child.1⟩ child.2).1) :
    groupValue (renderType o r address path resource type) =
      groupValue (renderType o' r address' path' resource type) := by
  rw [groupValue, groupValue, renderType, renderType, List.isEmpty_map, List.isEmpty_map,
    List.map_map, List.map_map]
  congr 2
  exact List.map_congr_left fun child hchild => Prod.ext rfl (h child hchild)

/-- **What is shown depends neither on the place nor on whether proxies are asked.** -/
theorem renderResource_fst (hr : r.Formed) (hresource : resource.Orderly) (o : ReadOptions)
    (address : Address) (path : List String) :
    (renderResource o r address path resource).1 =
      view o.recursive o.includeDefaults r resource := by
  induction hresource generalizing r o address path with
  | @mk resource _ _ _ _ _ ih =>
    rw [view, renderResource_eq hr.neat.attributes, renderResource_eq hr.neat.attributes]
    dsimp only
    congr 3
    funext fields type
    congr 1
    refine groupValue_renderType_congr fun child hchild => ?_
    rw [renderChild, renderChild]
    cases hc : r.child? ⟨type, child.1⟩ with
    | none => rfl
    | some c =>
      dsimp only
      cases c.proxy with
      | some proxy => rfl
      | none =>
        dsimp only
        have hformed : c.Formed := Registration.of_child? Registration.Formed.children hr hc
        obtain ⟨g, hg, hmem⟩ := Dict.exists_of_mem_group hchild
        split
        · exact (ih _ hg child hmem hformed o _ _).trans
            (ih _ hg child hmem hformed { o with proxies := false } _ _).symm
        · rfl

theorem view_eq (hr : r.Formed) (recursive includeDefaults : Bool) (resource : Resource) :
    view recursive includeDefaults r resource =
      .object (r.childTypes.foldl (fun fields type =>
        Dict.put fields type (typeView recursive includeDefaults r resource type))
          (ownFields r includeDefaults resource)) := by
  rw [view, renderResource_eq hr.neat.attributes]
  rfl

theorem get?_view (hr : r.Formed) (recursive includeDefaults : Bool) (resource : Resource)
    (key : String) : (view recursive includeDefaults r resource).get? key =
      if key ∈ r.childTypes then some (typeView recursive includeDefaults r resource key)
      else Dict.get? (ownFields r includeDefaults resource) key := by
  rw [view_eq hr]
  exact Dict.get?_foldl_put _ _ _ _

/-- The children of a type stand in the order of the model. -/
theorem typeView_eq (recursive includeDefaults : Bool) (r : Registration) (resource : Resource)
    (type : String) : typeView recursive includeDefaults r resource type =
      if (resource.group type).isEmpty then .undefined
      else .object ((resource.group type).map fun c =>
        (c.1, childView recursive includeDefaults r ⟨type, c.1⟩ c.2)) := by
  rw [typeView, groupValue, renderType, List.isEmpty_map, List.map_map]
  rfl

theorem fields_typeView (recursive includeDefaults : Bool) (r : Registration) (resource : Resource)
    (type : String) : (typeView recursive includeDefaults r resource type).fields =
      (resource.group type).map fun c =>
        (c.1, childView recursive includeDefaults r ⟨type, c.1⟩ c.2) := by
  rw [typeView_eq]
  cases resource.group type <;> rfl

/-- **A child stands under its type and its name.** -/
theorem getPath?_view (hr : r.Formed) (recursive includeDefaults : Bool)
    (hchild : resource.child? e = some child) (htype : e.key ∈ r.childTypes) (path : List String) :
    (view recursive includeDefaults r resource).getPath? (e.key :: e.value :: path) =
      (childView recursive includeDefaults r e child).getPath? path := by
  rw [Value.getPath?_cons, get?_view hr, if_pos htype, Option.bind_some, Value.getPath?_cons,
    Value.get?, fields_typeView, Dict.get?_map fun name c =>
      childView recursive includeDefaults r ⟨e.key, name⟩ c,
    show Dict.get? (resource.group e.key) e.value = some child from hchild]
  rfl

theorem mem_childTypes_of_child? (hc : r.child? e = some c) : e.key ∈ r.childTypes := by
  by_contra hkey
  have hnone : Dict.get? r.children e.key = none := Dict.get?_eq_none_iff.mpr hkey
  simp [Registration.child?, Registration.group, hnone] at hc

/-- **A local child shows what a read of itself shows.** -/
theorem childView_of_local (hr : r.Formed) (hchild : child.Orderly) (includeDefaults : Bool)
    (hc : r.child? e = some c) (hlocal : c.proxy = none) :
    childView true includeDefaults r e child = view true includeDefaults c child := by
  rw [childView, renderChild, hc]
  dsimp only
  rw [hlocal]
  exact renderResource_fst (Registration.of_child? Registration.Formed.children hr hc) hchild _ _ _

theorem childView_false (includeDefaults : Bool) (r : Registration) (e : Element)
    (child : Resource) : childView false includeDefaults r e child = .undefined := by
  rw [childView, renderChild]
  cases r.child? e with
  | none => rfl
  | some c =>
    dsimp only
    cases c.proxy <;> rfl

theorem keys_ownFields (r : Registration) (includeDefaults : Bool) (resource : Resource) :
    Dict.keys (ownFields r includeDefaults resource) = Dict.keys r.storedAttributes := by
  rw [Dict.keys, ownFields, List.map_map]
  rfl

/-- **Attributes come first, then the types** that are not attributes as well. -/
theorem keys_view (hr : r.Formed) (recursive includeDefaults : Bool) (resource : Resource) :
    (view recursive includeDefaults r resource).keys =
      Dict.keys r.storedAttributes ++
        r.childTypes.filter (· ∉ Dict.keys r.storedAttributes) := by
  have htypes : r.childTypes.Nodup := hr.neat.types
  rw [view_eq hr]
  refine (Dict.keys_foldl_put _ _ _).trans ?_
  rw [Registration.foldl_insertNew, Registration.distinct_of_nodup htypes, keys_ownFields]

/-- The children that an object shows, with undefined in place of each. -/
def withoutValues : Value → Value
  | .object children => .object (children.map fun child => (child.1, .undefined))
  | v => v

/-- The value of a resource with undefined in place of every child of the types. -/
def withoutChildren (types : List String) (v : Value) : Value :=
  .object (v.fields.map fun field =>
    (field.1, if field.1 ∈ types then withoutValues field.2 else field.2))

/-- **A read that is not recursive shows the same, with undefined in place of the children.** -/
theorem view_false (hr : r.Formed) (includeDefaults : Bool) (resource : Resource) :
    view false includeDefaults r resource =
      withoutChildren r.childTypes (view true includeDefaults r resource) := by
  have htype : ∀ type, typeView false includeDefaults r resource type =
      withoutValues (typeView true includeDefaults r resource type) := by
    intro type
    rw [typeView_eq, typeView_eq]
    split
    · rfl
    · simp only [childView_false, withoutValues, List.map_map, Function.comp_def]
  have hnodup : (view false includeDefaults r resource).keys.Nodup := by
    rw [view_eq hr]
    exact Dict.nodup_keys_foldl_put (keys_ownFields r includeDefaults resource ▸
      hr.neat.attributes.sublist (List.filter_sublist.map _)) _ _
  obtain ⟨fields, hfields⟩ : ∃ fields, view false includeDefaults r resource = .object fields :=
    ⟨_, view_eq hr false includeDefaults resource⟩
  have hkeys := keys_view hr false includeDefaults resource
  have hget := get?_view hr false includeDefaults resource
  rw [hfields] at hkeys hget hnodup ⊢
  rw [withoutChildren]
  congr 1
  refine Dict.ext_of_nodup hnodup (hkeys.trans ?_) fun key => (hget key).trans ?_
  · rw [← keys_view hr true includeDefaults resource, Value.keys, Dict.keys, Dict.keys,
      List.map_map]
    rfl
  · rw [Dict.get?_map fun name v => if name ∈ r.childTypes then withoutValues v else v]
    have htrue := get?_view hr true includeDefaults resource key
    rw [Value.get?] at htrue
    rw [htrue]
    split
    · rw [Option.map_some, htype]
    · rw [Option.map_id']

/-! ## What is left to ask -/

/-- Where a resource stands in the value of one above it, given the address from there. -/
def placeOf (b : Address) : List String := b.flatMap fun e => [e.key, e.value]

/-- The children that a read shows, type by type. -/
def shownChildren (r : Registration) (resource : Resource) : List (Element × Resource) :=
  r.childTypes.flatMap fun type => (resource.group type).map fun c => (⟨type, c.1⟩, c.2)

theorem mem_shownChildren_iff (hresource : resource.Orderly) :
    (e, child) ∈ shownChildren r resource ↔
      e.key ∈ r.childTypes ∧ resource.child? e = some child := by
  simp only [shownChildren, List.mem_flatMap, List.mem_map, Prod.mk.injEq]
  constructor
  · rintro ⟨type, htype, ⟨name, _⟩, hmem, rfl, rfl⟩
    exact ⟨htype, Dict.get?_eq_some_of_mem (hresource.nodup_group type) hmem⟩
  · rintro ⟨htype, hchild⟩
    exact ⟨e.key, htype, (e.value, child), Dict.mem_of_get? hchild, rfl, rfl⟩

/-- No child is shown twice. -/
theorem pairwise_shownChildren (hr : r.Formed) (hresource : resource.Orderly) :
    (shownChildren r resource).Pairwise fun x y => x.1 ≠ y.1 := by
  rw [shownChildren, List.pairwise_flatMap]
  constructor
  · intro type _
    rw [List.pairwise_map]
    exact (List.pairwise_map.mp (hresource.nodup_group type)).imp (by simp)
  · have htypes : r.childTypes.Nodup := hr.neat.types
    refine htypes.imp fun hne x hx y hy => ?_
    obtain ⟨_, -, rfl⟩ := List.mem_map.mp hx
    obtain ⟨_, -, rfl⟩ := List.mem_map.mp hy
    simp [hne]

/-- The questions of a resource are those of its children. -/
theorem questions_eq (hr : r.Formed) (address : Address) (path : List String)
    (resource : Resource) : (renderResource o r address path resource).2 =
      (shownChildren r resource).flatMap fun c => (renderChild o r address path c.1 c.2).2 := by
  rw [renderResource_eq hr.neat.attributes, shownChildren, List.flatMap_assoc]
  simp only [renderType, List.flatMap_map]

theorem mem_renderResource_iff (hr : r.Formed) (hresource : resource.Orderly) :
    d ∈ (renderResource o r address path resource).2 ↔
      ∃ e child, resource.child? e = some child ∧ d ∈ (renderChild o r address path e child).2 := by
  rw [questions_eq hr, List.mem_flatMap, Prod.exists]
  simp only [mem_shownChildren_iff hresource, and_assoc]
  refine exists_congr fun e => exists_congr fun child => and_iff_right_of_imp ?_
  rintro ⟨-, hd⟩
  cases hc : r.child? e with
  | none => simp [renderChild, hc] at hd
  | some c => exact mem_childTypes_of_child? hc

/-- What stands at an address below a resource is asked for, and the question is `d`. -/
def Asks (o : ReadOptions) (r : Registration) (address : Address) (path : List String)
    (resource : Resource) (d : Delegation) (b : Address) : Prop :=
  ∃ proxy, r.proxyFor? b = some (b, proxy) ∧ (resource.navigate? b).isSome = true ∧
    d = question proxy (address ++ b) (path ++ placeOf b) o

theorem asks_cons_iff (hlocal : r.proxy = none) :
    Asks o r address path resource d (e :: b) ↔ ∃ c child, r.child? e = some c ∧
      resource.child? e = some child ∧
        Asks o c (address ++ [e]) (path ++ [e.key, e.value]) child d b := by
  have hplace : placeOf (e :: b) = [e.key, e.value] ++ placeOf b := rfl
  simp only [Asks, Registration.proxyFor?_cons_eq_some_iff hlocal, hplace, ← List.append_assoc,
    List.append_cons address e b]
  constructor
  · rintro ⟨proxy, ⟨c, hc, howner⟩, hnav, hd⟩
    obtain ⟨child, hchild⟩ := Option.isSome_iff_exists.mp (Option.isSome_of_isSome_bind hnav)
    exact ⟨c, child, hc, hchild, proxy, howner,
      by simpa [Resource.navigate?, hchild] using hnav, hd⟩
  · rintro ⟨c, child, hc, hchild, proxy, howner, hnav, hd⟩
    exact ⟨proxy, ⟨c, hc, howner⟩, by simpa [Resource.navigate?, hchild] using hnav, hd⟩

/-- Of a proxied child it is the child itself that is asked for, of a local one what is below. -/
theorem mem_renderChild_iff (ho : (o.recursive && o.proxies) = true) (hc : r.child? e = some c)
    (below : c.proxy = none →
      (d ∈ (renderResource o c (address ++ [e]) (path ++ [e.key, e.value]) child).2 ↔
        ∃ b, b ≠ [] ∧ Asks o c (address ++ [e]) (path ++ [e.key, e.value]) child d b)) :
    d ∈ (renderChild o r address path e child).2 ↔
      ∃ b, Asks o c (address ++ [e]) (path ++ [e.key, e.value]) child d b := by
  rw [renderChild, hc]
  dsimp only
  cases hproxy : c.proxy with
  | some proxy =>
    simp only [ho, if_true, List.mem_singleton, Asks, Registration.proxyFor?_of_proxy hproxy]
    constructor
    · rintro rfl
      exact ⟨[], proxy, rfl, rfl, by simp [placeOf]⟩
    · rintro ⟨b, owner, howner, -, rfl⟩
      obtain ⟨rfl, rfl⟩ := Prod.mk.inj (Option.some.inj howner)
      simp [placeOf]
  | none =>
    simp only [(Bool.and_eq_true_iff.mp ho).1, if_true, below hproxy]
    refine exists_congr fun b => and_iff_right_of_imp ?_
    rintro ⟨owner, howner, -⟩ rfl
    simp [Registration.proxyFor?_nil hproxy] at howner

/-- **The questions are those for the proxied children below**, each for the address that the child
has and with its place in the value. -/
theorem mem_questions_iff (hr : r.Formed) (hlocal : r.proxy = none) (hresource : resource.Orderly)
    (ho : (o.recursive && o.proxies) = true) :
    d ∈ (renderResource o r address path resource).2 ↔
      ∃ b, b ≠ [] ∧ Asks o r address path resource d b := by
  induction hresource generalizing r address path with
  | @mk resource hattributes hvalues htypes hnames heach ih =>
    rw [mem_renderResource_iff hr ⟨hattributes, hvalues, htypes, hnames, heach⟩]
    have hchild : ∀ {e c child}, r.child? e = some c → resource.child? e = some child →
        (d ∈ (renderChild o r address path e child).2 ↔
          ∃ b, Asks o c (address ++ [e]) (path ++ [e.key, e.value]) child d b) := by
      intro e c child hc hchild
      obtain ⟨g, hg, hmem⟩ := Dict.exists_of_mem_group (Dict.mem_of_get? hchild)
      exact mem_renderChild_iff ho hc fun hproxy =>
        ih _ hg _ hmem (Registration.of_child? Registration.Formed.children hr hc) hproxy
    constructor
    · rintro ⟨e, child, he, hd⟩
      cases hc : r.child? e with
      | none => simp [renderChild, hc] at hd
      | some c =>
        obtain ⟨b, hb⟩ := (hchild hc he).mp hd
        exact ⟨e :: b, by simp, (asks_cons_iff hlocal).mpr ⟨c, child, hc, he, hb⟩⟩
    · rintro ⟨_ | ⟨e, b⟩, hne, hasks⟩
      · exact absurd rfl hne
      · obtain ⟨c, child, hc, he, hb⟩ := (asks_cons_iff hlocal).mp hasks
        exact ⟨e, child, he, (hchild hc he).mpr ⟨b, hb⟩⟩

theorem prefix_of_mem_renderChild
    (below : ∀ {c : Registration}, r.child? e = some c →
      ∀ d ∈ (renderResource o c (address ++ [e]) (path ++ [e.key, e.value]) child).2,
        path ++ [e.key, e.value] <+: d.path) :
    ∀ d ∈ (renderChild o r address path e child).2, path ++ [e.key, e.value] <+: d.path := by
  intro d hd
  cases hc : r.child? e with
  | none => simp [renderChild, hc] at hd
  | some c =>
    rw [renderChild, hc] at hd
    dsimp only at hd
    split at hd
    · split at hd
      · obtain rfl := List.mem_singleton.mp hd
        exact List.prefix_rfl
      · cases hd
    · split at hd
      · exact below hc d hd
      · cases hd

/-- A question has its place below that of the resource. -/
theorem prefix_of_mem_renderResource (hr : r.Formed) (hresource : resource.Orderly) :
    ∀ d ∈ (renderResource o r address path resource).2, path <+: d.path := by
  induction hresource generalizing r address path with
  | @mk resource hattributes hvalues htypes hnames heach ih =>
    intro d hd
    obtain ⟨e, child, hchild, hd⟩ :=
      (mem_renderResource_iff hr ⟨hattributes, hvalues, htypes, hnames, heach⟩).mp hd
    obtain ⟨g, hg, hmem⟩ := Dict.exists_of_mem_group (Dict.mem_of_get? hchild)
    exact (List.prefix_append path _).trans (prefix_of_mem_renderChild (fun hc =>
      ih _ hg _ hmem (Registration.of_child? Registration.Formed.children hr hc)) d hd)

theorem apart_of_ne {e' : Element} {p q : List String} (h : e ≠ e')
    (hp : path ++ [e.key, e.value] <+: p) (hq : path ++ [e'.key, e'.value] <+: q) :
    Value.Apart p q := by
  obtain ⟨p, rfl⟩ := hp
  obtain ⟨q, rfl⟩ := hq
  simp only [Value.Apart, List.append_assoc, List.prefix_append_right_inj, List.cons_append,
    List.cons_prefix_cons]
  grind [Element]

/-- **No two questions have places of which one leads past the other.** -/
theorem pairwise_apart_questions (hr : r.Formed) (hresource : resource.Orderly) :
    ((renderResource o r address path resource).2.map (·.path)).Pairwise Value.Apart := by
  induction hresource generalizing r address path with
  | @mk resource hattributes hvalues htypes hnames heach ih =>
    have hresource : resource.Orderly := ⟨hattributes, hvalues, htypes, hnames, heach⟩
    have hplace : ∀ {e child}, (e, child) ∈ shownChildren r resource →
        ∀ d ∈ (renderChild o r address path e child).2, path ++ [e.key, e.value] <+: d.path := by
      intro e child hmem
      exact prefix_of_mem_renderChild fun hc => prefix_of_mem_renderResource
        (Registration.of_child? Registration.Formed.children hr hc)
          (hresource.child? ((mem_shownChildren_iff hresource).mp hmem).2)
    rw [questions_eq hr, List.pairwise_map, List.pairwise_flatMap]
    constructor
    · rintro ⟨e, child⟩ hmem
      obtain ⟨g, hg, hmem⟩ := Dict.exists_of_mem_group
        (Dict.mem_of_get? ((mem_shownChildren_iff hresource).mp hmem).2)
      dsimp only
      rw [renderChild]
      split
      · exact .nil
      · next c hc =>
        have hc := Registration.of_child? Registration.Formed.children hr hc
        split
        · split <;> simp
        · split
          · exact List.pairwise_map.mp (ih _ hg _ hmem hc)
          · exact .nil
    · exact (pairwise_shownChildren hr hresource).imp_of_mem fun hx hy hne d hd d' hd' =>
        apart_of_ne hne (hplace hx d hd) (hplace hy d' hd')

/-- Nobody is asked unless proxies are to be followed. -/
theorem questions_eq_nil (hr : r.Formed) (hresource : resource.Orderly)
    (ho : (o.recursive && o.proxies) = false) :
    (renderResource o r address path resource).2 = [] := by
  induction hresource generalizing r address path with
  | @mk resource hattributes hvalues htypes hnames heach ih =>
    refine List.eq_nil_iff_forall_not_mem.mpr fun d hd => ?_
    obtain ⟨e, child, hchild, hd⟩ :=
      (mem_renderResource_iff hr ⟨hattributes, hvalues, htypes, hnames, heach⟩).mp hd
    obtain ⟨g, hg, hmem⟩ := Dict.exists_of_mem_group (Dict.mem_of_get? hchild)
    cases hc : r.child? e with
    | none => simp [renderChild, hc] at hd
    | some c =>
      have hbelow : (renderResource o c (address ++ [e]) (path ++ [e.key, e.value]) child).2 = [] :=
        ih _ hg _ hmem (Registration.of_child? Registration.Formed.children hr hc)
      rw [renderChild, hc] at hd
      dsimp only at hd
      split at hd
      · simp [ho] at hd
      · split at hd
        · simp [hbelow] at hd
        · cases hd

/-- **A question has a place in the value**, which is undefined there. -/
theorem getPath?_view_of_asks (hr : r.Formed) (hresource : resource.Orderly)
    (hlocal : r.proxy = none) (hasks : Asks o r address path resource d b) (hb : b ≠ []) :
    (view true o.includeDefaults r resource).getPath? (placeOf b) = some .undefined := by
  induction b generalizing r address path resource with
  | nil => exact absurd rfl hb
  | cons e b ih =>
    obtain ⟨c, child, hc, hchild, hasks⟩ := (asks_cons_iff hlocal).mp hasks
    refine (getPath?_view hr _ _ hchild (mem_childTypes_of_child? hc) (placeOf b)).trans ?_
    cases hproxy : c.proxy with
    | some proxy =>
      obtain ⟨owner, howner, -⟩ := hasks
      rw [Registration.proxyFor?_of_proxy hproxy] at howner
      obtain ⟨rfl, -⟩ := Prod.mk.inj (Option.some.inj howner)
      simp [childView, renderChild, hc, hproxy, placeOf, Value.getPath?]
    | none =>
      have hne : b ≠ [] := by
        rintro rfl
        obtain ⟨owner, howner, -⟩ := hasks
        simp [Registration.proxyFor?_nil hproxy] at howner
      rw [childView_of_local hr (hresource.child? hchild) _ hc hproxy]
      exact ih (Registration.of_child? Registration.Formed.children hr hc)
        (hresource.child? hchild) hproxy hasks hne

end Rendering

end ManagementPlane
