import ManagementPlane.Proofs.Registration.Naming

/-!
# Proofs/Global/Described — what a description leaves to proxies

A recursive description names the children that a proxy answers for, and the proxies are asked for
the rest.  The questions are those for the proxied nodes below, each once and with its own place in
the description (`mem_describedProxies_iff`, `pairwise_apart_describedProxies`); what stands there
before the answer is the name alone (`getPath?_describeWithInherited`).
-/

namespace ManagementPlane

namespace Rendering

variable {r c node : Registration} {path : List String} {e : Element} {q : Address}
  {operations recursive : Bool} {d : Delegation}

/-! ## One level -/

/-- Where the description of a node stands in that of a node above, given the pattern from there. -/
def describedAt (q : Address) : List String :=
  q.flatMap fun e => ["children", e.key, "model-description", e.value]

theorem describedAt_cons (e : Element) (q : Address) :
    describedAt (e :: q) = ["children", e.key, "model-description", e.value] ++ describedAt q := rfl

/-- The registered children, type by type. -/
def registeredChildren (r : Registration) : List (Element × Registration) :=
  r.children.flatMap fun g => g.2.map fun c => (⟨g.1, c.1⟩, c.2)

/-- The questions that a child leads to. -/
def describedChild (operations : Bool) (path : List String) (e : Element) (c : Registration) :
    List Delegation :=
  match c.proxy with
  | some proxy => [descriptionQuestion proxy (path ++ describedAt [e]) operations]
  | none => describedProxies operations (path ++ describedAt [e]) c

theorem patternProxies_eq (operations : Bool) (path : List String) (type : String)
    (group : List (String × Registration)) :
    patternProxies operations (path ++ ["children", type, "model-description"]) group =
      group.flatMap fun c => describedChild operations path ⟨type, c.1⟩ c.2 := by
  induction group with
  | nil => rw [patternProxies]; rfl
  | cons c group ih =>
    rw [patternProxies, List.flatMap_cons, ih, describedChild, describedAt, List.flatMap_singleton,
      List.append_assoc]
    rfl

/-- The questions of a node are those of its children. -/
theorem describedProxies_eq (operations : Bool) (path : List String) (r : Registration) :
    describedProxies operations path r =
      (registeredChildren r).flatMap fun c => describedChild operations path c.1 c.2 := by
  obtain ⟨_, _, _, _, _, children, _⟩ := r
  rw [describedProxies, registeredChildren]
  dsimp only
  induction children with
  | nil => rw [groupProxies]; rfl
  | cons g children ih =>
    rw [groupProxies, patternProxies_eq, ih, List.flatMap_cons, List.flatMap_append,
      List.flatMap_map]

theorem mem_registeredChildren_iff (hr : r.Formed) :
    (e, c) ∈ registeredChildren r ↔ r.node? e = some c := by
  simp only [registeredChildren, List.mem_flatMap, List.mem_map, Prod.mk.injEq]
  constructor
  · rintro ⟨⟨type, group⟩, hg, ⟨name, _⟩, hmem, rfl, rfl⟩
    rw [Registration.node?, Registration.group, Dict.get?_eq_some_of_mem hr.neat.types hg]
    exact Dict.get?_eq_some_of_mem (hr.neat.patterns _ hg) hmem
  · intro h
    obtain ⟨g, hg, hmem, -⟩ := Registration.mem_children_of_node? h
    exact ⟨(e.key, g), hg, (e.value, c), hmem, rfl, rfl⟩

theorem pairwise_registeredChildren (hr : r.Formed) :
    (registeredChildren r).Pairwise fun x y => x.1 ≠ y.1 := by
  rw [registeredChildren, List.pairwise_flatMap]
  constructor
  · intro g hg
    rw [List.pairwise_map]
    exact (List.pairwise_map.mp (hr.neat.patterns g hg)).imp (by simp)
  · refine (List.pairwise_map.mp hr.neat.types).imp fun hne x hx y hy => ?_
    obtain ⟨_, -, rfl⟩ := List.mem_map.mp hx
    obtain ⟨_, -, rfl⟩ := List.mem_map.mp hy
    simp [hne]

/-! ## What is left to ask -/

/-- What is registered for a pattern below is asked for, and the question is `d`. -/
def Inquires (operations : Bool) (path : List String) (r : Registration) (d : Delegation)
    (q : Address) : Prop :=
  ∃ node proxy, r.nodeAt? q = some node ∧ node.proxy = some proxy ∧
    d = descriptionQuestion proxy (path ++ describedAt q) operations

theorem inquires_cons_iff : Inquires operations path r d (e :: q) ↔
    ∃ c, r.node? e = some c ∧ Inquires operations (path ++ describedAt [e]) c d q := by
  simp only [Inquires, Registration.nodeAt?, Option.bind_eq_some_iff, describedAt_cons e q,
    describedAt_cons e [], List.append_assoc]
  grind [describedAt]

/-- Of a proxied child it is the child itself that is asked for, of a local one what is below. -/
theorem mem_describedChild_iff (hc : c.Formed)
    (below : d ∈ describedProxies operations (path ++ describedAt [e]) c ↔
      ∃ q, q ≠ [] ∧ Inquires operations (path ++ describedAt [e]) c d q) :
    d ∈ describedChild operations path e c ↔
      ∃ q, Inquires operations (path ++ describedAt [e]) c d q := by
  rw [describedChild]
  cases hproxy : c.proxy with
  | some proxy =>
    have hends : c.children = [] := hc.neat.ends (by rw [Registration.isProxied, hproxy]; rfl)
    rw [List.mem_singleton]
    constructor
    · rintro rfl
      exact ⟨[], c, proxy, rfl, hproxy, by simp [describedAt]⟩
    · rintro ⟨_ | ⟨e', q⟩, node, owner, hnode, howner, rfl⟩
      · obtain rfl := Option.some.inj hnode
        obtain rfl := Option.some.inj (hproxy.symm.trans howner)
        simp [describedAt]
      · simp [Registration.nodeAt?, Registration.node?, Registration.group, hends] at hnode
  | none =>
    dsimp only
    rw [below]
    refine exists_congr fun q => and_iff_right_of_imp ?_
    rintro ⟨node, owner, hnode, howner, -⟩ rfl
    obtain rfl := Option.some.inj hnode
    simp [hproxy] at howner

/-- **The questions are those for the proxied nodes below**, each with its place in the
description. -/
theorem mem_describedProxies_iff (hr : r.Formed) :
    d ∈ describedProxies operations path r ↔ ∃ q, q ≠ [] ∧ Inquires operations path r d q := by
  induction hr generalizing path with
  | @intro r hneat heach ih =>
    have hr : r.Formed := ⟨hneat, heach⟩
    have hchild : ∀ {e c}, r.node? e = some c → (d ∈ describedChild operations path e c ↔
        ∃ q, Inquires operations (path ++ describedAt [e]) c d q) := by
      intro e c hc
      obtain ⟨g, hg, hmem, -⟩ := Registration.mem_children_of_node? hc
      exact mem_describedChild_iff (heach _ hg _ hmem) (ih _ hg _ hmem)
    rw [describedProxies_eq, List.mem_flatMap, Prod.exists]
    simp only [mem_registeredChildren_iff hr]
    constructor
    · rintro ⟨e, c, hc, hd⟩
      obtain ⟨q, hq⟩ := (hchild hc).mp hd
      exact ⟨e :: q, by simp, inquires_cons_iff.mpr ⟨c, hc, hq⟩⟩
    · rintro ⟨_ | ⟨e, q⟩, hne, hq⟩
      · exact absurd rfl hne
      · obtain ⟨c, hc, hq⟩ := inquires_cons_iff.mp hq
        exact ⟨e, c, hc, (hchild hc).mpr ⟨q, hq⟩⟩

theorem prefix_of_mem_describedChild (hr : r.Formed) (hc : r.node? e = some c)
    (hd : d ∈ describedChild operations path e c) : path ++ describedAt [e] <+: d.path := by
  have hformed := (hr.node? hc).1
  obtain ⟨q, -, -, -, -, rfl⟩ :=
    (mem_describedChild_iff hformed (mem_describedProxies_iff hformed)).mp hd
  exact List.prefix_append _ _

/-- **No two questions have places of which one leads past the other.** -/
theorem pairwise_apart_describedProxies (hr : r.Formed) :
    ((describedProxies operations path r).map (·.path)).Pairwise Value.Apart := by
  induction hr generalizing path with
  | @intro r hneat heach ih =>
    have hr : r.Formed := ⟨hneat, heach⟩
    rw [describedProxies_eq, List.pairwise_map, List.pairwise_flatMap]
    constructor
    · rintro ⟨e, c⟩ hmem
      obtain ⟨g, hg, hc, -⟩ :=
        Registration.mem_children_of_node? ((mem_registeredChildren_iff hr).mp hmem)
      dsimp only
      rw [describedChild]
      split
      · exact List.pairwise_singleton _ _
      · exact List.pairwise_map.mp (ih _ hg _ hc)
    · refine (pairwise_registeredChildren hr).imp_of_mem fun {x y} hx hy hne d hd d' hd' => ?_
      obtain ⟨p, hp⟩ := prefix_of_mem_describedChild hr ((mem_registeredChildren_iff hr).mp hx) hd
      obtain ⟨p', hp'⟩ :=
        prefix_of_mem_describedChild hr ((mem_registeredChildren_iff hr).mp hy) hd'
      rw [← hp, ← hp']
      simp only [Value.Apart, List.append_assoc, List.prefix_append_right_inj, describedAt,
        List.flatMap_cons, List.flatMap_nil, List.append_nil, List.cons_append, List.nil_append,
        List.cons_prefix_cons]
      grind [Element]

/-! ## What stands there -/

theorem get?_describePatterns (group : List (String × Registration)) (name : String) :
    Dict.get? (Registration.describePatterns recursive operations group) name =
      (Dict.get? group name).map fun c =>
        if recursive && !c.isProxied then c.describe recursive operations
        else .object [("description", .string c.description)] := by
  induction group with
  | nil => rw [Registration.describePatterns]; rfl
  | cons c group ih =>
    obtain ⟨pattern, c⟩ := c
    rw [Registration.describePatterns, Dict.get?, Dict.get?, ih]
    split <;> rfl

theorem get?_describeGroups (groups : List (String × List (String × Registration)))
    (type : String) : Dict.get? (Registration.describeGroups recursive operations groups) type =
      (Dict.get? groups type).map fun group => .object
        [("description", .string ("Children of type " ++ type)),
          ("model-description",
            .object (Registration.describePatterns recursive operations group))] := by
  induction groups with
  | nil => rw [Registration.describeGroups]; rfl
  | cons g groups ih =>
    obtain ⟨other, group⟩ := g
    rw [Registration.describeGroups, Dict.get?, Dict.get?, ih]
    split
    · next hother => rw [hother]; rfl
    · rfl

theorem get?_describe_children (recursive operations : Bool) (r : Registration) :
    (r.describe recursive operations).get? "children" =
      some (.object (Registration.describeGroups recursive operations r.children)) := by
  obtain ⟨address, description, ops, attributes, capabilities, children, proxy⟩ := r
  rw [Registration.describe, Value.get?, Value.fields, Registration.describeSelf]
  cases capabilities.isEmpty <;> cases operations <;> simp [Dict.get?]

/-- What a description shows of a child. -/
theorem getPath?_describe (e : Element) (rest : List String) :
    (r.describe recursive operations).getPath? (describedAt [e] ++ rest) =
      (r.node? e).bind fun c =>
        (if recursive && !c.isProxied then c.describe recursive operations
          else .object [("description", .string c.description)]).getPath? rest := by
  have hpath : describedAt [e] ++ rest =
      "children" :: e.key :: "model-description" :: e.value :: rest := rfl
  rw [hpath, Value.getPath?_cons, get?_describe_children, Option.bind_some, Value.getPath?_cons,
    Value.get?, Value.fields, get?_describeGroups, Registration.node?, Registration.group]
  cases Dict.get? r.children e.key with
  | none => rfl
  | some group =>
    rw [Option.map_some, Option.bind_some, Value.getPath?_cons,
      show (Value.object [("description", .string ("Children of type " ++ e.key)),
          ("model-description", .object (Registration.describePatterns recursive operations
            group))]).get? "model-description" =
        some (.object (Registration.describePatterns recursive operations group)) from rfl,
      Option.bind_some, Value.getPath?_cons, Value.get?, Value.fields, get?_describePatterns,
      Option.bind_map]
    rfl

/-- **A proxied node is described by its name alone.** -/
theorem getPath?_describe_of_inquires (hr : r.Formed) (hlocal : r.proxy = none)
    (h : r.nodeAt? q = some node) (hproxy : node.isProxied = true) :
    (r.describe true operations).getPath? (describedAt q) =
      some (.object [("description", .string node.description)]) := by
  induction q generalizing r with
  | nil =>
    obtain rfl := Option.some.inj h
    simp [Registration.isProxied, hlocal] at hproxy
  | cons e q ih =>
    obtain ⟨c, hc, h⟩ := Option.bind_eq_some_iff.mp h
    have hformed := (hr.node? hc).1
    rw [describedAt_cons]
    refine (getPath?_describe e (describedAt q)).trans ?_
    rw [hc, Option.bind_some]
    cases hbelow : c.proxy with
    | none => simpa [Registration.isProxied, hbelow] using ih hformed hbelow h
    | some proxy =>
      have hproxied : c.isProxied = true := by rw [Registration.isProxied, hbelow]; rfl
      cases q with
      | nil =>
        obtain rfl := Option.some.inj h
        simp [hproxied, describedAt, Value.getPath?]
      | cons e' q =>
        obtain ⟨c', hc', -⟩ := Option.bind_eq_some_iff.mp h
        simp [(hformed.node? hc').2.2] at hproxied

/-- Describing the operations of an address leaves its children alone. -/
theorem getPath?_describeWithInherited (root node : Registration) (address : Address)
    (recursive operations : Bool) (e : Element) (q : Address) :
    (describeWithInherited root node address recursive operations).getPath?
        (describedAt (e :: q)) =
      (node.describe recursive operations).getPath? (describedAt (e :: q)) := by
  rw [describeWithInherited]
  split
  · generalize node.describe recursive operations = v
    induction root.operationNames address generalizing v with
    | nil => rfl
    | cons name names ih =>
      rw [List.foldl_cons, ih]
      split
      · rfl
      · split
        · refine Value.getPath?_setPath_of_apart ?_ _ _
          simp [Value.Apart, describedAt, Key.operations]
        · rfl
  · rfl

/-- **Answers that stand in place of children** leave the operations of a description alone. -/
theorem get?_replaceAll_operations {parts : List (List String × Value)}
    (hparts : ∀ part ∈ parts, ∃ d ∈ describedProxies operations [] r, part.1 = d.path)
    (hr : r.Formed) (v : Value) :
    (v.replaceAll parts).get? Key.operations = v.get? Key.operations := by
  induction parts generalizing v with
  | nil => rfl
  | cons part parts ih =>
    obtain ⟨hpart, hparts⟩ := List.forall_mem_cons.mp hparts
    obtain ⟨d, hd, hpath⟩ := hpart
    obtain ⟨_ | ⟨e, q⟩, hne, node, proxy, -, -, rfl⟩ := (mem_describedProxies_iff hr).mp hd
    · exact absurd rfl hne
    · refine (ih hparts (v.setPath part.1 part.2)).trans ?_
      rw [hpath, show (descriptionQuestion proxy ([] ++ describedAt (e :: q)) operations).path =
        "children" :: ([e.key, "model-description", e.value] ++ describedAt q) from rfl,
        Value.setPath_cons, Value.get?_update, if_neg (by decide)]

end Rendering

end ManagementPlane
