import ManagementPlane.Declaration.Controller
import ManagementPlane.Proofs.Model.Equality

/-!
# Proofs/Registration/Building — the trees that registrations build

A tree is built from its root by registration calls, some of which are refused
(`Registration.built`).  Whatever the calls are, every node stands where its address says, proxies
have nothing below them, and nothing is registered twice (`formed_built`).  What stands at a node
stands there in the order of the calls that were accepted (`operations_built`, `types_built`).
-/

namespace ManagementPlane

namespace Registration

/-! ## Calls -/

/-- A registration at a pattern. -/
inductive Call
  | subModel (pattern : Address) (description : String)
  | proxy (pattern : Address) (owner : Proxy)
  | operation (pattern : Address) (entry : OperationEntry)
  | readOnly (pattern : Address) (definition : AttributeDefinition)
  | readWrite (pattern : Address) (definition : AttributeDefinition) (writer : Option Handler)
  | metric (pattern : Address) (definition : AttributeDefinition) (reader : Handler)
  | capability (pattern : Address) (name : String)

namespace Call

/-- What a call makes of a tree. -/
def run (r : Registration) : Call → Except RegistrationError Registration
  | subModel pattern description => r.addSubModelAt pattern description
  | proxy pattern owner => r.addProxyAt pattern owner
  | operation pattern entry => r.addOperationAt pattern entry
  | readOnly pattern definition => r.addAttributeAt pattern { definition, access := .readOnly }
  | readWrite pattern definition writer =>
    r.addAttributeAt pattern { definition, access := .readWrite, writer }
  | metric pattern definition reader =>
    r.addAttributeAt pattern { definition, access := .metric, reader := some reader }
  | capability pattern name => r.addCapabilityAt pattern name

/-- The name of the operation that a call registers. -/
def operation? : Call → Option String
  | operation _ entry => some entry.definition.name
  | _ => none

/-- The proxy that a call registers. -/
def owner? : Call → Option Proxy
  | proxy _ owner => some owner
  | _ => none

/-- The element that a call adds below its target. -/
def added? : Call → Option Element
  | subModel pattern _ | proxy pattern _ => pattern.getLast?
  | _ => none

/-- The pattern of the node that a call changes. -/
def target : Call → Address
  | subModel pattern _ | proxy pattern _ => pattern.parent
  | operation pattern _ | readOnly pattern _ | readWrite pattern _ _ | metric pattern _ _
  | capability pattern _ => pattern

/-- The type of the child that a call registers. -/
def type? (call : Call) : Option String := call.added?.map (·.key)

end Call

/-- The tree after a call, which may be refused. -/
def after (r : Registration) (call : Call) : Registration :=
  (Declaration.whole r (call.run r)).2

/-- The tree after calls, whether or not they are accepted. -/
def built (r : Registration) (calls : List Call) : Registration := calls.foldl after r

/-- The calls that are accepted. -/
def accepted (r : Registration) : List Call → List Call
  | [] => []
  | call :: calls =>
    match call.run r with
    | .ok next => call :: accepted next calls
    | .error _ => accepted r calls

/-- The calls that are accepted at a pattern. -/
def acceptedAt (r : Registration) (calls : List Call) (pattern : Address) : List Call :=
  (r.accepted calls).filter (·.target = pattern)

/-! ## Well-formed trees -/

/-- What one node of a tree keeps to. -/
structure Neat (r : Registration) : Prop where
  operations : (Dict.keys r.operations).Nodup
  attributes : (Dict.keys r.attributes).Nodup
  /-- Only metrics are read in another way than from the model. -/
  readers : ∀ f ∈ r.attributes, f.2.access ≠ .metric → f.2.reader = none
  types : (Dict.keys r.children).Nodup
  patterns : ∀ g ∈ r.children, (Dict.keys g.2).Nodup
  /-- A child is registered one element below its parent. -/
  seated : ∀ g ∈ r.children, ∀ c ∈ g.2, c.2.address = r.address ++ [⟨g.1, c.1⟩]
  /-- A proxy answers for all that is below it. -/
  ends : r.isProxied = true → r.children = []

/-- What the nodes of a tree keep to. -/
inductive Formed : Registration → Prop
  | intro {r : Registration} (neat : r.Neat) (children : ∀ g ∈ r.children, ∀ c ∈ g.2, Formed c.2) :
    Formed r

variable {r node new c : Registration} {a b : Address} {e : Element} {call : Call}
  {calls : List Call} {description : String}

theorem Formed.neat (h : r.Formed) : r.Neat := by
  obtain ⟨hneat, -⟩ := h
  exact hneat

theorem Formed.children (h : r.Formed) : ∀ g ∈ r.children, ∀ c ∈ g.2, c.2.Formed := by
  obtain ⟨-, hchildren⟩ := h
  exact hchildren

theorem neat_leaf (address : Address) (description : String) (proxy : Option Proxy) :
    Neat { address, description, proxy } := by
  constructor <;> simp [Dict.keys]

theorem formed_leaf (address : Address) (description : String) (proxy : Option Proxy) :
    Formed { address, description, proxy } :=
  ⟨neat_leaf address description proxy, by simp⟩

/-! ## Nodes by pattern -/

theorem mem_children_of_node? (h : r.node? e = some c) :
    ∃ g, (e.key, g) ∈ r.children ∧ (e.value, c) ∈ g ∧ r.group e.key = g := by
  rw [node?, group] at h
  cases hg : Dict.get? r.children e.key with
  | none => simp [hg] at h
  | some g =>
    rw [hg] at h
    exact ⟨g, Dict.mem_of_get? hg, Dict.mem_of_get? h, by rw [group, hg]; rfl⟩

theorem Formed.node? (h : r.Formed) (hc : r.node? e = some c) :
    c.Formed ∧ c.address = r.address ++ [e] ∧ r.isProxied = false := by
  obtain ⟨g, hg, hmem, -⟩ := mem_children_of_node? hc
  refine ⟨h.children _ hg _ hmem, h.neat.seated _ hg _ hmem, ?_⟩
  by_contra hproxied
  rw [Bool.not_eq_false] at hproxied
  rw [h.neat.ends hproxied] at hg
  cases hg

theorem Formed.nodeAt? (h : r.Formed) (ha : r.nodeAt? a = some node) :
    node.Formed ∧ node.address = r.address ++ a := by
  induction a generalizing r with
  | nil =>
    obtain rfl := Option.some.inj ha
    exact ⟨h, (List.append_nil _).symm⟩
  | cons e es ih =>
    obtain ⟨c, hc, ha⟩ := Option.bind_eq_some_iff.mp ha
    obtain ⟨hformed, haddress, -⟩ := h.node? hc
    obtain ⟨hnode, hes⟩ := ih hformed ha
    exact ⟨hnode, by rw [hes, haddress, List.append_assoc]; rfl⟩

theorem nodeAt?_append (r : Registration) (a b : Address) :
    r.nodeAt? (a ++ b) = (r.nodeAt? a).bind (nodeAt? · b) := by
  induction a generalizing r with
  | nil => rfl
  | cons e es ih =>
    rw [List.cons_append, Registration.nodeAt?, Registration.nodeAt?, Option.bind_assoc]
    congr
    funext c
    exact ih c

theorem get?_putNode (r : Registration) (e : Element) (c : Registration) (e' : Element) :
    (r.putNode e c).node? e' = if e = e' then some c else r.node? e' := by
  obtain ⟨type, name⟩ := e
  obtain ⟨type', name'⟩ := e'
  rw [node?, node?, group, putNode, Dict.get?_put]
  by_cases ht : type = type'
  · subst ht
    by_cases hn : name = name' <;> simp [Dict.get?_put, hn]
  · simp [ht, group]

theorem Formed.nodup_group (h : r.Formed) (type : String) : (Dict.keys (r.group type)).Nodup :=
  Dict.nodup_keys_group h.neat.patterns type

theorem Formed.of_mem_group (h : r.Formed) {type : String} {x : String × Registration}
    (hx : x ∈ r.group type) : x.2.Formed ∧ x.2.address = r.address ++ [⟨type, x.1⟩] := by
  obtain ⟨g, hg, hx⟩ := Dict.exists_of_mem_group hx
  exact ⟨h.children _ hg x hx, h.neat.seated _ hg x hx⟩

theorem Formed.putNode (h : r.Formed) (hr : r.isProxied = false) (hc : c.Formed)
    (ha : c.address = r.address ++ [e]) : (r.putNode e c).Formed := by
  have hput : ∀ x ∈ Dict.put (r.group e.key) e.value c,
      x.2.Formed ∧ x.2.address = r.address ++ [⟨e.key, x.1⟩] := by
    intro x hx
    rcases Dict.mem_of_mem_put hx with rfl | hx
    · exact ⟨hc, ha⟩
    · exact h.of_mem_group hx
  constructor
  · constructor
    · exact h.neat.operations
    · exact h.neat.attributes
    · exact h.neat.readers
    · exact Dict.nodup_keys_put h.neat.types _ _
    · intro g hg
      rcases Dict.mem_of_mem_put hg with rfl | hg
      · exact Dict.nodup_keys_put (h.nodup_group e.key) _ _
      · exact h.neat.patterns g hg
    · intro g hg x hx
      rcases Dict.mem_of_mem_put hg with rfl | hg
      · exact (hput x hx).2
      · exact h.neat.seated g hg x hx
    · intro hproxied
      exact absurd (hr.symm.trans hproxied) (by decide)
  · intro g hg x hx
    rcases Dict.mem_of_mem_put hg with rfl | hg
    · exact (hput x hx).1
    · exact h.children g hg x hx

/-- **A node may be replaced by a well-formed one of the same address.** -/
theorem Formed.replaceAt (h : r.Formed) (ha : r.nodeAt? a = some node) (hnew : new.Formed)
    (haddress : new.address = node.address) :
    (Registration.replaceAt new a r).Formed ∧
      (Registration.replaceAt new a r).address = r.address := by
  induction a generalizing r with
  | nil =>
    obtain rfl := Option.some.inj ha
    exact ⟨hnew, haddress⟩
  | cons e es ih =>
    obtain ⟨c, hc, ha⟩ := Option.bind_eq_some_iff.mp ha
    obtain ⟨hformed, hseat, hr⟩ := h.node? hc
    obtain ⟨hreplaced, hsame⟩ := ih hformed ha
    rw [Registration.replaceAt, hc]
    exact ⟨h.putNode hr hreplaced (hsame.trans hseat), rfl⟩

/-! ## One call -/

/-- A change at a pattern is a change of the node there. -/
theorem changeAt_eq_ok {change : Registration → Except RegistrationError Registration}
    (h : r.changeAt a change = .ok new) :
    ∃ node next, r.nodeAt? a = some node ∧ change node = .ok next ∧
      new = Registration.replaceAt next a r := by
  rw [changeAt] at h
  cases hnode : r.nodeAt? a with
  | none => simp [hnode] at h
  | some node =>
    simp only [hnode] at h
    cases hnext : change node with
    | error e => simp [hnext, Except.map] at h
    | ok next =>
      rw [hnext] at h
      exact ⟨node, next, rfl, hnext, (Except.ok.inj h).symm⟩

theorem addNode_eq_ok {proxy : Option Proxy} (h : addNode e description proxy r = .ok new) :
    r.isProxied = false ∧ r.node? e = none ∧
      new = r.putNode e { address := r.address ++ [e], description, proxy } := by
  rw [addNode] at h
  split at h
  · cases h
  · next hproxied =>
    split at h
    · cases h
    · next hnode =>
      refine ⟨by simpa using hproxied, by simpa using hnode, (Except.ok.inj h).symm⟩

theorem addOperation_eq_ok {entry : OperationEntry} (h : addOperation entry r = .ok new) :
    entry.definition.name ∉ Dict.keys r.operations ∧
      new = { r with operations := Dict.put r.operations entry.definition.name entry } := by
  rw [addOperation] at h
  split at h
  · cases h
  · next hnot =>
    refine ⟨?_, (Except.ok.inj h).symm⟩
    rw [← Dict.get?_eq_none_iff]
    simpa [Dict.has] using hnot

theorem addAttribute_eq_ok {entry : AttributeEntry} (h : addAttribute entry r = .ok new) :
    new = { r with attributes := Dict.put r.attributes entry.definition.name entry } := by
  rw [addAttribute] at h
  split at h
  · cases h
  · exact (Except.ok.inj h).symm

/-- A change that keeps nodes well-formed, with their addresses. -/
def Keeps (change : Registration → Except RegistrationError Registration) : Prop :=
  ∀ node next, change node = .ok next → node.Formed → next.Formed ∧ next.address = node.address

theorem keeps_addNode (e : Element) (description : String) (proxy : Option Proxy) :
    Keeps (addNode e description proxy) := by
  intro node next h hnode
  obtain ⟨hproxied, -, rfl⟩ := addNode_eq_ok h
  exact ⟨hnode.putNode hproxied (formed_leaf _ _ _) rfl, rfl⟩

theorem keeps_addOperation (entry : OperationEntry) : Keeps (addOperation entry) := by
  intro node next h hnode
  obtain ⟨-, rfl⟩ := addOperation_eq_ok h
  exact ⟨⟨{ hnode.neat with operations := Dict.nodup_keys_put hnode.neat.operations _ _ },
    hnode.children⟩, rfl⟩

theorem keeps_addAttribute {entry : AttributeEntry}
    (hentry : entry.access ≠ .metric → entry.reader = none) : Keeps (addAttribute entry) := by
  intro node next h hnode
  obtain rfl := addAttribute_eq_ok h
  refine ⟨⟨{ hnode.neat with
    attributes := Dict.nodup_keys_put hnode.neat.attributes _ _
    readers := fun f hf => ?_ }, hnode.children⟩, rfl⟩
  rcases Dict.mem_of_mem_put hf with rfl | hf
  · exact hentry
  · exact hnode.neat.readers f hf

theorem keeps_addCapability (name : String) :
    Keeps fun node => .ok (addCapability name node) := by
  intro node next h hnode
  obtain rfl := Except.ok.inj h
  rw [addCapability]
  split
  · exact ⟨hnode, rfl⟩
  · exact ⟨⟨{ hnode.neat with }, hnode.children⟩, rfl⟩

theorem Keeps.changeAt {change : Registration → Except RegistrationError Registration}
    (hchange : Keeps change) (h : r.changeAt a change = .ok new) (hr : r.Formed) :
    new.Formed ∧ new.address = r.address := by
  obtain ⟨node, next, hnode, hnext, rfl⟩ := changeAt_eq_ok h
  obtain ⟨hformed, haddress⟩ := hchange node next hnext (hr.nodeAt? hnode).1
  exact hr.replaceAt hnode hformed haddress

/-- A name goes to the end unless it is there already. -/
def insertNew (names : List String) (name : String) : List String :=
  if name ∈ names then names else names ++ [name]

theorem distinct_eq_foldl (names : List String) : distinct names = names.foldl insertNew [] := rfl

namespace Call

/-- The change that a call makes at its target. -/
def change : Call → Registration → Except RegistrationError Registration
  | subModel pattern description =>
    match pattern.getLast? with
    | none => fun _ => .error .rootPattern
    | some e => addNode e description none
  | proxy pattern owner =>
    match pattern.getLast? with
    | none => fun _ => .error .rootPattern
    | some e => addNode e ("Remote controller at " ++ e.text) (some owner)
  | operation _ entry => addOperation entry
  | readOnly _ definition => addAttribute { definition, access := .readOnly }
  | readWrite _ definition writer => addAttribute { definition, access := .readWrite, writer }
  | metric _ definition reader =>
    addAttribute { definition, access := .metric, reader := some reader }
  | capability _ name => fun node => .ok (addCapability name node)

/-- **Every call is a change at its target.** -/
theorem run_eq (r : Registration) (call : Call) :
    call.run r = r.changeAt call.target call.change := by
  cases call with
  | subModel pattern description =>
    rw [run, addSubModelAt, target, change]
    cases hlast : pattern.getLast? with
    | some e => rfl
    | none =>
      obtain rfl := List.getLast?_eq_none_iff.mp hlast
      rfl
  | proxy pattern owner =>
    rw [run, addProxyAt, target, change]
    cases hlast : pattern.getLast? with
    | some e => rfl
    | none =>
      obtain rfl := List.getLast?_eq_none_iff.mp hlast
      rfl
  | _ => rfl

theorem keeps_change (call : Call) : Keeps call.change := by
  cases call with
  | subModel pattern description =>
    rw [change]
    split
    · intro node next h
      cases h
    · exact keeps_addNode _ _ _
  | proxy pattern owner =>
    rw [change]
    split
    · intro node next h
      cases h
    · exact keeps_addNode _ _ _
  | operation pattern entry => exact keeps_addOperation entry
  | readOnly pattern definition => exact keeps_addAttribute fun _ => rfl
  | readWrite pattern definition writer => exact keeps_addAttribute fun _ => rfl
  | metric pattern definition reader => exact keeps_addAttribute fun h => absurd rfl h
  | capability pattern name => exact keeps_addCapability name

/-- **What a call can do to its target**: add a child, or leave the children alone. -/
theorem change_eq_ok (h : call.change node = .ok new) :
    (∃ e description, call.added? = some e ∧ call.operation? = none ∧
      addNode e description call.owner? node = .ok new) ∨
    call.added? = none ∧ new.children = node.children ∧ new.proxy = node.proxy ∧
      Dict.keys new.operations =
        Dict.keys node.operations ++ call.operation?.toList := by
  cases call with
  | subModel pattern description | proxy pattern owner =>
    cases hlast : pattern.getLast? with
    | none => simp [change, hlast] at h
    | some e => exact .inl ⟨e, _, hlast, rfl, by simpa [change, hlast, owner?] using h⟩
  | operation pattern entry =>
    obtain ⟨hnew, rfl⟩ := addOperation_eq_ok h
    exact .inr ⟨rfl, rfl, rfl, by simp [Dict.keys_put, hnew, operation?]⟩
  | readOnly pattern definition | readWrite pattern definition writer
  | metric pattern definition reader =>
    obtain rfl := addAttribute_eq_ok h
    exact .inr ⟨rfl, rfl, rfl, (List.append_nil _).symm⟩
  | capability pattern name =>
    obtain rfl := Except.ok.inj h
    rw [addCapability]
    split <;> exact .inr ⟨rfl, rfl, rfl, (List.append_nil _).symm⟩

/-- An operation goes to the end of those at its target. -/
theorem keys_operations_change (h : call.change node = .ok new) :
    Dict.keys new.operations =
      Dict.keys node.operations ++ call.operation?.toList := by
  rcases change_eq_ok h with ⟨e, description, -, hnone, hadd⟩ | ⟨-, -, -, hkeys⟩
  · obtain ⟨-, -, rfl⟩ := addNode_eq_ok hadd
    rw [hnone]
    exact (List.append_nil _).symm
  · exact hkeys

/-- A new type goes to the end of those at its target. -/
theorem childTypes_change (h : call.change node = .ok new) :
    new.childTypes = call.type?.toList.foldl insertNew node.childTypes := by
  rcases change_eq_ok h with ⟨e, description, hadded, -, hadd⟩ | ⟨hadded, hchildren, -⟩
  · obtain ⟨-, -, rfl⟩ := addNode_eq_ok hadd
    simp [type?, hadded, childTypes, putNode, Dict.keys_put, insertNew]
  · simp [type?, hadded, childTypes, hchildren]

end Call

/-- **A call keeps the tree well-formed.** -/
theorem Formed.run (hr : r.Formed) (h : call.run r = .ok new) :
    new.Formed ∧ new.address = r.address :=
  call.keeps_change.changeAt (call.run_eq r ▸ h) hr

theorem after_of_ok (h : call.run r = .ok new) : r.after call = new := by
  rw [after, h]
  rfl

/-- **A call that is refused leaves the tree alone.** -/
theorem after_of_error {error : RegistrationError} (h : call.run r = .error error) :
    r.after call = r := by
  rw [after, h]
  rfl

/-! ## What a call leaves alone -/

section Frame

variable {β : Type} {f : Registration → β}

/-- **A change at a node is seen there and below**, and nowhere else by anyone who does not look
into children that are there. -/
theorem map_nodeAt?_replaceAt
    (hf : ∀ {r e c was}, r.node? e = some was → f (r.putNode e c) = f r)
    (ha : r.nodeAt? a = some node) (b : Address) :
    ((Registration.replaceAt new a r).nodeAt? b).map f =
      if a <+: b then (new.nodeAt? (b.drop a.length)).map f else (r.nodeAt? b).map f := by
  induction a generalizing r b with
  | nil => simp [Registration.replaceAt]
  | cons e es ih =>
    obtain ⟨c, hc, ha⟩ := Option.bind_eq_some_iff.mp ha
    rw [Registration.replaceAt, hc]
    cases b with
    | nil => simp [Registration.nodeAt?, hf hc]
    | cons d ds =>
      rw [Registration.nodeAt?, Registration.nodeAt?, get?_putNode]
      by_cases hd : e = d
      · subst hd
        simpa [hc] using ih ha ds
      · simp [hd]

/-- What is shown of the node of a pattern, if there is one. -/
def shownAt (f : Registration → List String) (r : Registration) (pattern : Address) : List String :=
  ((r.nodeAt? pattern).map f).getD []

variable {f : Registration → List String}

theorem shownAt_of_children {next : Registration} (h : next.children = node.children)
    (b : Address) : shownAt f next b = if b = [] then f next else shownAt f node b := by
  cases b with
  | nil => rfl
  | cons e es =>
    rw [if_neg (List.cons_ne_nil e es), shownAt, shownAt, Registration.nodeAt?,
      Registration.nodeAt?, node?, group, h]
    rfl

theorem shownAt_addNode {next : Registration} {proxy : Option Proxy}
    (hleaf : ∀ address description proxy, f { address, description, proxy } = [])
    (h : addNode e description proxy node = .ok next) (b : Address) :
    shownAt f next b = if b = [] then f next else shownAt f node b := by
  obtain ⟨-, hnone, rfl⟩ := addNode_eq_ok h
  cases b with
  | nil => rfl
  | cons d ds =>
    rw [if_neg (List.cons_ne_nil d ds), shownAt, shownAt, Registration.nodeAt?,
      Registration.nodeAt?, get?_putNode]
    by_cases hd : e = d
    · subst hd
      rw [if_pos rfl, hnone]
      cases ds with
      | nil => simp [Registration.nodeAt?, hleaf]
      | cons d ds => rfl
    · rw [if_neg hd]

/-- **A call is seen at its target**, and nowhere else. -/
theorem shownAt_run
    (hf : ∀ {r e c was}, r.node? e = some was → f (r.putNode e c) = f r)
    (hleaf : ∀ address description proxy, f { address, description, proxy } = [])
    (h : call.run r = .ok new) : ∃ node next, r.nodeAt? call.target = some node ∧
      call.change node = .ok next ∧
        ∀ b, shownAt f new b = if b = call.target then f next else shownAt f r b := by
  obtain ⟨node, next, hnode, hnext, rfl⟩ := changeAt_eq_ok (call.run_eq r ▸ h)
  have hchange : ∀ b, shownAt f next b = if b = [] then f next else shownAt f node b := by
    rcases Call.change_eq_ok hnext with ⟨e, description, -, -, hadd⟩ | ⟨-, hchildren, -⟩
    · exact shownAt_addNode hleaf hadd
    · exact shownAt_of_children hchildren
  refine ⟨node, next, hnode, hnext, fun b => ?_⟩
  rw [shownAt, map_nodeAt?_replaceAt hf hnode]
  split
  · next hprefix =>
    obtain ⟨rest, rfl⟩ := hprefix
    rw [List.drop_left]
    refine (hchange rest).trans ?_
    simp [shownAt, nodeAt?_append, hnode]
  · next hprefix =>
    rw [if_neg (by rintro rfl; exact hprefix (List.prefix_refl _))]
    rfl

end Frame

/-! ## All calls -/

/-- What every accepted call keeps, the whole building keeps. -/
theorem built_induction {P : Registration → Prop} (hr : P r)
    (hcall : ∀ {r new call}, call ∈ calls → P r → Call.run r call = .ok new → P new) :
    P (r.built calls) := by
  induction calls generalizing r with
  | nil => exact hr
  | cons call calls ih =>
    refine ih ?_ fun hmem => hcall (List.mem_cons_of_mem _ hmem)
    cases h : call.run r with
    | ok new =>
      rw [after_of_ok h]
      exact hcall List.mem_cons_self hr h
    | error e => rwa [after_of_error h]

/-- **What is shown of a node follows the accepted calls** one by one, if a call at the node adds
what it registers and nothing else is seen there. -/
theorem shownAt_built {f : Registration → List String} {added : Call → Option String}
    {insert : List String → String → List String}
    (hf : ∀ {r e c was}, r.node? e = some was → f (r.putNode e c) = f r)
    (hleaf : ∀ address description proxy, f { address, description, proxy } = [])
    (hchange : ∀ {call node next}, Call.change call node = .ok next →
      f next = (added call).toList.foldl insert (f node))
    (a : Address) (r : Registration) (calls : List Call) :
    shownAt f (r.built calls) a =
      ((r.acceptedAt calls a).filterMap added).foldl insert (shownAt f r a) := by
  induction calls generalizing r with
  | nil => rfl
  | cons call calls ih =>
    refine (ih (r.after call)).trans ?_
    rw [acceptedAt, acceptedAt, accepted]
    cases h : call.run r with
    | error e => rw [after_of_error h]
    | ok new =>
      obtain ⟨node, next, hnode, hnext, hshown⟩ := shownAt_run hf hleaf h
      rw [after_of_ok h, hshown]
      by_cases htarget : call.target = a
      · have hbefore : shownAt f r a = f node := by rw [shownAt, ← htarget, hnode]; rfl
        rw [if_pos htarget.symm, hchange hnext, hbefore]
        cases hadded : added call <;> simp [htarget, hadded]
      · simp [htarget, Ne.symm htarget]

theorem shownAt_of_nodeAt? {f : Registration → List String} (h : r.nodeAt? a = some node) :
    shownAt f r a = f node := by
  rw [shownAt, h]
  rfl

theorem shownAt_root {f : Registration → List String}
    (hleaf : ∀ address description proxy, f { address, description, proxy } = []) :
    shownAt f (root description) a = [] := by
  cases a with
  | nil => exact hleaf _ _ _
  | cons e es => rfl

/-- **Operations stand in the order of their registration.** -/
theorem operations_built (h : ((root description).built calls).nodeAt? a = some node) :
    Dict.keys node.operations =
      ((root description).acceptedAt calls a).filterMap Call.operation? := by
  have hchange : ∀ {call : Call} {node next}, call.change node = .ok next →
      Dict.keys next.operations =
        call.operation?.toList.foldl (fun names name => names ++ [name])
          (Dict.keys node.operations) := by
    intro call node next hnext
    rw [Call.keys_operations_change hnext]
    cases call.operation? <;> simp
  rw [← shownAt_of_nodeAt? (f := (Dict.keys ·.operations)) h,
    shownAt_built (fun _ => rfl) (fun _ _ _ => rfl) hchange, shownAt_root fun _ _ _ => rfl]
  simp [← List.flatMap_def]

theorem childTypes_putNode {was : Registration} (h : r.node? e = some was) :
    (r.putNode e c).childTypes = r.childTypes := by
  obtain ⟨g, hg, -⟩ := mem_children_of_node? h
  rw [childTypes, putNode, Dict.keys_put, if_pos (Dict.mem_keys_of_mem hg)]
  rfl

/-- **Child types stand in the order of their first registration.** -/
theorem childTypes_built (h : ((root description).built calls).nodeAt? a = some node) :
    node.childTypes =
      distinct (((root description).acceptedAt calls a).filterMap Call.type?) := by
  rw [← shownAt_of_nodeAt? (f := childTypes) h,
    shownAt_built childTypes_putNode (fun _ _ _ => rfl) Call.childTypes_change,
    shownAt_root fun _ _ _ => rfl]
  rfl

theorem mem_of_mem_accepted (h : call ∈ r.accepted calls) : call ∈ calls := by
  induction calls generalizing r with
  | nil => exact h
  | cons first calls ih =>
    rw [accepted] at h
    split at h
    · rcases List.mem_cons.mp h with rfl | h
      · exact List.mem_cons_self
      · exact List.mem_cons_of_mem _ (ih h)
    · exact List.mem_cons_of_mem _ (ih h)

/-- **Whatever the calls are, they build a well-formed tree.** -/
theorem formed_built (description : String) (calls : List Call) :
    ((root description).built calls).Formed ∧
      ((root description).built calls).address = Address.root :=
  built_induction (P := fun r => r.Formed ∧ r.address = Address.root) ⟨formed_leaf _ _ _, rfl⟩
    fun _ h hrun => ⟨(h.1.run hrun).1, (h.1.run hrun).2.trans h.2⟩

/-- **Every node stands where its address says.** -/
theorem address_built (h : ((root description).built calls).nodeAt? a = some node) :
    node.address = a := by
  obtain ⟨hformed, haddress⟩ := formed_built description calls
  rw [(hformed.nodeAt? h).2, haddress]
  rfl

/-! ## Proxies -/

/-- Every proxy is registered as deep as the node that it answers for. -/
def Placed (r : Registration) : Prop :=
  ∀ pattern node proxy, r.nodeAt? pattern = some node → node.proxy = some proxy →
    proxy.node.length = pattern.length

/-- **A call registers its proxy** at the end of its pattern, and no other. -/
theorem proxy_change {rest : Address} {was : Registration} {proxy : Proxy}
    (h : call.change node = .ok new) (hwas : new.nodeAt? rest = some was)
    (hproxy : was.proxy = some proxy) :
    (∃ old, node.nodeAt? rest = some old ∧ old.proxy = some proxy) ∨
      call = .proxy (call.target ++ rest) proxy := by
  rcases Call.change_eq_ok h with ⟨e, description, hadded, -, hadd⟩ | ⟨-, hchildren, hsame, -⟩
  · obtain ⟨-, -, rfl⟩ := addNode_eq_ok hadd
    cases rest with
    | nil =>
      obtain rfl := Option.some.inj hwas
      exact .inl ⟨node, rfl, hproxy⟩
    | cons d ds =>
      rw [Registration.nodeAt?, get?_putNode] at hwas
      by_cases hd : e = d
      · subst hd
        rw [if_pos rfl, Option.bind_some] at hwas
        cases ds with
        | nil =>
          obtain rfl := Option.some.inj hwas
          cases call with
          | proxy pattern owner =>
            obtain rfl : owner = proxy := Option.some.inj hproxy
            exact .inr (congrArg (Call.proxy · owner) (List.dropLast_append_getLast? e hadded).symm)
          | _ => cases hproxy
        | cons d' ds => cases hwas
      · rw [if_neg hd] at hwas
        exact .inl ⟨was, hwas, hproxy⟩
  · cases rest with
    | nil =>
      obtain rfl := Option.some.inj hwas
      exact .inl ⟨node, rfl, hsame ▸ hproxy⟩
    | cons d ds =>
      rw [Registration.nodeAt?, node?, group, hchildren] at hwas
      exact .inl ⟨was, hwas, hproxy⟩

/-- **No proxy stands where none was registered.** -/
theorem mem_of_proxy {pattern : Address} {proxy : Proxy}
    (hnode : ((root description).built calls).nodeAt? pattern = some node)
    (hproxy : node.proxy = some proxy) : Call.proxy pattern proxy ∈ calls := by
  revert pattern node proxy
  refine built_induction (P := fun r => ∀ {node : Registration} {pattern : Address} {proxy : Proxy},
    r.nodeAt? pattern = some node → node.proxy = some proxy → Call.proxy pattern proxy ∈ calls)
    ?_ fun {r new call} hcall hr hrun => ?_
  · intro node pattern proxy hnode hproxy
    cases pattern with
    | nil =>
      obtain rfl := Option.some.inj hnode
      cases hproxy
    | cons e es => cases hnode
  · obtain ⟨node, next, hnode, hnext, rfl⟩ := changeAt_eq_ok (call.run_eq r ▸ hrun)
    intro found pattern proxy hfound hproxy
    have hmap : ((Registration.replaceAt next call.target r).nodeAt? pattern).map _ = _ :=
      map_nodeAt?_replaceAt (f := (·.proxy)) (fun _ => rfl) hnode pattern
    rw [hfound, Option.map_some, hproxy] at hmap
    split at hmap
    · next hprefix =>
      obtain ⟨rest, rfl⟩ := hprefix
      rw [List.drop_left] at hmap
      obtain ⟨was, hwas, hproxy⟩ := Option.map_eq_some_iff.mp hmap.symm
      rcases proxy_change hnext hwas hproxy with ⟨old, hold, hproxy⟩ | howner
      · have hfull : r.nodeAt? (call.target ++ rest) = some old := by
          rw [nodeAt?_append, hnode, Option.bind_some, hold]
        exact hr hfull hproxy
      · exact howner ▸ hcall
    · obtain ⟨old, hold, hproxy⟩ := Option.map_eq_some_iff.mp hmap.symm
      exact hr hold hproxy

/-- **Proxies that are registered at their nodes stand there.** -/
theorem placed_built
    (h : ∀ pattern owner, Call.proxy pattern owner ∈ calls → owner.node.length = pattern.length) :
    ((root description).built calls).Placed :=
  fun pattern _ proxy hnode hproxy => h pattern proxy (mem_of_proxy hnode hproxy)

end Registration

end ManagementPlane
