import ManagementPlane.Global.Operations
import ManagementPlane.Proofs.Model.Equality
import ManagementPlane.Resource.Populate

/-!
# Proofs/Global/Local — a controller by itself, and the steps that its composites take

In a registration that is `Local` nothing is proxied and every attribute is kept in the model:
whatever is looked up is answered here (`Local.resolve`), and no reading leaves a question for
somebody else (`renderResource_local`, `describedProxies_local`).

A step of a composite is written relative to it.  `Operation.below` is the same step written down
for itself, and planning a step resolves and checks exactly that operation
(`Composite.planStep_eq_ok`), because a check looks at no address (`check_set_address`).  Where only
standard operations are registered, every step is drawn from them (`Composite.drawn_of_standard`).
-/

namespace ManagementPlane

namespace Registration

/-- No node has a proxy, and every attribute is read from the model and written to it. -/
inductive Local : Registration → Prop
  | intro {r : Registration} (proxy : r.proxy = none)
      (attributes : ∀ f ∈ r.attributes, f.2.reader = none ∧ f.2.writer = none)
      (children : ∀ g ∈ r.children, ∀ c ∈ g.2, Local c.2) : Local r

variable {r : Registration}

/-! ## Looking up -/

theorem Local.isProxied (h : r.Local) : r.isProxied = false := by
  obtain ⟨hproxy, -, -⟩ := h
  rw [Registration.isProxied, hproxy]
  rfl

theorem Local.children (h : r.Local) : ∀ g ∈ r.children, ∀ c ∈ g.2, c.2.Local := by
  obtain ⟨-, -, hchildren⟩ := h
  exact hchildren

section Inherited

variable {P : Registration → Prop} (hP : ∀ {r}, P r → ∀ g ∈ r.children, ∀ c ∈ g.2, P c.2)
include hP

theorem of_mem_group (h : P r) {type name : String} {c : Registration}
    (hc : (name, c) ∈ r.group type) : P c := by
  obtain ⟨g, hg, hc⟩ := Dict.exists_of_mem_group hc
  exact hP h _ hg _ hc

theorem of_child? (h : P r) {e : Element} {c : Registration} (hc : r.child? e = some c) : P c := by
  rcases Option.or_eq_some_iff.mp hc with hc | ⟨-, hc⟩ <;>
    exact of_mem_group hP h (Dict.mem_of_get? hc)

/-- What holds of a node and is handed down holds of every node on the way. -/
theorem of_lookup? {a : Address} {nodes : List Registration} (h : P r)
    (ha : r.lookup? a = some nodes) : ∀ n ∈ nodes, P n := by
  induction a generalizing r nodes with
  | nil =>
    obtain rfl := Option.some.inj ha
    exact List.forall_mem_singleton.mpr h
  | cons e es ih =>
    rw [Registration.lookup?] at ha
    split at ha
    · obtain rfl := Option.some.inj ha
      exact List.forall_mem_singleton.mpr h
    · obtain ⟨c, hc, ha⟩ := Option.bind_eq_some_iff.mp ha
      obtain ⟨rest, hrest, rfl⟩ := Option.map_eq_some_iff.mp ha
      exact List.forall_mem_cons.mpr ⟨h, ih (of_child? hP h hc) hrest⟩

end Inherited

theorem Local.child? (h : r.Local) {e : Element} {c : Registration} (hc : r.child? e = some c) :
    c.Local := of_child? Local.children h hc

theorem Local.lookup? {a : Address} {nodes : List Registration} (h : r.Local)
    (ha : r.lookup? a = some nodes) : ∀ n ∈ nodes, n.Local := of_lookup? Local.children h ha

theorem Local.find? (h : r.Local) {a : Address} {node : Registration}
    (ha : r.find? a = some node) : node.Local := by
  obtain ⟨nodes, hnodes, hlast⟩ := Option.bind_eq_some_iff.mp ha
  exact h.lookup? hnodes node (List.mem_of_getLast? hlast)

/-- Whatever is found is found here. -/
theorem Local.findLocal (h : r.Local) {a : Address} {node : Registration}
    (ha : r.findLocal a = .ok node) : node.Local := by
  rw [Registration.findLocal] at ha
  split at ha
  · rename_i hfind
    split at ha
    · cases ha
    · obtain rfl := Except.ok.inj ha
      exact h.find? hfind
  · cases ha

theorem firstProxy?_eq_none {nodes : List Registration} (h : ∀ n ∈ nodes, n.proxy = none) :
    firstProxy? nodes = none := by
  induction nodes with
  | nil => rfl
  | cons n nodes ih =>
    obtain ⟨hproxy, hnodes⟩ := List.forall_mem_cons.mp h
    rw [firstProxy?, hproxy, ih hnodes]
    rfl

theorem proxyFor?_eq_none {a : Address}
    (h : ∀ nodes, r.lookup? a = some nodes → ∀ n ∈ nodes, n.proxy = none) :
    r.proxyFor? a = none := by
  rw [proxyFor?]
  cases hnodes : r.lookup? a with
  | none => rfl
  | some nodes =>
    rw [Option.bind_some, firstProxy?_eq_none (h nodes hnodes)]
    rfl

theorem Local.proxyFor? (h : r.Local) (a : Address) : r.proxyFor? a = none := by
  refine proxyFor?_eq_none fun nodes hnodes n hn => ?_
  obtain ⟨hproxy, -, -⟩ := h.lookup? hnodes n hn
  exact hproxy

/-- What no proxy answers for runs here. -/
theorem resolve_of_proxyFor? {a : Address} {name : String} {resolved : Resolved}
    (h : r.proxyFor? a = none) (ha : r.resolve a name = .ok resolved) :
    ∃ node entry, resolved = .here node entry ∧ r.find? a = some node ∧
      r.operation? a name = some entry := by
  rw [Registration.resolve, h] at ha
  dsimp only at ha
  split at ha
  · cases ha
  · rename_i node hfind
    split at ha
    · cases ha
    · rename_i entry hentry
      obtain rfl := Except.ok.inj ha
      exact ⟨_, _, rfl, hfind, hentry⟩

/-- **Everything runs here.** -/
theorem Local.resolve (h : r.Local) {a : Address} {name : String} {resolved : Resolved}
    (ha : r.resolve a name = .ok resolved) : ∃ node entry, resolved = .here node entry ∧
      r.find? a = some node ∧ r.operation? a name = some entry :=
  resolve_of_proxyFor? (h.proxyFor? a) ha

theorem exists_of_inherited? {name : String} {entry : OperationEntry} {nodes : List Registration}
    (h : inherited? name nodes = some entry) :
    ∃ n ∈ nodes, (name, entry) ∈ n.operations ∧ entry.inherited = true := by
  induction nodes with
  | nil => cases h
  | cons n nodes ih =>
    rcases Option.or_eq_some_iff.mp h with h | ⟨-, h⟩
    · obtain ⟨m, hm, hentry⟩ := ih h
      exact ⟨m, List.mem_cons_of_mem _ hm, hentry⟩
    · obtain ⟨hentry, hinherited⟩ := Option.filter_eq_some_iff.mp h
      exact ⟨n, List.mem_cons_self, Dict.mem_of_get? hentry, hinherited⟩

/-- An operation is registered at its own node, or on the way there and inherited. -/
theorem exists_of_operation? {a : Address} {name : String} {entry : OperationEntry}
    (h : r.operation? a name = some entry) : ∃ nodes, r.lookup? a = some nodes ∧
      ∃ n ∈ nodes, (name, entry) ∈ n.operations ∧
        (r.find? a = some n ∨ entry.inherited = true) := by
  obtain ⟨nodes, hnodes, h⟩ := Option.bind_eq_some_iff.mp h
  obtain ⟨own, hown, h⟩ := Option.bind_eq_some_iff.mp h
  refine ⟨nodes, hnodes, ?_⟩
  rcases Option.or_eq_some_iff.mp h with h | ⟨-, h⟩
  · refine ⟨own, List.mem_of_getLast? hown, Dict.mem_of_get? h, .inl ?_⟩
    rw [Registration.find?, hnodes]
    exact hown
  · obtain ⟨n, hn, hentry, hinherited⟩ := exists_of_inherited? h
    exact ⟨n, List.dropLast_subset _ hn, hentry, .inr hinherited⟩

theorem Local.resolve_eq (h : r.Local) {a : Address} {name : String} {node : Registration}
    {entry : OperationEntry} (hnode : r.find? a = some node)
    (hentry : r.operation? a name = some entry) : r.resolve a name = .ok (.here node entry) := by
  rw [Registration.resolve, h.proxyFor? a, hnode]
  dsimp only
  rw [hentry]

theorem isSome_find? (a : Address) : (r.find? a).isSome = (r.lookup? a).isSome := by
  rw [find?]
  cases hnodes : r.lookup? a with
  | none => rfl
  | some nodes =>
    have hne : nodes ≠ [] := by
      rintro rfl
      cases a with
      | nil => cases hnodes
      | cons e es =>
        rw [lookup?] at hnodes
        split at hnodes
        · cases hnodes
        · obtain ⟨c, -, hnodes⟩ := Option.bind_eq_some_iff.mp hnodes
          obtain ⟨rest, -, ⟨⟩⟩ := Option.map_eq_some_iff.mp hnodes
    rw [Option.bind_some, List.getLast?_isSome.mpr hne]
    rfl

/-- What is above a registered address is registered. -/
theorem Local.lookup?_prefix (h : r.Local) {a b : Address} (hab : (r.lookup? (a ++ b)).isSome) :
    (r.lookup? a).isSome := by
  induction a generalizing r with
  | nil => rfl
  | cons e es ih =>
    rw [List.cons_append, Registration.lookup?, if_neg (by rw [h.isProxied]; decide)] at hab
    rw [Registration.lookup?, if_neg (by rw [h.isProxied]; decide)]
    cases hc : r.child? e with
    | none =>
      rw [hc] at hab
      cases hab
    | some c =>
      rw [hc] at hab
      rw [Option.bind_some, Option.isSome_map] at hab ⊢
      exact ih (h.child? hc) hab

end Registration

/-! ## Nobody else is asked -/

namespace Rendering

open Registration (Local)

variable {o : ReadOptions}

theorem arrange_snd {types : List String}
    {groups : Dict (List (String × Value × List Delegation))} {fields : Dict Value}
    (h : ∀ g ∈ groups, ∀ c ∈ g.2, c.2.2 = []) : (arrange types groups fields).2 = [] := by
  refine List.flatMap_eq_nil_iff.mpr fun type _ => List.flatMap_eq_nil_iff.mpr fun c hc => ?_
  dsimp only at hc
  cases hgroup : Dict.get? groups type with
  | none =>
    rw [hgroup] at hc
    cases hc
  | some g =>
    rw [hgroup] at hc
    exact h _ (Dict.mem_of_get? hgroup) c hc

mutual

/-- **Reading a local resource leaves no questions.** -/
theorem renderResource_local {r : Registration} (h : r.Local) (address : Address)
    (path : List String) (resource : Resource) :
    (renderResource o r address path resource).2 = [] := by
  match resource with
  | ⟨attributes, children⟩ =>
    rw [renderResource]
    exact arrange_snd (renderGroups_local h address path children)

theorem renderGroups_local {r : Registration} (h : r.Local) (address : Address)
    (path : List String) (groups : List (String × List (String × Resource))) :
    ∀ g ∈ renderGroups o r address path groups, ∀ c ∈ g.2, c.2.2 = [] := by
  match groups with
  | [] =>
    rw [renderGroups]
    rintro _ ⟨⟩
  | (type, group) :: rest =>
    rw [renderGroups]
    exact List.forall_mem_cons.mpr ⟨renderChildren_local h address path type group,
      renderGroups_local h address path rest⟩

theorem renderChildren_local {r : Registration} (h : r.Local) (address : Address)
    (path : List String) (type : String) (group : List (String × Resource)) :
    ∀ c ∈ renderChildren o r address path type group, c.2.2 = [] := by
  match group with
  | [] =>
    rw [renderChildren]
    rintro _ ⟨⟩
  | (name, child) :: rest =>
    rw [renderChildren]
    refine List.forall_mem_cons.mpr ⟨?_, renderChildren_local h address path type rest⟩
    dsimp only
    split
    · rfl
    · rename_i c hc
      have hlocal : c.Local := h.child? hc
      obtain ⟨hproxy, -, -⟩ := hlocal
      rw [hproxy]
      dsimp only
      split
      · exact renderResource_local (h.child? hc) _ _ child
      · rfl

end

mutual

/-- **Describing a local resource leaves no questions.** -/
theorem describedProxies_local (operations : Bool) (path : List String) (r : Registration)
    (h : r.Local) : describedProxies operations path r = [] := by
  match r, h with
  | ⟨_, _, _, _, _, children, _⟩, .intro _ _ hchildren =>
    rw [describedProxies]
    exact groupProxies_local operations path children hchildren

theorem groupProxies_local (operations : Bool) (path : List String)
    (groups : List (String × List (String × Registration)))
    (h : ∀ g ∈ groups, ∀ c ∈ g.2, c.2.Local) : groupProxies operations path groups = [] := by
  match groups with
  | [] => rw [groupProxies]
  | (type, group) :: rest =>
    obtain ⟨hgroup, hrest⟩ := List.forall_mem_cons.mp h
    rw [groupProxies, patternProxies_local operations _ group hgroup,
      groupProxies_local operations path rest hrest]
    rfl

theorem patternProxies_local (operations : Bool) (path : List String)
    (group : List (String × Registration)) (h : ∀ c ∈ group, c.2.Local) :
    patternProxies operations path group = [] := by
  match group with
  | [] => rw [patternProxies]
  | (pattern, child) :: rest =>
    obtain ⟨hchild, hrest⟩ := List.forall_mem_cons.mp h
    have hproxy : child.proxy = none := by
      obtain ⟨hproxy, -, -⟩ := hchild
      exact hproxy
    rw [patternProxies, hproxy]
    dsimp only
    rw [describedProxies_local operations _ child hchild,
      patternProxies_local operations path rest hrest]
    rfl

end

end Rendering

/-! ## Operations and their addresses -/

theorem Address.ofValue_toValue (a : Address) : Address.ofValue a.toValue = .ok a := by
  show (a.map Element.toValue).mapM Element.ofValue = .ok a
  induction a with
  | nil => rfl
  | cons e es ih =>
    rw [List.map_cons, List.mapM_cons, ih]
    rfl

theorem Address.isConcrete_append {a b : Address} :
    isConcrete (a ++ b) = (a.isConcrete && b.isConcrete) := List.all_append

theorem AttributeDefinition.checkFields_congr {declared : List (String × AttributeDefinition)}
    {v w : Value} (h : ∀ f ∈ declared, v.get f.1 = w.get f.1) :
    checkFields declared v = checkFields declared w := by
  induction declared with
  | nil => rw [checkFields, checkFields]
  | cons f rest ih =>
    obtain ⟨key, d⟩ := f
    obtain ⟨hkey, hrest⟩ := List.forall_mem_cons.mp h
    rw [checkFields, checkFields, ih hrest, hkey]

namespace OperationDefinition

/-- A check does not look at the address of the operation. -/
theorem check_set_address {d : OperationDefinition}
    (h : Key.address ∉ Dict.keys d.parameters) (operation v : Value) :
    d.check (operation.set Key.address v) = d.check operation := by
  have hunknown : d.unknownParameter? (operation.set Key.address v)
      = d.unknownParameter? operation := by
    show (Dict.keys (Dict.put operation.fields Key.address v)).find? _ = _
    rw [Dict.keys_put]
    split
    · rfl
    · rw [List.find?_append]
      exact Option.or_none
  have hfields : AttributeDefinition.checkFields d.parameters (operation.set Key.address v)
      = AttributeDefinition.checkFields d.parameters operation := by
    refine AttributeDefinition.checkFields_congr fun f hf => ?_
    have hne : Key.address ≠ f.1 := fun heq => h (heq ▸ List.mem_map_of_mem hf)
    rw [Value.get, Value.get, Value.get?_set, if_neg hne]
  rw [check, check, hunknown, hfields]

theorem readOnly_of (name description : String) (parameters : List AttributeDefinition)
    (replyType : ValueType) (readOnly : Bool) :
    (of name description parameters replyType readOnly).readOnly = readOnly := by
  have hfold : ∀ (ps : List AttributeDefinition) (d : OperationDefinition),
      (ps.foldl withParameter d).readOnly = d.readOnly := by
    intro ps
    induction ps with
    | nil => exact fun d => rfl
    | cons p ps ih => exact fun d => ih (d.withParameter p)
  exact hfold parameters _

theorem mem_keys_of (name description : String) (parameters : List AttributeDefinition)
    (replyType : ValueType) (readOnly : Bool) {key : String}
    (h : key ∈ Dict.keys (of name description parameters replyType readOnly).parameters) :
    ∃ p ∈ parameters, p.name = key := by
  have hfold : ∀ (ps : List AttributeDefinition) (d : OperationDefinition),
      key ∈ Dict.keys (ps.foldl withParameter d).parameters →
      key ∈ Dict.keys d.parameters ∨ ∃ p ∈ ps, p.name = key := by
    intro ps
    induction ps with
    | nil => exact fun d h => .inl h
    | cons p ps ih =>
      intro d h
      rcases ih _ h with h | ⟨q, hq, hkey⟩
      · rw [withParameter, Dict.keys_put] at h
        split at h
        · exact .inl h
        · rcases List.mem_append.mp h with h | h
          · exact .inl h
          · exact .inr ⟨p, List.mem_cons_self, (List.mem_singleton.mp h).symm⟩
      · exact .inr ⟨q, List.mem_cons_of_mem _ hq, hkey⟩
  rcases hfold parameters _ h with h | h
  · cases h
  · exact h

end OperationDefinition

/-- A global operation, or one that adds or removes a resource in the model only.  What is added
must not call an attribute by the word for the address of an operation. -/
inductive OperationEntry.Standard : OperationEntry → Prop
  | global (g : GlobalOperation) (inherited : Bool) :
    Standard { definition := g.definition, handler := .global g, inherited }
  | add (attributes : List AttributeDefinition) (inherited : Bool)
      (h : ∀ d ∈ attributes, d.name ≠ Key.address) :
    Standard { definition := addDefinition attributes, handler := .add attributes, inherited }
  | remove (inherited : Bool) :
    Standard { definition := removeDefinition, handler := .remove, inherited }

theorem OperationEntry.Standard.address_notMem {entry : OperationEntry} (h : entry.Standard) :
    Key.address ∉ Dict.keys entry.definition.parameters := by
  cases h with
  | global g =>
    show Key.address ∉ Dict.keys g.definition.parameters
    cases g <;> decide
  | add attributes inherited h =>
    intro hkey
    obtain ⟨d, hd, hname⟩ := OperationDefinition.mem_keys_of _ _ _ _ _ hkey
    exact h d hd hname
  | remove =>
    show Key.address ∉ Dict.keys removeDefinition.parameters
    decide

namespace Operation

/-- A step of a composite at `base`, written down for itself. -/
def below (base : Address) (step : Value) : Value :=
  match addressOf step with
  | .ok relative => step.set Key.address (base ++ relative).toValue
  | .error _ => step

theorem parse_eq_ok {operation : Value} {name : String} {a : Address} :
    parse operation = .ok (name, a) ↔ operation.get? Key.operation = some (.string name) ∧
      name.isEmpty = false ∧ addressOf operation = .ok a ∧ a.isConcrete = true := by
  rw [parse]
  split
  · rename_i s hs
    rw [hs]
    cases hempty : s.isEmpty with
    | true =>
      rw [if_pos rfl]
      refine ⟨by rintro ⟨⟩, ?_⟩
      rintro ⟨hname, hnot, -⟩
      obtain rfl : s = name := by injection Option.some.inj hname
      cases hempty.symm.trans hnot
    | false =>
      rw [if_neg (by decide)]
      cases haddress : addressOf operation with
      | error e =>
        refine ⟨by rintro ⟨⟩, ?_⟩
        rintro ⟨-, -, ⟨⟩, -⟩
      | ok b =>
        show (if b.isConcrete = true then _ else _) = _ ↔ _
        split
        · rename_i hconcrete
          refine ⟨fun h => ?_, ?_⟩
          · obtain ⟨rfl, rfl⟩ := Prod.mk.inj (Except.ok.inj h)
            exact ⟨rfl, hempty, rfl, hconcrete⟩
          · rintro ⟨hname, -, hb, -⟩
            obtain rfl : s = name := by injection Option.some.inj hname
            obtain rfl := Except.ok.inj hb
            rfl
        · rename_i hwild
          refine ⟨by rintro ⟨⟩, ?_⟩
          rintro ⟨-, -, hb, hconcrete⟩
          obtain rfl := Except.ok.inj hb
          exact absurd hconcrete hwild
  · rename_i hnone
    refine ⟨by rintro ⟨⟩, ?_⟩
    rintro ⟨hname, -⟩
    exact absurd hname (hnone name)

theorem addressOf_set (operation : Value) (a : Address) :
    addressOf (operation.set Key.address a.toValue) = .ok a := by
  rw [addressOf, Value.get, Value.get?_set_self]
  exact Address.ofValue_toValue a

/-- **A step written down for itself** has the name of the step and the joined address. -/
theorem parse_below {base : Address} (hbase : base.isConcrete = true) {step : Value}
    {name : String} {a : Address} : parse (below base step) = .ok (name, a) ↔
      ∃ relative, parse step = .ok (name, relative) ∧ a = base ++ relative := by
  rw [below]
  split
  · rename_i relative hrelative
    have hname : (step.set Key.address (base ++ relative).toValue).get? Key.operation
        = step.get? Key.operation := by
      rw [Value.get?_set, if_neg (by decide)]
    rw [parse_eq_ok, hname, addressOf_set]
    constructor
    · rintro ⟨hop, hempty, haddress, hconcrete⟩
      obtain rfl := Except.ok.inj haddress
      rw [Address.isConcrete_append, hbase, Bool.true_and] at hconcrete
      exact ⟨relative, parse_eq_ok.mpr ⟨hop, hempty, hrelative, hconcrete⟩, rfl⟩
    · rintro ⟨relative', hparse, rfl⟩
      obtain ⟨hop, hempty, haddress, hconcrete⟩ := parse_eq_ok.mp hparse
      obtain rfl := Except.ok.inj (hrelative.symm.trans haddress)
      exact ⟨hop, hempty, rfl, by rw [Address.isConcrete_append, hbase, hconcrete]; rfl⟩
  · rename_i e he
    constructor
    · intro hparse
      cases he.symm.trans (parse_eq_ok.mp hparse).2.2.1
    · rintro ⟨relative, hparse, -⟩
      cases he.symm.trans (parse_eq_ok.mp hparse).2.2.1

/-- Below a wildcard nothing is to be addressed. -/
theorem isConcrete_of_parse_below {base : Address} {step : Value} {name : String} {a : Address}
    (h : parse (below base step) = .ok (name, a)) : base.isConcrete = true := by
  obtain ⟨-, -, haddress, hconcrete⟩ := parse_eq_ok.mp h
  rw [below] at haddress
  split at haddress
  · rw [addressOf_set] at haddress
    obtain rfl := Except.ok.inj haddress
    rw [Address.isConcrete_append, Bool.and_eq_true] at hconcrete
    exact hconcrete.1
  · rename_i he
    cases he.symm.trans haddress

theorem below_of_parse {base relative : Address} {step : Value} {name : String}
    (h : parse step = .ok (name, relative)) :
    below base step = step.set Key.address (base ++ relative).toValue := by
  rw [below, (parse_eq_ok.mp h).2.2.1]

end Operation

namespace Registration

/-- A step of a composite at `base` leads to an entry at an address. -/
def LeadsTo (r : Registration) (base : Address) (step : Value) (a : Address)
    (entry : OperationEntry) : Prop :=
  ∃ name relative node, Operation.parse step = .ok (name, relative) ∧ a = base ++ relative ∧
    r.resolve a name = .ok (.here node entry)

variable {r : Registration} {base : Address} {step : Value} {a : Address} {entry : OperationEntry}

theorem leadsTo_below (hbase : base.isConcrete = true) :
    r.LeadsTo [] (Operation.below base step) a entry ↔ r.LeadsTo base step a entry := by
  constructor
  · rintro ⟨name, b, node, hparse, rfl, hresolve⟩
    obtain ⟨relative, hstep, rfl⟩ := (Operation.parse_below hbase).mp hparse
    exact ⟨name, relative, node, hstep, rfl, hresolve⟩
  · rintro ⟨name, relative, node, hstep, rfl, hresolve⟩
    exact ⟨name, base ++ relative, node, (Operation.parse_below hbase).mpr ⟨_, hstep, rfl⟩, rfl,
      hresolve⟩

theorem LeadsTo.below_eq (h : r.LeadsTo base step a entry) :
    Operation.below base step = step.set Key.address a.toValue := by
  obtain ⟨name, relative, node, hparse, rfl, -⟩ := h
  exact Operation.below_of_parse hparse

theorem LeadsTo.unique {b : Address} {other : OperationEntry} (h : r.LeadsTo base step a entry)
    (h' : r.LeadsTo base step b other) : b = a ∧ other = entry := by
  obtain ⟨name, relative, node, hparse, rfl, hresolve⟩ := h
  obtain ⟨name', relative', node', hparse', rfl, hresolve'⟩ := h'
  obtain ⟨rfl, rfl⟩ := Prod.mk.inj (Except.ok.inj (hparse.symm.trans hparse'))
  obtain ⟨rfl, rfl⟩ := Resolved.here.inj (Except.ok.inj (hresolve.symm.trans hresolve'))
  exact ⟨rfl, rfl⟩

/-- What a step leads to accepts it as an operation of its own. -/
def Accepts (r : Registration) (base : Address) (step : Value) (a : Address)
    (entry : OperationEntry) : Prop :=
  r.LeadsTo base step a entry ∧ entry.definition.check (Operation.below base step) = .ok ()

end Registration

namespace Composite

/-- The steps of a composite. -/
def stepsOf (operation : Value) : List Value :=
  ((operation.get? Key.steps).bind Value.asList?).getD []

/-- **A step that is drawn from the standard operations**: if it leads anywhere, then to one of
them, and if that is a composite, then its own steps are drawn from them as well. -/
inductive Drawn (r : Registration) : Address → Value → Prop
  | intro {base : Address} {step : Value}
      (standard : ∀ a entry, r.LeadsTo base step a entry → entry.Standard)
      (steps : ∀ a entry, r.LeadsTo base step a entry → entry.handler = .global .composite →
        ∀ s ∈ stepsOf step, Drawn r a s) : Drawn r base step

variable {r : Registration} {base : Address} {step : Value} {i : Nat}

theorem Drawn.standard (h : Drawn r base step) {a : Address} {entry : OperationEntry}
    (hentry : r.LeadsTo base step a entry) : entry.Standard := by
  obtain ⟨hstandard, -⟩ := h
  exact hstandard a entry hentry

theorem Drawn.check_below (h : Drawn r base step) {a : Address} {entry : OperationEntry}
    (hentry : r.LeadsTo base step a entry) :
    entry.definition.check (Operation.below base step) = entry.definition.check step := by
  rw [hentry.below_eq]
  exact OperationDefinition.check_set_address (h.standard hentry).address_notMem _ _

end Composite

namespace Registration

/-- Every operation that is registered is standard. -/
inductive Standard : Registration → Prop
  | intro {r : Registration} (operations : ∀ f ∈ r.operations, f.2.Standard)
      (children : ∀ g ∈ r.children, ∀ c ∈ g.2, Standard c.2) : Standard r

variable {r : Registration} {name : String} {entry : OperationEntry}

theorem Standard.operations (h : r.Standard) : ∀ f ∈ r.operations, f.2.Standard := by
  obtain ⟨hoperations, -⟩ := h
  exact hoperations

theorem Standard.children (h : r.Standard) : ∀ g ∈ r.children, ∀ c ∈ g.2, c.2.Standard := by
  obtain ⟨-, hchildren⟩ := h
  exact hchildren

theorem Standard.operation? (h : r.Standard) {a : Address}
    (hentry : r.operation? a name = some entry) : entry.Standard := by
  obtain ⟨nodes, hnodes, n, hn, hentry, -⟩ := exists_of_operation? hentry
  exact (of_lookup? Standard.children h hnodes n hn).operations _ hentry

end Registration

namespace Composite

variable {r : Registration} {base : Address} {step : Value} {i : Nat}

theorem sizeOf_of_mem_stepsOf {s : Value} (h : s ∈ stepsOf step) : sizeOf s < sizeOf step := by
  rw [stepsOf] at h
  cases hsteps : (step.get? Key.steps).bind Value.asList? with
  | none =>
    rw [hsteps] at h
    cases h
  | some items =>
    rw [hsteps] at h
    obtain ⟨v, hv, hitems⟩ := Option.bind_eq_some_iff.mp hsteps
    cases v with
    | list l =>
      obtain rfl := Option.some.inj hitems
      cases step with
      | object fields =>
        have hs : sizeOf s < sizeOf l := List.sizeOf_lt_of_mem h
        have hfield : sizeOf (Key.steps, Value.list l) < sizeOf fields :=
          List.sizeOf_lt_of_mem (Dict.mem_of_get? hv)
        simp only [Prod.mk.sizeOf_spec, Value.list.sizeOf_spec, Value.object.sizeOf_spec]
          at hfield ⊢
        omega
      | _ => cases hv
    | _ => cases hitems

/-- **Where only standard operations are registered** every step is drawn from them: the steps of a
composite are parts of it. -/
theorem drawn_of_standard (hr : r.Local) (h : r.Standard) (base : Address) (step : Value) :
    Drawn r base step := by
  refine .intro ?_ fun a entry _ _ s hs => drawn_of_standard hr h a s
  rintro a entry ⟨name, relative, node, -, -, hresolve⟩
  obtain ⟨_, _, heq, -, hentry⟩ := hr.resolve hresolve
  cases heq
  exact h.operation? hentry
termination_by sizeOf step
decreasing_by exact sizeOf_of_mem_stepsOf hs

/-- A step of a composite is planned where it leads to. -/
theorem exists_of_planStep {step : Value} {p : Planned} (h : planStep r base i step = .ok p) :
    ∃ name relative resolved, Operation.parse step = .ok (name, relative) ∧
      r.resolve (base ++ relative) name = .ok resolved ∧
      p = { label := label i, operation := step.set Key.address (base ++ relative).toValue,
            handler := resolved.handler } := by
  rw [planStep] at h
  cases hparse : Operation.parse step with
  | error e =>
    rw [hparse] at h
    cases h
  | ok found =>
    obtain ⟨name, relative⟩ := found
    rw [hparse] at h
    dsimp only [bind, Except.bind] at h
    cases hresolve : r.resolve (base ++ relative) name with
    | error e =>
      rw [hresolve] at h
      cases h
    | ok resolved =>
      rw [hresolve] at h
      cases hcheck : resolved.check step with
      | error e =>
        simp only [hcheck] at h
        cases h
      | ok =>
        simp only [hcheck] at h
        exact ⟨name, relative, resolved, rfl, hresolve, (Except.ok.inj h).symm⟩

/-- **A step is planned** when what it leads to accepts it. -/
theorem planStep_eq_ok (hr : r.Local) (h : Drawn r base step) {p : Planned} :
    planStep r base i step = .ok p ↔ ∃ a entry, r.Accepts base step a entry ∧
      p = {
        label := label i, operation := Operation.below base step, handler := entry.handler } := by
  have hplan : ∀ {a entry}, r.LeadsTo base step a entry →
      (planStep r base i step = .ok p ↔
        entry.definition.check (Operation.below base step) = .ok () ∧
          p = { label := label i, operation := Operation.below base step,
                handler := entry.handler }) := by
    intro a entry hentry
    rw [h.check_below hentry, hentry.below_eq]
    obtain ⟨name, relative, node, hparse, rfl, hresolve⟩ := hentry
    rw [planStep, hparse]
    dsimp only [bind, Except.bind]
    rw [hresolve]
    dsimp only [Resolved.check]
    cases entry.definition.check step with
    | error e => exact ⟨by rintro ⟨⟩, by rintro ⟨⟨⟩, -⟩⟩
    | ok => exact ⟨fun h => ⟨rfl, (Except.ok.inj h).symm⟩, fun h => congrArg Except.ok h.2.symm⟩
  constructor
  · intro hp
    obtain ⟨a, entry, hentry⟩ : ∃ a entry, r.LeadsTo base step a entry := by
      rw [planStep] at hp
      cases hparse : Operation.parse step with
      | error e =>
        rw [hparse] at hp
        cases hp
      | ok found =>
        obtain ⟨name, relative⟩ := found
        rw [hparse] at hp
        dsimp only [bind, Except.bind] at hp
        cases hresolve : r.resolve (base ++ relative) name with
        | error e =>
          rw [hresolve] at hp
          cases hp
        | ok resolved =>
          obtain ⟨node, entry, rfl, -⟩ := hr.resolve hresolve
          exact ⟨_, entry, name, relative, node, hparse, rfl, hresolve⟩
    obtain ⟨hcheck, hp⟩ := (hplan hentry).mp hp
    exact ⟨a, entry, ⟨hentry, hcheck⟩, hp⟩
  · rintro ⟨a, entry, ⟨hentry, hcheck⟩, hp⟩
    exact (hplan hentry).mpr ⟨hcheck, hp⟩

/-- A plan that fails is an ordinary failure. -/
theorem isFatal_of_planStep {e : OperationError} (h : planStep r base i step = .error e) :
    e.isFatal = false := by
  rw [planStep] at h
  dsimp only at h
  split at h
  · cases h
  · obtain rfl := Except.error.inj h
    rfl

/-- How a planned operation belongs to a step. -/
def Plans (r : Registration) (base : Address) (step : Value) (p : Planned) : Prop :=
  ∃ a entry, r.Accepts base step a entry ∧ p.operation = Operation.below base step ∧
    p.handler = entry.handler

theorem planFrom_cons (r : Registration) (base : Address) (i : Nat) (step : Value)
    (steps : List Value) : planFrom r base i (step :: steps) =
      match planStep r base i step with
      | .error e => .error e
      | .ok p => (planFrom r base (i + 1) steps).map (p :: ·) := by
  rw [planFrom]
  cases planStep r base i step with
  | error e => rfl
  | ok p =>
    dsimp only [bind, Except.bind]
    cases planFrom r base (i + 1) steps <;> rfl

theorem planFrom_of_plan {operation : Value} {ps : List Planned}
    (h : plan r base operation = .ok ps) :
    planFrom r base 0 (stepsOf operation) = .ok ps := by
  rw [plan] at h
  split at h
  · rename_i hsteps
    rw [stepsOf, hsteps]
    exact h
  · cases h

theorem exists_of_planFrom_cons {step : Value} {steps : List Value} {ps : List Planned}
    (h : planFrom r base i (step :: steps) = .ok ps) : ∃ p rest, ps = p :: rest ∧
      planStep r base i step = .ok p ∧ planFrom r base (i + 1) steps = .ok rest := by
  rw [planFrom_cons] at h
  split at h
  · cases h
  · rename_i p hp
    cases hrest : planFrom r base (i + 1) steps with
    | error e =>
      rw [hrest] at h
      cases h
    | ok rest =>
      rw [hrest] at h
      exact ⟨p, rest, (Except.ok.inj h).symm, hp, rfl⟩

/-- The operations of a plan are labelled in order. -/
theorem labels_planFrom {steps : List Value} {ps : List Planned}
    (h : planFrom r base i steps = .ok ps) :
    ps.map (·.label) = (List.range' i steps.length).map label := by
  induction steps generalizing i ps with
  | nil =>
    obtain rfl := Except.ok.inj h
    rfl
  | cons step steps ih =>
    obtain ⟨p, rest, rfl, hp, hrest⟩ := exists_of_planFrom_cons h
    obtain ⟨-, -, -, -, -, rfl⟩ := exists_of_planStep hp
    exact congrArg (label i :: ·) (ih hrest)

theorem exists_of_mem_planFrom {steps : List Value} {ps : List Planned}
    (h : planFrom r base i steps = .ok ps) : ∀ p ∈ ps, ∃ step ∈ steps, ∃ name relative resolved,
      Operation.parse step = .ok (name, relative) ∧
      r.resolve (base ++ relative) name = .ok resolved ∧
      p.operation = step.set Key.address (base ++ relative).toValue ∧
      p.handler = resolved.handler := by
  induction steps generalizing i ps with
  | nil =>
    obtain rfl := Except.ok.inj h
    rintro _ ⟨⟩
  | cons step steps ih =>
    obtain ⟨p, rest, rfl, hp, hrest⟩ := exists_of_planFrom_cons h
    obtain ⟨name, relative, resolved, hparse, hresolve, rfl⟩ := exists_of_planStep hp
    refine List.forall_mem_cons.mpr ⟨⟨step, List.mem_cons_self, name, relative, resolved,
      hparse, hresolve, rfl, rfl⟩, fun q hq => ?_⟩
    obtain ⟨s, hs, hq⟩ := ih hrest q hq
    exact ⟨s, List.mem_cons_of_mem _ hs, hq⟩

/-- **A plan** has an operation for each step. -/
theorem plans_of_planFrom (hr : r.Local) {steps : List Value} (h : ∀ s ∈ steps, Drawn r base s)
    {ps : List Planned} (hps : planFrom r base i steps = .ok ps) :
    List.Forall₂ (Plans r base) steps ps := by
  induction steps generalizing i ps with
  | nil =>
    obtain rfl := Except.ok.inj hps
    exact .nil
  | cons step steps ih =>
    obtain ⟨hstep, hsteps⟩ := List.forall_mem_cons.mp h
    obtain ⟨p, rest, rfl, hp, hrest⟩ := exists_of_planFrom_cons hps
    obtain ⟨a, entry, haccepts, rfl⟩ := (planStep_eq_ok hr hstep).mp hp
    exact .cons ⟨a, entry, haccepts, rfl, rfl⟩ (ih hsteps hrest)

/-- **Without a plan** there is a step that would not be accepted as an operation of its own. -/
theorem planFrom_eq_error (hr : r.Local) {steps : List Value} (h : ∀ s ∈ steps, Drawn r base s)
    {e : OperationError} (he : planFrom r base i steps = .error e) :
    e.isFatal = false ∧ ∃ s ∈ steps, ∀ a entry, ¬ r.Accepts base s a entry := by
  induction steps generalizing i with
  | nil => cases he
  | cons step steps ih =>
    obtain ⟨hstep, hsteps⟩ := List.forall_mem_cons.mp h
    rw [planFrom_cons] at he
    split at he
    · rename_i e' hp
      obtain rfl := Except.error.inj he
      refine ⟨isFatal_of_planStep hp, step, List.mem_cons_self, fun a entry haccepts => ?_⟩
      cases hp.symm.trans ((planStep_eq_ok hr hstep).mpr ⟨a, entry, haccepts, rfl⟩)
    · cases hrest : planFrom r base (i + 1) steps with
      | ok rest =>
        rw [hrest] at he
        cases he
      | error e' =>
        rw [hrest] at he
        obtain rfl := Except.error.inj he
        obtain ⟨hfatal, s, hs, hrefused⟩ := ih hsteps hrest
        exact ⟨hfatal, s, List.mem_cons_of_mem _ hs, hrefused⟩

end Composite

end ManagementPlane
