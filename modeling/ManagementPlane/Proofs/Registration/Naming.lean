import ManagementPlane.Global.Rendering
import ManagementPlane.Proofs.Registration.Resolving
import ManagementPlane.Proofs.Value.Paths

/-!
# Proofs/Registration/Naming — the operations that an address has

Three traversals of the way to an address speak of its operations: the one that lists them, the one
that describes them and the one that finds the entry to run.  All three follow the same law: a node
has its own operations and those that the nodes above hand down, where a nearer one hides a further
one (`Nearest`).  So what is listed (`mem_operationNames_iff`) and what is described
(`Rendering.operations_describeWithInherited`) is what can be run.
-/

namespace ManagementPlane

namespace Registration

/-! ## Lists without repetitions -/

/-- Lists one after another, without the names that an earlier one has. -/
def listing : List (List String) → List String
  | [] => []
  | names :: outer => names ++ (listing outer).filter (· ∉ names)

theorem distinct_concat (names : List String) (name : String) :
    distinct (names ++ [name]) = insertNew (distinct names) name := by
  rw [distinct_eq_foldl, List.foldl_append, ← distinct_eq_foldl]
  rfl

theorem mem_distinct {names : List String} {name : String} :
    name ∈ distinct names ↔ name ∈ names := by
  induction names using List.reverseRecOn with
  | nil => simp [distinct_eq_foldl]
  | append_singleton names last ih =>
    rw [distinct_concat, insertNew]
    split <;> grind

theorem nodup_distinct (names : List String) : (distinct names).Nodup := by
  induction names using List.reverseRecOn with
  | nil => simp [distinct_eq_foldl]
  | append_singleton names last ih =>
    rw [distinct_concat, insertNew]
    split <;> grind

theorem distinct_of_nodup {names : List String} (h : names.Nodup) : distinct names = names := by
  induction names using List.reverseRecOn with
  | nil => rfl
  | append_singleton names last ih =>
    obtain ⟨hnames, -, hlast⟩ := List.nodup_append.mp h
    rw [distinct_concat, ih hnames, insertNew,
      if_neg fun hmem => hlast _ hmem _ List.mem_cons_self rfl]

theorem foldl_insertNew (before names : List String) :
    names.foldl insertNew before = before ++ (distinct names).filter (· ∉ before) := by
  induction names using List.reverseRecOn with
  | nil => simp [distinct_eq_foldl]
  | append_singleton names name ih =>
    rw [List.foldl_append, ih, distinct_concat]
    by_cases hbefore : name ∈ before <;> by_cases hnames : name ∈ distinct names <;>
      simp [insertNew, hbefore, hnames]

theorem distinct_append {names : List String} (h : names.Nodup) (more : List String) :
    distinct (names ++ more) = names ++ (distinct more).filter (· ∉ names) := by
  rw [distinct_eq_foldl, List.foldl_append, ← distinct_eq_foldl, distinct_of_nodup h,
    foldl_insertNew]

/-- Names that were listed behind others stay behind them. -/
theorem foldl_insertNew_distinct {names : List String} (h : names.Nodup) (more : List String) :
    (distinct (names ++ more)).foldl insertNew names = distinct (names ++ more) := by
  rw [foldl_insertNew, distinct_of_nodup (nodup_distinct _), distinct_append h, List.filter_append,
    List.filter_filter]
  simp

theorem distinct_flatten {lists : List (List String)} (h : ∀ names ∈ lists, names.Nodup) :
    distinct lists.flatten = listing lists := by
  induction lists with
  | nil => rfl
  | cons names lists ih =>
    obtain ⟨hnames, hlists⟩ := List.forall_mem_cons.mp h
    rw [List.flatten_cons, distinct_append hnames, ih hlists, listing]

/-! ## The operations of an address -/

variable {r node own : Registration} {a : Address} {name : String} {entry : OperationEntry}
  {outer nodes : List Registration} {resolved : Resolved} {description : String}
  {calls : List Call}

/-- The operations that a node hands down. -/
def inheritedNames (node : Registration) : List String :=
  (node.operations.filter fun (_, entry) => entry.inherited).map Prod.fst

/-- **The entry that a node runs an operation with**, where `outer` are the nodes above from the
root on: its own one, or else the one that the nearest node hands down which hands one down. -/
inductive Nearest (name : String) (node : Registration) (outer : List Registration)
    (entry : OperationEntry) : Prop
  | own (registered : Dict.get? node.operations name = some entry)
  | inherited (above : List Registration) (ancestor : Registration) (between : List Registration)
    (place : outer = above ++ ancestor :: between)
    (registered : Dict.get? ancestor.operations name = some entry)
    (handedDown : entry.inherited = true) (free : Dict.get? node.operations name = none)
    (skipped : ∀ n ∈ between, ∀ e, Dict.get? n.operations name = some e → e.inherited = false)

theorem inherited?_eq_findSome? (name : String) (outer : List Registration) :
    inherited? name outer =
      outer.reverse.findSome? fun n => (Dict.get? n.operations name).filter (·.inherited) := by
  induction outer with
  | nil => rfl
  | cons n outer ih => rw [inherited?, ih, List.reverse_cons, List.findSome?_append,
      List.findSome?_singleton]

theorem inherited?_eq_some_iff : inherited? name outer = some entry ↔
    ∃ above ancestor between, outer = above ++ ancestor :: between ∧
      Dict.get? ancestor.operations name = some entry ∧ entry.inherited = true ∧
      ∀ n ∈ between, ∀ e, Dict.get? n.operations name = some e → e.inherited = false := by
  rw [inherited?_eq_findSome?, List.findSome?_eq_some_iff]
  constructor
  · rintro ⟨between, ancestor, above, houter, hentry, hskipped⟩
    rw [List.reverse_eq_iff] at houter
    obtain ⟨hget, hinherited⟩ := Option.filter_eq_some_iff.mp hentry
    refine ⟨above.reverse, ancestor, between.reverse, by simp [houter], hget, hinherited, ?_⟩
    intro n hn e he
    simpa [he] using hskipped n (List.mem_reverse.mp hn)
  · rintro ⟨above, ancestor, between, rfl, hget, hinherited, hskipped⟩
    refine ⟨between.reverse, ancestor, above.reverse, by simp,
      Option.filter_eq_some_iff.mpr ⟨hget, hinherited⟩, fun n hn => ?_⟩
    cases he : Dict.get? n.operations name with
    | none => rfl
    | some e => simp [hskipped n (List.mem_reverse.mp hn) e he]

theorem operation?_eq (h : Walk r a (outer ++ [node])) (name : String) :
    r.operation? a name = (Dict.get? node.operations name).or (inherited? name outer) := by
  rw [operation?, lookup?_eq_some_iff.mpr h]
  simp

/-- **An operation is found by the law of the nearest entry.** -/
theorem operation?_eq_some_iff (h : Walk r a (outer ++ [node])) :
    r.operation? a name = some entry ↔ Nearest name node outer entry := by
  rw [operation?_eq h, Option.or_eq_some_iff, inherited?_eq_some_iff]
  constructor
  · rintro (hown | ⟨hfree, above, ancestor, between, hplace, hget, hinherited, hskipped⟩)
    · exact .own hown
    · exact .inherited above ancestor between hplace hget hinherited hfree hskipped
  · rintro (hown | ⟨above, ancestor, between, hplace, hget, hinherited, hfree, hskipped⟩)
    · exact .inl hown
    · exact .inr ⟨hfree, above, ancestor, between, hplace, hget, hinherited, hskipped⟩

theorem namesAlong_append (outer : List Registration) (node : Registration) :
    namesAlong (outer ++ [node]) =
      distinct (Dict.keys node.operations :: outer.reverse.map inheritedNames).flatten := by
  rw [namesAlong, List.reverse_append, List.reverse_singleton, List.singleton_append,
    List.flatten_cons, ← List.flatMap_def]
  rfl

theorem mem_inheritedNames (h : (Dict.keys node.operations).Nodup) :
    name ∈ inheritedNames node ↔
      ((Dict.get? node.operations name).filter (·.inherited)).isSome = true := by
  simp only [inheritedNames, List.mem_map, List.mem_filter, Option.isSome_iff_exists,
    Option.filter_eq_some_iff]
  constructor
  · rintro ⟨⟨_, e⟩, ⟨hmem, hinherited⟩, rfl⟩
    exact ⟨e, Dict.get?_eq_some_of_mem h hmem, hinherited⟩
  · rintro ⟨e, hget, hinherited⟩
    exact ⟨(name, e), ⟨Dict.mem_of_get? hget, hinherited⟩, rfl⟩

theorem nodup_inheritedNames (h : (Dict.keys node.operations).Nodup) :
    (inheritedNames node).Nodup :=
  h.sublist (List.filter_sublist.map _)

theorem operationNames_eq (h : Walk r a (outer ++ [node])) :
    r.operationNames a =
      distinct (Dict.keys node.operations :: outer.reverse.map inheritedNames).flatten := by
  rw [operationNames, lookup?_eq_some_iff.mpr h, ← namesAlong_append]
  rfl

/-- **What is listed is what can be found.** -/
theorem mem_operationNames_iff (h : Walk r a (outer ++ [node]))
    (hnodup : ∀ n ∈ outer, (Dict.keys n.operations).Nodup) :
    name ∈ r.operationNames a ↔ ∃ entry, r.operation? a name = some entry := by
  rw [operationNames_eq h, mem_distinct, List.flatten_cons, List.mem_append,
    ← Option.isSome_iff_exists, operation?_eq h, Option.isSome_or, Bool.or_eq_true]
  refine or_congr ?_ ?_
  · exact Dict.isSome_get?_iff.symm
  · rw [inherited?_eq_findSome?, List.findSome?_isSome_iff]
    simp only [List.mem_flatten, List.mem_map, List.mem_reverse]
    constructor
    · rintro ⟨_, ⟨n, hn, rfl⟩, hname⟩
      exact ⟨n, hn, (mem_inheritedNames (hnodup n hn)).mp hname⟩
    · rintro ⟨n, hn, hname⟩
      exact ⟨_, ⟨n, hn, rfl⟩, (mem_inheritedNames (hnodup n hn)).mpr hname⟩

/-- **Whatever is local is run by the entry that is found.** -/
theorem resolve_of_findLocal (h : r.findLocal a = .ok node) (name : String) :
    r.resolve a name = match r.operation? a name with
      | some entry => .ok (.here node entry)
      | none => .error (.unknownOperation name a) := by
  obtain ⟨outer, hwalk, hproxy⟩ := findLocal_eq_ok_iff.mp h
  have hnone : r.proxyFor? a = none := by simp [hwalk.proxyFor? List.getLast?_concat, hproxy]
  rw [resolve, hnone, find?_of_findLocal h]
  dsimp only
  cases r.operation? a name <;> rfl

/-- A node that is passed is registered under a pattern. -/
theorem Walk.exists_nodeAt? (h : Walk r a nodes) : ∀ n ∈ nodes, ∃ b, r.nodeAt? b = some n := by
  induction h with
  | arrived r | handedOver e es _ => exact List.forall_mem_singleton.mpr ⟨[], rfl⟩
  | exact _ hc _ ih | wildcard _ _ hc _ ih =>
    refine List.forall_mem_cons.mpr ⟨⟨[], rfl⟩, fun n hn => ?_⟩
    obtain ⟨b, hb⟩ := ih n hn
    exact ⟨_ :: b, by rw [Registration.nodeAt?, hc]; exact hb⟩

theorem Walk.nodeAt?_of_mem_tail (h : Walk r a nodes) :
    ∀ n ∈ nodes.tail, ∃ e b, r.nodeAt? (e :: b) = some n := by
  cases h with
  | arrived r | handedOver e es _ => simp
  | exact _ hc hrest | wildcard _ _ hc hrest =>
    intro n hn
    obtain ⟨b, hb⟩ := hrest.exists_nodeAt? n hn
    exact ⟨_, b, by rw [Registration.nodeAt?, hc]; exact hb⟩

end Registration

/-! ## Descriptions -/

namespace Rendering

open Registration (Walk insertNew)

variable {r node : Registration} {a : Address} {outer : List Registration} {v : Value}
  {fields : Dict Value} {find : String → Option OperationEntry} {names : List String}

/-- The description of an operation goes to the end of the fields unless they have the name. -/
def describeNew (find : String → Option OperationEntry) (fields : Dict Value) (name : String) :
    Dict Value :=
  if Dict.has fields name then fields
  else match find name with
    | some entry => Dict.put fields name entry.definition.describe
    | none => fields

theorem get?_describe (recursive : Bool) (node : Registration) :
    (node.describe recursive true).get? Key.operations =
      some (.object (Dict.mapValues (·.definition.describe) node.operations)) := by
  obtain ⟨address, description, operations, attributes, capabilities, children, proxy⟩ := node
  rw [Registration.describe, Value.get?, Value.fields, Registration.describeSelf]
  cases capabilities.isEmpty <;> simp [Dict.get?, Key.operations]

theorem get?_setPath_operations (h : v.get? Key.operations = some (.object fields)) (name : String)
    (w : Value) : (v.setPath [Key.operations, name] w).get? Key.operations =
      some (.object (Dict.put fields name w)) := by
  have hget : v.get Key.operations = .object fields := by rw [Value.get, h]; rfl
  rw [Value.setPath_cons, Value.get?_update, if_pos rfl, hget]
  rfl

/-- **Operations that are not described yet are described** one by one. -/
theorem get?_foldl_describe (h : v.get? Key.operations = some (.object fields)) :
    (names.foldl (fun d name =>
      if (d.getPath? [Key.operations, name]).isSome then d
      else match find name with
        | some entry => d.setPath [Key.operations, name] entry.definition.describe
        | none => d) v).get? Key.operations
      = some (.object (names.foldl (describeNew find) fields)) := by
  induction names generalizing v fields with
  | nil => exact h
  | cons name names ih =>
    rw [List.foldl_cons, List.foldl_cons]
    refine ih ?_
    have hpath : v.getPath? [Key.operations, name] = Dict.get? fields name := by
      rw [Value.getPath?_cons, h, Option.bind_some, Value.getPath?_cons]
      exact Option.bind_fun_some _
    rw [hpath, describeNew, Dict.has]
    split
    · exact h
    · split
      · exact get?_setPath_operations h name _
      · exact h

theorem keys_foldl_describeNew (h : ∀ name ∈ names, (find name).isSome = true) :
    Dict.keys (names.foldl (describeNew find) fields) =
      names.foldl insertNew (Dict.keys fields) := by
  induction names generalizing fields with
  | nil => rfl
  | cons name names ih =>
    obtain ⟨hname, hnames⟩ := List.forall_mem_cons.mp h
    obtain ⟨entry, hentry⟩ := Option.isSome_iff_exists.mp hname
    rw [List.foldl_cons, List.foldl_cons, ih hnames, describeNew, hentry, insertNew, Dict.has]
    simp only [Dict.isSome_get?_iff]
    split
    · rfl
    · next hnot => rw [Dict.keys_put, if_neg hnot]

theorem of_mem_foldl_describeNew {P : String × Value → Prop} (hfields : ∀ f ∈ fields, P f)
    (hfind : ∀ name entry, find name = some entry → P (name, entry.definition.describe)) :
    ∀ f ∈ names.foldl (describeNew find) fields, P f := by
  induction names generalizing fields with
  | nil => exact hfields
  | cons name names ih =>
    refine ih fun f hf => ?_
    rw [describeNew] at hf
    split at hf
    · exact hfields f hf
    · split at hf
      · next entry hentry =>
        rcases Dict.mem_of_mem_put hf with rfl | hf
        · exact hfind name entry hentry
        · exact hfields f hf
      · exact hfields f hf

/-- **The operations that are described are those that are listed**, each by the entry that is
found for it. -/
theorem operations_describeWithInherited (hr : r.Formed) (h : r.findLocal a = .ok node)
    (recursive : Bool) : ∃ fields,
      (describeWithInherited r node a recursive true).get? Key.operations = some (.object fields) ∧
      Dict.keys fields = r.operationNames a ∧
      ∀ name v, (name, v) ∈ fields → ∃ entry, r.resolve a name = .ok (.here node entry) ∧
        v = entry.definition.describe := by
  obtain ⟨outer, hwalk, -⟩ := Registration.findLocal_eq_ok_iff.mp h
  have hformed : ∀ n ∈ outer ++ [node], n.Formed :=
    Registration.of_lookup? Registration.Formed.children hr
      (Registration.lookup?_eq_some_iff.mpr hwalk)
  obtain ⟨houter, hnode⟩ := List.forall_mem_append.mp hformed
  have hkeys : (Dict.keys node.operations).Nodup :=
    (hnode node List.mem_cons_self).neat.operations
  refine ⟨_, get?_foldl_describe (get?_describe recursive node), ?_, fun name v hmem => ?_⟩
  · have hfound : ∀ name ∈ r.operationNames a, (r.operation? a name).isSome = true := by
      intro name hname
      rw [Option.isSome_iff_exists]
      exact (Registration.mem_operationNames_iff hwalk
        fun n hn => (houter n hn).neat.operations).mp hname
    have hown : Dict.keys (Dict.mapValues (·.definition.describe) node.operations) =
        Dict.keys node.operations := by simp [Dict.keys, Dict.mapValues, Function.comp_def]
    rw [keys_foldl_describeNew hfound, hown, Registration.operationNames_eq hwalk,
      List.flatten_cons, Registration.foldl_insertNew_distinct hkeys]
  · refine of_mem_foldl_describeNew (P := fun f => ∃ entry,
      r.resolve a f.1 = .ok (.here node entry) ∧ f.2 = entry.definition.describe)
      (fun f hf => ?_) (fun name entry hentry => ?_) _ hmem
    · obtain ⟨⟨name, entry⟩, hentry, rfl⟩ := List.mem_map.mp hf
      refine ⟨entry, ?_, rfl⟩
      rw [Registration.resolve_of_findLocal h, Registration.operation?_eq hwalk,
        Dict.get?_eq_some_of_mem hkeys hentry]
      rfl
    · exact ⟨entry, by rw [Registration.resolve_of_findLocal h, hentry], rfl⟩

end Rendering

namespace Registration

variable {r node own : Registration} {a : Address} {name : String} {entry : OperationEntry}
  {outer nodes : List Registration} {resolved : Resolved} {description : String}
  {calls : List Call}

/-! ## Trees that registrations built -/

/-- **The operations of an address** that leads past `outer` to a local node. -/
structure Naming (r : Registration) (a : Address) (outer : List Registration)
    (node : Registration) : Prop where
  way : Walk r a (outer ++ [node])
  nodup : (r.operationNames a).Nodup
  /-- Its own operations come first, then those of the nodes above, from the nearest outwards. -/
  order : r.operationNames a =
    listing (Dict.keys node.operations :: outer.reverse.map inheritedNames)
  /-- What is listed is what can be run. -/
  listed : ∀ name, name ∈ r.operationNames a ↔ ∃ resolved, r.resolve a name = .ok resolved
  /-- It is run by the nearest entry. -/
  nearest : ∀ name resolved, r.resolve a name = .ok resolved →
    ∃ entry, resolved = .here node entry ∧ Nearest name node outer entry

theorem Formed.naming (hr : r.Formed) (h : r.findLocal a = .ok node) :
    ∃ outer, r.Naming a outer node := by
  obtain ⟨outer, hwalk, -⟩ := findLocal_eq_ok_iff.mp h
  have hformed : ∀ n ∈ outer ++ [node], n.Formed :=
    of_lookup? Formed.children hr (lookup?_eq_some_iff.mpr hwalk)
  obtain ⟨houter, hnode⟩ := List.forall_mem_append.mp hformed
  have hkeys : (Dict.keys node.operations).Nodup :=
    (hnode node List.mem_cons_self).neat.operations
  have hinherited : ∀ names ∈ outer.reverse.map inheritedNames, names.Nodup := by
    intro names hnames
    obtain ⟨n, hn, rfl⟩ := List.mem_map.mp hnames
    exact nodup_inheritedNames (houter n (List.mem_reverse.mp hn)).neat.operations
  refine ⟨outer, hwalk, ?_, ?_, fun name => ?_, fun name resolved hresolve => ?_⟩
  · rw [operationNames_eq hwalk]
    exact nodup_distinct _
  · rw [operationNames_eq hwalk, distinct_flatten (List.forall_mem_cons.mpr ⟨hkeys, hinherited⟩)]
  · rw [mem_operationNames_iff hwalk fun n hn => (houter n hn).neat.operations,
      resolve_of_findLocal h]
    cases r.operation? a name <;> simp
  · rw [resolve_of_findLocal h] at hresolve
    cases hentry : r.operation? a name with
    | none => simp [hentry] at hresolve
    | some entry =>
      simp only [hentry, Except.ok.injEq] at hresolve
      exact ⟨entry, hresolve.symm, (operation?_eq_some_iff hwalk).mp hentry⟩

/-! ## Global operations -/

/-- Wherever the tree is local, the operation is run by its global entry. -/
def Serves (r : Registration) (g : GlobalOperation) : Prop :=
  ∀ a node, r.findLocal a = .ok node → r.operation? a g.name = some g.entry

theorem leadsTo_of_findLocal {g : GlobalOperation} {operation : Value}
    (hnode : r.findLocal a = .ok node) (h : r.operation? a g.name = some g.entry)
    (hparse : Operation.parse operation = .ok (g.name, a)) : r.LeadsTo [] operation a g.entry := by
  refine ⟨g.name, a, node, hparse, rfl, ?_⟩
  rw [resolve_of_findLocal hnode, h]

theorem Serves.leadsTo {g : GlobalOperation} {operation : Value} (h : r.Serves g)
    (hnode : r.findLocal a = .ok node) (hparse : Operation.parse operation = .ok (g.name, a)) :
    r.LeadsTo [] operation a g.entry :=
  leadsTo_of_findLocal hnode (h a node hnode) hparse

/-- **A global operation is served where nobody overrides it**: it is registered at the root, and
its name nowhere else. -/
theorem serves_built {g : GlobalOperation}
    (hroot : Dict.get? ((root description).built calls).operations g.name = some g.entry)
    (hcalls : ∀ call ∈ calls, call.operation? = some g.name → call.target = []) :
    ((root description).built calls).Serves g := by
  intro a node hnode
  obtain ⟨outer, hwalk, -⟩ := findLocal_eq_ok_iff.mp hnode
  have hfree : ∀ n ∈ (outer ++ [node]).tail, Dict.get? n.operations g.name = none := by
    intro n hn
    obtain ⟨e, b, hb⟩ := hwalk.nodeAt?_of_mem_tail n hn
    rw [Dict.get?_eq_none_iff, operations_built hb, List.mem_filterMap]
    rintro ⟨call, hcall, hname⟩
    obtain ⟨hcall, htarget⟩ := List.mem_filter.mp hcall
    simp [hcalls call (mem_of_mem_accepted hcall) hname] at htarget
  rw [operation?_eq_some_iff hwalk]
  have hhead := hwalk.head?
  cases outer with
  | nil =>
    obtain rfl := Option.some.inj hhead
    exact .own hroot
  | cons top between =>
    obtain rfl := Option.some.inj hhead
    refine .inherited [] _ between rfl hroot rfl (hfree node (by simp)) fun n hn e he => ?_
    rw [hfree n (by simp [hn])] at he
    cases he

end Registration

end ManagementPlane
