import ManagementPlane.Proofs.Workers.Steps

/-!
# Proofs/Workers/Serving — what the server registers for its workers

A registration obeys `Rules` when everything that stands in it, wherever it stands, is as the rules
say.  Registering keeps to the rules if what is registered does, so that a registration is followed
line by line (`Registration.Yields`), and what is looked up in it obeys too.

The server keeps to `Server.rules`, and a registration that does serves the workers
(`Server.servesWorkers`).
-/

namespace ManagementPlane

namespace Registration

/-- What may be registered at a pattern. -/
structure Rules where
  operations : Address → String → OperationEntry → Prop
  attributes : Address → AttributeEntry → Prop

/-- Nothing is proxied, and whatever is registered is as the rules say.  The address is the pattern
of the node. -/
inductive Obeys (rules : Rules) : Address → Registration → Prop
  | intro {a : Address} {r : Registration} (proxy : r.proxy = none)
      (operations : ∀ f ∈ r.operations, rules.operations a f.1 f.2)
      (attributes : ∀ f ∈ r.attributes, rules.attributes a f.2)
      (children : ∀ g ∈ r.children, ∀ c ∈ g.2, Obeys rules (a ++ [⟨g.1, c.1⟩]) c.2) :
    Obeys rules a r

variable {rules : Rules} {r r' node : Registration} {a es : Address} {e : Element} {name : String}
  {entry : OperationEntry} {nodes : List Registration}

/-! ## Looking up -/

namespace Obeys

theorem proxy (h : r.Obeys rules a) : r.proxy = none := by
  obtain ⟨hproxy, -, -, -⟩ := h
  exact hproxy

theorem operations (h : r.Obeys rules a) : ∀ f ∈ r.operations, rules.operations a f.1 f.2 := by
  obtain ⟨-, hoperations, -, -⟩ := h
  exact hoperations

theorem attributes (h : r.Obeys rules a) : ∀ f ∈ r.attributes, rules.attributes a f.2 := by
  obtain ⟨-, -, hattributes, -⟩ := h
  exact hattributes

theorem group (h : r.Obeys rules a) (type : String) :
    ∀ c ∈ r.group type, c.2.Obeys rules (a ++ [⟨type, c.1⟩]) := by
  obtain ⟨-, -, -, hchildren⟩ := h
  intro c hc
  obtain ⟨g, hg, hc⟩ := Dict.exists_of_mem_group hc
  exact hchildren _ hg c hc

/-- A child obeys the rules at its own address. -/
theorem node? (h : r.Obeys rules a) (hnode : r.node? e = some node) :
    node.Obeys rules (a ++ [e]) := h.group _ _ (Dict.mem_of_get? hnode)

/-- A child is registered under the name that leads to it, or under the wildcard. -/
theorem child? (h : r.Obeys rules a) (hnode : r.child? e = some node) :
    ∃ value, node.Obeys rules (a ++ [⟨e.key, value⟩]) := by
  rcases Option.or_eq_some_iff.mp hnode with hnode | ⟨-, hnode⟩
  · exact ⟨_, h.group _ _ (Dict.mem_of_get? hnode)⟩
  · exact ⟨_, h.group _ _ (Dict.mem_of_get? hnode)⟩

/-- Every node on the way to an address obeys the rules somewhere. -/
theorem lookup? (h : r.Obeys rules a) (hnodes : r.lookup? es = some nodes) :
    ∀ n ∈ nodes, ∃ b, n.Obeys rules b := by
  refine of_lookup? (P := fun n => ∃ b, n.Obeys rules b) ?_ ⟨a, h⟩ hnodes
  rintro r ⟨b, h⟩ g hg c hc
  obtain ⟨-, -, -, hchildren⟩ := h
  exact ⟨_, hchildren g hg c hc⟩

/-- Whatever is looked up is found here. -/
theorem proxyFor? (h : r.Obeys rules a) (es : Address) : r.proxyFor? es = none := by
  refine proxyFor?_eq_none fun nodes hnodes n hn => ?_
  obtain ⟨b, hb⟩ := h.lookup? hnodes n hn
  exact hb.proxy

/-- What is found for a child may be registered under the wildcard. -/
theorem find?_singleton (h : r.Obeys rules a) (hnode : r.find? [e] = some node) :
    ∃ value, node.Obeys rules (a ++ [⟨e.key, value⟩]) := by
  have hlocal : r.isProxied = false := by rw [isProxied, h.proxy]; rfl
  rw [find?, Registration.lookup?, hlocal, if_neg (by decide)] at hnode
  cases hc : r.child? e with
  | none =>
    rw [hc] at hnode
    cases hnode
  | some c =>
    rw [hc] at hnode
    obtain rfl := Option.some.inj hnode
    exact h.child? hc

/-- The node at an address obeys the rules there. -/
theorem nodeAt? (h : r.Obeys rules a) (hnode : r.nodeAt? es = some node) :
    node.Obeys rules (a ++ es) := by
  induction es generalizing r a with
  | nil =>
    obtain rfl := Option.some.inj hnode
    exact (List.append_nil a).symm ▸ h
  | cons e es ih =>
    obtain ⟨c, hc, hnode⟩ := Option.bind_eq_some_iff.mp hnode
    have hnode' := ih (h.node? hc) hnode
    rwa [List.append_assoc] at hnode'

/-! ## Registering -/

/-- To put a node that obeys the rules breaks none. -/
theorem putNode (h : r.Obeys rules a) (hnode : node.Obeys rules (a ++ [e])) :
    (r.putNode e node).Obeys rules a := by
  have hgroup := h.group e.key
  obtain ⟨hproxy, hoperations, hattributes, hchildren⟩ := h
  refine ⟨hproxy, hoperations, hattributes, fun g hg c hc => ?_⟩
  rcases Dict.mem_of_mem_put hg with rfl | hg
  · rcases Dict.mem_of_mem_put hc with rfl | hc
    · exact hnode
    · exact hgroup c hc
  · exact hchildren g hg c hc

/-- So does to replace one, however deep. -/
theorem replaceAt (h : r.Obeys rules a) (hnode : node.Obeys rules (a ++ es)) :
    (Registration.replaceAt node es r).Obeys rules a := by
  induction es generalizing r a with
  | nil => exact List.append_nil a ▸ hnode
  | cons e es ih =>
    rw [Registration.replaceAt]
    split
    · rename_i c hc
      refine h.putNode (ih (h.node? hc) ?_)
      rwa [List.append_assoc]
    · exact h

end Obeys

/-- What comes out of registering, if anything does, obeys. -/
def Yields (rules : Rules) (a : Address) (out : Except RegistrationError Registration) : Prop :=
  ∀ r, out = .ok r → r.Obeys rules a

/-- One call after another, as long as none fails. -/
theorem yields_bind {out : Except RegistrationError Registration}
    {k : Registration → Except RegistrationError Registration} (hout : Yields rules a out)
    (hk : ∀ r, r.Obeys rules a → Yields rules a (k r)) : Yields rules a (out >>= k) := by
  cases out with
  | ok r => exact hk r (hout r rfl)
  | error e => rintro _ ⟨⟩

/-- **A call changes one node**, and so it keeps the rules if it keeps them there. -/
theorem yields_changeAt {change : Registration → Except RegistrationError Registration}
    (h : r.Obeys rules []) {pattern : Address}
    (hchange : ∀ node, node.Obeys rules pattern → Yields rules pattern (change node)) :
    Yields rules [] (r.changeAt pattern change) := by
  rw [changeAt]
  split
  · rintro _ ⟨⟩
  · rename_i node hnode
    have hyields := hchange node (h.nodeAt? hnode)
    cases hnew : change node with
    | error e => rintro _ ⟨⟩
    | ok new =>
      rintro _ ⟨⟩
      exact h.replaceAt (hyields new hnew)

/-- An operation that the rules allow. -/
theorem yields_addOperation (h : r.Obeys rules a)
    (hentry : rules.operations a entry.definition.name entry) :
    Yields rules a (addOperation entry r) := by
  rw [addOperation]
  split
  · rintro _ ⟨⟩
  · rintro _ ⟨⟩
    obtain ⟨hproxy, hoperations, hattributes, hchildren⟩ := h
    refine ⟨hproxy, fun f hf => ?_, hattributes, hchildren⟩
    rcases Dict.mem_of_mem_put hf with rfl | hf
    · exact hentry
    · exact hoperations f hf

/-- An attribute that the rules allow. -/
theorem yields_addAttribute {entry : AttributeEntry} (h : r.Obeys rules a)
    (hentry : rules.attributes a entry) : Yields rules a (addAttribute entry r) := by
  rw [addAttribute]
  split
  · rintro _ ⟨⟩
  · rintro _ ⟨⟩
    obtain ⟨hproxy, hoperations, hattributes, hchildren⟩ := h
    refine ⟨hproxy, hoperations, fun f hf => ?_, hchildren⟩
    rcases Dict.mem_of_mem_put hf with rfl | hf
    · exact hentry
    · exact hattributes f hf

/-- A node that is new has nothing to be judged by. -/
theorem obeys_new (description : String) :
    Obeys rules a { address := es, description } :=
  ⟨rfl, by rintro _ ⟨⟩, by rintro _ ⟨⟩, by rintro _ ⟨⟩⟩

theorem yields_addOperationAt (h : r.Obeys rules []) {pattern : Address}
    (hentry : rules.operations pattern entry.definition.name entry) :
    Yields rules [] (r.addOperationAt pattern entry) :=
  yields_changeAt h fun _ hnode => yields_addOperation hnode hentry

theorem yields_addAttributeAt {entry : AttributeEntry} (h : r.Obeys rules []) {pattern : Address}
    (hentry : rules.attributes pattern entry) :
    Yields rules [] (r.addAttributeAt pattern entry) :=
  yields_changeAt h fun _ hnode => yields_addAttribute hnode hentry

theorem yields_addSubModelAt (h : r.Obeys rules []) (pattern : Address) (description : String) :
    Yields rules [] (r.addSubModelAt pattern description) := by
  rw [addSubModelAt]
  split
  · rintro _ ⟨⟩
  · refine yields_changeAt h fun node hnode => ?_
    rw [addNode]
    split
    · rintro _ ⟨⟩
    · dsimp only
      split
      · rintro _ ⟨⟩
      · rintro _ ⟨⟩
        exact hnode.putNode (obeys_new description)

/-- The global operations are added at the root. -/
theorem Obeys.addGlobals (h : r.Obeys rules [])
    (hglobals : ∀ g : GlobalOperation, rules.operations [] g.name g.entry) :
    r.addGlobals.2.Obeys rules [] := by
  have hentries : ∀ (entries : List OperationEntry) (r : Registration), r.Obeys rules [] →
      (∀ f ∈ entries, rules.operations [] f.definition.name f) →
      (addOperations entries r).2.Obeys rules [] := by
    intro entries
    induction entries with
    | nil => exact fun _ h _ => h
    | cons f entries ih =>
      intro r h hall
      obtain ⟨hf, hall⟩ := List.forall_mem_cons.mp hall
      rw [addOperations]
      split
      · rename_i next hnext
        exact ih next (yields_addOperation h hf next hnext) hall
      · exact h
  refine hentries _ r h (List.forall_mem_map.mpr fun g _ => ?_)
  have hname : g.entry.definition.name = g.name := by cases g <;> rfl
  rw [hname]
  exact hglobals g

end Registration

/-! ## The server -/

namespace Server

open Registration

/-- Operations on workers are run by those who look after the workers, wherever that may be. -/
def rules : Rules where
  operations a name entry :=
    (name = GlobalOperation.composite.name → entry.handler = .global .composite) ∧
    (name ∈ Operation.onWorker → entry.inherited = true ∨ a.map Element.key = [workerName] →
      entry.handler.Serves name)
  attributes a entry := a.map Element.key = [workerName] → entry.writer = some .writeKeepAlive

variable {r : Registration} {counter : Nat}

/-- What is registered elsewhere has nothing to do with the workers. -/
theorem operations_elsewhere {a : Address} {name : String} {entry : OperationEntry}
    (hname : name ≠ GlobalOperation.composite.name) (hinherited : entry.inherited = false)
    (ha : a.map Element.key ≠ [workerName]) : rules.operations a name entry := by
  refine ⟨fun h => absurd h hname, fun _ h => ?_⟩
  rcases h with h | h
  · cases hinherited.symm.trans h
  · exact absurd h ha

/-- The rules for attributes concern the workers only. -/
theorem attributes_elsewhere {a : Address} {entry : AttributeEntry}
    (ha : a.map Element.key ≠ [workerName]) : rules.attributes a entry := fun h => absurd h ha

/-- A global operation is none of those that change workers. -/
theorem operations_global (g : GlobalOperation) : rules.operations [] g.name g.entry := by
  refine ⟨fun h => ?_, fun h _ => ?_⟩
  · cases g <;> first | rfl | exact absurd h (by decide)
  · cases g <;> first | exact .write | exact .undefine | exact absurd h (by decide)

theorem yields_withChildren (h : r.Obeys rules []) : Yields rules [] (withChildren counter r) := by
  have hserverchild : serverchildPattern.map Element.key ≠ [workerName] := by decide
  have hchild : childPattern.map Element.key ≠ [workerName] := by decide
  refine yields_bind (yields_addSubModelAt h _ _) fun r h => ?_
  refine yields_bind (yields_addAttributeAt h (attributes_elsewhere hserverchild)) fun r h => ?_
  refine yields_bind (yields_addOperationAt h
    (operations_elsewhere (by decide) rfl hserverchild)) fun r h => ?_
  refine yields_bind (yields_addOperationAt h
    (operations_elsewhere (by decide) rfl hserverchild)) fun r h => ?_
  refine yields_bind (yields_addSubModelAt h _ _) fun r h => ?_
  refine yields_bind (yields_addAttributeAt h (attributes_elsewhere hchild)) fun r h => ?_
  refine yields_bind (yields_addAttributeAt h (attributes_elsewhere hchild)) fun r h => ?_
  refine yields_bind (yields_addAttributeAt h (attributes_elsewhere hchild)) fun r h => ?_
  refine yields_bind (yields_addOperationAt h
    (operations_elsewhere (by decide) rfl hchild)) fun r h => ?_
  refine yields_bind (yields_addOperationAt h
    (operations_elsewhere (by decide) rfl hchild)) fun r h => ?_
  exact yields_addOperationAt h (operations_elsewhere (by decide) rfl hchild)

theorem yields_withWorkers (h : r.Obeys rules []) : Yields rules [] (withWorkers r) := by
  refine yields_bind (yields_addSubModelAt h _ _) fun r h => ?_
  refine yields_bind (yields_addAttributeAt h fun _ => rfl) fun r h => ?_
  refine yields_bind (yields_addOperationAt h
    ⟨fun h => absurd h (by decide), fun _ _ => .add⟩) fun r h => ?_
  exact yields_addOperationAt h ⟨fun h => absurd h (by decide), fun _ _ => .remove⟩

/-- **The registration of the server obeys the rules.** -/
theorem yields_registration : Yields rules [] (registration counter) := by
  refine yields_bind (yields_addOperationAt (obeys_new _)
    (operations_elsewhere (by decide) rfl (by decide))) fun r h => ?_
  exact yields_bind (yields_withChildren h) fun r h => yields_withWorkers h

/-- **The server serves its workers**, and so does whatever else keeps to its rules. -/
theorem servesWorkers (h : r.Obeys rules []) : r.ServesWorkers where
  handlers worker name resolved hname hresolve := by
    obtain ⟨node, entry, rfl, -, hoperation⟩ := resolve_of_proxyFor? (h.proxyFor? _) hresolve
    obtain ⟨nodes, hnodes, n, hn, hentry, hplace⟩ := exists_of_operation? hoperation
    rcases hplace with hown | hinherited
    · obtain ⟨value, hnode⟩ := h.find?_singleton hown
      exact (hnode.operations _ hentry).2 hname (.inr rfl)
    · obtain ⟨b, hnode⟩ := h.lookup? hnodes n hn
      exact (hnode.operations _ hentry).2 hname (.inl hinherited)
  composites a resolved hresolve := by
    obtain ⟨node, entry, rfl, -, hoperation⟩ := resolve_of_proxyFor? (h.proxyFor? _) hresolve
    obtain ⟨nodes, hnodes, n, hn, hentry, -⟩ := exists_of_operation? hoperation
    obtain ⟨b, hnode⟩ := h.lookup? hnodes n hn
    exact (hnode.operations _ hentry).1 rfl
  writers worker node hfind f hf := by
    obtain ⟨value, hnode⟩ := h.find?_singleton (find?_of_findLocal hfind)
    exact hnode.attributes f hf rfl

/-- And so it serves its workers as the rules say. -/
theorem servesWorkers_registration {r₀ : Registration} (hserver : registration counter = .ok r₀)
    (hglobals : r₀.addGlobals = (none, r)) : r.ServesWorkers := by
  have hobeys := (yields_registration r₀ hserver).addGlobals operations_global
  rw [hglobals] at hobeys
  exact servesWorkers hobeys

end Server

end ManagementPlane
