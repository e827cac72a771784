import ManagementPlane.Proofs.Address.Patterns
import ManagementPlane.Proofs.Global.Editing
import ManagementPlane.Proofs.Registration.InPlace

/-!
# Proofs/Registration/Resolving — where an address leads

An address is walked from the root, element by element (`Registration.Walk`): the child of the very
name comes before the wildcard, and a proxy ends the walk.  Looking an address up is walking it
(`lookup?_eq_some_iff`).  In a tree that registrations built, every node on the way is registered
for what was walked so far, only the last one can be a proxy, and the address splits there into the
place of the proxy and what is left for it (`resolution_built`).
-/

namespace ManagementPlane

namespace Registration

variable {r node last c : Registration} {a b before : Address} {e : Element} {name : String}
  {nodes outer : List Registration} {proxy : Proxy} {description : String} {calls : List Call}

/-! ## Walks -/

/-- **A walk** along an address: the nodes that it passes, from the root on. -/
inductive Walk : Registration → Address → List Registration → Prop
  /-- The address ends here. -/
  | arrived (r : Registration) : Walk r [] [r]
  /-- A proxy answers for the rest of the address. -/
  | handedOver {r : Registration} (e : Element) (es : Address) (proxied : r.isProxied = true) :
    Walk r (e :: es) [r]
  /-- The child of the very name comes first. -/
  | exact {r c : Registration} {e : Element} {es : Address} {nodes : List Registration}
    (here : r.isProxied = false) (child : r.node? e = some c) (rest : Walk c es nodes) :
    Walk r (e :: es) (r :: nodes)
  /-- The wildcard stands for any other name. -/
  | wildcard {r c : Registration} {e : Element} {es : Address} {nodes : List Registration}
    (here : r.isProxied = false) (unnamed : r.node? e = none)
    (child : r.node? { e with value := Element.anyValue } = some c) (rest : Walk c es nodes) :
    Walk r (e :: es) (r :: nodes)

theorem child?_eq (r : Registration) (e : Element) :
    r.child? e = (r.node? e).or (r.node? { e with value := Element.anyValue }) := rfl

/-- **Looking an address up is walking it**, and fails where there is no way. -/
theorem lookup?_eq_some_iff : r.lookup? a = some nodes ↔ Walk r a nodes := by
  constructor
  · intro h
    induction a generalizing r nodes with
    | nil =>
      obtain rfl := Option.some.inj h
      exact .arrived r
    | cons e es ih =>
      rw [lookup?] at h
      split at h
      · next hproxied =>
        obtain rfl := Option.some.inj h
        exact .handedOver e es hproxied
      · next hproxied =>
        obtain ⟨c, hc, h⟩ := Option.bind_eq_some_iff.mp h
        obtain ⟨rest, hrest, rfl⟩ := Option.map_eq_some_iff.mp h
        have hhere : r.isProxied = false := Bool.eq_false_iff.mpr hproxied
        rcases Option.or_eq_some_iff.mp (child?_eq r e ▸ hc) with hc | ⟨hnone, hc⟩
        · exact .exact hhere hc (ih hrest)
        · exact .wildcard hhere hnone hc (ih hrest)
  · intro h
    induction h with
    | arrived r => rfl
    | handedOver e es hproxied => rw [lookup?, if_pos hproxied]
    | exact hhere hc _ ih => simp [lookup?, hhere, child?_eq, hc, ih]
    | wildcard hhere hnone hc _ ih => simp [lookup?, hhere, child?_eq, hnone, hc, ih]

namespace Walk

theorem ne_nil (h : Walk r a nodes) : nodes ≠ [] := by
  cases h <;> simp

theorem head? (h : Walk r a nodes) : nodes.head? = some r := by
  cases h <;> rfl

theorem length_le (h : Walk r a nodes) : nodes.length ≤ a.length + 1 := by
  induction h <;> simp_all

/-- **Only a proxy ends a walk before its address.** -/
theorem proxied_of_length (h : Walk r a nodes) (hlast : nodes.getLast? = some last)
    (hlength : nodes.length ≤ a.length) : last.isProxied = true := by
  induction h with
  | arrived r => simp at hlength
  | handedOver e es hproxied =>
    obtain rfl := Option.some.inj hlast
    exact hproxied
  | exact _ _ hrest ih | wildcard _ _ _ hrest ih =>
    rw [List.getLast?_cons_of_ne_nil hrest.ne_nil] at hlast
    exact ih hlast (Nat.le_of_succ_le_succ hlength)

end Walk

/-! ## Where nodes are registered -/

/-- What a walk from below adds to a walk. -/
theorem fits_cons (hr : r.address.fits before = true)
    (hrest : ∀ {d : Nat} {node : Registration}, nodes[d]? = some node →
      node.address.fits (before ++ [e] ++ a.take d) = true)
    {d : Nat} (hnode : (r :: nodes)[d]? = some node) :
    node.address.fits (before ++ (e :: a).take d) = true := by
  cases d with
  | zero =>
    obtain rfl := Option.some.inj hnode
    simpa using hr
  | succ d =>
    rw [List.getElem?_cons_succ] at hnode
    simpa using hrest hnode

/-- **Every node on the way is registered for what was walked so far.** -/
theorem Walk.fits (h : Walk r a nodes) (hr : r.Formed) (hbefore : r.address.fits before = true)
    {d : Nat} (hnode : nodes[d]? = some node) : node.address.fits (before ++ a.take d) = true := by
  induction h generalizing before d node with
  | arrived r =>
    obtain ⟨-, rfl⟩ := List.getElem?_eq_some_iff.mp hnode
    simpa using hbefore
  | handedOver e es _ => exact fits_cons hbefore (by simp) hnode
  | exact _ hc _ ih =>
    obtain ⟨hformed, haddress, -⟩ := hr.node? hc
    refine fits_cons hbefore (fun hnode => ih hformed ?_ hnode) hnode
    rw [haddress]
    exact Address.fits_append_singleton hbefore (Element.fits_self _)
  | wildcard _ _ hc _ ih =>
    obtain ⟨hformed, haddress, -⟩ := hr.node? hc
    refine fits_cons hbefore (fun hnode => ih hformed ?_ hnode) hnode
    rw [haddress]
    exact Address.fits_append_singleton hbefore (Element.anyValue_fits _)

/-- Only the end of a walk can be a proxy. -/
theorem Walk.firstProxy? (h : Walk r a nodes) (hlast : nodes.getLast? = some last) :
    firstProxy? nodes = last.proxy.map fun proxy => (nodes.length - 1, proxy) := by
  induction h with
  | arrived r | @handedOver r e es _ =>
    obtain rfl : r = last := Option.some.inj hlast
    rw [Registration.firstProxy?]
    cases r.proxy <;> rfl
  | @exact r c e es nodes hhere _ hrest ih | @wildcard r c e es nodes hhere _ _ hrest ih =>
    rw [List.getLast?_cons_of_ne_nil hrest.ne_nil] at hlast
    have hnone : r.proxy = none := by simpa [isProxied] using hhere
    have hlength : 0 < nodes.length := List.length_pos_of_ne_nil hrest.ne_nil
    rw [Registration.firstProxy?, hnone, ih hlast, Option.map_map]
    cases last.proxy with
    | none => rfl
    | some proxy => simp [Nat.sub_add_cancel hlength]

/-- **The owner of an address** is the proxy that its walk ends at. -/
theorem Walk.proxyFor? (h : Walk r a nodes) (hlast : nodes.getLast? = some last) :
    r.proxyFor? a = last.proxy.map fun proxy => (a.take (nodes.length - 1), proxy) := by
  rw [Registration.proxyFor?, lookup?_eq_some_iff.mpr h, Option.bind_some, h.firstProxy? hlast,
    Option.map_map]
  rfl

theorem find?_eq_some_iff :
    r.find? a = some node ↔ ∃ nodes, Walk r a nodes ∧ nodes.getLast? = some node := by
  simp [find?, Option.bind_eq_some_iff, lookup?_eq_some_iff]

theorem resolve_proxied_iff :
    r.resolve a name = .ok (.proxied proxy) ↔ ∃ b, r.proxyFor? a = some (b, proxy) := by
  rw [resolve]
  cases hproxy : r.proxyFor? a with
  | some owner => simp [Prod.ext_iff]
  | none =>
    cases hfind : r.find? a with
    | none => simp
    | some node => cases r.operation? a name <;> simp

/-- **An operation is handed over exactly where a proxy is reached.** -/
theorem resolve_proxied_iff_find? : r.resolve a name = .ok (.proxied proxy) ↔
    ∃ node, r.find? a = some node ∧ node.proxy = some proxy := by
  rw [resolve_proxied_iff]
  constructor
  · rintro ⟨b, howner⟩
    obtain ⟨_, hproxy, -⟩ := Option.map_eq_some_iff.mp howner
    obtain ⟨nodes, hnodes, -⟩ := Option.bind_eq_some_iff.mp hproxy
    have hwalk := lookup?_eq_some_iff.mp hnodes
    obtain ⟨last, hlast⟩ := Option.isSome_iff_exists.mp (List.getLast?_isSome.mpr hwalk.ne_nil)
    rw [hwalk.proxyFor? hlast, Option.map_eq_some_iff] at howner
    obtain ⟨_, hproxy, hpair⟩ := howner
    obtain ⟨-, rfl⟩ := Prod.mk.inj hpair
    exact ⟨last, find?_eq_some_iff.mpr ⟨nodes, hwalk, hlast⟩, hproxy⟩
  · rintro ⟨node, hfind, hproxy⟩
    obtain ⟨nodes, hwalk, hlast⟩ := find?_eq_some_iff.mp hfind
    exact ⟨_, by rw [hwalk.proxyFor? hlast, hproxy]; rfl⟩

/-! ## From a node on -/

theorem proxyFor?_of_proxy (h : r.proxy = some proxy) (a : Address) :
    r.proxyFor? a = some ([], proxy) := by
  have hproxied : r.isProxied = true := by rw [isProxied, h]; rfl
  have hlookup : r.lookup? a = some [r] := by
    cases a with
    | nil => rfl
    | cons e es => rw [lookup?, if_pos hproxied]
  rw [proxyFor?, hlookup]
  simp [firstProxy?, h]

theorem proxyFor?_nil (h : r.proxy = none) : r.proxyFor? [] = none := by
  simp [proxyFor?, lookup?, firstProxy?, h]

theorem lookup?_cons (h : r.proxy = none) (e : Element) (es : Address) :
    r.lookup? (e :: es) = (r.child? e).bind fun c => (c.lookup? es).map (r :: ·) := by
  have hhere : r.isProxied = false := by rw [isProxied, h]; rfl
  rw [lookup?, if_neg (by rw [hhere]; decide)]

/-- What is local hands an address on to the child that it leads to. -/
theorem proxyFor?_cons (h : r.proxy = none) (e : Element) (es : Address) :
    r.proxyFor? (e :: es) =
      (r.child? e).bind fun c => (c.proxyFor? es).map fun owner => (e :: owner.1, owner.2) := by
  rw [proxyFor?, lookup?_cons h]
  cases r.child? e with
  | none => rfl
  | some c =>
    rw [Option.bind_some, Option.bind_some, proxyFor?]
    cases c.lookup? es with
    | none => rfl
    | some nodes =>
      rw [Option.map_some, Option.bind_some, Option.bind_some, firstProxy?, h]
      cases firstProxy? nodes <;> rfl

theorem proxyFor?_cons_eq_some_iff (h : r.proxy = none) {es : Address} :
    r.proxyFor? (e :: es) = some (e :: es, proxy) ↔
      ∃ c, r.child? e = some c ∧ c.proxyFor? es = some (es, proxy) := by
  simp [proxyFor?_cons h, Option.bind_eq_some_iff]

theorem find?_cons (h : r.proxy = none) (e : Element) (es : Address) :
    r.find? (e :: es) = (r.child? e).bind (·.find? es) := by
  rw [find?, lookup?_cons h]
  cases r.child? e with
  | none => rfl
  | some c =>
    rw [Option.bind_some, Option.bind_some, find?]
    cases hnodes : c.lookup? es with
    | none => rfl
    | some nodes =>
      exact List.getLast?_cons_of_ne_nil (lookup?_eq_some_iff.mp hnodes).ne_nil

/-- **An address is looked up further from the node that its beginning leads to**, and belongs to
whomever the rest belongs to from there. -/
theorem Walk.append (h : Walk r a nodes) (hlast : nodes.getLast? = some node)
    (hlocal : node.proxy = none) (b : Address) : r.find? (a ++ b) = node.find? b ∧
      r.proxyFor? (a ++ b) = (node.proxyFor? b).map fun owner => (a ++ owner.1, owner.2) := by
  induction h with
  | arrived r =>
    obtain rfl : r = node := Option.some.inj hlast
    simp
  | @handedOver r e es hproxied =>
    obtain rfl : r = node := Option.some.inj hlast
    simp [isProxied, hlocal] at hproxied
  | @exact r c e es nodes hhere hc hrest ih | @wildcard r c e es nodes hhere _ hc hrest ih =>
    rw [List.getLast?_cons_of_ne_nil hrest.ne_nil] at hlast
    have hproxy : r.proxy = none := by simpa [isProxied] using hhere
    have hchild : r.child? e = some c := by simp_all [child?_eq]
    obtain ⟨hfind, howner⟩ := ih hlast
    rw [List.cons_append, find?_cons hproxy, proxyFor?_cons hproxy, hchild, Option.bind_some,
      Option.bind_some, hfind, howner, Option.map_map]
    exact ⟨rfl, rfl⟩

theorem findLocal_eq_ok_iff :
    r.findLocal a = .ok node ↔ ∃ outer, Walk r a (outer ++ [node]) ∧ node.proxy = none := by
  have hfind : (∃ outer, Walk r a (outer ++ [node])) ↔ r.find? a = some node := by
    rw [find?_eq_some_iff]
    constructor
    · rintro ⟨outer, hwalk⟩
      exact ⟨_, hwalk, List.getLast?_concat⟩
    · rintro ⟨nodes, hwalk, hlast⟩
      exact ⟨nodes.dropLast, by rwa [List.dropLast_append_getLast? node hlast]⟩
  rw [exists_and_right, hfind, findLocal]
  cases hnode : r.find? a with
  | none => simp
  | some found => cases hproxy : found.proxy <;> grind [isProxied]

theorem Formed.findLocal (hr : r.Formed) (h : r.findLocal a = .ok node) :
    node.Formed ∧ node.proxy = none := by
  obtain ⟨outer, hwalk, hproxy⟩ := findLocal_eq_ok_iff.mp h
  exact ⟨of_lookup? Formed.children hr (lookup?_eq_some_iff.mpr hwalk) node (by simp), hproxy⟩

theorem proxyFor?_append (h : r.findLocal a = .ok node) (b : Address) :
    r.proxyFor? (a ++ b) = (node.proxyFor? b).map fun owner => (a ++ owner.1, owner.2) := by
  obtain ⟨outer, hwalk, hproxy⟩ := findLocal_eq_ok_iff.mp h
  exact (hwalk.append List.getLast?_concat hproxy b).2

/-- A local child of a local node is local. -/
theorem findLocal_append (h : r.findLocal a = .ok node) (hc : node.child? e = some c)
    (hlocal : c.proxy = none) : r.findLocal (a ++ [e]) = .ok c := by
  obtain ⟨outer, hwalk, hproxy⟩ := findLocal_eq_ok_iff.mp h
  have hfind : r.find? (a ++ [e]) = some c := by
    rw [(hwalk.append List.getLast?_concat hproxy [e]).1, find?_cons hproxy, hc]
    rfl
  simp [Registration.findLocal, hfind, isProxied, hlocal]

/-! ## Trees that registrations built -/

/-- **How an address is resolved** in a tree whose nodes stand where their addresses say. -/
structure Resolution (r : Registration) (a : Address) : Prop where
  /-- The exactly named child comes before the wildcard, and without either the walk fails. -/
  walks : ∀ nodes, r.lookup? a = some nodes ↔ Walk r a nodes
  /-- The d-th node on the way is registered for the first d elements. -/
  fits : ∀ nodes, r.lookup? a = some nodes → ∀ (d : Nat) (node : Registration),
    nodes[d]? = some node → node.address.fits (a.take d) = true
  /-- Only a proxy ends the walk before the address. -/
  stops : ∀ nodes, r.lookup? a = some nodes → nodes.length = a.length + 1 ∨
    ∃ last, nodes.getLast? = some last ∧ last.isProxied = true
  /-- An operation is handed over exactly where a proxy is reached. -/
  handsOver : ∀ name, (∃ proxy, r.resolve a name = .ok (.proxied proxy)) ↔
    ∃ node, r.find? a = some node ∧ node.isProxied = true
  /-- It goes to the proxy that is reached, and the rest of the address goes with it. -/
  splits : ∀ name proxy, r.resolve a name = .ok (.proxied proxy) → ∃ node b,
    r.find? a = some node ∧ node.proxy = some proxy ∧ r.proxyFor? a = some (b, proxy) ∧
      node.address.fits b = true ∧ b ++ a.drop node.address.length = a

theorem Formed.resolution (hr : r.Formed) (hroot : r.address = Address.root) (a : Address) :
    r.Resolution a where
  walks nodes := lookup?_eq_some_iff
  fits nodes hnodes d node hnode := by
    have hfits : r.address.fits [] = true := by rw [hroot]; rfl
    simpa using (lookup?_eq_some_iff.mp hnodes).fits hr hfits hnode
  stops nodes hnodes := by
    have hwalk := lookup?_eq_some_iff.mp hnodes
    rcases hwalk.length_le.eq_or_lt with hlength | hlength
    · exact .inl hlength
    · obtain ⟨last, hlast⟩ := Option.isSome_iff_exists.mp (List.getLast?_isSome.mpr hwalk.ne_nil)
      exact .inr ⟨last, hlast, hwalk.proxied_of_length hlast (Nat.le_of_lt_succ hlength)⟩
  handsOver name := by
    simp only [resolve_proxied_iff_find?, isProxied, Option.isSome_iff_exists]
    rw [exists_comm]
    simp only [exists_and_left]
  splits name proxy hresolve := by
    obtain ⟨node, hfind, hproxy⟩ := resolve_proxied_iff_find?.mp hresolve
    obtain ⟨nodes, hwalk, hlast⟩ := find?_eq_some_iff.mp hfind
    have hfits : node.address.fits (a.take (nodes.length - 1)) = true := by
      have hroot : r.address.fits [] = true := by rw [hroot]; rfl
      simpa using hwalk.fits hr hroot (List.getLast?_eq_getElem? ▸ hlast)
    refine ⟨node, a.take (nodes.length - 1), hfind, hproxy, ?_, hfits, ?_⟩
    · rw [hwalk.proxyFor? hlast, hproxy]
      rfl
    · have hlength : node.address.length = nodes.length - 1 := by
        have := hwalk.length_le
        rw [Address.length_of_fits hfits, List.length_take]
        omega
      rw [hlength, List.take_append_drop]

/-- **Whatever registrations build is a tree whose addresses resolve.**  A call that is refused
leaves it alone, also as it is made, on the tree itself; every node stands where its address says,
nothing is below a proxy, and every address is resolved by its walk. -/
theorem resolution_built (description : String) (calls : List Call) :
    (∀ call error, call.run ((root description).built calls) = .error error →
      ((root description).built (calls ++ [call])) = (root description).built calls) ∧
    (∀ pattern node, ((root description).built calls).nodeAt? pattern = some node →
      node.address = pattern ∧ (node.isProxied = true → node.children = [])) ∧
    (∀ a, ((root description).built calls).Resolution a) ∧
    ∀ call : Call, call.inPlace ((root description).built calls) =
      ((call.run ((root description).built calls)).map fun _ => (),
        (root description).built (calls ++ [call])) := by
  obtain ⟨hformed, hroot⟩ := formed_built description calls
  have hafter : ∀ call : Call, (root description).built (calls ++ [call]) =
      ((root description).built calls).after call := fun _ => List.foldl_append
  refine ⟨fun call error h => ?_, fun pattern node h => ?_, hformed.resolution hroot,
    fun call => ?_⟩
  · rw [hafter]
    exact after_of_error h
  · exact ⟨address_built h, (hformed.nodeAt? h).1.neat.ends⟩
  · rw [hafter]
    exact call.inPlace_eq _

end Registration

end ManagementPlane
