import ManagementPlane.Proofs.Global.Describing
import ManagementPlane.Proofs.Proxied.Pursued

/-!
# Proofs/Proxied/Splicing — the results of proxies in a read

A recursive read that follows proxies answers what it answers without them, with the results of the
proxied resources in their places; a recursive description does the same with the descriptions of
proxied registrations (`proxied_results_spliced`).  Both are inquiries: the read leaves one question
for each proxied resource, and the rest is said by `Inquiry.Pursued`.
-/

namespace ManagementPlane

open Rendering (view describeWithInherited describedProxies descriptionQuestion describedAt placeOf)

variable {c : Nat} {r node : Registration} {operation : Value} {a b address : Address}
  {model resource : Resource} {path : List String} {proxy : Proxy} {o : ReadOptions}
  {operations includeDefaults : Bool} {description : String} {calls : List Registration.Call}

namespace Operation

/-- The operation describes the resource at an address, with the options. -/
structure ReadsDescription (operation : Value) (a : Address) (recursive operations proxies : Bool) :
    Prop extends Describes operation recursive operations proxies where
  parsed : parse operation = .ok (GlobalOperation.readResourceDescription.name, a)
  accepted : GlobalOperation.readResourceDescription.definition.check operation = .ok ()

/-- A description with all options given. -/
def readDescription (a : Address) (recursive operations proxies : Bool) : Value :=
  (((build GlobalOperation.readResourceDescription.name a).set Key.recursive recursive).set
    Key.operations operations).set Key.proxies proxies

theorem readsDescription_readDescription (ha : a.isConcrete = true)
    (recursive operations proxies : Bool) :
    ReadsDescription (readDescription a recursive operations proxies) a recursive operations
      proxies where
  recursive := rfl
  operations := rfl
  proxies := rfl
  parsed := parse_eq_ok.mpr ⟨rfl, by decide, Address.ofValue_toValue a, ha⟩
  accepted := by cases recursive <;> cases operations <;> cases proxies <;> rfl

end Operation

/-! ## Questions -/

namespace Rendering

theorem address_question (proxy : Proxy) (address : Address) (path : List String)
    (o : ReadOptions) : (question proxy address path o).address = address := by
  have haddress : Operation.addressOf (question proxy address path o).operation = .ok address :=
    Address.ofValue_toValue address
  rw [Delegation.address, haddress]

/-- A proxied resource is asked for from its own root on, as deep as the read goes. -/
theorem question_question (h : proxy.node.length = address.length) :
    (question proxy address path o).question =
      (proxy, Operation.readResource [] ⟨true, true, o.includeDefaults⟩) := by
  rw [Delegation.question, address_question, show (question proxy address path o).proxy = proxy
    from rfl, h, List.drop_length]
  rfl

theorem sound_question (h : proxy.node.length = address.length) :
    (question proxy address path o).Sound where
  addressed := by
    rw [address_question]
    exact Address.ofValue_toValue address
  below := by
    rw [address_question]
    exact h.le

theorem address_descriptionQuestion (proxy : Proxy) (path : List String) (operations : Bool) :
    (descriptionQuestion proxy path operations).address = proxy.node := by
  have haddress : Operation.addressOf (descriptionQuestion proxy path operations).operation =
      .ok proxy.node := Address.ofValue_toValue proxy.node
  rw [Delegation.address, haddress]

theorem question_descriptionQuestion (proxy : Proxy) (path : List String) (operations : Bool) :
    (descriptionQuestion proxy path operations).question =
      (proxy, Operation.readDescription [] true operations true) := by
  rw [Delegation.question, address_descriptionQuestion,
    show (descriptionQuestion proxy path operations).proxy = proxy from rfl, List.drop_length]
  rfl

theorem sound_descriptionQuestion (proxy : Proxy) (path : List String) (operations : Bool) :
    (descriptionQuestion proxy path operations).Sound where
  addressed := by
    rw [address_descriptionQuestion]
    exact Address.ofValue_toValue proxy.node
  below := by
    rw [address_descriptionQuestion]
    exact le_rfl

end Rendering

/-- **A proxy that is reached** stands where the address leads to it. -/
theorem Registration.nodeAt?_of_proxyFor?
    (h : ((root description).built calls).proxyFor? a = some (b, proxy)) :
    ∃ pattern node, ((root description).built calls).nodeAt? pattern = some node ∧
      node.proxy = some proxy ∧ pattern.length = b.length := by
  obtain ⟨hformed, hroot⟩ := formed_built description calls
  have hresolution := hformed.resolution hroot a
  obtain ⟨node, b', hfind, hproxy, howner, hfits, -⟩ :=
    hresolution.splits "" proxy (resolve_proxied_iff.mpr ⟨b, h⟩)
  obtain rfl : b = b' := by simpa [h] using howner
  obtain ⟨nodes, hwalk, hlast⟩ := find?_eq_some_iff.mp hfind
  obtain ⟨pattern, hpattern⟩ := hwalk.exists_nodeAt? node (List.mem_of_getLast? hlast)
  refine ⟨pattern, node, hpattern, hproxy, ?_⟩
  rw [← address_built hpattern, Address.length_of_fits hfits]

/-- **A proxy that is reached is as deep as its node**, where registrations put it there. -/
theorem Registration.length_of_proxyFor? (hplaced : ((root description).built calls).Placed)
    (h : ((root description).built calls).proxyFor? a = some (b, proxy)) :
    proxy.node.length = b.length := by
  obtain ⟨pattern, node, hpattern, hproxy, hlength⟩ := nodeAt?_of_proxyFor? h
  rw [hplaced pattern node proxy hpattern hproxy, hlength]

/-- A proxy answers for a resource of the model, which is below the address. -/
def Registration.Hands (r : Registration) (model : Resource) (a : Address) (b : Address)
    (proxy : Proxy) : Prop :=
  r.proxyFor? (a ++ b) = some (a ++ b, proxy) ∧ (model.navigate? (a ++ b)).isSome = true

theorem Registration.hands_iff (hnode : r.findLocal a = .ok node)
    (hresource : model.navigate? a = some resource) : r.Hands model a b proxy ↔
      node.proxyFor? b = some (b, proxy) ∧ (resource.navigate? b).isSome = true := by
  simp [Hands, proxyFor?_append hnode, Resource.navigate?_append, hresource]

/-- A proxy is registered below the node. -/
def Registration.Holds (node : Registration) (pattern : Address) (proxy : Proxy) : Prop :=
  ∃ below, node.nodeAt? pattern = some below ∧ below.proxy = some proxy

/-- Every description of the resource at an address with the options answers the value. -/
def Plane.ReadsDescription (c : Nat) (p : Plane) (a : Address) (recursive operations proxies : Bool)
    (v : Value) : Prop :=
  (∃ operation, Operation.ReadsDescription operation a recursive operations proxies) ∧
    ∀ operation, Operation.ReadsDescription operation a recursive operations proxies →
      p.Answers c operation v

namespace Inquiry

/-- **An operation puts the results of proxies into a value**: whom it asks what, where the results
go, and what comes of it wherever it is taken. -/
structure Splices (I : Inquiry) (c : Nat) (r : Registration) (model : Resource) (operation : Value)
    (owner : Address → Proxy → Prop) (place : Address → List String) (question : Value) :
    Prop where
  asks : ∀ path asked, (∃ d ∈ I.questions, d.path = path ∧ d.question = asked) ↔
    ∃ b proxy, b ≠ [] ∧ owner b proxy ∧ path = place b ∧ asked = (proxy, question)
  /-- Nobody is asked twice for the same, and no answer goes into another one. -/
  apart : (I.questions.map (·.path)).Pairwise Value.Apart
  /-- The value has the results in their places, and nothing else of it is changed. -/
  replaced : ∀ ws, ws.length = I.questions.length →
    I.value.Replaced ((I.questions.map (·.path)).zip ws) (I.result ws)
  pursued : ∀ (p : Plane) (control : Control) (input : Input) (sink : Sink),
    p.registration c = r → (p.tree c).root = model →
      ∃ y, ((Execution.new c operation control input sink).advance p).next = .going y ∧
        ∀ around : Plane → Plane → Prop,
          (∀ p q, around p q → ∀ c, q.registration c = p.registration c) →
          ∀ past q x, Execution.Course around
            ((Execution.new c operation control input sink).advance p).plane y past q x →
              I.Pursued past q x

/-- **Answers at places that are there and lie apart** are spliced, if there is one question for
each proxy. -/
theorem splices {I : Inquiry} {g : GlobalOperation} {owner : Address → Proxy → Prop}
    {place : Address → List String} {question : Value} {q : Address → Proxy → Delegation}
    (hfollows : Act.Follows I.address model (g.run r operation) I.act)
    (hleads : r.LeadsTo [] operation I.address g.entry)
    (hcheck : g.definition.check operation = .ok ()) (hread : g.definition.readOnly = true)
    (hmem : ∀ d, d ∈ I.questions ↔ ∃ b proxy, b ≠ [] ∧ owner b proxy ∧ d = q b proxy)
    (hsound : ∀ b proxy, owner b proxy → (q b proxy).Sound)
    (hpath : ∀ b proxy, (q b proxy).path = place b)
    (hquestion : ∀ b proxy, owner b proxy → (q b proxy).question = (proxy, question))
    (hapart : (I.questions.map (·.path)).Pairwise Value.Apart)
    (hplaces : ∀ b proxy, b ≠ [] → owner b proxy → (I.value.getPath? (place b)).isSome = true) :
    I.Splices c r model operation owner place question := by
  have harises : I.Arises g operation r model := by
    refine ⟨hfollows, fun d hd => ?_⟩
    obtain ⟨b, proxy, -, howner, rfl⟩ := (hmem d).mp hd
    exact hsound b proxy howner
  refine ⟨fun path asked => ⟨?_, ?_⟩, hapart, fun ws hlength => ?_, ?_⟩
  · rintro ⟨d, hd, rfl, rfl⟩
    obtain ⟨b, proxy, hb, howner, rfl⟩ := (hmem d).mp hd
    exact ⟨b, proxy, hb, howner, hpath b proxy, hquestion b proxy howner⟩
  · rintro ⟨b, proxy, hb, howner, rfl, rfl⟩
    exact ⟨q b proxy, (hmem _).mpr ⟨b, proxy, hb, howner, rfl⟩, hpath b proxy,
      hquestion b proxy howner⟩
  · refine Value.replaced_replaceAll ?_ fun part hpart => ?_
    · rwa [List.map_fst_zip (by simp [hlength])]
    · obtain ⟨d, hd, hplace⟩ := List.mem_map.mp (List.of_mem_zip hpart).1
      obtain ⟨b, proxy, hb, howner, rfl⟩ := (hmem d).mp hd
      rw [← hplace, hpath]
      exact hplaces b proxy hb howner
  · intro p control input sink hregistration hroot
    subst hroot
    obtain ⟨y, hy, hstands⟩ := stands_begin control input sink hregistration hleads hcheck hread
    refine ⟨y, hy, fun around haround past q x hcourse => ?_⟩
    exact (stands_course harises haround hstands hcourse).pursued harises

/-- A recursive read, and what it leaves to proxies. -/
def reading (a : Address) (node : Registration) (resource : Resource) (includeDefaults : Bool) :
    Inquiry where
  address := a
  value := view true includeDefaults node resource
  questions := (Rendering.renderResource ⟨true, true, includeDefaults⟩ node a [] resource).2

/-- A recursive description, and what it leaves to proxies. -/
def describing (r : Registration) (a : Address) (node : Registration) (operations : Bool) :
    Inquiry where
  address := a
  value := describeWithInherited r node a true operations
  questions := describedProxies operations [] node

theorem mem_reading_iff {d : Delegation} (hr : r.Formed) (hnode : r.findLocal a = .ok node)
    (hmodel : model.Orderly) (hresource : model.navigate? a = some resource) :
    d ∈ (reading a node resource includeDefaults).questions ↔ ∃ b proxy, b ≠ [] ∧
      r.Hands model a b proxy ∧
        d = Rendering.question proxy (a ++ b) (placeOf b) ⟨true, true, includeDefaults⟩ := by
  obtain ⟨hformed, hlocal⟩ := hr.findLocal hnode
  refine (Rendering.mem_questions_iff hformed hlocal (hmodel.navigate? hresource) rfl).trans ?_
  simp only [Rendering.Asks, Registration.hands_iff hnode hresource, and_assoc, exists_and_left,
    List.nil_append]

/-- **A recursive read that follows proxies** asks for the proxied resources below, and has a place
for each. -/
theorem splices_reading (hplaced : ((Registration.root description).built calls).Placed)
    (hmodel : model.Orderly)
    (hnode : ((Registration.root description).built calls).findLocal a = .ok node)
    (hserved : ((Registration.root description).built calls).operation? a
      GlobalOperation.readResource.name = some GlobalOperation.readResource.entry)
    (hresource : model.navigate? a = some resource)
    (hreads : Operation.ReadsResource operation a ⟨true, true, includeDefaults⟩) :
    (reading a node resource includeDefaults).Splices c
      ((Registration.root description).built calls) model operation
      (((Registration.root description).built calls).Hands model a) placeOf
      (Operation.readResource [] ⟨true, true, includeDefaults⟩) := by
  obtain ⟨hr, -⟩ := Registration.formed_built description calls
  obtain ⟨hformed, hlocal⟩ := hr.findLocal hnode
  have horderly : resource.Orderly := hmodel.navigate? hresource
  refine splices ?_ (Registration.leadsTo_of_findLocal hnode hserved hreads.parsed)
    hreads.accepted rfl (fun d => mem_reading_iff hr hnode hmodel hresource) ?_ (fun _ _ => rfl) ?_
    (Rendering.pairwise_apart_questions hformed horderly) ?_
  · exact GlobalOperation.follows_readResource (o := ⟨true, true, includeDefaults⟩) hr hnode hmodel
      hresource hreads
  · exact fun b proxy h =>
      Rendering.sound_question (Registration.length_of_proxyFor? hplaced h.1)
  · exact fun b proxy h =>
      Rendering.question_question (Registration.length_of_proxyFor? hplaced h.1)
  · intro b proxy hb h
    obtain ⟨howner, hnavigate⟩ := (Registration.hands_iff hnode hresource).mp h
    have hasks : Rendering.Asks ⟨true, true, includeDefaults⟩ node a [] resource _ b :=
      ⟨proxy, howner, hnavigate, rfl⟩
    exact Option.isSome_of_mem
      (Rendering.getPath?_view_of_asks hformed horderly hlocal hasks hb)

theorem mem_describing_iff {d : Delegation} (hr : r.Formed) (hnode : r.findLocal a = .ok node) :
    d ∈ (describing r a node operations).questions ↔ ∃ b proxy, b ≠ [] ∧ node.Holds b proxy ∧
      d = descriptionQuestion proxy (describedAt b) operations := by
  refine (Rendering.mem_describedProxies_iff (hr.findLocal hnode).1).trans ?_
  simp only [Rendering.Inquires, Registration.Holds]
  grind

/-- **A recursive description that follows proxies** asks for the proxied registrations below, and
has a place for each. -/
theorem splices_describing (hr : r.Formed) (hnode : r.findLocal a = .ok node)
    (hserved : r.operation? a GlobalOperation.readResourceDescription.name =
      some GlobalOperation.readResourceDescription.entry)
    (hreads : Operation.ReadsDescription operation a true operations true) :
    (describing r a node operations).Splices c r model operation
      node.Holds describedAt (Operation.readDescription [] true operations true) := by
  obtain ⟨hformed, hlocal⟩ := hr.findLocal hnode
  refine splices ?_ (Registration.leadsTo_of_findLocal hnode hserved hreads.parsed)
    hreads.accepted rfl (fun d => mem_describing_iff hr hnode) ?_ (fun _ _ => rfl) ?_
    (Rendering.pairwise_apart_describedProxies hformed) ?_
  · exact GlobalOperation.follows_readResourceDescription hreads.toDescribes hnode
  · exact fun b proxy _ => Rendering.sound_descriptionQuestion _ _ _
  · exact fun b proxy _ => Rendering.question_descriptionQuestion _ _ _
  · rintro (_ | ⟨e, b⟩) proxy hb ⟨below, hbelow, hproxy⟩
    · exact absurd rfl hb
    · have hproxied : below.isProxied = true := by rw [Registration.isProxied, hproxy]; rfl
      exact Option.isSome_of_mem
        ((Rendering.getPath?_describeWithInherited r node a true operations e b).trans
          (Rendering.getPath?_describe_of_inquires hformed hlocal hbelow hproxied))

end Inquiry

/-- **Proxied results are spliced exactly in place**, in every tree that registrations built with
its proxies as deep as their nodes, for every model and at every address that the tree answers for
itself.  A recursive read that follows proxies is the one that does not, and has the result of each
proxied resource below in the place of that resource; a recursive description is the same with the
proxied registrations below. -/
theorem proxied_results_spliced {description : String} {calls : List Registration.Call}
    (hplaced : ((Registration.root description).built calls).Placed) (hmodel : model.Orderly)
    (ha : a.isConcrete = true)
    (hnode : ((Registration.root description).built calls).findLocal a = .ok node)
    (hserved : ∀ g ∈ [GlobalOperation.readResource, GlobalOperation.readResourceDescription],
      ((Registration.root description).built calls).operation? a g.name = some g.entry) (c : Nat) :
    (∀ resource includeDefaults, model.navigate? a = some resource → ∃ I : Inquiry,
      (∀ p : Plane, p.Idle c ((Registration.root description).built calls) model →
        p.Reads c a ⟨true, false, includeDefaults⟩ I.value) ∧
      ∀ operation, Operation.ReadsResource operation a ⟨true, true, includeDefaults⟩ →
        I.Splices c ((Registration.root description).built calls) model operation
          (((Registration.root description).built calls).Hands model a) placeOf
          (Operation.readResource [] ⟨true, true, includeDefaults⟩)) ∧
    ∀ operations, ∃ I : Inquiry,
      (∀ p : Plane, p.Idle c ((Registration.root description).built calls) model →
        p.ReadsDescription c a true operations false I.value) ∧
      ∀ operation, Operation.ReadsDescription operation a true operations true →
        I.Splices c ((Registration.root description).built calls) model operation
          node.Holds describedAt (Operation.readDescription [] true operations true) := by
  obtain ⟨hr, -⟩ := Registration.formed_built description calls
  have hread := hserved _ List.mem_cons_self
  have hdescribe := hserved GlobalOperation.readResourceDescription (by simp)
  constructor
  · intro resource includeDefaults hresource
    refine ⟨.reading a node resource includeDefaults, fun p hp => ?_, fun operation hreads => ?_⟩
    · refine ⟨⟨_, Operation.readsResource_readResource ha _⟩, fun operation hreads => ?_⟩
      have hvalue := GlobalOperation.reads_readResource hr hnode hmodel hresource hreads rfl
      exact Plane.answers_of_reads hp
        (Registration.leadsTo_of_findLocal hnode hread hreads.parsed) hreads.accepted hvalue
    · exact Inquiry.splices_reading hplaced hmodel hnode hread hresource hreads
  · intro operations
    refine ⟨.describing _ a node operations, fun p hp => ?_,
      fun operation hreads => Inquiry.splices_describing hr hnode hdescribe hreads⟩
    refine ⟨⟨_, Operation.readsDescription_readDescription ha true operations false⟩,
      fun operation hreads => ?_⟩
    have hvalue : Act.Reads a model _ _ :=
      GlobalOperation.reads_readResourceDescription hreads.toDescribes hnode (.inl rfl)
    exact Plane.answers_of_reads hp
      (Registration.leadsTo_of_findLocal hnode hdescribe hreads.parsed) hreads.accepted hvalue

/-! ## A small tree

One proxy below a wildcard, and another one beside it. -/

namespace Plane

def forkedCalls : List Registration.Call :=
  (GlobalOperation.all.map fun g => .operation [] g.entry) ++
    [.subModel [⟨"a", "*"⟩] "An a",
      .proxy [⟨"a", "*"⟩, ⟨"p", "x"⟩] ⟨[⟨"a", "*"⟩, ⟨"p", "x"⟩], .controller 1⟩,
      .proxy [⟨"b", "y"⟩] ⟨[⟨"b", "y"⟩], .controller 1⟩]

def forked : Plane where
  controllers := [
    { name := "main"
      registration := (Registration.root "").built forkedCalls
      tree := { root := { children := [
        ("a", [("1", { children := [("p", [("x", {})])] })]), ("b", [("y", {})])] } } },
    { name := "child"
      registration := (Registration.root "").built
        (GlobalOperation.all.map fun g => .operation [] g.entry)
      tree := { root := {} } }]
  processes := [.running]

theorem orderly_forked : (forked.tree 0).root.Orderly := by
  have hempty : Resource.Orderly {} := by constructor <;> simp [Dict.keys]
  have hone : Resource.Orderly { children := [("p", [("x", {})])] } := by
    constructor <;> simp [Dict.keys, hempty]
  show Resource.Orderly {
    children := [("a", [("1", { children := [("p", [("x", {})])] })]), ("b", [("y", {})])] }
  constructor <;> simp [Dict.keys, hempty, hone]

theorem placed_forked : ((Registration.root "").built forkedCalls).Placed := by
  refine Registration.placed_built fun pattern owner h => ?_
  simp only [forkedCalls, List.mem_append, List.mem_map, List.mem_cons, reduceCtorEq, and_false,
    exists_false, false_or, Registration.Call.proxy.injEq, List.not_mem_nil, or_false] at h
  rcases h with ⟨rfl, rfl⟩ | ⟨rfl, rfl⟩ <;> rfl

theorem proxied_results_spliced_forked :
    forked.Idle 0 ((Registration.root "").built forkedCalls) (forked.tree 0).root ∧
    (∃ I : Inquiry, forked.Reads 0 [] ⟨true, false, true⟩ I.value ∧
      I.Splices 0 ((Registration.root "").built forkedCalls) (forked.tree 0).root
        (Operation.readResource [] ⟨true, true, true⟩)
        (((Registration.root "").built forkedCalls).Hands (forked.tree 0).root []) placeOf
        (Operation.readResource [] ⟨true, true, true⟩)) ∧
    ∃ I : Inquiry, forked.ReadsDescription 0 [] true true false I.value ∧
      I.Splices 0 ((Registration.root "").built forkedCalls) (forked.tree 0).root
        (Operation.readDescription [] true true true)
        ((Registration.root "").built forkedCalls).Holds describedAt
        (Operation.readDescription [] true true true) := by
  have hidle : forked.Idle 0 ((Registration.root "").built forkedCalls) (forked.tree 0).root :=
    ⟨⟨by decide, by decide⟩, rfl, rfl, rfl⟩
  have hnode : ((Registration.root "").built forkedCalls).findLocal [] =
      .ok ((Registration.root "").built forkedCalls) := rfl
  obtain ⟨hreads, hdescribes⟩ := proxied_results_spliced placed_forked orderly_forked rfl hnode
    (List.forall_mem_cons.mpr ⟨rfl, List.forall_mem_singleton.mpr rfl⟩) 0
  refine ⟨hidle, ?_, ?_⟩
  · obtain ⟨I, hI, hsplices⟩ := hreads (forked.tree 0).root true rfl
    exact ⟨I, hI _ hidle, hsplices _ (Operation.readsResource_readResource rfl _)⟩
  · obtain ⟨I, hI, hsplices⟩ := hdescribes true
    exact ⟨I, hI _ hidle,
      hsplices _ (Operation.readsDescription_readDescription rfl true true true)⟩

/-- Without proxies both places are undefined. -/
example :
    let submitted := ({ plane := forked } : Machine).submit 0
      (Operation.readResource [] ⟨true, true, true⟩) (fun _ => .decide .keep) {} .discard
    let done := submitted.2.run (fun p => (p.ticket submitted.1).final.isSome) none 100
    (match (done.plane.ticket submitted.1).final with
    | some (.answered (.ok (response, _))) =>
      [["a", "1", "p", "x"], ["b", "y"]].map fun place =>
        ((Response.result response).getPath? place).map Value.type
    | _ => []) = [some .object, some .object] := by
  decide +kernel

end Plane

end ManagementPlane
