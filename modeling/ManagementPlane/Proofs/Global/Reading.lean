import ManagementPlane.Proofs.Global.Answering
import ManagementPlane.Proofs.Global.Rendered
import ManagementPlane.Proofs.Global.Sequence

/-!
# Proofs/Global/Reading — recursive reads are made of reads

A recursive read that leaves proxies out shows of each local child what a read of that child shows,
and of each attribute what a read of the attribute shows; a read that is not recursive shows the
same with undefined in place of the children (`reads_composed`).  What is said of values is said of
the operations that answer them: `Plane.Reads` and `Plane.ReadsAttribute` are about all operations
that read the same with the same options.
-/

namespace ManagementPlane

namespace Operation

/-- The operation reads the resource at an address, with the options. -/
structure ReadsResource (operation : Value) (a : Address) (o : ReadOptions) : Prop where
  parsed : parse operation = .ok (GlobalOperation.readResource.name, a)
  accepted : GlobalOperation.readResource.definition.check operation = .ok ()
  recursive : booleanParam operation Key.recursive false = .ok o.recursive
  proxies : booleanParam operation Key.proxies false = .ok o.proxies
  includeDefaults : booleanParam operation Key.includeDefaults true = .ok o.includeDefaults

/-- A read with all options given. -/
def readResource (a : Address) (o : ReadOptions) : Value :=
  (((build GlobalOperation.readResource.name a).set Key.recursive o.recursive).set
    Key.proxies o.proxies).set Key.includeDefaults o.includeDefaults

theorem readsResource_readResource {a : Address} (ha : a.isConcrete = true) (o : ReadOptions) :
    ReadsResource (readResource a o) a o where
  parsed := parse_eq_ok.mpr ⟨rfl, by decide, Address.ofValue_toValue a, ha⟩
  accepted := by
    obtain ⟨x, y, z⟩ := o
    cases x <;> cases y <;> cases z <;> rfl
  recursive := rfl
  proxies := rfl
  includeDefaults := rfl

/-- The operation reads an attribute of the resource at an address. -/
structure ReadsAttribute (operation : Value) (a : Address) (name : String)
    (includeDefaults : Bool) : Prop where
  parsed : parse operation = .ok (GlobalOperation.readAttribute.name, a)
  accepted : GlobalOperation.readAttribute.definition.check operation = .ok ()
  named : stringParam operation Key.name = .ok name
  includeDefaults : booleanParam operation Key.includeDefaults true = .ok includeDefaults

/-- A read of an attribute with all options given. -/
def readAttribute (a : Address) (name : String) (includeDefaults : Bool) : Value :=
  ((build GlobalOperation.readAttribute.name a).set Key.name name).set Key.includeDefaults
    includeDefaults

theorem check_text {name description s : String} (hs : s ≠ "") :
    (GlobalOperation.text name description).check (.string s) = .ok () := by
  have hlength : ¬s.length < 1 := by simpa [String.length_eq_zero_iff] using hs
  rw [GlobalOperation.text, AttributeDefinition.check]
  simp [Value.isDefined, AttributeDefinition.checkScalar, AttributeDefinition.accepts, Value.type,
    AttributeDefinition.lengthOf?, hlength]
  rfl

/-- Every attribute that has a name can be asked for. -/
theorem readsAttribute_readAttribute {a : Address} (ha : a.isConcrete = true) {name : String}
    (hname : name ≠ "") (includeDefaults : Bool) :
    ReadsAttribute (readAttribute a name includeDefaults) a name includeDefaults where
  parsed := parse_eq_ok.mpr ⟨rfl, by decide, Address.ofValue_toValue a, ha⟩
  accepted := by
    show AttributeDefinition.checkFields [(Key.name, GlobalOperation.text _ _),
      (Key.includeDefaults, _)] _ = _
    rw [AttributeDefinition.checkFields,
      show (readAttribute a name includeDefaults).get Key.name = .string name from rfl,
      check_text hname]
    cases includeDefaults <;> rfl
  named := rfl
  includeDefaults := rfl

end Operation

namespace Registration

theorem get?_storedAttributes {r : Registration} (hr : r.Formed) (name : String) :
    Dict.get? r.storedAttributes name =
      (Dict.get? r.attributes name).filter (·.access ≠ .metric) :=
  Dict.get?_filter_of_nodup hr.neat.attributes (fun entry => entry.access ≠ .metric) name

end Registration

open Execution (Succeeds)
open Rendering (view withoutChildren)

section Acts

variable {r node : Registration} {operation : Value} {a : Address} {o : ReadOptions}
  {root resource : Resource} {name : String} {entry : AttributeEntry} {includeDefaults : Bool}

namespace GlobalOperation

/-- A read answers what is shown of the resource, and asks what is left to ask. -/
theorem follows_readResource (hr : r.Formed) (hnode : r.findLocal a = .ok node)
    (hroot : root.Orderly) (hresource : root.navigate? a = some resource)
    (hreads : Operation.ReadsResource operation a o) :
    Act.Follows a root (readResource.run r operation) (do
      Act.setResult (view o.recursive o.includeDefaults node resource)
      Delegation.queueAll (Rendering.renderResource o node a [] resource).2) := by
  obtain ⟨hformed, -⟩ := hr.findLocal hnode
  rw [← Rendering.renderResource_fst hformed (hroot.navigate? hresource) o a []]
  exact Act.follows_orThrow hreads.recursive (Act.follows_orThrow hreads.proxies
    (Act.follows_orThrow hreads.includeDefaults
      (Act.follows_get (fun x hx => by simp only [hx.address]; rfl)
        (Act.follows_orThrow hnode (Act.follows_read hresource (.refl _))))))

theorem reads_readResource (hr : r.Formed) (hnode : r.findLocal a = .ok node)
    (hroot : root.Orderly) (hresource : root.navigate? a = some resource)
    (hreads : Operation.ReadsResource operation a o) (ho : (o.recursive && o.proxies) = false) :
    Act.Reads a root (readResource.run r operation)
      (.ok (view o.recursive o.includeDefaults node resource)) :=
  (follows_readResource hr hnode hroot hresource hreads).trans (Act.reads_setResult_queueAll _
    (Rendering.questions_eq_nil (hr.findLocal hnode).1 (hroot.navigate? hresource) ho))

theorem finds_attributeNamed (hnode : r.findLocal a = .ok node)
    (hentry : Dict.get? node.attributes name = some entry) :
    Act.Finds a root (attributeNamed r name) entry := by
  intro x hx
  rw [attributeNamed, run_get, hx.address]
  dsimp only
  rw [hnode]
  refine (run_bind _ _ _).trans ?_
  rw [show (GlobalOperation.orThrow (.ok node)).run.run x = (.ok node, x) from rfl]
  dsimp only
  rw [hentry]
  rfl

theorem reads_readAttribute (hnode : r.findLocal a = .ok node)
    (hresource : root.navigate? a = some resource)
    (hreads : Operation.ReadsAttribute operation a name includeDefaults)
    (hentry : Dict.get? node.attributes name = some entry) (hreader : entry.reader = none) :
    Act.Reads a root (readAttribute.run r operation)
      (.ok (entry.shown (resource.attribute? name) includeDefaults)) := by
  refine Act.follows_orThrow hreads.named (Act.follows_orThrow hreads.includeDefaults
    (Act.follows_bind (finds_attributeNamed hnode hentry) ?_))
  rw [hreader]
  exact Act.follows_read hresource (Act.reads_setResult _)

end GlobalOperation

end Acts

namespace Plane

/-- Every read of the resource at an address with the options answers the value. -/
def Reads (c : Nat) (p : Plane) (a : Address) (o : ReadOptions) (v : Value) : Prop :=
  (∃ operation, Operation.ReadsResource operation a o) ∧
    ∀ operation, Operation.ReadsResource operation a o → p.Answers c operation v

/-- Every read of the attribute answers the value. -/
def ReadsAttribute (c : Nat) (p : Plane) (a : Address) (name : String) (includeDefaults : Bool)
    (v : Value) : Prop :=
  (∃ operation, Operation.ReadsAttribute operation a name includeDefaults) ∧
    ∀ operation, Operation.ReadsAttribute operation a name includeDefaults →
      p.Answers c operation v

/-- **The value of a recursive read is made of reads.** -/
structure Composed (c : Nat) (p : Plane) (node : Registration) (resource : Resource) (a : Address)
    (includeDefaults : Bool) (v : Value) : Prop where
  read : p.Reads c a { recursive := true, proxies := false, includeDefaults } v
  /-- Under its type and its name stands what a read of a local child answers. -/
  child : ∀ e child below, resource.child? e = some child → node.child? e = some below →
    below.proxy = none → e.isWildcard = false → ∃ w, v.getPath? [e.key, e.value] = some w ∧
      p.Reads c (a ++ [e]) { recursive := true, proxies := false, includeDefaults } w
  /-- A read that is not recursive answers the same, with undefined in place of the children. -/
  shallow : ∀ proxies, p.Reads c a { recursive := false, proxies, includeDefaults }
    (withoutChildren node.childTypes v)
  /-- The children of a type stand in the order of the model. -/
  names : ∀ type ∈ node.childTypes, (v.get type).keys = resource.childNames type
  /-- Types stand in their order behind the attributes, unless they are attributes as well. -/
  order : v.keys = Dict.keys node.storedAttributes ++
    node.childTypes.filter (· ∉ Dict.keys node.storedAttributes)
  /-- An attribute has the value that a read of it answers. -/
  attributes : ∀ name entry, Dict.get? node.attributes name = some entry →
    entry.access ≠ .metric → name ∉ node.childTypes → name ≠ "" →
      ∃ w, v.get? name = some w ∧ p.ReadsAttribute c a name includeDefaults w

variable {c : Nat} {p : Plane} {r node : Registration} {a : Address} {model resource : Resource}
  {o : ReadOptions} {name : String} {entry : AttributeEntry} {description : String}
  {calls : List Registration.Call}

theorem reads_view (hp : p.Idle c r model) (hr : r.Formed) (hmodel : model.Orderly)
    (hserves : r.Serves .readResource) (ha : a.isConcrete = true)
    (hnode : r.findLocal a = .ok node) (hresource : model.navigate? a = some resource)
    (ho : (o.recursive && o.proxies) = false) :
    p.Reads c a o (view o.recursive o.includeDefaults node resource) := by
  refine ⟨⟨_, Operation.readsResource_readResource ha o⟩, fun operation hreads => ?_⟩
  exact answers_of_reads hp (hserves.leadsTo hnode hreads.parsed) hreads.accepted
    (GlobalOperation.reads_readResource hr hnode hmodel hresource hreads ho)

theorem readsAttribute_shown (hp : p.Idle c r model) (hserves : r.Serves .readAttribute)
    (ha : a.isConcrete = true) (hnode : r.findLocal a = .ok node)
    (hresource : model.navigate? a = some resource) (hname : name ≠ "")
    (hentry : Dict.get? node.attributes name = some entry) (hreader : entry.reader = none)
    (includeDefaults : Bool) : p.ReadsAttribute c a name includeDefaults
      (entry.shown (resource.attribute? name) includeDefaults) := by
  refine ⟨⟨_, Operation.readsAttribute_readAttribute ha hname includeDefaults⟩,
    fun operation hreads => ?_⟩
  exact answers_of_reads hp (hserves.leadsTo hnode hreads.parsed) hreads.accepted
    (GlobalOperation.reads_readAttribute hnode hresource hreads hentry hreader)

/-- **Recursive reads are made of reads**, in every tree that registrations built and that serves
the reads everywhere by their global entries, and types stand in the order of their registration. -/
theorem reads_composed {description : String} {calls : List Registration.Call}
    (hp : p.Idle c ((Registration.root description).built calls) model) (hmodel : model.Orderly)
    (hserves : ∀ g ∈ [GlobalOperation.readResource, GlobalOperation.readAttribute],
      ((Registration.root description).built calls).Serves g)
    (ha : a.isConcrete = true)
    (hnode : ((Registration.root description).built calls).findLocal a = .ok node)
    (hresource : model.navigate? a = some resource) (includeDefaults : Bool) :
    (∃ v, p.Composed c node resource a includeDefaults v) ∧
      node.childTypes = Registration.distinct
        (((Registration.root description).acceptedAt calls node.address).filterMap
          Registration.Call.type?) := by
  obtain ⟨hr, -⟩ := Registration.formed_built description calls
  obtain ⟨hformed, hlocal⟩ := hr.findLocal hnode
  have hread := hserves _ (List.mem_cons_self)
  have hattribute := hserves GlobalOperation.readAttribute (by simp)
  refine ⟨⟨view true includeDefaults node resource, ?_, ?_, ?_, ?_, ?_, ?_⟩, ?_⟩
  · exact reads_view hp hr hmodel hread ha hnode hresource rfl
  · intro e child below hchild hbelow hproxy he
    have hconcrete : (a ++ [e]).isConcrete = true := by
      rw [Address.isConcrete_append, ha]
      simp [Address.isConcrete, he]
    have hnavigate : model.navigate? (a ++ [e]) = some child := by
      rw [Resource.navigate?_append, hresource, Option.bind_some, Resource.navigate?, hchild]
      rfl
    refine ⟨view true includeDefaults below child, ?_, reads_view hp hr hmodel hread hconcrete
      (Registration.findLocal_append hnode hbelow hproxy) hnavigate rfl⟩
    rw [Rendering.getPath?_view hformed true includeDefaults hchild
      (Rendering.mem_childTypes_of_child? hbelow) [], Rendering.childView_of_local hformed
        ((hmodel.navigate? hresource).child? hchild) includeDefaults hbelow hproxy]
    rfl
  · intro proxies
    rw [← Rendering.view_false hformed]
    exact reads_view (o := { recursive := false, proxies, includeDefaults }) hp hr hmodel hread ha
      hnode hresource rfl
  · intro type htype
    rw [Value.get, Rendering.get?_view hformed, if_pos htype, Value.ofOption, Option.getD_some,
      Value.keys, Rendering.fields_typeView, Dict.keys, List.map_map]
    rfl
  · exact Rendering.keys_view hformed true includeDefaults resource
  · intro name entry hentry hmetric htype hname
    refine ⟨_, ?_, readsAttribute_shown hp hattribute ha hnode hresource hname hentry
      (hformed.neat.readers _ (Dict.mem_of_get? hentry) hmetric) includeDefaults⟩
    rw [Rendering.get?_view hformed, if_neg htype, Rendering.ownFields,
      Dict.get?_map fun name (entry : AttributeEntry) =>
        entry.shown (resource.attribute? name) includeDefaults,
      Registration.get?_storedAttributes hformed, hentry]
    simp [Option.filter, hmetric]
  · obtain ⟨outer, hwalk, -⟩ := Registration.findLocal_eq_ok_iff.mp hnode
    obtain ⟨b, hb⟩ := hwalk.exists_nodeAt? node (by simp)
    rw [Registration.address_built hb]
    exact Registration.childTypes_built hb

/-! ## Names that stand apart

A type that is an attribute as well, a child that is called like the wildcard, and an attribute
without a name. -/

/-- The registrations of a small tree. -/
def outlyingCalls : List Registration.Call :=
  (GlobalOperation.all.map fun g => .operation [] g.entry) ++
    [.readOnly [] { name := "b", type := .string }, .readOnly [] { name := "", type := .string },
      .subModel [⟨"a", "*"⟩] "An a", .subModel [⟨"b", "*"⟩] "A b"]

def outlying : Plane where
  controllers := [{
    name := "main"
    registration := (Registration.root "").built outlyingCalls
    tree := { root := {
      attributes := [("b", .string "held"), ("", .string "blank")]
      children := [("a", [("*", {})]), ("b", [("y", {})])] } } }]
  processes := [.running]

theorem idle_outlying : outlying.Idle 0 ((Registration.root "").built outlyingCalls)
    (outlying.tree 0).root :=
  ⟨⟨by decide, by decide⟩, rfl, rfl, rfl⟩

theorem serves_outlying : ∀ g ∈ [GlobalOperation.readResource, GlobalOperation.readAttribute],
    ((Registration.root "").built outlyingCalls).Serves g := by
  refine List.forall_mem_cons.mpr ⟨?_, List.forall_mem_singleton.mpr ?_⟩
  · exact Registration.serves_built rfl (by decide)
  · exact Registration.serves_built rfl (by decide)

theorem orderly_outlying : (outlying.tree 0).root.Orderly := by
  have hempty : Resource.Orderly {} := by constructor <;> simp [Dict.keys]
  constructor
  · decide
  · simp only [show (outlying.tree 0).root.attributes =
      [("b", .string "held"), ("", .string "blank")] from rfl, List.forall_mem_cons]
    exact ⟨.string _, .string _, by simp⟩
  · decide
  · simp only [show (outlying.tree 0).root.children =
      [("a", [("*", {})]), ("b", [("y", {})])] from rfl, List.forall_mem_cons]
    decide
  · simp only [show (outlying.tree 0).root.children =
      [("a", [("*", {})]), ("b", [("y", {})])] from rfl, List.forall_mem_cons]
    exact ⟨⟨hempty, by simp⟩, ⟨hempty, by simp⟩, by simp⟩

theorem reads_composed_outlying :
    (∃ v, outlying.Composed 0 ((Registration.root "").built outlyingCalls) (outlying.tree 0).root []
      true v) ∧ ((Registration.root "").built outlyingCalls).childTypes =
        Registration.distinct (((Registration.root "").acceptedAt outlyingCalls
          ((Registration.root "").built outlyingCalls).address).filterMap
            Registration.Call.type?) :=
  reads_composed idle_outlying orderly_outlying serves_outlying rfl rfl rfl true

/-- What `Composed` leaves out.  A type that is an attribute as well stands in the place of the
attribute, and so before a type that was registered earlier.  A child that is called like the
wildcard is shown, but no address leads to it.  And an attribute without a name is shown, but cannot
be asked for. -/
theorem reads_not_composed :
    ∃ v, outlying.Answers 0 (Operation.readResource [] ⟨true, false, true⟩) v ∧
      ((Registration.root "").built outlyingCalls).childTypes = ["a", "b"] ∧
      v.keys.filter (· ∈ ["a", "b"]) = ["b", "a"] ∧
      (v.getPath? ["a", "*"]).isSome = true ∧
      (∃ answer q, outlying.Executes 0 (Operation.readResource [⟨"a", "*"⟩] ⟨true, false, true⟩)
        answer q ∧ ¬Succeeds answer) ∧
      (v.get? "").isSome = true ∧
      ∃ answer q, outlying.Executes 0 (Operation.readAttribute [] "" true) answer q ∧
        ¬Succeeds answer := by
  have hread : outlying.Answers 0 (Operation.readResource [] ⟨true, false, true⟩)
      (view true true ((Registration.root "").built outlyingCalls) (outlying.tree 0).root) :=
    (reads_view idle_outlying (Registration.formed_built _ _).1 orderly_outlying
      (serves_outlying _ List.mem_cons_self) rfl rfl rfl rfl).2 _
        (Operation.readsResource_readResource rfl _)
  refine ⟨_, hread, rfl, ?_, ?_, ?_, ?_, ?_⟩
  · decide
  · decide
  · have htrial : (trial 0 outlying
      (Operation.readResource [⟨"a", "*"⟩] ⟨true, false, true⟩) 20).any
        (fun o => ¬Succeeds o.1) = true := by decide +kernel
    obtain ⟨⟨answer, q⟩, hrun, hfails⟩ := (Option.any_eq_true _ _).mp htrial
    exact ⟨answer, q, executes_of_trial hrun, of_decide_eq_true hfails⟩
  · decide
  · have htrial : (trial 0 outlying (Operation.readAttribute [] "" true) 20).any
        (fun o => ¬Succeeds o.1) = true := by decide +kernel
    obtain ⟨⟨answer, q⟩, hrun, hfails⟩ := (Option.any_eq_true _ _).mp htrial
    exact ⟨answer, q, executes_of_trial hrun, of_decide_eq_true hfails⟩

end Plane

end ManagementPlane
