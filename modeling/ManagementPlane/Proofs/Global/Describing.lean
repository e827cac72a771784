import ManagementPlane.Proofs.Global.Described
import ManagementPlane.Proofs.Global.Reading

/-!
# Proofs/Global/Describing — operations are listed and described as they are run

In a tree that registrations built, the operations that are listed for an address are those that can
be run there, and whatever describes one of them describes the entry that is run
(`operations_agree`).
-/

namespace ManagementPlane

open Execution (Refuses)
open Rendering (describeWithInherited describedProxies)

variable {c : Nat} {p : Plane} {r node : Registration} {operation : Value} {a : Address}
  {model : Resource} {name : String} {entry : OperationEntry} {e : OperationError}

namespace Operation

/-- The operation describes a resource with the options. -/
structure Describes (operation : Value) (recursive operations proxies : Bool) : Prop where
  recursive : booleanParam operation Key.recursive false = .ok recursive
  operations : booleanParam operation Key.operations false = .ok operations
  proxies : booleanParam operation Key.proxies false = .ok proxies

end Operation

namespace GlobalOperation

theorem reads_readOperationNames :
    Act.Reads a model (readOperationNames.run r operation)
      (.ok (.ofStrings (r.operationNames a))) :=
  Act.follows_get (fun x hx => by rw [hx.address]) (Act.reads_setResult _)

theorem reads_readOperationDescription (hname : Operation.stringParam operation Key.name = .ok name)
    (h : r.operation? a name = some entry) :
    Act.Reads a model (readOperationDescription.run r operation) (.ok entry.definition.describe) :=
  Act.follows_orThrow hname
    (Act.follows_get (fun x hx => by simp only [hx.address, h]) (Act.reads_setResult _))

theorem fails_readOperationDescription
    (hname : Operation.stringParam operation Key.name = .ok name)
    (h : r.operation? a name = none) :
    Act.Reads a model (readOperationDescription.run r operation)
      (.error (.unknownOperation name a)) :=
  Act.follows_orThrow hname
    (Act.follows_get (fun x hx => by simp only [hx.address, h]) (Act.reads_throw _))

/-- A description names what proxies answer for, and asks them for the rest. -/
theorem follows_readResourceDescription {recursive operations proxies : Bool}
    (h : Operation.Describes operation recursive operations proxies)
    (hnode : r.findLocal a = .ok node) :
    Act.Follows a model (readResourceDescription.run r operation) (do
      Act.setResult (describeWithInherited r node a recursive operations)
      Delegation.queueAll
        (if recursive && proxies then describedProxies operations [] node else [])) :=
  Act.follows_orThrow h.recursive (Act.follows_orThrow h.operations
    (Act.follows_orThrow h.proxies (Act.follows_get (fun x hx => by simp only [hx.address]; rfl)
      (Act.follows_orThrow hnode (.refl _)))))

theorem reads_readResourceDescription {recursive operations proxies : Bool}
    (h : Operation.Describes operation recursive operations proxies)
    (hnode : r.findLocal a = .ok node)
    (hproxies : (recursive && proxies) = false ∨ describedProxies operations [] node = []) :
    Act.Reads a model (readResourceDescription.run r operation)
      (.ok (describeWithInherited r node a recursive operations)) := by
  refine (follows_readResourceDescription h hnode).trans (Act.reads_setResult_queueAll _ ?_)
  rcases hproxies with hproxies | hproxies <;> simp [hproxies]

end GlobalOperation

namespace Registration

/-- The fields describe the operations that are listed for an address, each by the entry that is
run. -/
structure Listed (r : Registration) (a : Address) (node : Registration) (fields : Dict Value) :
    Prop where
  names : Dict.keys fields = r.operationNames a
  described : ∀ name v, (name, v) ∈ fields → ∃ entry, r.resolve a name = .ok (.here node entry) ∧
    v = entry.definition.describe

end Registration

namespace Plane

/-- **What the plane answers about the operations** of a local node. -/
structure Tells (c : Nat) (p : Plane) (r : Registration) (a : Address) (node : Registration) :
    Prop where
  names : ∀ operation, r.LeadsTo [] operation a GlobalOperation.readOperationNames.entry →
    GlobalOperation.readOperationNames.definition.check operation = .ok () →
      p.Answers c operation (.ofStrings (r.operationNames a))
  /-- A description of one is that of the entry that is run. -/
  description : ∀ operation name entry,
    r.LeadsTo [] operation a GlobalOperation.readOperationDescription.entry →
    GlobalOperation.readOperationDescription.definition.check operation = .ok () →
    Operation.stringParam operation Key.name = .ok name →
    r.resolve a name = .ok (.here node entry) → p.Answers c operation entry.definition.describe
  /-- What cannot be run is not described. -/
  unknown : ∀ operation name,
    r.LeadsTo [] operation a GlobalOperation.readOperationDescription.entry →
    GlobalOperation.readOperationDescription.definition.check operation = .ok () →
    Operation.stringParam operation Key.name = .ok name → name ∉ r.operationNames a →
      ∃ answer q, p.Executes c operation answer q ∧
        Refuses (OperationError.unknownOperation name a).isFatal answer
  /-- A description of the resource that asks nobody else. -/
  resource : ∀ operation recursive proxies,
    r.LeadsTo [] operation a GlobalOperation.readResourceDescription.entry →
    GlobalOperation.readResourceDescription.definition.check operation = .ok () →
    Operation.Describes operation recursive true proxies →
    ((recursive && proxies) = false ∨ describedProxies true [] node = []) →
      p.Answers c operation (describeWithInherited r node a recursive true)

theorem tells (hp : p.Idle c r model) (hr : r.Formed) (hnode : r.findLocal a = .ok node) :
    p.Tells c r a node := by
  obtain ⟨outer, hnaming⟩ := hr.naming hnode
  constructor
  · intro operation hleads hcheck
    exact answers_of_reads hp hleads hcheck GlobalOperation.reads_readOperationNames
  · intro operation name entry hleads hcheck hname hresolve
    refine answers_of_reads hp hleads hcheck
      (GlobalOperation.reads_readOperationDescription hname ?_)
    rw [Registration.resolve_of_findLocal hnode] at hresolve
    split at hresolve <;> simp_all
  · intro operation name hleads hcheck hname hnot
    refine refuses_of_reads hp hleads hcheck
      (GlobalOperation.fails_readOperationDescription hname ?_)
    rw [hnaming.listed, Registration.resolve_of_findLocal hnode] at hnot
    split at hnot <;> simp_all
  · intro operation recursive proxies hleads hcheck hdescribes hproxies
    exact answers_of_reads hp hleads hcheck
      (GlobalOperation.reads_readResourceDescription hdescribes hnode hproxies)

/-- **Operations are listed and described as they are run**, in every tree that registrations built
and at every address that it answers for itself.  The names are those that can be run, each once,
its own ones first and then the inherited ones from the nearest node outwards; the operations that a
description of the resource shows are the same, also when answers of proxies were put into it. -/
theorem operations_agree {description : String} {calls : List Registration.Call}
    (hp : p.Idle c ((Registration.root description).built calls) model)
    (hnode : ((Registration.root description).built calls).findLocal a = .ok node) :
    (∃ outer, ((Registration.root description).built calls).Naming a outer node ∧
      ∀ n ∈ outer ++ [node], Dict.keys n.operations =
        ((Registration.root description).acceptedAt calls n.address).filterMap
          Registration.Call.operation?) ∧
    (∀ recursive, ∃ fields,
      ((Registration.root description).built calls).Listed a node fields ∧
      ∀ parts : List (List String × Value),
        (∀ part ∈ parts, ∃ d ∈ describedProxies true [] node, part.1 = d.path) →
        ((describeWithInherited ((Registration.root description).built calls) node a recursive
          true).replaceAll parts).get? Key.operations = some (.object fields)) ∧
    p.Tells c ((Registration.root description).built calls) a node := by
  have hr := (Registration.formed_built description calls).1
  refine ⟨?_, fun recursive => ?_, tells hp hr hnode⟩
  · obtain ⟨outer, hnaming⟩ := hr.naming hnode
    refine ⟨outer, hnaming, fun n hn => ?_⟩
    obtain ⟨b, hb⟩ := hnaming.way.exists_nodeAt? n hn
    rw [Registration.address_built hb]
    exact Registration.operations_built hb
  · obtain ⟨fields, hget, hnames, hdescribed⟩ :=
      Rendering.operations_describeWithInherited hr hnode recursive
    refine ⟨fields, ⟨hnames, hdescribed⟩, fun parts hparts => ?_⟩
    exact (Rendering.get?_replaceAll_operations hparts (hr.findLocal hnode).1 _).trans hget

/-- A resource below a wildcard, and an operation that lists what it has. -/
theorem operations_agree_outlying :
    (∃ node, ((Registration.root "").built outlyingCalls).findLocal [⟨"b", "y"⟩] = .ok node ∧
      (∃ outer, ((Registration.root "").built outlyingCalls).Naming [⟨"b", "y"⟩] outer node ∧
        ∀ n ∈ outer ++ [node], Dict.keys n.operations =
          ((Registration.root "").acceptedAt outlyingCalls n.address).filterMap
            Registration.Call.operation?) ∧
      (∀ recursive, ∃ fields,
        ((Registration.root "").built outlyingCalls).Listed [⟨"b", "y"⟩] node fields ∧
        ∀ parts : List (List String × Value),
          (∀ part ∈ parts, ∃ d ∈ describedProxies true [] node, part.1 = d.path) →
          ((describeWithInherited ((Registration.root "").built outlyingCalls) node [⟨"b", "y"⟩]
            recursive true).replaceAll parts).get? Key.operations = some (.object fields)) ∧
      outlying.Tells 0 ((Registration.root "").built outlyingCalls) [⟨"b", "y"⟩] node) ∧
    ∃ operation, ((Registration.root "").built outlyingCalls).LeadsTo [] operation [⟨"b", "y"⟩]
      GlobalOperation.readOperationNames.entry ∧
        GlobalOperation.readOperationNames.definition.check operation = .ok () := by
  refine ⟨⟨_, rfl, operations_agree idle_outlying rfl⟩,
    Operation.build GlobalOperation.readOperationNames.name [⟨"b", "y"⟩], ?_, rfl⟩
  exact Registration.Serves.leadsTo (Registration.serves_built rfl (by decide)) rfl rfl

end Plane

end ManagementPlane
