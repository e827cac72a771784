import ManagementPlane.Proofs.Global.Preserving
import ManagementPlane.Proofs.Model.Conformance
import ManagementPlane.Proofs.Pipeline.Agenda

/-!
# Proofs/Global/Editing — operations that edit a model keep it conforming

Where a registration is a schema (`Registration.Schematic`), `add` takes the very attributes of its
node and writes go to the model.  The operations that edit a model are then composed of steps that
keep what is staged conforming (`Step.Edits`): `Schematic.edits` finds such a step for each of them,
and `Step.Edits.conforms` says what the step does.
-/

namespace ManagementPlane

namespace Operation

/-- The names of the operations that edit a model. -/
def editing : List String :=
  ["add", "remove", GlobalOperation.writeAttribute.name, GlobalOperation.undefineAttribute.name,
    GlobalOperation.composite.name]

/-- **An operation that edits a model**, or a composite of such ones. -/
inductive Edits : Value → Prop
  | intro {operation : Value}
      (named : ∀ name, operation.get? Key.operation = some (.string name) → name ∈ editing)
      (steps : operation.get? Key.operation = some (.string GlobalOperation.composite.name) →
        ∀ s ∈ Composite.stepsOf operation, Edits s) : Edits operation

theorem get?_set_address (operation v : Value) {key : String} (h : Key.address ≠ key) :
    (operation.set Key.address v).get? key = operation.get? key := by
  rw [Value.get?_set, if_neg h]

theorem stepsOf_set_address (operation v : Value) :
    Composite.stepsOf (operation.set Key.address v) = Composite.stepsOf operation := by
  rw [Composite.stepsOf, Composite.stepsOf, get?_set_address operation v (by decide)]

end Operation

/-- Who edits a resource of `node` under the name of an operation. -/
inductive Handler.Edits (node : Registration) : String → Handler → Prop
  | add {attributes : List AttributeDefinition} (h : node.Takes attributes) :
    Edits node "add" (.add attributes)
  | remove : Edits node "remove" .remove
  | write : Edits node GlobalOperation.writeAttribute.name (.global .writeAttribute)
  | undefine : Edits node GlobalOperation.undefineAttribute.name (.global .undefineAttribute)
  | composite : Edits node GlobalOperation.composite.name (.global .composite)

namespace Registration

/-- **The registration is a schema**: wherever an operation edits the model here, it does so in the
usual way, and no attribute has a writer of its own. -/
structure Schematic (r : Registration) : Prop where
  handlers : ∀ a name node entry, name ∈ Operation.editing →
    r.resolve a name = .ok (.here node entry) → entry.handler.Edits node name
  writers : ∀ a node, r.findLocal a = .ok node → ∀ f ∈ node.attributes, f.2.writer = none

/-- The same, node by node; what is inherited edits the nodes below as well. -/
inductive Schema : Registration → Prop
  | intro {r : Registration}
      (operations : ∀ f ∈ r.operations, f.1 ∈ Operation.editing → f.2.handler.Edits r f.1 ∧
        (f.2.inherited = true → ∀ node, f.2.handler.Edits node f.1))
      (writers : ∀ f ∈ r.attributes, f.2.writer = none)
      (children : ∀ g ∈ r.children, ∀ c ∈ g.2, Schema c.2) : Schema r

variable {r node : Registration} {a : Address} {name : String} {entry : OperationEntry}

theorem Schema.operations (h : r.Schema) : ∀ f ∈ r.operations, f.1 ∈ Operation.editing →
    f.2.handler.Edits r f.1 ∧ (f.2.inherited = true → ∀ node, f.2.handler.Edits node f.1) := by
  obtain ⟨hoperations, -, -⟩ := h
  exact hoperations

theorem Schema.children (h : r.Schema) : ∀ g ∈ r.children, ∀ c ∈ g.2, c.2.Schema := by
  obtain ⟨-, -, hchildren⟩ := h
  exact hchildren

theorem Schema.find? (h : r.Schema) (ha : r.find? a = some node) : node.Schema := by
  obtain ⟨nodes, hnodes, hlast⟩ := Option.bind_eq_some_iff.mp ha
  exact of_lookup? Schema.children h hnodes node (List.mem_of_getLast? hlast)

/-- What runs here is found here. -/
theorem resolve_here (h : r.resolve a name = .ok (.here node entry)) :
    r.proxyFor? a = none ∧ r.find? a = some node ∧ r.operation? a name = some entry := by
  rw [resolve] at h
  split at h
  · cases h
  · rename_i hproxy
    split at h
    · cases h
    · rename_i found hfind
      split at h
      · cases h
      · rename_i found' hoperation
        obtain ⟨rfl, rfl⟩ := Resolved.here.inj (Except.ok.inj h)
        exact ⟨hproxy, hfind, hoperation⟩

theorem find?_of_findLocal (h : r.findLocal a = .ok node) : r.find? a = some node := by
  rw [findLocal] at h
  split at h
  · rename_i hfind
    split at h
    · cases h
    · obtain rfl := Except.ok.inj h
      exact hfind
  · cases h

theorem Schema.schematic (h : r.Schema) : r.Schematic where
  handlers a name node entry hname hresolve := by
    obtain ⟨-, hfind, hoperation⟩ := resolve_here hresolve
    obtain ⟨nodes, hnodes, n, hn, hentry, hplace⟩ := exists_of_operation? hoperation
    have hedits := (of_lookup? Schema.children h hnodes n hn).operations _ hentry hname
    rcases hplace with hown | hinherited
    · obtain rfl := Option.some.inj (hfind.symm.trans hown)
      exact hedits.1
    · exact hedits.2 hinherited node
  writers a node hnode := by
    obtain ⟨-, hwriters, -⟩ := h.find? (find?_of_findLocal hnode)
    exact hwriters

theorem proxy_of_firstProxy? {nodes : List Registration} (h : firstProxy? nodes = none) :
    ∀ n ∈ nodes, n.proxy = none := by
  induction nodes with
  | nil => rintro _ ⟨⟩
  | cons n nodes ih =>
    rw [firstProxy?] at h
    split at h
    · cases h
    · rename_i hproxy
      exact List.forall_mem_cons.mpr ⟨hproxy, ih (Option.map_eq_none_iff.mp h)⟩

/-- Whatever runs here is registered here. -/
theorem findLocal_of_resolve (h : r.resolve a name = .ok (.here node entry)) :
    r.findLocal a = .ok node := by
  obtain ⟨hproxy, hfind, -⟩ := resolve_here h
  obtain ⟨nodes, hnodes, hlast⟩ := Option.bind_eq_some_iff.mp hfind
  rw [proxyFor?, hnodes, Option.bind_some] at hproxy
  have hnone := proxy_of_firstProxy? (Option.map_eq_none_iff.mp hproxy) node
    (List.mem_of_getLast? hlast)
  rw [findLocal, hfind]
  dsimp only
  rw [isProxied, hnone]
  rfl

end Registration

/-! ## Steps -/

/-- **The step edits the model**, or does not touch it. -/
def Step.Edits (r : Registration) (step : Step) : Prop :=
  match step.handler with
  | .add attributes => ∃ node, r.findLocal step.address = .ok node ∧ node.Takes attributes
  | .remove | .global .writeAttribute | .global .undefineAttribute => True
  | .global .composite => ∀ s ∈ Composite.stepsOf step.operation, Operation.Edits s
  | .forward _ | .collect _ => True
  | _ => False

/-- **Whoever runs an editing operation** does it in steps that edit. -/
theorem Registration.Schematic.edits {r : Registration} (hr : r.Schematic) {a : Address}
    {name : String} {resolved : Resolved} (hresolve : r.resolve a name = .ok resolved)
    {operation : Value} (hname : operation.get? Key.operation = some (.string name))
    (hoperation : Operation.Edits operation) {operation' : Value}
    (hsteps : Composite.stepsOf operation' = Composite.stepsOf operation) (i : Nat) :
    (Step.mk resolved.handler operation' a i).Edits r := by
  obtain ⟨hnamed, hparts⟩ := hoperation
  cases resolved with
  | proxied proxy => exact trivial
  | here node entry =>
    have hedits := hr.handlers a name node entry (hnamed name hname) hresolve
    obtain ⟨definition, handler, inherited⟩ := entry
    cases hedits with
    | add h => exact ⟨node, Registration.findLocal_of_resolve hresolve, h⟩
    | remove => exact trivial
    | write => exact trivial
    | undefine => exact trivial
    | composite =>
      intro s hs
      exact hparts hname s (hsteps ▸ hs)

/-- The completion has nothing to do with the model. -/
def Completion.IsPlain : Completion → Prop
  | decide _ | reportSteps .. => True
  | _ => False

/-- Whatever the operation has staged conforms, and whatever it still has to do edits. -/
structure Context.Conforms (r : Registration) (x : Context) : Prop where
  staged : ∀ s ∈ x.transaction.staging, s.root.Conforms AttributeEntry.IsStored r []
  queued : ∀ stage, ∀ step ∈ x.queues.get stage, step.Edits r
  completed : ∀ c ∈ x.completed, c.IsPlain

namespace Transaction

variable {α : Type} {P : Resource → Prop} {x : Transaction}

theorem staged_write {f : Resource → Except OperationError (α × Resource × Write)}
    (hx : ∀ s ∈ x.staging, P s.root)
    (hf : ∀ root v root' w, P root → f root = .ok (v, root', w) → P root') :
    ∀ s ∈ (x.write f).2.staging, P s.root := by
  rw [write]
  split
  · exact hx
  · rename_i s hs
    have hroot := hx s hs
    split
    · rintro s' hs'
      obtain rfl := Option.some.inj hs'
      exact hroot
    · rename_i v root w hout
      rintro s' hs'
      obtain rfl := Option.some.inj hs'
      exact hf s.root v root w hroot hout

variable {demands : AttributeEntry → Prop} {reg : Registration} {a : Address}

theorem conforms_update (hx : ∀ s ∈ x.staging, s.root.Conforms demands reg [])
    {f : Resource → α × Resource}
    (hf : ∀ n : Resource, n.Conforms demands reg a → (f n).2.Conforms demands reg a) :
    ∀ s ∈ (x.update a f).2.staging, s.root.Conforms demands reg [] := by
  refine staged_write hx fun root v root' w hroot hout => ?_
  split at hout
  · cases hout
  · rename_i n hn
    obtain ⟨-, rfl, -⟩ := Except.ok.inj hout
    refine hroot.modifyAt fun m hm => ?_
    obtain rfl := Option.some.inj (hn.symm.trans hm)
    exact hf n (hroot.navigate? hn)

theorem conforms_create (hx : ∀ s ∈ x.staging, s.root.Conforms demands reg []) {r : Resource}
    (hr : r.Conforms demands reg a) :
    ∀ s ∈ (x.create a r).2.staging, s.root.Conforms demands reg [] := by
  rw [create]
  split
  · exact hx
  · rename_i e he
    have ha : a.parent ++ [e] = a := List.dropLast_append_getLast? e he
    refine staged_write hx fun root v root' w hroot hout => ?_
    split at hout
    · cases hout
    · split at hout
      · cases hout
      · obtain ⟨-, rfl, -⟩ := Except.ok.inj hout
        exact hroot.modifyAt fun m hm => (hroot.navigate? hm).putChild (ha.symm ▸ hr)

theorem conforms_remove (hx : ∀ s ∈ x.staging, s.root.Conforms demands reg []) :
    ∀ s ∈ (x.remove a).2.staging, s.root.Conforms demands reg [] := by
  rw [remove]
  split
  · exact hx
  · rename_i e he
    refine staged_write hx fun root v root' w hroot hout => ?_
    split at hout
    · cases hout
    · split at hout
      · cases hout
      · obtain ⟨-, rfl, -⟩ := Except.ok.inj hout
        exact hroot.modifyAt fun m hm => (hroot.navigate? hm).removeChild e

end Transaction

namespace Context

variable {r : Registration} {x : Context}

theorem Conforms.queue (h : x.Conforms r) {stage : Stage} {step : Step} {first : Bool}
    (hstep : step.Edits r) : { x with queues := x.queues.add stage step first }.Conforms r where
  staged := h.staged
  queued s other hother :=
    (Queues.mem_get_add.mp hother).elim (h.queued s other) fun heq => heq.2 ▸ hstep
  completed := h.completed

theorem currentAddress_complete (x : Context) (c : Completion) :
    (x.complete c).currentAddress = x.currentAddress := by
  rw [complete]
  split
  · rename_i a ha
    split
    · rfl
    · rw [currentAddress, currentAddress, ha]
      rfl
  · rfl

theorem Conforms.complete (h : x.Conforms r) {c : Completion} (hc : c.IsPlain) :
    (x.complete c).Conforms r := by
  rw [Context.complete]
  split
  · split
    · exact ⟨h.staged, h.queued, h.completed⟩
    · exact ⟨h.staged, h.queued, List.forall_mem_cons.mpr ⟨hc, h.completed⟩⟩
  · exact ⟨h.staged, h.queued, h.completed⟩

/-- The operation conforms, and its running step stands at `a`. -/
def ConformsAt (r : Registration) (a : Address) (x : Context) : Prop :=
  x.currentAddress = a ∧ x.Conforms r

end Context

open Act GlobalOperation

section Acts

variable {r : Registration} {a : Address}

theorem preserves_createAt {resource : Resource}
    (hresource : resource.Conforms AttributeEntry.IsStored r a) :
    Preserves (Context.ConformsAt r a) (fun _ => True) (createAt a resource) :=
  preserves_onTransaction fun _ ⟨ha, hx⟩ _ =>
    ⟨ha, Transaction.conforms_create hx.staged hresource, hx.queued, hx.completed⟩

theorem preserves_removeAt :
    Preserves (Context.ConformsAt r a) (fun _ => True) (removeAt a) :=
  preserves_onTransaction fun _ ⟨ha, hx⟩ _ =>
    ⟨ha, Transaction.conforms_remove hx.staged, hx.queued, hx.completed⟩

/-- What passed the definition of an attribute is written to the model, or taken out of it. -/
theorem preserves_write (hr : r.Schematic) {operation : Value} :
    Preserves (Context.ConformsAt r a) (fun _ => True) (writeAttributeAct r operation) := by
  refine preserves_writeAttributeAct (fun _ hx => hx.1)
    fun name node entry hnode hentry hcheck => ?_
  have hwriter : entry.writer = none := hr.writers a node hnode _ (Dict.mem_of_get? hentry)
  rw [hwriter]
  refine preserves_onTransaction fun x ⟨ha, hx⟩ _ =>
    ⟨ha, Transaction.conforms_update hx.staged fun n hn => ?_, hx.queued, hx.completed⟩
  have hn' := hn
  obtain ⟨hfound, hfits, -⟩ := hn'
  obtain rfl := Except.ok.inj (hfound.symm.trans hnode)
  dsimp only
  split
  · rename_i hdefined
    exact hn.of_fits hnode rfl (hfits.put hentry ⟨hdefined, hcheck⟩)
  · rename_i hdefined
    refine hn.of_fits hnode rfl (hfits.erase fun entry' hentry' hstored => ?_)
    obtain rfl := Option.some.inj (hentry.symm.trans hentry')
    exact hdefined (AttributeDefinition.isDefined_of_check hcheck hstored.2)

theorem preserves_composite (hr : r.Schematic) {operation : Value}
    (h : ∀ s ∈ Composite.stepsOf operation, Operation.Edits s) :
    Preserves (Context.ConformsAt r a) (fun _ => True) (Composite.run r operation) := by
  refine Composite.preserves_run (S := Step.Edits r) (fun _ hx => hx.1)
    (fun x step ⟨ha, hx⟩ hstep => ⟨ha, hx.queue hstep⟩)
    (fun x ⟨ha, hx⟩ => ⟨ha, hx.staged, hx.queued, hx.completed⟩)
    (fun x own slots ⟨ha, hx⟩ => ⟨(x.currentAddress_complete _).trans ha, hx.complete trivial⟩)
    (fun _ _ _ _ => trivial) fun step hstep name relative resolved hparse hresolve i => ?_
  exact hr.edits hresolve (Operation.parse_eq_ok.mp hparse).1 (h step hstep)
    (Operation.stepsOf_set_address _ _) i

end Acts

/-- **A step that edits** keeps its operation conforming and changes nothing around it. -/
theorem Step.Edits.conforms {r : Registration} (hr : r.Schematic) {step : Step}
    (h : step.Edits r) {deed : Deed Unit} (hdeed : step.handler.deed? step.operation = some deed)
    {s : Scene} (hs : s.plane.registration s.controller = r)
    (hx : s.context.ConformsAt r step.address) :
    ∃ out y, deed.run.run s = (out, { s with context := y }) ∧ y.Conforms r := by
  have hact : ∀ {f : Act Unit}, Preserves (Context.ConformsAt r step.address) (fun _ => True) f →
      deed.run.run s = (Deed.act f).run.run s →
      ∃ out y, deed.run.run s = (out, { s with context := y }) ∧ y.Conforms r := by
    intro f hf hrun
    exact ⟨_, _, hrun.trans (Deed.run_act f s), (hf s.context hx).1.2⟩
  obtain ⟨handler, operation, a, i⟩ := step
  obtain rfl : s.context.currentAddress = a := hx.1
  cases handler with
  | add attributes =>
    obtain ⟨node, hnode, htakes⟩ := h
    refine hact (f := orThrow (Resource.populate attributes operation) >>= fun resource =>
      createAt s.context.currentAddress resource) ?_ ?_
    · exact preserves_bind (preserves_orThrow fun _ h => h) fun resource hpopulate =>
        preserves_createAt (Resource.conforms_populate hnode htakes hpopulate)
    · obtain rfl := Option.some.inj hdeed
      rw [Deed.run_act]
      cases Resource.populate attributes operation with
      | error e => rfl
      | ok resource => exact Deed.run_act (createAt s.context.currentAddress resource) s
  | remove =>
    refine hact (f := removeAt s.context.currentAddress >>= fun _ => pure ())
      (preserves_bind preserves_removeAt fun _ _ => preserves_pure trivial) ?_
    obtain rfl := Option.some.inj hdeed
    show (Deed.act (removeAt s.context.currentAddress) >>= fun _ => pure ()).run.run s = _
    rw [run_bind, Deed.run_act, Deed.run_act, run_bind]
    cases (removeAt s.context.currentAddress).run.run s.context with
    | mk out y => cases out <;> rfl
  | global g =>
    have hglobal : ∀ {f : Act Unit}, g.run r operation = f →
        Preserves (Context.ConformsAt r s.context.currentAddress) (fun _ => True) f →
        ∃ out y, deed.run.run s = (out, { s with context := y }) ∧ y.Conforms r := by
      rintro _ rfl hf
      refine hact hf ?_
      obtain rfl := Option.some.inj hdeed
      rw [run_get, hs]
    cases g with
    | writeAttribute => exact hglobal rfl (preserves_write hr)
    | undefineAttribute => exact hglobal rfl (preserves_write hr)
    | composite => exact hglobal rfl (preserves_composite hr h)
    | _ => exact h.elim
  | collect slots =>
    obtain rfl := Option.some.inj hdeed
    exact ⟨_, _, rfl, hx.2.staged, hx.2.queued, hx.2.completed⟩
  | forward proxy => cases hdeed
  | _ => exact h.elim

end ManagementPlane
