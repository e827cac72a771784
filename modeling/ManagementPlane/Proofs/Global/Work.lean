import ManagementPlane.Proofs.Global.Local
import ManagementPlane.Proofs.Pipeline.Frame

/-!
# Proofs/Global/Work — what a standard step does depends on what it sees

A step of the first stage sees an address and a root (`Context.Sees`).  The work of a global
operation, composites apart, and that of adding and removing resources is a function of the two
(`GlobalOperation.works_run`, `Handler.comes_of_standard`): whatever else the operation is about,
the same step answers the same and leaves the same root, or fails with the same error.
-/

namespace ManagementPlane

/-! ## Transactions -/

namespace Transaction

variable {α : Type} {x y z : Transaction}

/-- The same transaction with the same hold on the lock, in which more may have been written. -/
structure Worked (x y : Transaction) : Prop where
  written : Written x y
  lock : y.holdsLock = x.holdsLock

theorem Worked.refl (x : Transaction) : Worked x x := ⟨.refl x, rfl⟩

/-- One write after another. -/
theorem Worked.trans (h : Worked x y) (h' : Worked y z) : Worked x z :=
  ⟨h.written.trans h'.written, h'.lock.trans h.lock⟩

/-- Work takes no lock and gives none back. -/
theorem Worked.hasIntent (h : Worked x y) : y.hasIntent = x.hasIntent := h.written.alongside.staging

/-- A write is work. -/
theorem worked_write (x : Transaction)
    (f : Resource → Except OperationError (α × Resource × Write)) : Worked x (x.write f).2 := by
  refine ⟨written_write x f, ?_⟩
  rw [write]
  cases hstaging : x.staging with
  | none => rfl
  | some s =>
    dsimp only
    split <;> rw [holdsLock, holdsLock, hstaging] <;> rfl

/-- **A write with intent** fails or succeeds as it does on the root that the transaction sees. -/
theorem write_of_hasIntent (h : x.hasIntent = true)
    (f : Resource → Except OperationError (α × Resource × Write)) :
    (x.write f).1 = (f x.root).map Prod.fst ∧
      ∀ a root w, f x.root = .ok (a, root, w) → (x.write f).2.root = root := by
  obtain ⟨s, hs⟩ := Option.isSome_iff_exists.mp h
  have hroot : x.root = s.root := by rw [root, hs]; rfl
  rw [write, hs, hroot]
  dsimp only
  cases f s.root with
  | error e => exact ⟨rfl, by rintro _ _ _ ⟨⟩⟩
  | ok out =>
    obtain ⟨a, root, w⟩ := out
    refine ⟨rfl, fun a' root' w' h => ?_⟩
    obtain ⟨-, rfl, -⟩ := Except.ok.inj h
    rfl

end Transaction

/-! ## Acts -/

/-- A second act goes on where the first one succeeded. -/
theorem run_bind {σ α β : Type} (f : ExceptT OperationError (StateM σ) α)
    (k : α → ExceptT OperationError (StateM σ) β) (x : σ) :
    (f >>= k).run.run x = match f.run.run x with
      | (.ok v, y) => (k v).run.run y
      | (.error e, y) => (.error e, y) := by
  show (ExceptT.bindCont k (f.run.run x).1).run (f.run.run x).2 = _
  cases f.run.run x with
  | mk out y => cases out <;> rfl

/-- A step of the first stage, which has not answered yet, sees `root` and stands at `a`. -/
structure Context.Sees (x : Context) (a : Address) (root : Resource) : Prop where
  address : x.currentAddress = a
  stage : x.stage = .model
  snapshot : x.snapshot = root
  result : x.result = .undefined

/-- What is made of a context by work that answers a value and leaves a root, or fails. -/
def Context.Makes (x y : Context) (out : Except OperationError Unit) :
    Except OperationError (Value × Resource) → Prop
  | .ok (v, root) => out = .ok () ∧ ∃ t, x.transaction.Worked t ∧ t.root = root ∧
      y = { x with transaction := t }.setResult v
  | .error e => out = .error e ∧ ∃ t, x.transaction.Worked t ∧ y = { x with transaction := t }

namespace Act

variable {α β : Type} {a : Address} {root : Resource} {intent : Bool}

/-- The act changes nothing, and what it answers depends on what is seen and satisfies `P`. -/
def Queries (a : Address) (root : Resource) (P : α → Prop) (f : Act α) : Prop :=
  ∃ out : Except OperationError α, (∀ v, out = .ok v → P v) ∧
    ∀ x : Context, x.Sees a root → f.run.run x = (out, x)

/-- What the act makes of a context depends on what is seen.  It may take an intent to write. -/
def Works (intent : Bool) (a : Address) (root : Resource) (f : Act Unit) : Prop :=
  ∃ out, ∀ x : Context, x.Sees a root → (intent = true → x.transaction.hasIntent = true) →
    x.Makes (f.run.run x).2 (f.run.run x).1 out

variable {P : α → Prop} {Q : β → Prop}

theorem queries_pure {v : α} (h : P v) : Queries a root P (pure v) :=
  ⟨.ok v, fun _ hv => Except.ok.inj hv ▸ h, fun _ _ => rfl⟩

theorem queries_throw (e : OperationError) : Queries a root P (throw e) :=
  ⟨.error e, by rintro _ ⟨⟩, fun _ _ => rfl⟩

theorem queries_orThrow {o : Except OperationError α} (h : ∀ v, o = .ok v → P v) :
    Queries a root P (GlobalOperation.orThrow o) := by
  cases o with
  | ok v => exact queries_pure (h v rfl)
  | error e => exact queries_throw e

/-- What the first query answers may be assumed of the second. -/
theorem queries_bind {f : Act α} {k : α → Act β} (hf : Queries a root P f)
    (hk : ∀ v, P v → Queries a root Q (k v)) : Queries a root Q (f >>= k) := by
  obtain ⟨out, hout, hf⟩ := hf
  cases out with
  | error e => exact ⟨.error e, by rintro _ ⟨⟩, fun x hx => by rw [run_bind, hf x hx]⟩
  | ok v =>
    obtain ⟨out', hout', hk⟩ := hk v (hout v rfl)
    exact ⟨out', hout', fun x hx => by rw [run_bind, hf x hx]; exact hk x hx⟩

/-- Of the context only what is seen is used. -/
theorem queries_get {k : Context → Act α} {f : Act α} (hk : ∀ x : Context, x.Sees a root → k x = f)
    (hf : Queries a root P f) : Queries a root P (get >>= k) := by
  obtain ⟨out, hout, hf⟩ := hf
  exact ⟨out, hout, fun x hx => by rw [run_bind, ← hf x hx, ← hk x hx]; rfl⟩

theorem run_read (x : Context) : read.run.run x = (x.transaction.read x.currentAddress, x) := by
  unfold read readAt
  rw [run_get, run_get]
  cases x.transaction.read x.currentAddress <;> rfl

/-- To read asks the model of the transaction, and changes nothing. -/
theorem queries_read : Queries a root (fun _ => True) read := by
  refine ⟨(root.navigate? a).elim (.error (.resourceNotFound a)) .ok, fun _ _ => trivial,
    fun x hx => ?_⟩
  have hroot : x.transaction.root = root := hx.snapshot
  rw [run_read, Transaction.read, hx.address, hroot]
  cases root.navigate? a <;> rfl

/-- A query comes first, and the work goes by its answer. -/
theorem works_bind {f : Act α} {k : α → Act Unit} (hf : Queries a root P f)
    (hk : ∀ v, P v → Works intent a root (k v)) : Works intent a root (f >>= k) := by
  obtain ⟨out, hout, hf⟩ := hf
  cases out with
  | error e =>
    refine ⟨.error e, fun x hx _ => ?_⟩
    rw [run_bind, hf x hx]
    exact ⟨rfl, _, .refl _, rfl⟩
  | ok v =>
    obtain ⟨out', hk⟩ := hk v (hout v rfl)
    refine ⟨out', fun x hx hintent => ?_⟩
    rw [run_bind, hf x hx]
    exact hk x hx hintent

@[inherit_doc queries_get]
theorem works_get {k : Context → Act Unit} {f : Act Unit}
    (hk : ∀ x : Context, x.Sees a root → k x = f) (hf : Works intent a root f) :
    Works intent a root (get >>= k) := by
  obtain ⟨out, hf⟩ := hf
  refine ⟨out, fun x hx hintent => ?_⟩
  rw [run_bind, ← hk x hx] at *
  exact hf x hx hintent

theorem works_when {p : Prop} [Decidable p] {e : OperationError} {f : PUnit → Act Unit}
    (hf : ∀ u, Works intent a root (f u)) :
    Works intent a root (if p then throw e >>= f else f ⟨⟩) := by
  split
  · exact works_bind (queries_throw (P := fun _ => True) e) fun u _ => hf u
  · exact hf ⟨⟩

theorem works_unless {p : Prop} [Decidable p] {e : OperationError} {f : PUnit → Act Unit}
    (hf : ∀ u, Works intent a root (f u)) :
    Works intent a root (if p then f ⟨⟩ else throw e >>= f) := by
  split
  · exact hf ⟨⟩
  · exact works_bind (queries_throw (P := fun _ => True) e) fun u _ => hf u

theorem setResult_of_undefined {x : Context} (h : x.result = .undefined) :
    x.setResult .undefined = x := by
  rw [Context.setResult, Context.modifySlot]
  congr
  refine List.ext_getElem? fun i => ?_
  rw [List.getElem?_modify]
  split
  · rename_i hi
    subst hi
    cases hs : x.slots[x.currentSlot]? with
    | none => rfl
    | some s =>
      rw [Context.result, Context.slot, hs, Option.getD_some] at h
      rw [Option.map_eq_map, Option.map_some, ← h]
  · exact Option.map_id'

theorem makes_self {x : Context} {root : Resource} (hx : x.snapshot = root)
    (h : x.result = .undefined) : x.Makes x (.ok ()) (.ok (.undefined, root)) :=
  ⟨rfl, x.transaction, .refl _, hx, (setResult_of_undefined h).symm⟩

theorem works_pure : Works intent a root (pure ()) :=
  ⟨.ok (.undefined, root), fun _ hx _ => makes_self hx.snapshot hx.result⟩

theorem works_orThrow (o : Except OperationError Unit) :
    Works intent a root (GlobalOperation.orThrow o) := by
  cases o with
  | ok => exact works_pure
  | error e => exact ⟨.error e, fun _ _ _ => ⟨rfl, _, .refl _, rfl⟩⟩

/-- A result is work. -/
theorem works_setResult (v : Value) : Works intent a root (setResult v) :=
  ⟨.ok (v, root), fun x hx _ => ⟨rfl, x.transaction, .refl _, hx.snapshot, rfl⟩⟩

/-- Answering is the last thing that a reading does. -/
theorem works_setResult_queueAll (v : Value) {ds : List Delegation} (hds : ds = []) :
    Works intent a root (setResult v >>= fun _ => Delegation.queueAll ds) := by
  subst hds
  exact works_setResult v

/-- **A write is determined by the root that it is made on.** -/
theorem works_write (what : String) {f : Resource → Except OperationError (α × Resource × Write)}
    {g : Transaction → Except OperationError α × Transaction} (hg : ∀ t, g t = t.write f)
    (k : α → Act Unit) (hk : ∀ v, k v = pure ()) :
    Works true a root (onTransaction what g >>= k) := by
  refine ⟨(f root).map fun out => (.undefined, out.2.1), fun x hx hintent => ?_⟩
  obtain ⟨hout, hroot⟩ := Transaction.write_of_hasIntent (hintent rfl) f
  have hseen : x.transaction.root = root := hx.snapshot
  rw [hseen] at hout hroot
  have hworked := x.transaction.worked_write f
  rw [run_bind, run_onTransaction what g hx.stage, hg]
  cases hf : f root with
  | error e =>
    rw [hf] at hout
    rw [hout]
    exact ⟨rfl, _, hworked, rfl⟩
  | ok out =>
    rw [hf] at hout
    rw [hout]
    dsimp only [Except.map]
    rw [hk]
    refine ⟨rfl, _, hworked, hroot _ _ _ hf, (setResult_of_undefined ?_).symm⟩
    exact hx.result

/-- A resource is updated, and that needs the lock. -/
theorem works_updateAt (b : Address) (f : Resource → Resource) :
    Works true a root (updateAt b f) := by
  rw [← bind_pure (updateAt b f)]
  exact works_write _ (fun _ => rfl) _ fun _ => rfl

/-- A resource is created, and that needs the lock. -/
theorem works_createAt (b : Address) (r : Resource) : Works true a root (createAt b r) := by
  cases hb : b.getLast? with
  | none =>
    refine ⟨.error (.duplicateResource Address.root), fun x hx _ => ?_⟩
    rw [createAt, run_onTransaction _ _ hx.stage, Transaction.create, hb]
    exact ⟨rfl, _, .refl _, rfl⟩
  | some e =>
    rw [← bind_pure (createAt b r)]
    exact works_write _ (fun t => by rw [Transaction.create, hb]) _ fun _ => rfl

/-- A resource is removed, and that needs the lock. -/
theorem works_removeAt (b : Address) :
    Works true a root (removeAt b >>= fun _ => pure ()) := by
  cases hb : b.getLast? with
  | none =>
    refine ⟨.error (.contractViolation "the root resource cannot be removed"), fun x hx _ => ?_⟩
    rw [run_bind, removeAt, run_onTransaction _ _ hx.stage, Transaction.remove, hb]
    exact ⟨rfl, _, .refl _, rfl⟩
  | some e => exact works_write _ (fun t => by rw [Transaction.remove, hb]) _ fun _ => rfl

end Act

/-! ## The global operations -/

open Act

namespace GlobalOperation

variable {r : Registration} {a : Address} {root : Resource} {intent : Bool}

/-- A local attribute has neither a reader nor a writer. -/
theorem queries_attributeNamed (hr : r.Local) (name : String) :
    Queries a root (fun entry => entry.reader = none ∧ entry.writer = none)
      (attributeNamed r name) := by
  refine queries_get (fun x hx => by simp only [hx.address]; rfl) ?_
  refine queries_bind (queries_orThrow fun _ => hr.findLocal) fun node hnode => ?_
  split
  · rename_i entry hentry
    obtain ⟨-, hattributes, -⟩ := hnode
    exact queries_pure (hattributes _ (Dict.mem_of_get? hentry))
  · exact queries_throw _

/-- **To write a local attribute is work** that needs the lock. -/
theorem works_writeAttributeAct (hr : r.Local) (operation : Value) :
    Works true a root (writeAttributeAct r operation) := by
  refine works_bind (queries_orThrow fun _ _ => trivial) fun name _ => ?_
  refine works_get (fun x hx => by simp only [hx.address]; rfl) ?_
  refine works_bind (queries_attributeNamed hr name) fun entry ⟨_, hwriter⟩ => ?_
  rw [hwriter]
  exact works_unless fun _ => works_when fun _ =>
    works_bind (queries_orThrow fun _ _ => trivial) fun _ _ => works_updateAt a _

/-- To read a local resource asks no child. -/
theorem works_readResourceAct (hr : r.Local) (operation : Value) :
    Works intent a root (readResourceAct r operation) := by
  refine works_bind (queries_orThrow fun _ _ => trivial) fun recursive _ => ?_
  refine works_bind (queries_orThrow fun _ _ => trivial) fun proxies _ => ?_
  refine works_bind (queries_orThrow fun _ _ => trivial) fun includeDefaults _ => ?_
  refine works_get (fun x hx => by simp only [hx.address]; rfl) ?_
  refine works_bind (queries_orThrow fun _ => hr.findLocal) fun node hnode => ?_
  exact works_bind queries_read fun resource _ =>
    works_setResult_queueAll _ (Rendering.renderResource_local hnode _ _ _)

theorem works_readAttributeAct (hr : r.Local) (operation : Value) :
    Works intent a root (readAttributeAct r operation) := by
  refine works_bind (queries_orThrow fun _ _ => trivial) fun name _ => ?_
  refine works_bind (queries_orThrow fun _ _ => trivial) fun includeDefaults _ => ?_
  refine works_bind (queries_attributeNamed hr name) fun entry ⟨hreader, _⟩ => ?_
  rw [hreader]
  exact works_bind queries_read fun _ _ => works_setResult _

theorem works_readChildrenNamesAct (r : Registration) (operation : Value) :
    Works intent a root (readChildrenNamesAct r operation) := by
  refine works_bind (queries_orThrow fun _ _ => trivial) fun type _ => ?_
  refine works_get (fun x hx => by simp only [hx.address]; rfl) ?_
  refine works_bind (queries_orThrow fun _ _ => trivial) fun node _ => ?_
  exact works_unless fun _ => works_bind queries_read fun _ _ => works_setResult _

theorem works_readOperationDescriptionAct (r : Registration) (operation : Value) :
    Works intent a root (readOperationDescriptionAct r operation) := by
  refine works_bind (queries_orThrow fun _ _ => trivial) fun name _ => ?_
  refine works_get (fun x hx => by simp only [hx.address]; rfl) ?_
  split
  · exact works_setResult _
  · exact works_orThrow (.error _)

theorem works_readResourceDescriptionAct (hr : r.Local) (operation : Value) :
    Works intent a root (readResourceDescriptionAct r operation) := by
  refine works_bind (queries_orThrow fun _ _ => trivial) fun recursive _ => ?_
  refine works_bind (queries_orThrow fun _ _ => trivial) fun operations _ => ?_
  refine works_bind (queries_orThrow fun _ _ => trivial) fun proxies _ => ?_
  refine works_get (fun x hx => by simp only [hx.address]; rfl) ?_
  refine works_bind (queries_orThrow fun _ => hr.findLocal) fun node hnode => ?_
  refine works_setResult_queueAll _ ?_
  split
  · exact Rendering.describedProxies_local _ _ node hnode
  · rfl

/-- A validation where nothing is proxied queues nothing. -/
theorem works_validateAct (hr : r.Local) (operation : Value) :
    Works intent a root (validateAct r operation) := by
  rw [validateAct]
  split
  · exact works_orThrow (.error _)
  · rename_i target _
    refine works_bind (queries_orThrow fun _ _ => trivial) fun p _ => ?_
    refine works_bind (queries_orThrow fun _ => hr.resolve) fun resolved hresolved => ?_
    obtain ⟨node, entry, rfl, -⟩ := hresolved
    exact works_orThrow _

/-- **The work of a global operation**, composites apart, is determined by what it sees. -/
theorem works_run (hr : r.Local) {g : GlobalOperation} (hg : g ≠ composite) (operation : Value) :
    Works (!g.definition.readOnly) a root (g.run r operation) := by
  cases g with
  | readResource => exact works_readResourceAct hr operation
  | readAttribute => exact works_readAttributeAct hr operation
  | writeAttribute => exact works_writeAttributeAct hr operation
  | undefineAttribute => exact works_writeAttributeAct hr _
  | readChildrenNames => exact works_readChildrenNamesAct r operation
  | readChildrenTypes =>
    refine works_get (fun x hx => by rw [hx.address]) ?_
    exact works_bind (queries_orThrow fun _ _ => trivial) fun _ _ => works_setResult _
  | readOperationNames =>
    exact works_get (fun x hx => by rw [hx.address]) (works_setResult _)
  | readOperationDescription => exact works_readOperationDescriptionAct r operation
  | readResourceDescription => exact works_readResourceDescriptionAct hr operation
  | composite => exact absurd rfl hg
  | validate => exact works_validateAct hr operation

end GlobalOperation

/-! ## Handlers -/

namespace Handler

/-- Whether a standard handler needs the intent to write. -/
def writes : Handler → Bool
  | global g => !g.definition.readOnly
  | _ => true

/-- A standard handler writes unless its operation is declared read-only. -/
theorem writes_of_standard {entry : OperationEntry} (h : entry.Standard) :
    entry.handler.writes = !entry.definition.readOnly := by
  cases h with
  | global => rfl
  | add attributes =>
    show true = !(addDefinition attributes).readOnly
    rw [addDefinition, OperationDefinition.readOnly_of]
    rfl
  | remove => rfl

/-- **What a handler does** where it sees `root` from `a`: it stays within the context of its
operation, and makes of it what `out` says. -/
def Comes (r : Registration) (h : Handler) (operation : Value) (a : Address) (root : Resource)
    (out : Except OperationError (Value × Resource)) : Prop :=
  ∃ deed, h.deed? operation = some deed ∧ ∀ s : Scene, s.plane.registration s.controller = r →
    s.context.Sees a root → (h.writes = true → s.context.transaction.hasIntent = true) →
    ∃ y result, deed.run.run s = (result, { s with context := y }) ∧
      s.context.Makes y result out

variable {r : Registration} {a : Address} {root : Resource}

theorem comes_of_works {h : Handler} {operation : Value} {f : Act Unit}
    (hf : Act.Works h.writes a root f) {deed : Deed Unit} (hdeed : h.deed? operation = some deed)
    (hrun : ∀ s : Scene, s.plane.registration s.controller = r → s.context.currentAddress = a →
      deed.run.run s = (Deed.act f).run.run s) :
    ∃ out, h.Comes r operation a root out := by
  obtain ⟨out, hf⟩ := hf
  refine ⟨out, deed, hdeed, fun s hr hs hintent => ⟨_, _, ?_, hf s.context hs hintent⟩⟩
  rw [hrun s hr hs.address]
  exact Deed.run_act f s

/-- **A standard handler that is no composite** does what it does because of what it sees. -/
theorem comes_of_standard (hr : r.Local) {entry : OperationEntry} (h : entry.Standard)
    (hcomposite : entry.handler ≠ .global .composite) (operation : Value) :
    ∃ out, entry.handler.Comes r operation a root out := by
  cases h with
  | global g inherited =>
    have hg : g ≠ .composite := by
      rintro rfl
      exact hcomposite rfl
    have hdeed : (global g).deed? operation = some (do
        let s ← get
        Deed.act (g.run (s.plane.registration s.controller) operation)) := rfl
    refine comes_of_works (GlobalOperation.works_run hr hg operation) hdeed fun s hs _ => ?_
    rw [run_get, hs]
  | add attributes inherited =>
    have hworks : Act.Works true a root (GlobalOperation.orThrow
        (Resource.populate attributes operation) >>= fun resource => Act.createAt a resource) :=
      Act.works_bind (Act.queries_orThrow fun _ _ => trivial) fun resource _ =>
        Act.works_createAt a resource
    have hdeed : (add attributes).deed? operation = some (do
        let resource ← Deed.orThrow (Resource.populate attributes operation)
        Deed.act (Act.createAt (← Deed.context).currentAddress resource)) := rfl
    refine comes_of_works hworks hdeed fun s _ ha => ?_
    subst ha
    rw [Deed.run_act]
    cases Resource.populate attributes operation with
    | error e => rfl
    | ok resource => exact Deed.run_act (Act.createAt s.context.currentAddress resource) s
  | remove inherited =>
    have hdeed : remove.deed? operation = some (do
        let _ ← Deed.act (Act.removeAt (← Deed.context).currentAddress)) := rfl
    refine comes_of_works (Act.works_removeAt a) hdeed fun s _ ha => ?_
    subst ha
    show (Deed.act (Act.removeAt s.context.currentAddress) >>= fun _ => pure ()).run.run s = _
    rw [run_bind, Deed.run_act, Deed.run_act, run_bind]
    cases (Act.removeAt s.context.currentAddress).run.run s.context with
    | mk out y => cases out <;> rfl

end Handler

end ManagementPlane
