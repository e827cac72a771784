import ManagementPlane.Pipeline.Work
import ManagementPlane.Proofs.Global.Editing
import ManagementPlane.Proofs.Workers.Mirror

/-!
# Proofs/Workers/Steps — the steps of an operation on the workers

An operation on the workers adds, removes and reconfigures worker resources, alone or in composites
(`Operation.OnWorkers`).  It changes the model in its first stage, the workers in the second, and
confirms them in the third.  `Context.Ready` is what holds between two of its steps: the steps that
are still queued bring the workers in line with what is staged, and the completions so far take them
back to where they were.  `Step.works` says that a step that goes well keeps this up, and that one
that fails leaves everything to be undone.
-/

namespace ManagementPlane

open WorkerContainer

/-! ## Operations -/

namespace Operation

/-- The names of the operations on one worker. -/
def onWorker : List String :=
  ["add", "remove", GlobalOperation.writeAttribute.name, GlobalOperation.undefineAttribute.name]

/-- **An operation on the workers**, written relative to `base`, or a composite of such ones. -/
inductive OnWorkers : Address → Value → Prop
  | intro {base : Address} {operation : Value}
      (simple : ∀ name a, parse operation = .ok (name, a) → name ≠ GlobalOperation.composite.name →
        name ∈ onWorker ∧ ∃ worker, base ++ a = Server.workerAddress worker)
      (steps : ∀ a, parse operation = .ok (GlobalOperation.composite.name, a) →
        ∀ s ∈ Composite.stepsOf operation, OnWorkers (base ++ a) s) : OnWorkers base operation

theorem OnWorkers.of_parse {base a : Address} {operation : Value} {worker : String}
    (name : String) (hparse : parse operation = .ok (name, a)) (hname : name ∈ onWorker)
    (ha : base ++ a = Server.workerAddress worker) : OnWorkers base operation := by
  refine .intro (fun name' a' hparse' _ => ?_) fun a' hparse' => ?_
  · obtain ⟨rfl, rfl⟩ := Prod.mk.inj (Except.ok.inj (hparse.symm.trans hparse'))
    exact ⟨hname, worker, ha⟩
  · obtain ⟨rfl, rfl⟩ := Prod.mk.inj (Except.ok.inj (hparse.symm.trans hparse'))
    exact absurd hname (by decide)

theorem OnWorkers.of_steps {base a : Address} {operation : Value}
    (hparse : parse operation = .ok (GlobalOperation.composite.name, a))
    (h : ∀ s ∈ Composite.stepsOf operation, OnWorkers (base ++ a) s) :
    OnWorkers base operation := by
  refine .intro (fun name a' hparse' hname => ?_) fun a' hparse' => ?_
  · obtain ⟨rfl, rfl⟩ := Prod.mk.inj (Except.ok.inj (hparse.symm.trans hparse'))
    exact absurd rfl hname
  · obtain ⟨-, rfl⟩ := Prod.mk.inj (Except.ok.inj (hparse.symm.trans hparse'))
    exact h

end Operation

/-- Who runs an operation on one worker. -/
inductive Handler.Serves : String → Handler → Prop
  | add : Serves "add" (.addWorker [Server.keepAlive])
  | remove : Serves "remove" .removeWorker
  | write : Serves GlobalOperation.writeAttribute.name (.global .writeAttribute)
  | undefine : Serves GlobalOperation.undefineAttribute.name (.global .undefineAttribute)

/-- **The registration serves the workers**: the operations on them are those of the server. -/
structure Registration.ServesWorkers (r : Registration) : Prop where
  handlers : ∀ worker name resolved, name ∈ Operation.onWorker →
    r.resolve (Server.workerAddress worker) name = .ok resolved → resolved.handler.Serves name
  composites : ∀ a resolved, r.resolve a GlobalOperation.composite.name = .ok resolved →
    resolved.handler = .global .composite
  writers : ∀ worker node, r.findLocal (Server.workerAddress worker) = .ok node →
    ∀ f ∈ node.attributes, f.2.writer = some .writeKeepAlive

/-! ## Steps -/

/-- A step of the first stage. -/
inductive Step.OnModel : Step → Prop
  | add {operation : Value} {name : String} {i : Nat} :
    OnModel ⟨.addWorker [Server.keepAlive], operation, Server.workerAddress name, i⟩
  | remove {operation : Value} {name : String} {i : Nat} :
    OnModel ⟨.removeWorker, operation, Server.workerAddress name, i⟩
  | writeKeepAlive {operation : Value} {name : String} {i : Nat} :
    OnModel ⟨.writeKeepAlive, operation, Server.workerAddress name, i⟩
  | write {operation : Value} {name : String} {i : Nat}
      (h : Operation.addressOf operation = .ok (Server.workerAddress name)) :
    OnModel ⟨.global .writeAttribute, operation, Server.workerAddress name, i⟩
  | undefine {operation : Value} {name : String} {i : Nat}
      (h : Operation.addressOf operation = .ok (Server.workerAddress name)) :
    OnModel ⟨.global .undefineAttribute, operation, Server.workerAddress name, i⟩
  | composite {operation : Value} {a : Address} {i : Nat}
      (h : ∀ s ∈ Composite.stepsOf operation, Operation.OnWorkers a s) :
    OnModel ⟨.global .composite, operation, a, i⟩
  | collect {slots : List (String × Nat)} {operation : Value} {a : Address} {i : Nat} :
    OnModel ⟨.collect slots, operation, a, i⟩

/-- The work of a step of the second stage. -/
inductive Handler.IsRuntime : Handler → Prop
  | start {name : String} {k : KeepAlive} : IsRuntime (.startWorker name k)
  | stop {name : String} : IsRuntime (.stopWorker name)
  | apply {name : String} {k : KeepAlive} : IsRuntime (.applyKeepAlive name k)

/-- The work of a step of the third stage. -/
inductive Handler.IsVerify : Handler → Prop
  | confirm {name : String} : IsVerify (.confirmWorker name)

/-- **Whoever runs an operation on the workers** does it in steps of the first stage. -/
theorem Registration.ServesWorkers.onModel {r : Registration} (hr : r.ServesWorkers)
    {base a : Address} {operation operation' : Value} {name : String} {resolved : Resolved}
    (h : Operation.OnWorkers base operation) (hparse : Operation.parse operation = .ok (name, a))
    (hresolve : r.resolve (base ++ a) name = .ok resolved)
    (haddress : Operation.addressOf operation' = .ok (base ++ a))
    (hsteps : Composite.stepsOf operation' = Composite.stepsOf operation) (i : Nat) :
    (Step.mk resolved.handler operation' (base ++ a) i).OnModel := by
  obtain ⟨hsimple, hparts⟩ := h
  by_cases hname : name = GlobalOperation.composite.name
  · obtain rfl := hname
    rw [hr.composites _ _ hresolve]
    exact .composite fun s hs => hparts a hparse s (hsteps ▸ hs)
  · obtain ⟨hmem, worker, hworker⟩ := hsimple name a hparse hname
    rw [hworker] at hresolve haddress ⊢
    have hserves := hr.handlers worker name resolved hmem hresolve
    generalize resolved.handler = handler at hserves
    cases hserves with
    | add => exact .add
    | remove => exact .remove
    | write => exact .write haddress
    | undefine => exact .undefine haddress

/-! ## Between two steps -/

/-- **Between two steps** of an operation on the workers, which were `c₀` before it and are `c`
now. -/
structure Context.Ready (c₀ c : WorkerContainer) (x : Context) : Prop where
  listed : x.transaction.root.Listed
  plans : c.Plans x.transaction.root x.queues.runtime x.queues.verify
  tracks : Tracks c₀ x.completed c
  model : ∀ step ∈ x.queues.model, step.OnModel
  runtime : ∀ step ∈ x.queues.runtime, step.handler.IsRuntime
  verify : ∀ step ∈ x.queues.verify, step.handler.IsVerify
  done : x.queues.done = []

namespace Context

variable {c₀ c : WorkerContainer} {x y : Context}

theorem Ready.queue (h : x.Ready c₀ c) {step : Step} (hstep : step.OnModel) (first : Bool) :
    { x with queues := x.queues.add .model step first }.Ready c₀ c :=
  { h with
    model := fun other hother => by
      have hother : other ∈ (x.queues.add .model step first).get .model := hother
      rcases Queues.mem_get_add.mp hother with hother | ⟨-, rfl⟩
      · exact h.model other hother
      · exact hstep }

theorem Ready.report (h : x.Ready c₀ c) (own : Nat) (slots : List (String × Nat)) :
    (x.complete (.reportSteps own slots)).Ready c₀ c := by
  rw [complete]
  split
  · split
    · exact { h with }
    · exact { h with tracks := h.tracks.report own slots }
  · exact { h with }

variable {root : Resource} {t : Transaction} {name : String} {k : KeepAlive} {step : Step}

/-- **A step that changes a worker is queued** once the model is changed. -/
theorem Ready.plan {vf : List Step} (h : x.Ready c₀ c) (ht : t.root.Listed)
    (hstep : step.handler.IsRuntime) (hvf : ∀ s ∈ vf, s.handler.IsVerify)
    (hplan : ∀ d e : WorkerContainer, d.Awaits x.transaction.root x.queues.verify →
      d.Changes step.handler e → e.Awaits t.root vf) :
    Ready c₀ c { x with
      transaction := t
      queues := { x.queues with runtime := x.queues.runtime ++ [step], verify := vf } } where
  listed := ht
  plans := h.plans.snoc hplan
  tracks := h.tracks
  model := h.model
  runtime := List.forall_mem_append.mpr ⟨h.runtime, List.forall_mem_singleton.mpr hstep⟩
  verify := hvf
  done := h.done

theorem Ready.add {r : Resource} (h : x.Ready c₀ c)
    (ht : t.root = x.transaction.root.putChild ⟨Server.workerName, name⟩ r)
    (hr : r.keepAlive = .ok k) (hattributes : (Dict.keys r.attributes).Nodup) {confirm : Step}
    (hstep : step.handler = .startWorker name k)
    (hconfirm : confirm.handler = .confirmWorker name) :
    Ready c₀ c { x with
      transaction := t
      queues := (x.queues.add .runtime step false).add .verify confirm false } := by
  refine h.plan (ht ▸ h.listed.putChild hattributes) (hstep ▸ .start)
    (List.forall_mem_append.mpr ⟨h.verify, List.forall_mem_singleton.mpr (hconfirm ▸ .confirm)⟩)
    fun d e hd he => ?_
  rw [hstep] at he
  refine hd.start he hr ?_ (fun other ho => ?_) hconfirm
  · rw [ht, Resource.worker?_putChild, if_pos rfl]
  · rw [ht, Resource.worker?_putChild, if_neg ho]

theorem Ready.remove (h : x.Ready c₀ c)
    (ht : t.root = x.transaction.root.removeChild ⟨Server.workerName, name⟩)
    (hstep : step.handler = .stopWorker name) :
    Ready c₀ c { x with transaction := t, queues := x.queues.add .runtime step false } := by
  refine h.plan (ht ▸ h.listed.removeChild) (hstep ▸ .stop) h.verify fun d e hd he => ?_
  rw [hstep] at he
  refine hd.stop he ?_ fun other ho => ?_
  · rw [ht, h.listed.worker?_removeChild, if_pos rfl]
  · rw [ht, h.listed.worker?_removeChild, if_neg ho]

theorem Ready.write {r : Resource} (h : x.Ready c₀ c)
    (ht : t.root = x.transaction.root.putChild ⟨Server.workerName, name⟩ r)
    (hr : r.keepAlive = .ok k) (hattributes : (Dict.keys r.attributes).Nodup)
    (hstep : step.handler = .applyKeepAlive name k) :
    Ready c₀ c { x with transaction := t, queues := x.queues.add .runtime step false } := by
  refine h.plan (ht ▸ h.listed.putChild hattributes) (hstep ▸ .apply) h.verify fun d e hd he => ?_
  rw [hstep] at he
  refine hd.apply he hr ?_ fun other ho => ?_
  · rw [ht, Resource.worker?_putChild, if_pos rfl]
  · rw [ht, Resource.worker?_putChild, if_neg ho]

end Context

namespace Context

variable {c₀ c d : WorkerContainer} {x y : Context} {step : Step}

/-- The context before the running step was taken out of its queue. -/
def putBack (x : Context) (step : Step) : Context :=
  { x with queues := x.queues.set (step :: x.queues.get x.stage) x.stage }

/-- A step of the first stage is not missed before it has done anything. -/
theorem Ready.onModel (h : (x.putBack step).Ready c₀ c) (hstage : x.stage = .model) :
    step.OnModel ∧ x.Ready c₀ c := by
  rw [putBack, hstage] at h
  obtain ⟨hstep, hmodel⟩ := List.forall_mem_cons.mp h.model
  exact ⟨hstep, { h with model := hmodel }⟩

/-- A step of the second stage has changed the workers. -/
theorem Ready.ran (h : (x.putBack step).Ready c₀ c) (hstage : x.stage = .runtime)
    (hd : c.Changes step.handler d) (htracks : Tracks c₀ y.completed d)
    (htransaction : y.transaction = x.transaction) (hqueues : y.queues = x.queues) :
    y.Ready c₀ d := by
  rw [putBack, hstage] at h
  obtain ⟨transaction, queues⟩ := y
  cases htransaction
  cases hqueues
  exact ⟨h.listed, h.plans.next hd, htracks, h.model, (List.forall_mem_cons.mp h.runtime).2,
    h.verify, h.done⟩

/-- A step of the third stage has confirmed its worker. -/
theorem Ready.confirmed {name : String} (h : (x.putBack step).Ready c₀ c)
    (hstage : x.stage = .verify) (hruntime : x.queues.runtime = [])
    (hstep : step.handler = .confirmWorker name) (hd : c.Changes (.confirmWorker name) d) :
    x.Ready c₀ d := by
  rw [putBack, hstage] at h
  have hplans : c.Plans x.transaction.root x.queues.runtime (step :: x.queues.verify) := h.plans
  rw [hruntime] at hplans
  refine ⟨h.listed, ?_, h.tracks.confirm hd, h.model, h.runtime,
    (List.forall_mem_cons.mp h.verify).2, h.done⟩
  rw [hruntime]
  exact (hplans.awaits.confirm hstep hd).plans

end Context

/-! ## The work of a step -/

namespace Transaction

variable {α : Type} {x : Transaction} {name : String}

theorem write_eq_ok {f : Resource → Except OperationError (α × Resource × Write)} {v : α}
    (h : (x.write f).1 = .ok v) :
    ∃ root w, f x.root = .ok (v, root, w) ∧ (x.write f).2.root = root := by
  rw [write] at h ⊢
  cases hs : x.staging with
  | none =>
    rw [hs] at h
    cases h
  | some s =>
    have hroot : x.root = s.root := by rw [root, hs]; rfl
    rw [hs] at h
    rw [hroot]
    dsimp only at h ⊢
    cases hf : f s.root with
    | error e =>
      rw [hf] at h
      cases h
    | ok out =>
      obtain ⟨v', root, w⟩ := out
      rw [hf] at h
      obtain rfl := Except.ok.inj h
      exact ⟨root, w, rfl, rfl⟩

/-- Worker resources stand right below the root. -/
theorem root_create {r : Resource} (h : (x.create (Server.workerAddress name) r).1 = .ok ()) :
    (x.create (Server.workerAddress name) r).2.root
      = x.root.putChild ⟨Server.workerName, name⟩ r := by
  obtain ⟨root, w, hf, hroot⟩ := write_eq_ok h
  refine hroot.trans ?_
  change (if x.root.hasChild ⟨Server.workerName, name⟩ = true then _ else _) = _ at hf
  split at hf
  · cases hf
  · obtain ⟨-, rfl, -⟩ := Except.ok.inj hf
    rfl

theorem root_remove {r : Resource} (h : (x.remove (Server.workerAddress name)).1 = .ok r) :
    (x.remove (Server.workerAddress name)).2.root
      = x.root.removeChild ⟨Server.workerName, name⟩ := by
  obtain ⟨root, w, hf, hroot⟩ := write_eq_ok h
  refine hroot.trans ?_
  have hparent : x.root.navigate? (Server.workerAddress name).parent = some x.root := rfl
  rw [hparent] at hf
  dsimp only at hf
  split at hf
  · cases hf
  · obtain ⟨-, rfl, -⟩ := Except.ok.inj hf
    rfl

theorem root_update {f : Resource → α × Resource} {v : α}
    (h : (x.update (Server.workerAddress name) f).1 = .ok v) :
    ∃ r, x.root.worker? name = some r ∧ (x.update (Server.workerAddress name) f).2.root
      = x.root.putChild ⟨Server.workerName, name⟩ (f r).2 := by
  obtain ⟨root, w, hf, hroot⟩ := write_eq_ok h
  have hnavigate : x.root.navigate? (Server.workerAddress name) = x.root.worker? name := by
    show (x.root.worker? name).bind some = _
    cases x.root.worker? name <;> rfl
  rw [hnavigate] at hf
  cases hr : x.root.worker? name with
  | none =>
    rw [hr] at hf
    cases hf
  | some r =>
    rw [hr] at hf
    obtain ⟨-, rfl, -⟩ := Except.ok.inj hf
    refine ⟨r, rfl, hroot.trans ?_⟩
    rw [Server.workerAddress, Resource.modifyAt, show x.root.child? _ = some r from hr]
    rfl

end Transaction

namespace Deed

variable {α β : Type} {c₀ : WorkerContainer} {s t : Scene}

/-- Where the work succeeds `Q` holds; where it fails what was done can be undone. -/
def Comes (c₀ : WorkerContainer) (Q : α → Scene → Prop) (f : Deed α) (s : Scene) : Prop :=
  match f.run.run s with
  | (.ok v, t) => Q v t
  | (.error _, t) => Undoes c₀ t.context.completed t.plane.workers

variable {Q : β → Scene → Prop}

theorem comes_of_ok {f : Deed β} {v : β} (hf : f.run.run s = (.ok v, t)) (h : Q v t) :
    f.Comes c₀ Q s := by
  rw [Comes, hf]
  exact h

theorem comes_bind_of_ok {f : Deed α} {k : α → Deed β} {v : α} (hf : f.run.run s = (.ok v, t))
    (h : (k v).Comes c₀ Q t) : (f >>= k).Comes c₀ Q s := by
  rw [Comes, run_bind, hf]
  exact h

theorem comes_bind_of_error {f : Deed α} {k : α → Deed β} {e : OperationError}
    (hf : f.run.run s = (.error e, t)) (h : Undoes c₀ t.context.completed t.plane.workers) :
    (f >>= k).Comes c₀ Q s := by
  rw [Comes, run_bind, hf]
  exact h

theorem comes_orThrow {o : Except OperationError α} {k : α → Deed β}
    (hs : Undoes c₀ s.context.completed s.plane.workers)
    (h : ∀ v, o = .ok v → (k v).Comes c₀ Q s) : (orThrow o >>= k).Comes c₀ Q s := by
  cases o with
  | ok v => exact comes_bind_of_ok rfl (h v rfl)
  | error e => exact comes_bind_of_error rfl hs

/-- A write fails without effect on the workers, or leaves what the transaction makes of it. -/
theorem comes_onTransaction {what : String}
    {f : Transaction → Except OperationError α × Transaction}
    {k : α → Deed β} (hstage : s.context.stage = .model)
    (hs : Undoes c₀ s.context.completed s.plane.workers)
    (h : ∀ v, (f s.context.transaction).1 = .ok v → (k v).Comes c₀ Q
      { s with context := { s.context with transaction := (f s.context.transaction).2 } }) :
    (act (Act.onTransaction what f) >>= k).Comes c₀ Q s := by
  have hrun := run_act (Act.onTransaction what f) s
  rw [Act.run_onTransaction what f hstage] at hrun
  cases hf : (f s.context.transaction).1 with
  | ok v =>
    rw [hf] at hrun
    exact comes_bind_of_ok hrun (h v hf)
  | error e =>
    rw [hf] at hrun
    exact comes_bind_of_error hrun hs

/-- A step completes for the first time. -/
theorem run_complete {a : ActiveStep} (ha : s.context.active = some a)
    (hcompleted : a.completed = false) (k : Completion) :
    (act (Act.complete k)).run.run s = (.ok (), { s with context := { s.context with
      active := some { a with completed := true }, completed := k :: s.context.completed } }) := by
  rw [run_act]
  show (Except.ok (), { s with context := s.context.complete k }) = _
  rw [Context.complete, ha]
  dsimp only
  rw [hcompleted]
  rfl

theorem run_resourceName {name : String}
    (h : s.context.currentAddress = Server.workerAddress name) :
    resourceName.run.run s = (.ok name, s) := by
  have hcontext : ∀ k : Context → Deed String,
      (context >>= k).run.run s = (k s.context).run.run s := fun _ => rfl
  rw [resourceName, hcontext, h]
  rfl

end Deed

namespace WorkerSteps

variable {c₀ : WorkerContainer} {s : Scene} {name : String}

theorem run_queueHere (what : String) (handler : Handler) {stage : Stage}
    (hstage : ¬ stage < s.context.stage) : (queueHere what handler stage).run.run s
      = (.ok (), { s with context := { s.context with
          queues := s.context.queues.add stage ⟨handler,
            Operation.build what s.context.currentAddress, s.context.currentAddress,
            s.context.currentSlot⟩ false } }) := by
  have haddress : Operation.addressOf (Operation.build what s.context.currentAddress)
      = .ok s.context.currentAddress := Address.ofValue_toValue _
  have hrun := Act.run_attempt (fun x => (x.queueStep handler
    (Operation.build what s.context.currentAddress) stage s.context.currentSlot false).map ((), ·))
    s.context
  rw [Context.queueStep, if_neg hstage, haddress] at hrun
  exact (Deed.run_act _ s).trans (congrArg (fun out => (out.1, { s with context := out.2 })) hrun)

theorem run_onWorkers {α : Type}
    (f : WorkerContainer → Except WorkerError (α × WorkerContainer)) :
    (onWorkers f).run.run s = match f s.plane.workers with
      | .ok (a, workers) => (.ok a, { s with plane := { s.plane with workers } })
      | .error e => (.error (.failed e.message), s) := by
  show (match f s.plane.workers with | .ok (a, workers) => _ | .error e => _ : Deed α) s = _
  cases f s.plane.workers <;> rfl

theorem stored_populate {operation : Value} {r : Resource}
    (h : Resource.populate [Server.keepAlive] operation = .ok r) :
    (Dict.keys r.attributes).Nodup ∧ r.attribute? keepAliveKey
      = if (operation.get keepAliveKey).isDefined then some (operation.get keepAliveKey)
        else none := by
  rw [Resource.populate, Resource.populatedAttributes] at h
  cases hcheck : Server.keepAlive.check (operation.get Server.keepAlive.name) with
  | error e =>
    rw [hcheck] at h
    cases h
  | ok =>
    rw [hcheck] at h
    obtain rfl := Except.ok.inj h
    show (Dict.keys (Dict.ofList
      (if (operation.get keepAliveKey).isDefined = true then _ else _))).Nodup
      ∧ Dict.get? (Dict.ofList
        (if (operation.get keepAliveKey).isDefined = true then _ else _)) _ = _
    split
    · exact ⟨List.nodup_singleton _, rfl⟩
    · exact ⟨List.nodup_nil, rfl⟩

section Model

variable {operation : Value} (hstage : s.context.stage = .model)
  (haddress : s.context.currentAddress = Server.workerAddress name)
  (h : s.context.Ready c₀ s.plane.workers)
include hstage haddress h

theorem comes_add : (add [Server.keepAlive] operation).Comes c₀
    (fun _ t => t.context.Ready c₀ t.plane.workers) s := by
  have hundoes := h.tracks.toUndoes
  refine Deed.comes_bind_of_ok (Deed.run_resourceName haddress) ?_
  refine Deed.comes_orThrow hundoes fun k hk => Deed.comes_orThrow hundoes fun r hr => ?_
  obtain ⟨hattributes, hstored⟩ := stored_populate hr
  refine Deed.comes_bind_of_ok (v := s.context) rfl ?_
  rw [haddress]
  refine Deed.comes_onTransaction hstage hundoes fun _ hcreate => ?_
  refine Deed.comes_bind_of_ok (run_queueHere _ _ (hstage ▸ by decide)) ?_
  refine Deed.comes_of_ok (run_queueHere _ _ (hstage ▸ by decide)) ?_
  exact h.add (Transaction.root_create hcreate) (Resource.keepAlive_of_stored hk hstored)
    hattributes rfl rfl

theorem comes_remove : remove.Comes c₀ (fun _ t => t.context.Ready c₀ t.plane.workers) s := by
  have hundoes := h.tracks.toUndoes
  refine Deed.comes_bind_of_ok (Deed.run_resourceName haddress) ?_
  refine Deed.comes_bind_of_ok (v := s.context) rfl ?_
  rw [haddress]
  refine Deed.comes_onTransaction hstage hundoes fun _ hremove => ?_
  refine Deed.comes_of_ok (run_queueHere _ _ (hstage ▸ by decide)) ?_
  exact h.remove (Transaction.root_remove hremove) rfl

theorem comes_writeKeepAlive : (writeKeepAlive operation).Comes c₀
    (fun _ t => t.context.Ready c₀ t.plane.workers) s := by
  have hundoes := h.tracks.toUndoes
  refine Deed.comes_bind_of_ok (Deed.run_resourceName haddress) ?_
  refine Deed.comes_orThrow hundoes fun k hk => ?_
  refine Deed.comes_bind_of_ok (v := s.context) rfl ?_
  rw [haddress]
  refine Deed.comes_onTransaction hstage hundoes fun _ hupdate => ?_
  refine Deed.comes_of_ok (run_queueHere _ _ (hstage ▸ by decide)) ?_
  obtain ⟨r, hr, hroot⟩ := Transaction.root_update hupdate
  have hattributes := h.listed.attributes _ _ hr
  refine h.write hroot (Resource.keepAlive_of_stored hk ?_) ?_ rfl
  · dsimp only
    split
    · exact (Resource.attribute?_setAttribute _ _ _ _).trans (if_pos rfl)
    · exact (Dict.get?_erase hattributes _ _).trans (if_pos rfl)
  · dsimp only
    split
    · exact Dict.nodup_keys_put hattributes _ _
    · exact Dict.nodup_keys_erase hattributes _

end Model

section Runtime

variable {k : KeepAlive} {step : Step} (hstage : s.context.stage = .runtime)
  (hactive : ∃ a, s.context.active = some a ∧ a.completed = false)
  (h : (s.context.putBack step).Ready c₀ s.plane.workers)
include hstage hactive h

/-- A step that has changed the workers leaves the completion that undoes it. -/
theorem comes_changed {α : Type} {f : Deed α} {v : α} {d : WorkerContainer} {undo : α → Completion}
    (hrun : f.run.run s = (.ok v, { s with plane := { s.plane with workers := d } }))
    (hd : s.plane.workers.Changes step.handler d)
    (htracks : Tracks c₀ (undo v :: s.context.completed) d) :
    (f >>= fun v => Deed.act (Act.complete (undo v))).Comes c₀
      (fun _ t => t.context.Ready c₀ t.plane.workers) s := by
  obtain ⟨a, ha, hcompleted⟩ := hactive
  refine Deed.comes_bind_of_ok hrun (Deed.comes_of_ok (Deed.run_complete ?_ hcompleted _) ?_)
  · exact ha
  · exact h.ran hstage hd htracks rfl rfl

theorem comes_start (hstep : step.handler = .startWorker name k) :
    (start name k).Comes c₀ (fun _ t => t.context.Ready c₀ t.plane.workers) s := by
  have hrun := run_onWorkers (s := s) fun c => (c.start name k).map ((), ·)
  cases hd : s.plane.workers.start name k with
  | error e =>
    rw [hd] at hrun
    exact Deed.comes_bind_of_error hrun h.tracks.toUndoes
  | ok d =>
    rw [hd] at hrun
    have hchanges := changes_start hd
    exact comes_changed hstage hactive h hrun (hstep ▸ hchanges) (h.tracks.start hchanges)

theorem comes_stop (hstep : step.handler = .stopWorker name) :
    (stop name).Comes c₀ (fun _ t => t.context.Ready c₀ t.plane.workers) s := by
  refine Deed.comes_bind_of_ok (v := s) rfl ?_
  cases hw : s.plane.workers.get? name with
  | none =>
    refine Deed.comes_of_ok rfl (h.ran hstage ?_ h.tracks rfl rfl)
    rw [hstep]
    have hstop : Changes s.plane.workers (.stopWorker name) _ := .stop
    rwa [stop_of_none hw] at hstop
  | some w => exact comes_changed hstage hactive h rfl (hstep ▸ .stop) (h.tracks.stop hw)

theorem comes_applyKeepAlive (hstep : step.handler = .applyKeepAlive name k) :
    (applyKeepAlive name k).Comes c₀ (fun _ t => t.context.Ready c₀ t.plane.workers) s := by
  have hrun := run_onWorkers (s := s) (·.reconfigure name k)
  cases hw : s.plane.workers.get? name with
  | none =>
    rw [reconfigure_of_none hw] at hrun
    exact Deed.comes_bind_of_error hrun h.tracks.toUndoes
  | some w =>
    rw [reconfigure_of_some hw] at hrun
    exact comes_changed hstage hactive h hrun (hstep ▸ .apply hw) (h.tracks.apply hw k)

end Runtime

theorem comes_confirm {step : Step} (hstage : s.context.stage = .verify)
    (hruntime : s.context.queues.runtime = [])
    (h : (s.context.putBack step).Ready c₀ s.plane.workers)
    (hstep : step.handler = .confirmWorker name) :
    (confirm name).Comes c₀ (fun _ t => t.context.Ready c₀ t.plane.workers) s := by
  have hrun := run_onWorkers (s := s) fun c => (c.confirm name).map ((), ·)
  cases hd : s.plane.workers.confirm name with
  | error e =>
    rw [hd] at hrun
    rw [Deed.Comes, confirm, hrun]
    exact h.tracks.toUndoes
  | ok d =>
    rw [hd] at hrun
    exact Deed.comes_of_ok hrun (h.confirmed hstage hruntime hstep (changes_confirm hd))

end WorkerSteps

/-! ## Steps that queue steps -/

section Queuing

open Act GlobalOperation

variable {r : Registration} {c₀ c : WorkerContainer} {a : Address} {operation : Value}

/-- The running step stands at `a`, in the first stage. -/
def Context.ReadyAt (c₀ c : WorkerContainer) (a : Address) (x : Context) : Prop :=
  x.currentAddress = a ∧ x.Ready c₀ c

/-- A write to a worker resource is left to the step that also applies it. -/
theorem preserves_writeWorker {name : String} (hr : r.ServesWorkers)
    (haddress : Operation.addressOf operation = .ok (Server.workerAddress name)) :
    Preserves (Context.ReadyAt c₀ c (Server.workerAddress name)) (fun _ => True)
      (writeAttributeAct r operation) := by
  refine preserves_writeAttributeAct (fun _ hx => hx.1) fun key node entry hnode hentry _ => ?_
  have hwriter : entry.writer = some .writeKeepAlive :=
    hr.writers name node hnode _ (Dict.mem_of_get? hentry)
  rw [hwriter]
  refine preserves_addStepFirst fun x a slot ⟨hx, hready⟩ _ ha => ⟨hx, hready.queue ?_ true⟩
  obtain rfl := Except.ok.inj (haddress.symm.trans ha)
  exact .writeKeepAlive

theorem preserves_compositeOnWorkers (hr : r.ServesWorkers)
    (h : ∀ s ∈ Composite.stepsOf operation, Operation.OnWorkers a s) :
    Preserves (Context.ReadyAt c₀ c a) (fun _ => True) (Composite.run r operation) := by
  refine Composite.preserves_run (S := Step.OnModel) (fun _ hx => hx.1)
    (fun x step ⟨ha, hx⟩ hstep => ⟨ha, hx.queue hstep true⟩) (fun x ⟨ha, hx⟩ => ⟨ha, { hx with }⟩)
    (fun x own slots ⟨ha, hx⟩ => ⟨(x.currentAddress_complete _).trans ha, hx.report own slots⟩)
    (fun _ _ _ _ => .collect) fun step hstep name relative resolved hparse hresolve i => ?_
  exact hr.onModel (h step hstep) hparse hresolve (Operation.addressOf_set _ _)
    (Operation.stepsOf_set_address _ _) i

end Queuing

/-! ## Any step -/

section Works

variable {r : Registration} {c₀ : WorkerContainer} {s : Scene} {step : Step}
  (hr : r.ServesWorkers) (hregistration : s.plane.registration s.controller = r)
  (haddress : s.context.currentAddress = step.address)
include hr hregistration haddress

theorem Step.OnModel.works (hstage : s.context.stage = .model) (hstep : step.OnModel)
    (h : s.context.Ready c₀ s.plane.workers) :
    ∃ deed, step.handler.deed? step.operation = some deed ∧
      deed.Comes c₀ (fun _ t => t.context.Ready c₀ t.plane.workers) s := by
  have hglobal : ∀ {g : GlobalOperation} {operation : Value},
      Act.Preserves (Context.ReadyAt c₀ s.plane.workers s.context.currentAddress) (fun _ => True)
        (g.run r operation) → ∃ deed, (Handler.global g).deed? operation = some deed ∧
          deed.Comes c₀ (fun _ t => t.context.Ready c₀ t.plane.workers) s := by
    intro g operation hg
    refine ⟨_, rfl, ?_⟩
    have hready := (hg s.context ⟨rfl, h⟩).1.2
    rw [Deed.Comes, run_get, hregistration, Deed.run_act]
    generalize (g.run r operation).run.run s.context = result at hready ⊢
    obtain ⟨out, y⟩ := result
    cases out with
    | ok => exact hready
    | error e => exact hready.tracks.toUndoes
  cases hstep with
  | add => exact ⟨_, rfl, WorkerSteps.comes_add hstage haddress h⟩
  | remove => exact ⟨_, rfl, WorkerSteps.comes_remove hstage haddress h⟩
  | writeKeepAlive => exact ⟨_, rfl, WorkerSteps.comes_writeKeepAlive hstage haddress h⟩
  | write hoperation =>
    refine hglobal ?_
    rw [haddress]
    exact preserves_writeWorker hr hoperation
  | undefine hoperation =>
    refine hglobal ?_
    rw [haddress]
    refine preserves_writeWorker hr ?_
    rw [Operation.addressOf, Value.get, Value.get?_set, if_neg (by decide), Value.get?_set,
      if_neg (by decide)]
    exact hoperation
  | composite hsteps =>
    refine hglobal ?_
    rw [haddress]
    exact preserves_compositeOnWorkers hr hsteps
  | collect => exact ⟨_, rfl, Deed.comes_of_ok rfl { h with }⟩

/-- **A step that goes well** leaves its operation ready for the next one, and a step that fails
leaves everything to be undone. -/
theorem Step.works (hactive : ∃ a, s.context.active = some a ∧ a.completed = false)
    (hpassed : ∀ stage < s.context.stage, s.context.queues.get stage = [])
    (h : (s.context.putBack step).Ready c₀ s.plane.workers) :
    ∃ deed, step.handler.deed? step.operation = some deed ∧
      deed.Comes c₀ (fun _ t => t.context.Ready c₀ t.plane.workers) s := by
  cases hstage : s.context.stage with
  | model =>
    obtain ⟨hstep, hready⟩ := h.onModel hstage
    exact hstep.works hr hregistration haddress hstage hready
  | runtime =>
    have hkind : step.handler.IsRuntime := by
      have hruntime := h.runtime
      rw [Context.putBack, hstage] at hruntime
      exact (List.forall_mem_cons.mp hruntime).1
    cases hstep : step.handler <;> rw [hstep] at hkind <;> cases hkind
    · exact ⟨_, rfl, WorkerSteps.comes_start hstage hactive h hstep⟩
    · exact ⟨_, rfl, WorkerSteps.comes_stop hstage hactive h hstep⟩
    · exact ⟨_, rfl, WorkerSteps.comes_applyKeepAlive hstage hactive h hstep⟩
  | verify =>
    have hkind : step.handler.IsVerify := by
      have hverify := h.verify
      rw [Context.putBack, hstage] at hverify
      exact (List.forall_mem_cons.mp hverify).1
    have hruntime := hpassed .runtime (by rw [hstage]; decide)
    cases hstep : step.handler <;> rw [hstep] at hkind <;> cases hkind
    exact ⟨_, rfl, WorkerSteps.comes_confirm hstage hruntime h hstep⟩
  | done =>
    have hdone := h.done
    rw [Context.putBack, hstage] at hdone
    cases hdone

end Works

end ManagementPlane
