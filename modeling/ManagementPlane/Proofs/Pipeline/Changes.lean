import Mathlib.Logic.Relation
import ManagementPlane.Pipeline.Work

/-!
# Proofs/Pipeline/Changes — what the work of a step can change

Handlers, instructions and completions are programs over a scene, and each of them is a sequence of
elementary changes (`Scene.Change`).  That is shown once for every program (`perform_made`,
`deed?_made`, `runScript_does`); what a step cannot do is then read off the list of changes.

Two changes are told apart by their cause: only some instructions may set the failure of a slot or
change the state of the process, and `may` says which ones are around.
-/

namespace ManagementPlane

/-- An elementary change of a context. -/
inductive Context.Change (may : Instruction → Prop) : Context → Context → Prop
  /-- A step is queued, in a stage that is not over. -/
  | queue {x : Context} (stage : Stage) (step : Step) (first : Bool) (h : ¬ stage < x.stage) :
    Change may x { x with queues := x.queues.add stage step first }
  /-- The running step completes; only forwarded steps have a handle to decide. -/
  | complete {x : Context} (c : Completion) (h : c.handle? = none) : Change may x (x.complete c)
  | slot {x : Context} (i : Nat) (f : ResponseSlot → ResponseSlot)
      (h : ∀ s, (f s).failure = s.failure) : Change may x (x.modifySlot i f)
  | newSlot {x : Context} : Change may x { x with slots := x.slots ++ [{}] }
  | failSlot {x : Context} (label : String) (failure : Value) (h : may (.failSlot label failure)) :
    Change may x (x.modifySlot (x.labelled label) ({ · with failure := some failure }))
  | write {x : Context} {α : Type} (f : Resource → Except OperationError (α × Resource × Write))
      (h : x.stage = .model) :
    Change may x { x with transaction := (x.transaction.write f).2 }
  | rollbackOnly {x : Context} : Change may x { x with rollbackOnly := true }
  | notes {x : Context} (labels : Dict Nat) (attachments : Attachments)
      (streams : List ResultStream) : Change may x { x with labels, attachments, streams }

/-- An elementary change of a scene. -/
inductive Scene.Change (may : Instruction → Prop) : Scene → Scene → Prop
  | context {s : Scene} {x : Context} (h : s.context.Change may x) :
    Change may s { s with context := x }
  | notes {s : Scene} (log messages : List String) (workers : WorkerContainer)
      (counters : List Nat) (streams : Nat) :
    Change may s { s with plane := { s.plane with log, messages, workers, counters, streams } }
  | cancel {s : Scene} (c : Nat) : Change may s { s with plane := s.plane.cancel c }
  | report {s : Scene} (e : Nat) (m : Message) :
    Change may s { s with plane := s.plane.modifyExchange e (·.send (.message m)) }
  | process {s : Scene} (change : ProcessState.Change) (h : may (.process (some change))) :
    Change may s { s with plane := s.plane.changeProcess s.controller change }

/-- A sequence of changes. -/
def Context.Does (may : Instruction → Prop) : Context → Context → Prop :=
  Relation.ReflTransGen (Context.Change may)

@[inherit_doc Context.Does]
def Scene.Does (may : Instruction → Prop) : Scene → Scene → Prop :=
  Relation.ReflTransGen (Scene.Change may)

variable {may : Instruction → Prop}

/-- A single change is a sequence of changes. -/
theorem Context.Change.does {x y : Context} (h : x.Change may y) : x.Does may y := .single h

@[inherit_doc Context.Change.does]
theorem Scene.Change.does {s t : Scene} (h : s.Change may t) : s.Does may t := .single h

theorem Context.Change.mono {may' : Instruction → Prop} (hmay : ∀ i, may i → may' i)
    {x y : Context} (h : x.Change may y) : x.Change may' y := by
  cases h with
  | queue stage step first h => exact .queue stage step first h
  | complete c h => exact .complete c h
  | slot i f h => exact .slot i f h
  | newSlot => exact .newSlot
  | failSlot label failure h => exact .failSlot label failure (hmay _ h)
  | write f h => exact .write f h
  | rollbackOnly => exact .rollbackOnly
  | notes labels attachments streams => exact .notes labels attachments streams

/-- With more causes around, what was possible remains so. -/
theorem Scene.Does.mono {may' : Instruction → Prop} (hmay : ∀ i, may i → may' i) {s t : Scene}
    (h : s.Does may t) : s.Does may' t := by
  induction h with
  | refl => exact .refl
  | tail _ h ih =>
    refine ih.tail ?_
    cases h with
    | context h => exact .context (h.mono hmay)
    | notes log messages workers counters streams =>
      exact .notes log messages workers counters streams
    | cancel c => exact .cancel c
    | report e m => exact .report e m
    | process change h => exact .process change (hmay _ h)

/-- What is done to the context of a scene is done to the scene. -/
theorem Context.Does.scene {s : Scene} {y : Context} (h : s.context.Does may y) :
    s.Does may { s with context := y } := by
  induction h with
  | refl => exact .refl
  | tail _ h ih => exact ih.tail (.context h)

/-! ## Programs over a context -/

/-- A program that begins with a look at its state. -/
theorem run_get {σ α : Type} (k : σ → ExceptT OperationError (StateM σ) α) (x : σ) :
    (get >>= k).run.run x = (k x).run.run x := rfl

/-- **A step is accepted** unless its stage is over or it has no address, and then the queue of its
stage has it. -/
theorem Context.queueStep_eq_ok {x y : Context} {handler : Handler}
    {operation : Value} {stage : Stage} {slot : Nat} {first : Bool} :
    x.queueStep handler operation stage slot first = .ok y ↔ ¬ stage < x.stage ∧
      ∃ address, Operation.addressOf operation = .ok address ∧
        y = { x with
          queues := x.queues.add stage { handler, operation, address, slot } first } := by
  rw [Context.queueStep]
  split
  · next hover => exact ⟨nofun, fun h => absurd hover h.1⟩
  · next hstage =>
    rw [and_iff_right hstage]
    cases Operation.addressOf operation with
    | error e => exact ⟨nofun, nofun⟩
    | ok address =>
      refine ⟨fun h => ⟨address, rfl, (Except.ok.inj h).symm⟩, ?_⟩
      rintro ⟨_, haddress, rfl⟩
      obtain rfl := Except.ok.inj haddress
      rfl

namespace Act

variable {α β : Type}

/-- Whatever the act does is a sequence of changes, whether or not it succeeds. -/
def Made (may : Instruction → Prop) (f : Act α) : Prop := ∀ x : Context, x.Does may (f.run.run x).2

theorem made_pure (a : α) : Made may (pure a) := fun _ => .refl

theorem made_throw (e : OperationError) : Made (α := α) may (throw e) := fun _ => .refl

theorem made_get : Made may get := fun _ => .refl

theorem made_bind {f : Act α} {g : α → Act β} (hf : Made may f) (hg : ∀ a, Made may (g a)) :
    Made may (f >>= g) := by
  intro x
  have hfx := hf x
  show x.Does may (ExceptT.bindCont g (f.run.run x).1 |>.run (f.run.run x).2).2
  cases (f.run.run x).1 with
  | ok a => exact hfx.trans (hg a _)
  | error e => exact hfx

/-- A check that refuses first and goes on otherwise. -/
theorem made_when {p : Prop} [Decidable p] {e : OperationError} {f : PUnit → Act α}
    (hf : ∀ u, Made may (f u)) : Made may (if p then throw e >>= f else f ⟨⟩) := by
  split
  · exact made_bind (made_throw e) hf
  · exact hf ⟨⟩

/-- A check that goes on first and refuses otherwise. -/
theorem made_unless {p : Prop} [Decidable p] {e : OperationError} {f : PUnit → Act α}
    (hf : ∀ u, Made may (f u)) : Made may (if p then f ⟨⟩ else throw e >>= f) := by
  split
  · exact hf ⟨⟩
  · exact made_bind (made_throw e) hf

theorem made_modify {f : Context → Context} (h : ∀ x : Context, x.Does may (f x)) :
    Made may (modify f) := fun x => h x

theorem made_modifyGet {f : Context → α × Context} (h : ∀ x : Context, x.Does may (f x).2) :
    Made may (modifyGet f) := fun x => h x

/-- An attempt that fails changes nothing. -/
theorem run_attempt (f : Context → Except OperationError (α × Context)) (x : Context) :
    (attempt f).run.run x = match f x with
      | .ok (a, y) => (.ok a, y)
      | .error e => (.error e, x) := by
  show (attempt f) x = _
  unfold attempt
  cases h : f x with
  | ok p =>
    show (match f x with | .ok (a, y) => _ | .error e => _ : Act α) x = _
    rw [h]
    rfl
  | error e =>
    show (match f x with | .ok (a, y) => _ | .error e => _ : Act α) x = _
    rw [h]
    rfl

/-- An attempt is made of whatever it does where it succeeds. -/
theorem made_attempt {f : Context → Except OperationError (α × Context)}
    (h : ∀ (x : Context) a y, f x = .ok (a, y) → x.Does may y) : Made may (attempt f) := by
  intro x
  rw [run_attempt]
  split
  · rename_i a y hy
    exact h x a y hy
  · exact .refl

/-- **A step that is queued** is a change, and one that is refused is none. -/
theorem made_queue (handler : Handler) (operation : Value) (stage : Stage) (slot : Nat)
    (first : Bool) : Made may (queue handler operation stage slot first) := by
  refine made_attempt fun x a y hy => ?_
  cases hz : x.queueStep handler operation stage slot first with
  | error e =>
    rw [hz] at hy
    cases hy
  | ok z =>
    rw [hz] at hy
    obtain ⟨-, rfl⟩ := Prod.mk.inj (Except.ok.inj hy)
    obtain ⟨hstage, address, -, rfl⟩ := Context.queueStep_eq_ok.mp hz
    exact (Context.Change.queue stage _ first hstage).does

theorem made_addStep (handler : Handler) (operation : Value) (stage : Stage) :
    Made may (addStep handler operation stage) :=
  made_bind made_get fun _ => made_queue _ _ _ _ _

theorem made_addStepFirst (handler : Handler) (operation : Value) (stage : Stage) :
    Made may (addStepFirst handler operation stage) :=
  made_bind made_get fun _ => made_queue _ _ _ _ _

/-- A step that is not forwarded completes. -/
theorem made_complete {c : Completion} (hc : c.handle? = none) : Made may (complete c) :=
  made_modify fun _ => (Context.Change.complete c hc).does

/-- A result is a change of the slot of the running step. -/
theorem does_setResult (x : Context) (v : Value) : x.Does may (x.setResult v) :=
  (Context.Change.slot x.currentSlot ({ · with result := v }) fun _ => rfl).does

theorem made_setResult (v : Value) : Made may (setResult v) :=
  made_modify fun x => does_setResult x v

/-- A new slot comes behind all others. -/
theorem does_newSlot (x : Context) : x.Does may x.newSlot.2 := Context.Change.newSlot.does

theorem made_readAt (a : Address) : Made may (readAt a) := by
  refine made_bind made_get fun x => ?_
  split
  · exact made_pure _
  · exact made_throw _

theorem made_read : Made may read := made_bind made_get fun _ => made_readAt _

/-- In the first stage the transaction is written, whether or not that succeeds. -/
theorem run_onTransaction (what : String)
    (f : Transaction → Except OperationError α × Transaction) {x : Context} (h : x.stage = .model) :
    (onTransaction what f).run.run x
      = ((f x.transaction).1, { x with transaction := (f x.transaction).2 }) := by
  have hstage : x.requireModelStage what = .ok () := if_pos h
  unfold onTransaction
  rw [run_get, hstage]
  generalize f x.transaction = written
  obtain ⟨out, transaction⟩ := written
  cases out <;> rfl

/-- Past the first stage nothing is written. -/
theorem onTransaction_of_error {what : String}
    {f : Transaction → Except OperationError α × Transaction} {x : Context} {e : OperationError}
    (h : x.requireModelStage what = .error e) :
    (onTransaction what f).run.run x = (.error e, x) := by
  unfold onTransaction
  rw [run_get, h]
  rfl

/-- What is written is a change, if the write itself is one. -/
theorem made_onTransaction (what : String)
    {f : Transaction → Except OperationError α × Transaction}
    (h : ∀ x : Context, x.stage = .model →
      x.Does may { x with transaction := (f x.transaction).2 }) :
    Made may (onTransaction what f) := by
  intro x
  by_cases hstage : x.stage = .model
  · rw [run_onTransaction what f hstage]
    exact h x hstage
  · rw [onTransaction_of_error (if_neg hstage)]
    exact .refl

/-- A resource is updated in place. -/
theorem made_updateAt (a : Address) (f : Resource → Resource) : Made may (updateAt a f) :=
  made_onTransaction _ fun _ hstage => (Context.Change.write _ hstage).does

/-- A resource is created at any address but that of the root. -/
theorem made_createAt (a : Address) (r : Resource) : Made may (createAt a r) := by
  refine made_onTransaction _ fun x hstage => ?_
  rw [Transaction.create]
  split
  · exact .refl
  · exact (Context.Change.write _ hstage).does

/-- A resource is removed, unless it is the root. -/
theorem made_removeAt (a : Address) : Made may (removeAt a) := by
  refine made_onTransaction _ fun x hstage => ?_
  rw [Transaction.remove]
  split
  · exact .refl
  · exact (Context.Change.write _ hstage).does

end Act

/-! ## The global operations -/

open Act

/-- **A composite** allots its slots, queues its operations in front and completes. -/
theorem Composite.made_run (r : Registration) (operation : Value) :
    Made may (Composite.run r operation) := by
  have hallot : ∀ (ps : List Planned) (x : Context), x.Does may (allot ps x).2 := by
    intro ps
    induction ps with
    | nil => exact fun _ => .refl
    | cons p ps ih => exact fun x => (does_newSlot x).trans (ih _)
  have hqueue : ∀ ps : List (Planned × Nat), Made may (queueFront ps) := by
    intro ps
    induction ps with
    | nil => exact made_pure ()
    | cons p ps ih => exact made_bind ih fun _ => made_queue _ _ _ _ _
  refine made_bind made_get fun x => ?_
  dsimp only
  split
  · exact made_throw _
  · exact made_bind made_get fun _ => made_bind (made_modifyGet (hallot _)) fun _ =>
      made_bind (made_addStepFirst _ _ _) fun _ => made_bind (hqueue _) fun _ =>
        made_complete rfl

/-- The questions to the children get slots, and are queued in front. -/
theorem Delegation.made_queueAll (delegations : List Delegation) :
    Made may (queueAll delegations) := by
  have hallot : ∀ (ds : List Delegation) (x : Context), x.Does may (allot ds x).2 := by
    intro ds
    induction ds with
    | nil => exact fun _ => .refl
    | cons d ds ih => exact fun x => (does_newSlot x).trans (ih _)
  have hqueue : ∀ ds : List (Delegation × Nat), Made may (queueFront ds) := by
    intro ds
    induction ds with
    | nil => exact made_pure ()
    | cons d ds ih => exact made_bind ih fun _ => made_queue _ _ _ _ _
  rw [queueAll]
  split
  · exact made_pure ()
  · exact made_bind (made_modifyGet (hallot _)) fun _ => made_bind made_get fun _ =>
      made_bind (made_addStepFirst _ _ _) fun _ => hqueue _

/-- The answers of the children are spliced into the result, one by one. -/
theorem Delegation.does_splice (parts : List (List String × Nat)) (x : Context) :
    x.Does may (splice parts x) := by
  rw [splice]
  induction parts generalizing x with
  | nil => exact .refl
  | cons p parts ih => exact (does_setResult x _).trans (ih _)

namespace GlobalOperation

variable {α : Type}

/-- What was computed before, or why it could not be. -/
theorem made_orThrow (o : Except OperationError α) : Made may (orThrow o) := by
  cases o with
  | ok a => exact made_pure a
  | error e => exact made_throw e

/-- The definition of an attribute is looked up. -/
theorem made_attributeNamed (r : Registration) (name : String) :
    Made may (attributeNamed r name) := by
  refine made_bind made_get fun x => made_bind (made_orThrow _) fun node => ?_
  split
  · exact made_pure _
  · exact made_throw _

/-- An attribute is written in place, or a step of its writer is queued. -/
theorem made_writeAttributeAct (r : Registration) (operation : Value) :
    Made may (writeAttributeAct r operation) := by
  refine made_bind (made_orThrow _) fun name => made_bind made_get fun x =>
    made_bind (made_attributeNamed r name) fun entry => ?_
  dsimp only
  refine made_unless fun _ => made_when fun _ => made_bind (made_orThrow _) fun _ => ?_
  split
  · exact made_addStepFirst _ _ _
  · exact made_updateAt _ _

/-- **A global operation is a sequence of changes.** -/
theorem made_run (g : GlobalOperation) (r : Registration) (operation : Value) :
    Made may (g.run r operation) := by
  have throws : ∀ {α : Type} (o : Except OperationError α), Made may (orThrow o) :=
    fun o => made_orThrow o
  cases g with
  | readResource =>
    exact made_bind (throws _) fun _ => made_bind (throws _) fun _ => made_bind (throws _) fun _ =>
      made_bind made_get fun _ => made_bind (throws _) fun _ => made_bind made_read fun _ =>
        made_bind (made_setResult _) fun _ => Delegation.made_queueAll _
  | readAttribute =>
    refine made_bind (throws _) fun _ => made_bind (throws _) fun _ =>
      made_bind (made_attributeNamed r _) fun entry => ?_
    split
    · exact made_bind made_get fun _ => made_addStepFirst _ _ _
    · exact made_bind made_read fun _ => made_setResult _
  | writeAttribute => exact made_writeAttributeAct r operation
  | undefineAttribute => exact made_writeAttributeAct r _
  | readChildrenNames =>
    refine made_bind (throws _) fun _ => made_bind made_get fun _ =>
      made_bind (throws _) fun node => ?_
    dsimp only
    exact made_unless fun _ => made_bind made_read fun _ => made_setResult _
  | readChildrenTypes =>
    exact made_bind made_get fun _ => made_bind (throws _) fun _ => made_setResult _
  | readOperationNames => exact made_bind made_get fun _ => made_setResult _
  | readOperationDescription =>
    refine made_bind (throws _) fun _ => made_bind made_get fun _ => ?_
    dsimp only
    split
    · exact made_setResult _
    · exact made_throw _
  | readResourceDescription =>
    exact made_bind (throws _) fun _ => made_bind (throws _) fun _ => made_bind (throws _) fun _ =>
      made_bind made_get fun _ => made_bind (throws _) fun _ => made_bind (made_setResult _)
        fun _ => Delegation.made_queueAll _
  | composite => exact Composite.made_run r operation
  | validate =>
    show Made may (validateAct r operation)
    rw [validateAct]
    split
    · exact made_throw _
    · refine made_bind (throws _) fun p => made_bind (throws _) fun resolved => ?_
      split
      · exact throws _
      · exact made_bind made_get fun _ => made_addStepFirst _ _ _

end GlobalOperation

/-! ## Programs over a scene -/

namespace Deed

variable {α β : Type}

/-- Whatever the deed does is a sequence of changes, whether or not it succeeds. -/
def Made (may : Instruction → Prop) (d : Deed α) : Prop := ∀ s : Scene, s.Does may (d.run.run s).2

theorem made_pure (a : α) : Made may (pure a) := fun _ => .refl

theorem made_throw (e : OperationError) : Made (α := α) may (throw e) := fun _ => .refl

theorem made_get : Made may get := fun _ => .refl

theorem made_bind {d : Deed α} {g : α → Deed β} (hd : Made may d) (hg : ∀ a, Made may (g a)) :
    Made may (d >>= g) := by
  intro s
  have hs := hd s
  show s.Does may (ExceptT.bindCont g (d.run.run s).1 |>.run (d.run.run s).2).2
  cases (d.run.run s).1 with
  | ok a => exact hs.trans (hg a _)
  | error e => exact hs

theorem made_modify {f : Scene → Scene} (h : ∀ s : Scene, s.Does may (f s)) :
    Made may (modify f) := fun s => h s

/-- What is done to the context stays, even when it fails. -/
theorem run_act (f : Act α) (s : Scene) : (act f).run.run s
    = ((f.run.run s.context).1, { s with context := (f.run.run s.context).2 }) := by
  unfold act
  rw [run_get]
  generalize f.run.run s.context = done
  obtain ⟨out, context⟩ := done
  cases out <;> rfl

/-- What is done to the context alone. -/
theorem made_act {f : Act α} (h : Act.Made may f) : Made may (act f) := by
  intro s
  rw [run_act]
  exact (h s.context).scene

theorem made_orThrow (o : Except OperationError α) : Made may (orThrow o) := by
  cases o with
  | ok a => exact made_pure a
  | error e => exact made_throw e

theorem made_context : Made may context := made_bind made_get fun _ => made_pure _

theorem made_onContext {f : Context → Context} (h : ∀ x : Context, x.Does may (f x)) :
    Made may (onContext f) := made_modify fun s => (h s.context).scene

theorem made_setResult (f : Context → Value) :
    Made may (onContext fun x => x.setResult (f x)) :=
  made_onContext fun x => Act.does_setResult x (f x)

/-- Notes are what no other operation looks at. -/
theorem made_onPlane {f : Plane → Plane} (h : ∀ p, f p = { p with
      log := (f p).log, messages := (f p).messages, workers := (f p).workers
      counters := (f p).counters, streams := (f p).streams }) : Made may (onPlane f) := by
  refine made_modify fun s => ?_
  rw [h s.plane]
  exact (Scene.Change.notes _ _ _ _ _).does

theorem made_log (line : String) : Made may (log line) := made_onPlane fun _ => rfl

/-- The place that an instruction names is only looked up. -/
theorem made_target (named : Option Value) : Made may (target named) := by
  cases named with
  | some v => exact made_orThrow _
  | none => exact made_bind made_context fun _ => made_pure _

theorem made_resourceName : Made may resourceName := by
  refine made_bind made_context fun x => ?_
  split
  · exact made_pure _
  · exact made_throw _

/-- A stream is counted, and noted with the operation. -/
theorem made_attachStream (mime text : String) : Made may (attachStream mime text) := by
  intro s
  refine Relation.ReflTransGen.tail (.single (Scene.Change.notes s.plane.log s.plane.messages
    s.plane.workers s.plane.counters (s.plane.streams + 1))) ?_
  exact .context (.notes s.context.labels s.context.attachments _)

end Deed

open Deed

namespace WorkerSteps

/-- What is done to the workers is a note. -/
theorem made_onWorkers {α : Type}
    (f : WorkerContainer → Except WorkerError (α × WorkerContainer)) : Made may (onWorkers f) := by
  refine made_bind made_get fun s => ?_
  split
  · exact made_bind (made_onPlane fun _ => rfl) fun _ => made_pure _
  · exact made_throw _

theorem made_queueHere (name : String) (handler : Handler) (stage : Stage) :
    Made may (queueHere name handler stage) :=
  made_bind made_context fun _ => made_act (Act.made_addStep _ _ _)

/-- A worker is created in the model; to start and to confirm it are steps of later stages. -/
theorem made_add (attributes : List AttributeDefinition) (operation : Value) :
    Made may (add attributes operation) :=
  made_bind made_resourceName fun _ => made_bind (made_orThrow _) fun _ =>
    made_bind (made_orThrow _) fun _ => made_bind made_context fun _ =>
      made_bind (made_act (Act.made_createAt _ _)) fun _ =>
        made_bind (made_queueHere _ _ _) fun _ => made_queueHere _ _ _

/-- A worker is started, and a completion stands by to stop it. -/
theorem made_start (name : String) (k : KeepAlive) : Made may (start name k) :=
  made_bind (made_onWorkers _) fun _ => made_act (Act.made_complete rfl)

theorem made_confirm (name : String) : Made may (confirm name) := made_onWorkers _

/-- A worker is removed from the model; to stop it is a step of a later stage. -/
theorem made_remove : Made may remove :=
  made_bind made_resourceName fun _ => made_bind made_context fun _ =>
    made_bind (made_act (Act.made_removeAt _)) fun _ => made_queueHere _ _ _

/-- A worker that runs is stopped, and a completion stands by to restore it. -/
theorem made_stop (name : String) : Made may (stop name) := by
  refine made_bind made_get fun s => ?_
  split
  · exact made_bind (made_onPlane fun _ => rfl) fun _ => made_act (Act.made_complete rfl)
  · exact made_pure ()

/-- A keep-alive is written to the model; to apply it is a step of a later stage. -/
theorem made_writeKeepAlive (operation : Value) : Made may (writeKeepAlive operation) :=
  made_bind made_resourceName fun _ => made_bind (made_orThrow _) fun _ =>
    made_bind made_context fun _ => made_bind (made_act (Act.made_updateAt _ _)) fun _ =>
      made_queueHere _ _ _

/-- A worker gets its keep-alive, and a completion stands by to take it back. -/
theorem made_applyKeepAlive (name : String) (k : KeepAlive) : Made may (applyKeepAlive name k) :=
  made_bind (made_onWorkers _) fun _ => made_act (Act.made_complete rfl)

end WorkerSteps

/-! ## Scripts and handlers -/

/-- **An instruction is a sequence of changes**; only itself it has to be around for. -/
theorem Instruction.perform_made (operation : Value) (i : Instruction) :
    Made (· = i) (i.perform operation) := by
  have proceeds : ∀ {α : Type} {d : Deed α}, Made (· = i) d →
      Made (· = i) (d >>= fun _ => pure Effect.proceed) :=
    fun hd => made_bind hd fun _ => made_pure _
  cases i with
  | set target name value =>
    exact made_bind (made_target _) fun _ => proceeds (made_act (Act.made_updateAt _ _))
  | unset target name =>
    exact made_bind (made_target _) fun _ => proceeds (made_act (Act.made_updateAt _ _))
  | touch target =>
    exact made_bind (made_target _) fun _ => proceeds (made_act (Act.made_updateAt _ _))
  | create target resource =>
    exact made_bind (made_target _) fun _ => proceeds (made_act (Act.made_createAt _ _))
  | remove target =>
    exact made_bind (made_target _) fun _ => made_bind (made_act (Act.made_removeAt _)) fun _ =>
      proceeds (made_log _)
  | read target recursive =>
    exact made_bind (made_target _) fun _ => made_bind (made_act (Act.made_readAt _)) fun _ =>
      proceeds (made_log _)
  | snapshot => exact made_bind made_context fun _ => proceeds (made_log _)
  | acquire =>
    exact made_bind made_context fun _ => made_bind (made_orThrow _) fun _ => made_pure _
  | result value => exact proceeds (made_setResult fun _ => value)
  | resultOperation => exact proceeds (made_setResult fun _ => operation)
  | resultCancelled => exact made_bind made_get fun _ => proceeds (made_setResult fun _ => _)
  | resultPath path value => exact proceeds (made_setResult fun x => x.result.setPath path value)
  | showResult => exact made_bind made_context fun _ => proceeds (made_log _)
  | header name value =>
    exact proceeds (made_onContext fun x =>
      (Context.Change.slot x.currentSlot (·.setHeader name value) fun _ => rfl).does)
  | report message =>
    refine made_bind made_context fun x => proceeds ?_
    cases hsink : x.sink with
    | collect => exact made_onPlane fun _ => rfl
    | discard => exact made_onPlane fun _ => rfl
    | exchange e => exact made_modify fun s => (Scene.Change.report e message).does
  | slot label =>
    refine proceeds (made_onContext fun x => ?_)
    exact Relation.ReflTransGen.tail (Act.does_newSlot x) (.notes _ x.attachments x.streams)
  | showSlot label => exact made_bind made_context fun _ => proceeds (made_log _)
  | failSlot label failure =>
    refine proceeds (made_onContext fun x => ?_)
    exact Relation.ReflTransGen.single (.failSlot label failure rfl)
  | step stage body other first label =>
    refine made_bind made_context fun x => ?_
    dsimp only
    split <;> exact proceeds (made_act (Act.made_queue _ _ _ _ _))
  | complete label afterwards =>
    exact proceeds (made_onContext fun x => (Context.Change.complete _ rfl).does)
  | onRollback label afterwards =>
    exact proceeds (made_onContext fun x => (Context.Change.complete _ rfl).does)
  | rollbackOnly => exact proceeds (made_onContext fun x => Context.Change.rollbackOnly.does)
  | fail error => exact made_throw _
  | attempt body => exact made_pure _
  | wait ms what => exact made_pure _
  | nested operation => exact made_pure _
  | log text => exact proceeds (made_log _)
  | info => exact made_bind made_get fun _ => proceeds (made_log _)
  | settings => exact made_bind made_get fun _ => proceeds (made_log _)
  | operations => exact made_bind made_get fun _ => proceeds (made_log _)
  | input index => exact made_bind made_context fun _ => proceeds (made_log _)
  | stream mime text asResult =>
    refine made_bind (made_attachStream _ _) fun id => ?_
    dsimp only
    split
    · exact proceeds (made_setResult fun _ => _)
    · exact made_pure _
  | cancel =>
    refine made_bind made_context fun x => ?_
    dsimp only
    split
    · exact proceeds (made_modify fun s => (Scene.Change.cancel _).does)
    · exact made_pure _
  | process change =>
    cases change with
    | some change => exact fun s => Relation.ReflTransGen.single (.process change rfl)
    | none => exact made_bind made_get fun _ => made_pure _
  | note key value =>
    exact made_bind made_context fun _ => made_bind
      (made_onContext fun x => (Context.Change.notes x.labels _ x.streams).does) fun _ =>
        proceeds (made_log _)
  | showNote key => exact made_bind made_context fun _ => proceeds (made_log _)
  | unknown name => exact proceeds (made_log _)

/-- **A handler that does not wait is a sequence of changes**, none of them with a special cause. -/
theorem Handler.deed?_made {h : Handler} {operation : Value} {d : Deed Unit}
    (hd : h.deed? operation = some d) : Made (fun _ => False) d := by
  cases h with
  | script body => cases hd
  | forward proxy => cases hd
  | add attributes =>
    obtain rfl := Option.some.inj hd
    exact made_bind (made_orThrow _) fun _ => made_bind made_context fun _ =>
      made_act (Act.made_createAt _ _)
  | remove =>
    obtain rfl := Option.some.inj hd
    exact made_bind made_context fun _ => made_bind (made_act (Act.made_removeAt _)) fun _ =>
      made_pure _
  | global g =>
    obtain rfl := Option.some.inj hd
    exact made_bind made_get fun _ => made_act (g.made_run _ _)
  | splice parts =>
    obtain rfl := Option.some.inj hd
    exact made_onContext (Delegation.does_splice parts)
  | collect slots =>
    obtain rfl := Option.some.inj hd
    exact made_setResult fun x => Composite.results x slots
  | seed resources =>
    obtain rfl := Option.some.inj hd
    have hone : ∀ a r, Made (fun _ => False) (seedOne a r) := by
      intro a r
      refine made_bind made_context fun x => ?_
      split
      · exact made_pure ()
      · exact made_act (Act.made_createAt a r)
    induction resources with
    | nil => exact made_pure ()
    | cons r resources ih => exact made_bind (hone r.1 r.2) fun _ => ih rfl
  | countRuns counter =>
    obtain rfl := Option.some.inj hd
    exact made_bind made_get fun _ => made_bind (made_onPlane fun _ => rfl) fun _ =>
      made_setResult fun _ => _
  | addWorker attributes => exact Option.some.inj hd ▸ WorkerSteps.made_add _ _
  | startWorker name k => exact Option.some.inj hd ▸ WorkerSteps.made_start _ _
  | confirmWorker name => exact Option.some.inj hd ▸ WorkerSteps.made_confirm _
  | removeWorker => exact Option.some.inj hd ▸ WorkerSteps.made_remove
  | stopWorker name => exact Option.some.inj hd ▸ WorkerSteps.made_stop _
  | writeKeepAlive => exact Option.some.inj hd ▸ WorkerSteps.made_writeKeepAlive _
  | applyKeepAlive name k => exact Option.some.inj hd ▸ WorkerSteps.made_applyKeepAlive _ _

/-- **What a completion does after its outcome is logged is a sequence of changes.** -/
theorem Completion.runScript_does (body : Script) (s : Scene) :
    s.Does (· ∈ body) (Completion.runScript body s) := by
  have hmono : ∀ {i : Instruction} {body : Script} {s t : Scene}, i ∈ body → s.Does (· = i) t →
      s.Does (· ∈ body) t := fun hi h => h.mono fun j hj => hj ▸ hi
  suffices H : ∀ rest, (∀ i ∈ rest, i ∈ body) → s.Does (· ∈ body) (Completion.runScript rest s) from
    H body fun _ h => h
  intro rest hrest
  induction rest generalizing s with
  | nil => exact .refl
  | cons i rest ih =>
    have hi := hmono (hrest i List.mem_cons_self) (i.perform_made .undefined s)
    have hrest' := fun j hj => hrest j (List.mem_cons_of_mem _ hj)
    rw [Completion.runScript]
    generalize ((i.perform .undefined).run).run s = out at hi ⊢
    obtain ⟨out, t⟩ := out
    dsimp only at hi ⊢
    cases out with
    | ok a => exact hi.trans (ih t hrest')
    | error e =>
      refine (hi.tail ?_).trans (ih _ hrest')
      exact .notes _ t.plane.messages t.plane.workers t.plane.counters t.plane.streams

end ManagementPlane
