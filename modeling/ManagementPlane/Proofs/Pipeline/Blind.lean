import ManagementPlane.Proofs.Pipeline.Frame

/-!
# Proofs/Pipeline/Blind — what the work of a step does not look at

Two planes are `Plane.Alike` when they differ at most in whether one cancellation was made.  Only
two instructions can tell them apart, those that ask whether the operation is cancelled, and they
can do so only in an operation that has this cancellation (`Instruction.alike_perform`).  Whatever
else a step or a completion does comes to the same in alike surroundings, and leaves alike
surroundings behind (`Deed.Blind`).
-/

namespace ManagementPlane

namespace Plane

/-- The plane with the cancellation `c` as `b` says. -/
def veil (p : Plane) (c : Nat) (b : Bool) : Plane :=
  { p with cancellations := p.cancellations.set c b }

/-- The planes differ at most in the cancellation `c`. -/
def Alike (c : Nat) (p q : Plane) : Prop := ∃ b, q = p.veil c b

variable {c : Nat} {p q r : Plane}

/-! ## Planes that differ in a cancellation -/

/-- To set a cancellation to what it is changes nothing. -/
theorem veil_self (p : Plane) (c : Nat) : p.veil c (p.isCancelled (some c)) = p := by
  have hset : p.cancellations.set c (p.isCancelled (some c)) = p.cancellations := by
    refine List.ext_getElem? fun d => ?_
    rw [List.getElem?_set]
    split
    · next h =>
      subst h
      split
      · next hc => rw [isCancelled, List.getElem?_eq_getElem hc, Option.getD_some]
      · next hc => rw [List.getElem?_eq_none (Nat.le_of_not_lt hc)]
    · rfl
  rw [veil, hset]

/-- What a cancellation was set to before does not matter. -/
theorem veil_veil (p : Plane) (c : Nat) (b b' : Bool) :
    (p.veil c b).veil c b' = p.veil c b' := by
  rw [veil, veil, List.set_set]
  rfl

/-- Neither of the two planes comes first. -/
theorem Alike.symm (h : p.Alike c q) : q.Alike c p := by
  obtain ⟨b, rfl⟩ := h
  exact ⟨_, by rw [veil_veil, veil_self]⟩

/-- Whichever of the two is taken, the other one is it with its own cancellation. -/
theorem Alike.eq_veil (h : p.Alike c q) : q = p.veil c (q.isCancelled (some c)) := by
  obtain ⟨b, rfl⟩ := h
  exact (veil_self _ c).symm.trans (veil_veil ..)

/-- A cancellation that exists is what it was set to. -/
theorem isCancelled_veil (p : Plane) (b : Bool) (hc : c < p.cancellations.length) :
    (p.veil c b).isCancelled (some c) = b := by
  show ((p.cancellations.set c b)[c]?).getD false = b
  rw [List.getElem?_set_self hc]
  rfl

/-- What was never created is never made. -/
theorem isCancelled_of_le (hc : p.cancellations.length ≤ c) : p.isCancelled (some c) = false := by
  rw [isCancelled, List.getElem?_eq_none hc]
  rfl

/-- To make a cancellation is the difference that is allowed. -/
theorem alike_cancel (p : Plane) (c : Nat) : p.Alike c (p.cancel c) := ⟨true, rfl⟩

/-- What neither reads the cancellations nor changes them. -/
theorem Alike.map (h : p.Alike c q) (f : Plane → Plane)
    (hf : ∀ p b, f (p.veil c b) = (f p).veil c b) : (f p).Alike c (f q) := by
  obtain ⟨b, rfl⟩ := h
  exact ⟨b, hf p b⟩

/-- What does not read the cancellations. -/
theorem Alike.read {α : Type} (h : p.Alike c q) (f : Plane → α)
    (hf : ∀ p b, f (p.veil c b) = f p) : f q = f p := by
  obtain ⟨b, rfl⟩ := h
  exact hf p b

/-- Whoever has another cancellation sees no difference. -/
theorem Alike.isCancelled (h : p.Alike c q) {d : Option Nat} (hd : d ≠ some c) :
    q.isCancelled d = p.isCancelled d := by
  obtain ⟨b, rfl⟩ := h
  cases d with
  | none => rfl
  | some d =>
    have hne : c ≠ d := fun heq => hd (congrArg some heq.symm)
    show ((p.cancellations.set c b)[d]?).getD false = _
    rw [List.getElem?_set_ne hne]
    rfl

/-- And it is not overtaken in one of them only. -/
theorem Alike.overtakes (h : p.Alike c q) {d : Option Nat} (hd : d ≠ some c) :
    q.overtakes d = p.overtakes d := by
  have hglance : q.glance = p.glance := h.read Plane.glance fun _ _ => rfl
  rw [Plane.overtakes, Plane.overtakes, hglance, h.isCancelled hd]

/-- To make a cancellation, be it this one or another, leaves at most the same difference. -/
theorem Alike.cancel (h : p.Alike c q) (d : Nat) : (p.cancel d).Alike c (q.cancel d) := by
  obtain ⟨b, rfl⟩ := h
  by_cases hd : d = c
  · subst hd
    refine ⟨true, ?_⟩
    show (p.veil d b).cancel d = _
    rw [Plane.cancel, veil, veil, Plane.cancel, List.set_set, List.set_set]
  · refine ⟨b, ?_⟩
    rw [Plane.cancel, veil, veil, Plane.cancel, List.set_comm _ _ (Ne.symm hd)]

section Reading

variable (h : p.Alike c q)

include h

theorem Alike.now : q.now = p.now := h.read Plane.now fun _ _ => rfl

theorem Alike.controller (k : Nat) : q.controller k = p.controller k :=
  h.read (Plane.controller · k) fun _ _ => rfl

theorem Alike.tree (k : Nat) : q.tree k = p.tree k := h.read (Plane.tree · k) fun _ _ => rfl

theorem Alike.settings (k : Nat) : q.settings k = p.settings k :=
  h.read (Plane.settings · k) fun _ _ => rfl

theorem Alike.registration (k : Nat) : q.registration k = p.registration k :=
  h.read (Plane.registration · k) fun _ _ => rfl

theorem Alike.handle (i : Nat) : q.handle i = p.handle i :=
  h.read (Plane.handle · i) fun _ _ => rfl

theorem Alike.forward (f : Nat) : q.forward f = p.forward f :=
  h.read (Plane.forward · f) fun _ _ => rfl

theorem Alike.link (l : Nat) : q.link l = p.link l := h.read (Plane.link · l) fun _ _ => rfl

theorem Alike.exchange (e : Nat) : q.exchange e = p.exchange e :=
  h.read (Plane.exchange · e) fun _ _ => rfl

theorem Alike.actor (a : Nat) : q.actor a = p.actor a := h.read (Plane.actor · a) fun _ _ => rfl

theorem Alike.reply (i : Nat) : q.reply i = p.reply i := h.read (Plane.reply · i) fun _ _ => rfl

theorem Alike.workers : q.workers = p.workers := h.read Plane.workers fun _ _ => rfl

theorem Alike.writers : q.writers = p.writers := h.read Plane.writers fun _ _ => rfl

theorem Alike.finish (k : Nat) (response : Value) : q.finish k response = p.finish k response :=
  h.read (Plane.finish · k response) fun _ _ => rfl

/-! ## Handles, reports and channels -/

theorem Alike.writeLog (line : String) : (p.writeLog line).Alike c (q.writeLog line) :=
  h.map (Plane.writeLog · line) fun _ _ => rfl

theorem Alike.report (sink : Sink) (m : Message) : (p.report sink m).Alike c (q.report sink m) := by
  cases sink <;> exact h.map (Plane.report · _ m) fun _ _ => rfl

theorem Alike.modifyHandle (i : Nat) (g : Prepared → Prepared) :
    (p.modifyHandle i g).Alike c (q.modifyHandle i g) :=
  h.map (Plane.modifyHandle · i g) fun _ _ => rfl

theorem Alike.modifyForward (f : Nat) (g : Forward → Forward) :
    (p.modifyForward f g).Alike c (q.modifyForward f g) :=
  h.map (Plane.modifyForward · f g) fun _ _ => rfl

theorem Alike.modifyLink (l : Nat) (g : Link → Link) :
    (p.modifyLink l g).Alike c (q.modifyLink l g) :=
  h.map (Plane.modifyLink · l g) fun _ _ => rfl

theorem Alike.modifyExchange (e : Nat) (g : Exchange → Exchange) :
    (p.modifyExchange e g).Alike c (q.modifyExchange e g) :=
  h.map (Plane.modifyExchange · e g) fun _ _ => rfl

theorem Alike.modifyActor (a : Nat) (g : Actor → Actor) :
    (p.modifyActor a g).Alike c (q.modifyActor a g) :=
  h.map (Plane.modifyActor · a g) fun _ _ => rfl

theorem Alike.modifyTicket (t : Nat) (g : Ticket → Ticket) :
    (p.modifyTicket t g).Alike c (q.modifyTicket t g) :=
  h.map (Plane.modifyTicket · t g) fun _ _ => rfl

theorem Alike.setTree (k : Nat) (t : Tree) : (p.setTree k t).Alike c (q.setTree k t) :=
  h.map (Plane.setTree · k t) fun _ _ => rfl

theorem Alike.changeProcess (k : Nat) (change : ProcessState.Change) :
    (p.changeProcess k change).Alike c (q.changeProcess k change) :=
  h.map (Plane.changeProcess · k change) fun _ _ => rfl

/-- A new handle has the same number. -/
theorem Alike.newHandle (record : Prepared) :
    (q.newHandle record).1 = (p.newHandle record).1 ∧
      (p.newHandle record).2.Alike c (q.newHandle record).2 :=
  ⟨h.read (fun p => (p.newHandle record).1) fun _ _ => rfl,
    h.map (fun p => (p.newHandle record).2) fun _ _ => rfl⟩

/-- A decision is accepted in both planes, or refused in both. -/
theorem Alike.decide (i : Nat) (d : Decision) :
    (q.decide i d).1 = (p.decide i d).1 ∧ (p.decide i d).2.Alike c (q.decide i d).2 :=
  ⟨h.read (fun p => (p.decide i d).1) fun _ _ => rfl,
    h.map (fun p => (p.decide i d).2) fun _ _ => rfl⟩

theorem Alike.decideAndDrop (i : Nat) (d : Decision) :
    (p.decideAndDrop i d).Alike c (q.decideAndDrop i d) :=
  h.map (Plane.decideAndDrop · i d) fun _ _ => rfl

theorem Alike.letGo (i : Option Nat) : (p.letGo i).Alike c (q.letGo i) := by
  cases i with
  | some i => exact h.modifyHandle i _
  | none => exact h

/-- Whether an outcome is still awaited can be read off the forwarded step. -/
theorem Alike.reportOutcome (f : Nat) (o : Outcome) :
    (p.reportOutcome f o).Alike c (q.reportOutcome f o) := by
  have hnoted := h.modifyForward f fun _ => ((p.forward f).report o).2
  rw [Plane.reportOutcome, Plane.reportOutcome, h.forward]
  dsimp only
  cases o.handle? with
  | none => exact hnoted
  | some i =>
    dsimp only
    split
    · exact hnoted
    · exact hnoted.decideAndDrop i .rollback

theorem Alike.failForward (f : Nat) (response : Value) :
    (p.failForward f response).Alike c (q.failForward f response) :=
  (h.reportOutcome f _).modifyForward f _

theorem Alike.completeForward (f : Nat) (response : Value) :
    (p.completeForward f response).Alike c (q.completeForward f response) :=
  h.modifyForward f _

/-- A request is put into the same place of the queue. -/
theorem Alike.send (a : Nat) (r : ActorRequest) :
    (q.send a r).1 = (p.send a r).1 ∧ (p.send a r).2.Alike c (q.send a r).2 :=
  ⟨h.read (fun p => (p.send a r).1) fun _ _ => rfl,
    h.map (fun p => (p.send a r).2) fun _ _ => rfl⟩

end Reading

/-- Change after change. -/
theorem alike_foldl {α : Type} {f : Plane → α → Plane}
    (hf : ∀ {p q : Plane}, p.Alike c q → ∀ a, (f p a).Alike c (f q a)) (l : List α)
    (h : p.Alike c q) : (l.foldl f p).Alike c (l.foldl f q) := by
  induction l generalizing p q with
  | nil => exact h
  | cons a l ih => exact ih (hf h a)

end Plane

/-! ## Programs over a scene -/

/-- The same operation in surroundings that are alike. -/
structure Scene.Alike (c : Nat) (s t : Scene) : Prop where
  plane : s.plane.Alike c t.plane
  controller : t.controller = s.controller
  context : t.context = s.context

/-- An operation with another cancellation cannot tell that it is cancelled in one of them only. -/
theorem Scene.Alike.info {c : Nat} {s t : Scene} (h : s.Alike c t)
    (hother : s.context.input.cancellation ≠ some c) : t.info = s.info := by
  have hstate : t.plane.processState s.controller = s.plane.processState s.controller :=
    h.plane.read (Plane.processState · s.controller) fun _ _ => rfl
  unfold Scene.info
  dsimp only
  rw [h.context, h.controller, h.plane.isCancelled hother, hstate]

namespace Deed

variable {c : Nat} {α β : Type}

/-- **The deed cannot tell alike surroundings apart.** -/
def Blind (c : Nat) (d : Deed α) : Prop := ∀ s t : Scene, s.Alike c t →
  (d.run.run t).1 = (d.run.run s).1 ∧ (d.run.run s).2.Alike c (d.run.run t).2

theorem blind_pure (a : α) : Blind c (pure a) := fun _ _ h => ⟨rfl, h⟩

theorem blind_throw (e : OperationError) : Blind (α := α) c (throw e) := fun _ _ h => ⟨rfl, h⟩

/-- What is blind at every step is blind. -/
theorem blind_bind {d : Deed α} {g : α → Deed β} (hd : Blind c d) (hg : ∀ a, Blind c (g a)) :
    Blind c (d >>= g) := by
  intro s t h
  obtain ⟨hout, halike⟩ := hd s t h
  show (ExceptT.bindCont g (d.run.run t).1 |>.run (d.run.run t).2).1 =
      (ExceptT.bindCont g (d.run.run s).1 |>.run (d.run.run s).2).1 ∧
    (ExceptT.bindCont g (d.run.run s).1 |>.run (d.run.run s).2).2.Alike c
      (ExceptT.bindCont g (d.run.run t).1 |>.run (d.run.run t).2).2
  rw [hout]
  cases (d.run.run s).1 with
  | ok a => exact hg a _ _ halike
  | error e => exact ⟨rfl, halike⟩

/-- A deed that looks at its surroundings, but only at what is the same. -/
theorem blind_get {f : Scene → Deed β} (hf : ∀ s t, s.Alike c t → f t = f s)
    (hblind : ∀ s, Blind c (f s)) : Blind c (get >>= f) := by
  intro s t h
  show ((f t).run.run t).1 = ((f s).run.run s).1 ∧
    ((f s).run.run s).2.Alike c ((f t).run.run t).2
  rw [hf s t h]
  exact hblind s s t h

/-- What looks at the context only. -/
theorem blind_act (f : Act α) : Blind c (act f) := by
  intro s t h
  rw [run_act, run_act, h.context]
  exact ⟨rfl, h.plane, h.controller, rfl⟩

theorem blind_orThrow (o : Except OperationError α) : Blind c (orThrow o) := by
  cases o with
  | ok a => exact blind_pure a
  | error e => exact blind_throw e

theorem blind_context : Blind c context := fun _ _ h => ⟨congrArg Except.ok h.context, h⟩

theorem blind_onContext (f : Context → Context) : Blind c (onContext f) :=
  fun _ _ h => ⟨rfl, h.plane, h.controller, congrArg f h.context⟩

/-- A change of the plane that goes by what is the same. -/
theorem blind_onPlane {f : Plane → Plane} (hf : ∀ {p q}, Plane.Alike c p q → (f p).Alike c (f q)) :
    Blind c (onPlane f) := fun _ _ h => ⟨rfl, hf h.plane, h.controller, h.context⟩

theorem blind_log (line : String) : Blind c (log line) := blind_onPlane fun h => h.writeLog line

/-- A line about what is the same goes to the log. -/
theorem blind_logging {line : Scene → String} (hline : ∀ s t, s.Alike c t → line t = line s) :
    Blind c (do log (line (← get)); return Effect.proceed) :=
  blind_get (fun s t h => by rw [hline s t h]) fun s =>
    blind_bind (blind_log _) fun _ => blind_pure _

/-- The place that an instruction names, or else that of the operation. -/
theorem blind_target (named : Option Value) : Blind c (target named) := by
  cases named with
  | some v => exact blind_orThrow _
  | none => exact blind_bind blind_context fun _ => blind_pure _

theorem blind_resourceName : Blind c resourceName := by
  refine blind_bind blind_context fun x => ?_
  split
  · exact blind_pure _
  · exact blind_throw _

/-- Streams are numbered in order, whoever is cancelled. -/
theorem blind_attachStream (mime text : String) : Blind c (attachStream mime text) := by
  intro s t h
  have hstreams : t.plane.streams = s.plane.streams := h.plane.read Plane.streams fun _ _ => rfl
  refine ⟨?_, ?_, h.controller, ?_⟩
  · show Except.ok ("stream-" ++ toString t.plane.streams) = _
    rw [hstreams]
    rfl
  · exact h.plane.map (fun p => { p with streams := p.streams + 1 }) fun _ _ => rfl
  · show { t.context with streams := t.context.streams ++
      [{ id := "stream-" ++ toString t.plane.streams, mime, text : ResultStream }] } = _
    rw [hstreams, h.context]
    rfl

end Deed

open Deed

namespace WorkerSteps

variable {c : Nat}

/-- What goes by the workers only. -/
theorem blind_onWorkers {α : Type}
    (f : WorkerContainer → Except WorkerError (α × WorkerContainer)) : Blind c (onWorkers f) := by
  refine blind_get (fun s t h => by rw [h.plane.workers]) fun s => ?_
  split
  · next a workers _ =>
    refine blind_bind (blind_onPlane fun h => ?_) fun _ => blind_pure a
    exact h.map ({ · with workers }) fun _ _ => rfl
  · exact blind_throw _

theorem blind_queueHere (name : String) (handler : Handler) (stage : Stage) :
    Blind c (queueHere name handler stage) := blind_bind blind_context fun _ => blind_act _

/-- A worker is added to the model, and what starts it is queued. -/
theorem blind_add (attributes : List AttributeDefinition) (operation : Value) :
    Blind c (add attributes operation) :=
  blind_bind blind_resourceName fun _ => blind_bind (blind_orThrow _) fun _ =>
    blind_bind (blind_orThrow _) fun _ => blind_bind blind_context fun _ =>
      blind_bind (blind_act _) fun _ => blind_bind (blind_queueHere _ _ _) fun _ =>
        blind_queueHere _ _ _

theorem blind_start (name : String) (k : KeepAlive) : Blind c (start name k) :=
  blind_bind (blind_onWorkers _) fun _ => blind_act _

theorem blind_confirm (name : String) : Blind c (confirm name) := blind_onWorkers _

/-- A worker is removed from the model, and what stops it is queued. -/
theorem blind_remove : Blind c remove :=
  blind_bind blind_resourceName fun _ => blind_bind blind_context fun _ =>
    blind_bind (blind_act _) fun _ => blind_queueHere _ _ _

/-- A worker that runs is stopped, and another one left alone. -/
theorem blind_stop (name : String) : Blind c (stop name) := by
  refine blind_get (fun s t h => by rw [h.plane.workers]) fun s => ?_
  split
  · refine blind_bind (blind_onPlane fun h => ?_) fun _ => blind_act _
    exact h.map (fun p => { p with workers := p.workers.stop name }) fun _ _ => rfl
  · exact blind_pure ()

/-- A keep-alive is written to the model, and what applies it is queued. -/
theorem blind_writeKeepAlive (operation : Value) : Blind c (writeKeepAlive operation) :=
  blind_bind blind_resourceName fun _ => blind_bind (blind_orThrow _) fun _ =>
    blind_bind blind_context fun _ => blind_bind (blind_act _) fun _ => blind_queueHere _ _ _

theorem blind_applyKeepAlive (name : String) (k : KeepAlive) : Blind c (applyKeepAlive name k) :=
  blind_bind (blind_onWorkers _) fun _ => blind_act _

end WorkerSteps

/-! ## Scripts and handlers -/

/-- Whether the instruction does something else than to ask if the operation is cancelled. -/
def Instruction.isDiscreet : Instruction → Bool
  | info | resultCancelled => false
  | _ => true

/-- **No discreet instruction tells alike surroundings apart.** -/
theorem Instruction.perform_blind (c : Nat) (operation : Value) (i : Instruction)
    (hi : i.isDiscreet = true) : Blind c (i.perform operation) := by
  have proceeds : ∀ {α : Type} {d : Deed α}, Blind c d →
      Blind c (d >>= fun _ => pure Effect.proceed) :=
    fun hd => blind_bind hd fun _ => blind_pure _
  cases i with
  | set | unset | touch | create =>
    exact blind_bind (blind_target _) fun _ => proceeds (blind_act _)
  | remove | read =>
    exact blind_bind (blind_target _) fun _ => blind_bind (blind_act _) fun _ =>
      proceeds (blind_log _)
  | snapshot | showResult | showSlot | input | showNote =>
    exact blind_bind blind_context fun _ => proceeds (blind_log _)
  | acquire =>
    exact blind_bind blind_context fun _ => blind_bind (blind_orThrow _) fun _ => blind_pure _
  | result | resultOperation | resultPath | header | slot | failSlot | complete | onRollback |
      rollbackOnly =>
    exact proceeds (blind_onContext _)
  | report message =>
    exact blind_bind blind_context fun x =>
      proceeds (blind_onPlane fun h => h.report x.sink message)
  | step stage body other first label =>
    refine blind_bind blind_context fun x => ?_
    dsimp only
    split <;> exact proceeds (blind_act _)
  | fail error => exact blind_throw _
  | attempt | wait | nested => exact blind_pure _
  | log | unknown => exact proceeds (blind_log _)
  | info | resultCancelled => cases hi
  | settings =>
    refine blind_logging fun s t h => ?_
    rw [Scene.limits, Scene.limits, h.controller, h.plane.settings]
  | operations =>
    refine blind_logging fun s t h => ?_
    rw [Scene.operations, Scene.operations, h.context, h.controller, h.plane.registration]
  | stream mime text asResult =>
    refine blind_bind (blind_attachStream _ _) fun id => ?_
    dsimp only
    split
    · exact proceeds (blind_onContext _)
    · exact blind_pure _
  | cancel =>
    refine blind_bind blind_context fun x => ?_
    dsimp only
    split
    · next d _ => exact proceeds (blind_onPlane fun h => h.cancel d)
    · exact blind_pure _
  | process change =>
    refine blind_get (fun s t h => by rw [h.controller]) fun s => ?_
    cases change with
    | some change => exact proceeds (blind_onPlane fun h => h.changeProcess _ change)
    | none => exact blind_pure _
  | note key value =>
    exact blind_bind blind_context fun _ => blind_bind (blind_onContext _) fun _ =>
      proceeds (blind_log _)

/-- **What an instruction does with the cancellation and without it**: the same, unless it is the
cancellation of its own operation for which it asks. -/
theorem Instruction.alike_perform {c : Nat} {s t : Scene} (operation : Value) (i : Instruction)
    (h : s.Alike c t)
    (hi : s.context.input.cancellation = some c → i.isDiscreet = true) :
    ((i.perform operation).run.run t).1 = ((i.perform operation).run.run s).1 ∧
      ((i.perform operation).run.run s).2.Alike c ((i.perform operation).run.run t).2 := by
  by_cases hown : s.context.input.cancellation = some c
  · exact i.perform_blind c operation (hi hown) s t h
  · cases i with
    | info =>
      show (Except.ok Effect.proceed : Except OperationError Effect) = .ok .proceed ∧
        Scene.Alike c { s with plane := s.plane.writeLog s.info }
          { t with plane := t.plane.writeLog t.info }
      rw [h.info hown]
      exact ⟨rfl, h.plane.writeLog _, h.controller, h.context⟩
    | resultCancelled =>
      have hasked : t.plane.isCancelled t.context.input.cancellation =
          s.plane.isCancelled s.context.input.cancellation := by
        rw [h.context, h.plane.isCancelled hown]
      refine ⟨rfl, h.plane, h.controller, ?_⟩
      show t.context.setResult (.boolean (t.plane.isCancelled t.context.input.cancellation)) = _
      rw [hasked, h.context]
      rfl
    | _ => exact Instruction.perform_blind c operation _ rfl s t h

/-- **No handler that does not wait tells alike surroundings apart.** -/
theorem Handler.deed?_blind (c : Nat) {h : Handler} {operation : Value} {d : Deed Unit}
    (hd : h.deed? operation = some d) : Blind c d := by
  cases h with
  | script | forward => cases hd
  | add attributes =>
    obtain rfl := Option.some.inj hd
    exact blind_bind (blind_orThrow _) fun _ => blind_bind blind_context fun _ => blind_act _
  | remove =>
    obtain rfl := Option.some.inj hd
    exact blind_bind blind_context fun _ => blind_bind (blind_act _) fun _ => blind_pure _
  | global g =>
    obtain rfl := Option.some.inj hd
    exact blind_get (fun s t h => by rw [h.controller, h.plane.registration]) fun _ => blind_act _
  | splice | collect =>
    obtain rfl := Option.some.inj hd
    exact blind_onContext _
  | seed resources =>
    obtain rfl := Option.some.inj hd
    have hone : ∀ a r, Blind c (seedOne a r) := by
      intro a r
      refine blind_bind blind_context fun x => ?_
      split
      · exact blind_pure ()
      · exact blind_act _
    induction resources with
    | nil => exact blind_pure ()
    | cons r resources ih => exact blind_bind (hone r.1 r.2) fun _ => ih rfl
  | countRuns counter =>
    obtain rfl := Option.some.inj hd
    refine blind_get (fun s t h => ?_) fun s => ?_
    · have hcounters : t.plane.counters = s.plane.counters :=
        h.plane.read Plane.counters fun _ _ => rfl
      rw [hcounters]
    · refine blind_bind (blind_onPlane fun h => ?_) fun _ => blind_onContext _
      exact h.map (fun p => { p with counters := p.counters.set counter _ }) fun _ _ => rfl
  | addWorker attributes => exact Option.some.inj hd ▸ WorkerSteps.blind_add _ _
  | startWorker name k => exact Option.some.inj hd ▸ WorkerSteps.blind_start _ _
  | confirmWorker name => exact Option.some.inj hd ▸ WorkerSteps.blind_confirm _
  | removeWorker => exact Option.some.inj hd ▸ WorkerSteps.blind_remove
  | stopWorker name => exact Option.some.inj hd ▸ WorkerSteps.blind_stop _
  | writeKeepAlive => exact Option.some.inj hd ▸ WorkerSteps.blind_writeKeepAlive _
  | applyKeepAlive name k => exact Option.some.inj hd ▸ WorkerSteps.blind_applyKeepAlive _ _

/-! ## Completions -/

variable {c : Nat} {s t : Scene}

/-- Whether the completion does something else than to ask if its operation is cancelled. -/
def Completion.isDiscreet : Completion → Bool
  | script _ _ body => body.all Instruction.isDiscreet
  | _ => true

/-- The instructions of a completion, of which one that fails only leaves a line in the log. -/
theorem Completion.alike_runScript (body : Script) (h : s.Alike c t)
    (hbody : s.context.input.cancellation = some c → ∀ i ∈ body, i.isDiscreet = true) :
    (runScript body s).Alike c (runScript body t) := by
  induction body generalizing s t with
  | nil => exact h
  | cons i rest ih =>
    obtain ⟨hout, halike⟩ := i.alike_perform .undefined h fun hown =>
      hbody hown i List.mem_cons_self
    -- the rest has the same cancellation
    have hinput := (i.perform_made .undefined s).context.worked.input
    rw [runScript, runScript]
    generalize ((i.perform .undefined).run).run s = before at hout halike hinput ⊢
    generalize ((i.perform .undefined).run).run t = after at hout halike ⊢
    obtain ⟨out, u⟩ := before
    obtain ⟨out', u'⟩ := after
    obtain rfl : out' = out := hout
    have hrest : u.context.input.cancellation = some c → ∀ i ∈ rest, i.isDiscreet = true :=
      fun hown i hi => hbody (hinput ▸ hown) i (List.mem_cons_of_mem _ hi)
    cases out' with
    | ok _ => exact ih halike hrest
    | error e => exact ih ⟨halike.plane.writeLog _, halike.controller, halike.context⟩ hrest

/-- **What a completion does with the cancellation and without it**: the same, if it does not ask
for the cancellation of its own operation. -/
theorem Completion.alike_run (k : Completion) (d : Decision) (h : s.Alike c t)
    (hk : s.context.input.cancellation = some c → k.isDiscreet = true) :
    (k.run d s).Alike c (k.run d t) := by
  have hplane : ∀ {p q : Plane}, p.Alike c q →
      Scene.Alike c { s with plane := p } { t with plane := q } :=
    fun hp => ⟨hp, h.controller, h.context⟩
  cases k with
  | script label ro body =>
    have hbody : s.context.input.cancellation = some c → ∀ i ∈ body, i.isDiscreet = true :=
      fun hown => List.all_eq_true.mp (hk hown)
    cases ro with
    | false => exact alike_runScript body (hplane (h.plane.writeLog _)) hbody
    | true =>
      rw [run, run]
      split
      · exact h
      · exact alike_runScript body (hplane (h.plane.writeLog _)) hbody
  | decide handle => exact hplane (h.plane.decideAndDrop handle d)
  | reportSteps own slots =>
    rw [run, run]
    split
    · exact h
    · exact ⟨h.plane, h.controller, congrArg (Composite.report own slots) h.context⟩
  | stopWorker name =>
    rw [run, run]
    split
    · exact h
    · exact hplane (h.plane.map (fun p => { p with workers := p.workers.stop name })
        fun _ _ => rfl)
  | restoreWorker name worker =>
    rw [run, run]
    split
    · exact h
    · exact hplane (h.plane.map (fun p => { p with workers := p.workers.restore name worker })
        fun _ _ => rfl)
  | reconfigureWorker name k =>
    rw [run, run]
    split
    · exact h
    · rw [h.plane.workers]
      split
      · next workers _ =>
        exact hplane (h.plane.map (fun p => { p with workers }) fun _ _ => rfl)
      · exact h

end ManagementPlane
