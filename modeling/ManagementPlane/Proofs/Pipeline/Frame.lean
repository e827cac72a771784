import ManagementPlane.Proofs.Model.Staged
import ManagementPlane.Proofs.Pipeline.Changes

/-!
# Proofs/Pipeline/Frame — what the work of a step leaves alone

Read off the elementary changes: around a step only notes change (`Scene.Does.beside`), and of its
operation a step can change no more than `Context.Worked` says.  It may queue, but not behind the
current stage; it may complete, which registers a completion and is noticed as a violation when it
was done before; it may write, but not end what is staged.
-/

namespace ManagementPlane

namespace Transaction

/-- The same transaction, in which more may have been written. -/
structure Written (x y : Transaction) : Prop where
  alongside : Alongside x y
  clean : x.Clean → y.Clean

theorem Written.refl (x : Transaction) : Written x x := ⟨.refl x, id⟩

theorem Written.trans {x y z : Transaction} (h : Written x y) (h' : Written y z) : Written x z :=
  ⟨h.alongside.trans h'.alongside, h'.clean ∘ h.clean⟩

theorem written_write {α : Type} (x : Transaction)
    (f : Resource → Except OperationError (α × Resource × Write)) : Written x (x.write f).2 := by
  refine ⟨x.alongside_write f, fun hx s hs hdirty => ?_⟩
  rw [write] at hs ⊢
  cases hstaging : x.staging with
  | none =>
    rw [hstaging] at hs
    cases hstaging.symm.trans hs
  | some t =>
    rw [hstaging] at hs
    -- with write intent the staging is dirty afterwards
    dsimp only at hs
    split at hs <;> obtain rfl := Option.some.inj hs <;> cases hdirty

end Transaction

/-! ## Around the operation -/

/-- The two planes differ at most in notes, events and the states of processes. -/
structure Plane.Beside (p q : Plane) : Prop where
  now : q.now = p.now
  controllers : q.controllers = p.controllers
  handles : q.handles = p.handles
  forwards : q.forwards = p.forwards
  links : q.links = p.links
  actors : q.actors = p.actors
  replies : q.replies = p.replies
  tickets : q.tickets = p.tickets
  mocks : q.mocks = p.mocks
  writers : q.writers = p.writers
  top : q.top = p.top

theorem Plane.Beside.refl (p : Plane) : p.Beside p :=
  ⟨rfl, rfl, rfl, rfl, rfl, rfl, rfl, rfl, rfl, rfl, rfl⟩

theorem Plane.Beside.trans {p q r : Plane} (h : p.Beside q) (h' : q.Beside r) : p.Beside r :=
  ⟨h'.now.trans h.now, h'.controllers.trans h.controllers, h'.handles.trans h.handles,
    h'.forwards.trans h.forwards, h'.links.trans h.links, h'.actors.trans h.actors,
    h'.replies.trans h.replies, h'.tickets.trans h.tickets, h'.mocks.trans h.mocks,
    h'.writers.trans h.writers, h'.top.trans h.top⟩

/-- What operations hand to each other is the same in the two planes. -/
structure Plane.Retains (p q : Plane) : Prop where
  handles : q.handles = p.handles
  forwards : q.forwards = p.forwards
  links : q.links = p.links
  tickets : q.tickets = p.tickets
  actors : q.actors = p.actors

theorem Plane.Retains.refl (p : Plane) : p.Retains p := ⟨rfl, rfl, rfl, rfl, rfl⟩

theorem Plane.Retains.trans {p q r : Plane} (h : p.Retains q) (h' : q.Retains r) : p.Retains r :=
  ⟨h'.handles.trans h.handles, h'.forwards.trans h.forwards, h'.links.trans h.links,
    h'.tickets.trans h.tickets, h'.actors.trans h.actors⟩

theorem Plane.Beside.retains {p q : Plane} (h : p.Beside q) : p.Retains q :=
  ⟨h.handles, h.forwards, h.links, h.tickets, h.actors⟩

variable {may : Instruction → Prop}

/-- **The work of a step changes nothing around it but notes, events and processes.** -/
theorem Scene.Does.beside {s t : Scene} (h : s.Does may t) :
    t.controller = s.controller ∧ s.plane.Beside t.plane := by
  induction h with
  | refl => exact ⟨rfl, .refl _⟩
  | tail _ h ih =>
    refine ⟨?_, ih.2.trans ?_⟩
    · cases h <;> exact ih.1
    · cases h <;> exact ⟨rfl, rfl, rfl, rfl, rfl, rfl, rfl, rfl, rfl, rfl, rfl⟩

/-- Only an instruction for it changes the state of a process. -/
theorem Scene.Does.processes {s t : Scene} (h : s.Does may t)
    (hmay : ∀ change, ¬ may (.process (some change))) : t.plane.processes = s.plane.processes := by
  induction h with
  | refl => rfl
  | tail _ h ih =>
    cases h with
    | process change h => exact absurd h (hmay change)
    | _ => exact ih

/-- No process comes or goes. -/
theorem Scene.Does.length_processes {s t : Scene} (h : s.Does may t) :
    t.plane.processes.length = s.plane.processes.length := by
  induction h with
  | refl => rfl
  | tail _ h ih =>
    cases h with
    | process change h => exact (List.length_modify _ _ _).trans ih
    | _ => exact ih

/-! ## The operation itself -/

namespace Context

/-- The violation of completing twice. -/
def twice (a : ActiveStep) : String := "step at " ++ a.address.text ++ " completed more than once"

/-- What the work of a step makes of its context. -/
structure Worked (x y : Context) : Prop where
  id : y.id = x.id
  address : y.address = x.address
  stage : y.stage = x.stage
  input : y.input = x.input
  sink : y.sink = x.sink
  completions : y.completions = x.completions
  firstFailure : y.firstFailure = x.firstFailure
  transaction : x.transaction.Written y.transaction
  /-- Nothing is queued in a stage that is over. -/
  queues : ∀ s : Stage, s < x.stage → y.queues.get s = x.queues.get s
  /-- Completions are added in front, and none with a handle. -/
  completed : ∃ new, y.completed = new ++ x.completed ∧ ∀ c ∈ new, c.handle? = none
  /-- Outside of a step nothing completes. -/
  idle : x.active = none → y.active = none ∧ y.completed = x.completed
  /-- The running step stays the same, and once it completed it stays so. -/
  active : ∀ a ∈ x.active, ∃ b ∈ y.active,
    b.address = a.address ∧ b.slot = a.slot ∧ (a.completed = true → b.completed = true)
  /-- A running step violates its contract by completing twice. -/
  violation : ∀ v ∈ y.violation, v ∈ x.violation ∨ x.active = none ∨
    ∃ b ∈ y.active, b.completed = true ∧ v = twice b

theorem Worked.refl (x : Context) : x.Worked x where
  id := rfl
  address := rfl
  stage := rfl
  input := rfl
  sink := rfl
  completions := rfl
  firstFailure := rfl
  transaction := .refl _
  queues := fun _ _ => rfl
  completed := ⟨[], rfl, fun _ h => absurd h List.not_mem_nil⟩
  idle := fun h => ⟨h, rfl⟩
  active := fun a ha => ⟨a, ha, rfl, rfl, fun h => h⟩
  violation := fun _ h => Or.inl h

theorem Worked.trans {x y z : Context} (h : x.Worked y) (h' : y.Worked z) : x.Worked z where
  id := h'.id.trans h.id
  address := h'.address.trans h.address
  stage := h'.stage.trans h.stage
  input := h'.input.trans h.input
  sink := h'.sink.trans h.sink
  completions := h'.completions.trans h.completions
  firstFailure := h'.firstFailure.trans h.firstFailure
  transaction := h.transaction.trans h'.transaction
  queues := fun s hs => (h'.queues s (h.stage ▸ hs)).trans (h.queues s hs)
  completed := by
    obtain ⟨new, hnew, hhandle⟩ := h.completed
    obtain ⟨new', hnew', hhandle'⟩ := h'.completed
    refine ⟨new' ++ new, by rw [hnew', hnew, List.append_assoc], fun c hc => ?_⟩
    exact (List.mem_append.mp hc).elim (hhandle' c) (hhandle c)
  idle := fun hx => by
    obtain ⟨hy, hcompleted⟩ := h.idle hx
    obtain ⟨hz, hcompleted'⟩ := h'.idle hy
    exact ⟨hz, hcompleted'.trans hcompleted⟩
  active := fun a ha => by
    obtain ⟨b, hb, hba, hbs, hbc⟩ := h.active a ha
    obtain ⟨c, hc, hca, hcs, hcc⟩ := h'.active b hb
    exact ⟨c, hc, hca.trans hba, hcs.trans hbs, hcc ∘ hbc⟩
  violation := fun v hv => by
    rcases h'.violation v hv with hv | hy | hb
    · rcases h.violation v hv with hv | hx | ⟨b, hb, hbc, rfl⟩
      · exact Or.inl hv
      · exact Or.inr (Or.inl hx)
      · obtain ⟨c, hc, hca, -, hcc⟩ := h'.active b hb
        exact Or.inr (Or.inr ⟨c, hc, hcc hbc, by rw [twice, twice, hca]⟩)
    · refine Or.inr (Or.inl ?_)
      by_contra hx
      obtain ⟨a, ha⟩ := Option.ne_none_iff_exists'.mp hx
      obtain ⟨b, hb, -⟩ := h.active a ha
      cases hy.symm.trans hb
    · exact Or.inr (Or.inr hb)

theorem get_add_of_lt (q : Queues) {s stage : Stage} (h : s ≠ stage) (step : Step)
    (first : Bool) : (q.add stage step first).get s = q.get s := by
  rw [Queues.add]
  cases stage <;> cases s <;> first | rfl | exact absurd rfl h

theorem worked_complete (x : Context) {c : Completion} (hc : c.handle? = none) :
    x.Worked (x.complete c) := by
  rw [complete]
  split
  · rename_i a ha
    split
    · rename_i hac
      exact { Worked.refl x with
        completed := ⟨[], rfl, fun _ h => absurd h List.not_mem_nil⟩
        idle := fun h => ⟨h, rfl⟩
        active := fun a ha' => ⟨a, ha', rfl, rfl, fun h => h⟩
        violation := fun v hv => Or.inr (Or.inr ⟨a, ha, hac, (Option.some.inj hv).symm⟩) }
    · refine { Worked.refl x with
        completed := ⟨[c], rfl, fun d hd => List.mem_singleton.mp hd ▸ hc⟩
        idle := fun h => by cases ha.symm.trans h
        active := fun b hb => ?_
        violation := fun _ h => Or.inl h }
      obtain rfl : a = b := Option.some.inj (ha.symm.trans hb)
      exact ⟨_, rfl, rfl, rfl, fun _ => rfl⟩
  · rename_i ha
    exact { Worked.refl x with
      completed := ⟨[], rfl, fun _ h => absurd h List.not_mem_nil⟩
      idle := fun h => ⟨h, rfl⟩
      active := fun a ha' => ⟨a, ha', rfl, rfl, fun h => h⟩
      violation := fun _ _ => Or.inr (Or.inl ha) }

/-- **A step can change no more of its operation.** -/
theorem Does.worked {x y : Context} (h : x.Does may y) : x.Worked y := by
  induction h with
  | refl => exact .refl _
  | tail _ h ih =>
    refine ih.trans ?_
    cases h with
    | queue stage step first h =>
      refine { Worked.refl _ with queues := fun s hs => get_add_of_lt _ ?_ _ _ }
      rintro rfl
      exact h hs
    | complete c hc => exact worked_complete _ hc
    | write f h => exact { Worked.refl _ with transaction := Transaction.written_write _ f }
    | slot i f h => exact { Worked.refl _ with id := rfl }
    | newSlot => exact { Worked.refl _ with id := rfl }
    | failSlot label failure h => exact { Worked.refl _ with id := rfl }
    | rollbackOnly => exact { Worked.refl _ with id := rfl }
    | notes labels attachments streams => exact { Worked.refl _ with id := rfl }

/-- No response slot has failed. -/
def Unfailed (x : Context) : Prop := ∀ s ∈ x.slots, s.failure = none

theorem Unfailed.slot {x : Context} (h : x.Unfailed) (i : Nat) : (x.slot i).failure = none := by
  rw [Context.slot]
  cases hs : x.slots[i]? with
  | none => rfl
  | some s => exact h s (List.mem_of_getElem? hs)

theorem unfailed_iff {x : Context} : x.Unfailed ↔ ∀ i, (x.slot i).failure = none := by
  refine ⟨fun h => h.slot, fun h s hs => ?_⟩
  obtain ⟨i, hi⟩ := List.mem_iff_getElem?.mp hs
  have hslot := h i
  rwa [Context.slot, hi] at hslot

theorem failure_modifySlot (x : Context) (i j : Nat) {f : ResponseSlot → ResponseSlot}
    (hf : ∀ s, (f s).failure = s.failure) :
    ((x.modifySlot i f).slot j).failure = (x.slot j).failure := by
  rw [Context.slot, Context.slot, Context.modifySlot, List.getElem?_modify]
  cases x.slots[j]? with
  | none => rfl
  | some s =>
    show (if i = j then f s else s).failure = s.failure
    split
    · exact hf s
    · rfl

theorem Unfailed.modifySlot {x : Context} (h : x.Unfailed) (i : Nat)
    {f : ResponseSlot → ResponseSlot} (hf : ∀ s, (f s).failure = s.failure) :
    (x.modifySlot i f).Unfailed :=
  unfailed_iff.mpr fun j => (x.failure_modifySlot i j hf).trans (h.slot j)

/-- Only an instruction for it makes a slot fail. -/
theorem Does.failure_slot {x y : Context} (h : x.Does may y)
    (hmay : ∀ label failure, ¬ may (.failSlot label failure)) (i : Nat) :
    (y.slot i).failure = (x.slot i).failure := by
  induction h with
  | refl => rfl
  | @tail y z _ h ih =>
    refine Eq.trans ?_ ih
    cases h with
    | complete c hc =>
      rw [complete]
      split
      · split <;> rfl
      · rfl
    | slot j f h => exact y.failure_modifySlot j i h
    | newSlot =>
      rw [Context.slot, Context.slot, List.getElem?_append]
      split
      · rfl
      · next hi =>
        rw [List.getElem?_eq_none (Nat.le_of_not_lt hi), List.getElem?_singleton]
        split <;> rfl
    | failSlot label failure h => exact absurd h (hmay label failure)
    | _ => rfl

theorem Does.unfailed {x y : Context} (h : x.Does may y)
    (hmay : ∀ label failure, ¬ may (.failSlot label failure)) (hx : x.Unfailed) : y.Unfailed :=
  unfailed_iff.mpr fun i => (h.failure_slot hmay i).trans (hx.slot i)

theorem Does.length_le {x y : Context} (h : x.Does may y) : x.slots.length ≤ y.slots.length := by
  induction h with
  | refl => exact Nat.le_refl _
  | @tail y z _ h ih =>
    refine Nat.le_trans ih ?_
    cases h with
    | complete c hc =>
      rw [complete]
      split
      · split <;> exact Nat.le_refl _
      · exact Nat.le_refl _
    | slot i f h => exact Nat.le_of_eq (List.length_modify _ _ _).symm
    | failSlot label failure h => exact Nat.le_of_eq (List.length_modify _ _ _).symm
    | newSlot =>
      rw [List.length_append]
      exact Nat.le_add_right _ _
    | _ => exact Nat.le_refl _

end Context

/-- What a scene's work makes of the operation in it. -/
theorem Scene.Does.context {s t : Scene} (h : s.Does may t) : s.context.Does may t.context := by
  induction h with
  | refl => exact .refl
  | tail _ h ih =>
    cases h with
    | context h => exact ih.tail h
    | _ => exact ih

/-- **What a completion makes of its operation**: a script does its instructions, the last step of
a composite reports, and the others leave it alone. -/
theorem Completion.context_run (c : Completion) (d : Decision) (s : Scene) :
    s.context.Does (fun _ => True) (c.run d s).context ∨
      ∃ own slots, (c.run d s).context = Composite.report own slots s.context := by
  have hscript : ∀ (body : Script) (t : Scene), t.context = s.context →
      s.context.Does (fun _ => True) (Completion.runScript body t).context :=
    fun body t ht => ht ▸ (Scene.Does.mono (fun _ _ => trivial) (runScript_does body t)).context
  have hstill : s.context.Does (fun _ => True) s.context := .refl
  cases c with
  | script label ro body =>
    cases ro with
    | false => exact .inl (hscript body _ rfl)
    | true =>
      rw [run]
      split
      · exact .inl hstill
      · exact .inl (hscript body _ rfl)
  | reportSteps own slots =>
    rw [run]
    split
    · exact .inl hstill
    · exact .inr ⟨own, slots, rfl⟩
  | decide handle => exact .inl hstill
  | reconfigureWorker name k =>
    rw [run]
    split
    · exact .inl hstill
    · split <;> exact .inl hstill
  | _ =>
    rw [run]
    split <;> exact .inl hstill

end ManagementPlane
