import ManagementPlane.Proofs.Pipeline.Agenda
import ManagementPlane.Proofs.Proxied.Asking

/-!
# Proofs/Global/Slots — which response slots the work of a step can reach

A step answers in the slot that it was queued with.  Besides that slot it can reach those that all
steps share — the operation's own, and those that scripts gave a label — and slots that it makes
itself; and what it queues answers in one of these (`Context.Reaches`).  A *mute* handler answers
nowhere, and neither does what it queues.

Both are shown in one walk over all programs (`Instruction.perform_reaches`,
`Handler.deed?_reaches`).
-/

namespace ManagementPlane

namespace Instruction

mutual

/-- The instruction, with all that it queues, leaves the responses of its operation alone. -/
def isMute : Instruction → Bool
  | result _ | resultOperation | resultCancelled | resultPath .. | header .. | failSlot .. => false
  | stream _ _ asResult => !asResult
  | step _ body _ _ _ => areMute body
  | attempt body => areMute body
  | _ => true

def areMute : List Instruction → Bool
  | [] => true
  | i :: rest => i.isMute && areMute rest

end

end Instruction

/-- The handler leaves the responses of its operation alone. -/
def Handler.isMute : Handler → Bool
  | script body => Instruction.areMute body
  | add _ | remove | seed _ | addWorker _ | startWorker .. | confirmWorker _ | removeWorker |
    stopWorker _ | writeKeepAlive | applyKeepAlive .. => true
  | _ => false

namespace Context

/-- The slot is the operation's own, or has a label: every script can reach it. -/
def Shared (x : Context) (i : Nat) : Prop :=
  i = rootSlot ∨ ∃ label, Dict.get? x.labels label = some i

/-- The slot can be reached from the context `x`, or was made between `x` and `y`. -/
def Within (x y : Context) (i : Nat) : Prop :=
  i = x.currentSlot ∨ x.Shared i ∨ x.slots.length ≤ i ∧ i < y.slots.length

/-- What a running step made of `x` is `y`; mute work did so. -/
structure Reaches (mute : Bool) (x y : Context) : Prop where
  current : y.currentSlot = x.currentSlot
  length : x.slots.length ≤ y.slots.length
  slots : ∀ i, mute = true ∨ ¬ x.Within y i → y.slot i = x.slot i
  labels : ∀ label i, Dict.get? y.labels label = some i →
    Dict.get? x.labels label = some i ∨ x.slots.length ≤ i ∧ i < y.slots.length
  queued : ∀ stage, ∀ s ∈ y.queues.get stage, s ∈ x.queues.get stage ∨
    x.Within y s.slot ∧ (mute = true → s.handler.isMute = true)
  firstFailure : y.firstFailure = x.firstFailure
  /-- A composite answers in the slot of its step, and gives slots of their own to its steps. -/
  reports : ∃ new, y.completed = new ++ x.completed ∧
    ∀ own slots, Completion.reportSteps own slots ∈ new →
      own = x.currentSlot ∧ ∀ q ∈ slots, x.slots.length ≤ q.2 ∧ q.2 < y.slots.length

variable {mute : Bool} {x y z : Context}

/-- A label that nobody gave away means the slot of the operation. -/
theorem shared_labelled (x : Context) (label : String) : x.Shared (x.labelled label) := by
  rw [labelled]
  cases h : Dict.get? x.labels label with
  | none => exact .inl rfl
  | some i => exact .inr ⟨label, h⟩

/-- What a step does without the slots, the labels and the queues. -/
theorem reaches_of_eq (hcurrent : y.currentSlot = x.currentSlot) (hslots : y.slots = x.slots)
    (hlabels : y.labels = x.labels) (hqueues : y.queues = x.queues)
    (hcompleted : y.completed = x.completed) (hfirst : y.firstFailure = x.firstFailure) :
    x.Reaches mute y where
  current := hcurrent
  length := Nat.le_of_eq (congrArg List.length hslots).symm
  slots i _ := by rw [slot, slot, hslots]
  labels label i h := .inl (hlabels ▸ h)
  queued stage s hs := .inl (hqueues ▸ hs)
  firstFailure := hfirst
  reports := ⟨[], hcompleted, by rintro _ _ ⟨⟩⟩

theorem Reaches.refl (x : Context) : x.Reaches mute x := reaches_of_eq rfl rfl rfl rfl rfl rfl

/-- A slot that is shared in the end was so before, or is a new one. -/
theorem Reaches.shared (h : x.Reaches mute y) {i : Nat} (hi : y.Shared i) :
    x.Shared i ∨ x.slots.length ≤ i ∧ i < y.slots.length := by
  rcases hi with rfl | ⟨label, hlabel⟩
  · exact .inl (.inl rfl)
  · exact (h.labels label i hlabel).imp_left fun hlabel => .inr ⟨label, hlabel⟩

/-- What was within reach halfway is within reach from the beginning. -/
theorem Reaches.within (h : x.Reaches mute y) (hz : y.slots.length ≤ z.slots.length) {i : Nat}
    (hi : y.Within z i) : x.Within z i := by
  rcases hi with hcurrent | hshared | ⟨hle, hlt⟩
  · exact .inl (hcurrent.trans h.current)
  · rcases h.shared hshared with hshared | ⟨hle, hlt⟩
    · exact .inr (.inl hshared)
    · exact .inr (.inr ⟨hle, Nat.lt_of_lt_of_le hlt hz⟩)
  · exact .inr (.inr ⟨Nat.le_trans h.length hle, hlt⟩)

theorem Within.mono (hz : y.slots.length ≤ z.slots.length) {i : Nat} (hi : x.Within y i) :
    x.Within z i :=
  hi.imp_right (Or.imp_right fun ⟨hle, hlt⟩ => ⟨hle, Nat.lt_of_lt_of_le hlt hz⟩)

/-- One reach after another. -/
theorem Reaches.trans (h : x.Reaches mute y) (h' : y.Reaches mute z) : x.Reaches mute z where
  current := h'.current.trans h.current
  length := Nat.le_trans h.length h'.length
  slots i hi := by
    refine (h'.slots i (hi.imp_right ?_)).trans (h.slots i (hi.imp_right ?_))
    · exact fun hout hin => hout (h.within h'.length hin)
    · exact fun hout hin => hout (hin.mono h'.length)
  labels label i hi := by
    rcases h'.labels label i hi with hi | ⟨hle, hlt⟩
    · exact (h.labels label i hi).imp_right fun ⟨hle, hlt⟩ =>
        ⟨hle, Nat.lt_of_lt_of_le hlt h'.length⟩
    · exact .inr ⟨Nat.le_trans h.length hle, hlt⟩
  queued stage s hs := by
    rcases h'.queued stage s hs with hs | ⟨hin, hmute⟩
    · exact (h.queued stage s hs).imp_right fun ⟨hin, hmute⟩ => ⟨hin.mono h'.length, hmute⟩
    · exact .inr ⟨h.within h'.length hin, hmute⟩
  firstFailure := h'.firstFailure.trans h.firstFailure
  reports := by
    obtain ⟨new, hnew, hreports⟩ := h.reports
    obtain ⟨new', hnew', hreports'⟩ := h'.reports
    refine ⟨new' ++ new, by rw [hnew', hnew, List.append_assoc], fun own slots hmem => ?_⟩
    rcases List.mem_append.mp hmem with hmem | hmem
    · obtain ⟨hown, hslots⟩ := hreports' own slots hmem
      exact ⟨hown.trans h.current, fun q hq =>
        ⟨Nat.le_trans h.length (hslots q hq).1, (hslots q hq).2⟩⟩
    · obtain ⟨hown, hslots⟩ := hreports own slots hmem
      exact ⟨hown, fun q hq =>
        ⟨(hslots q hq).1, Nat.lt_of_lt_of_le (hslots q hq).2 h'.length⟩⟩

/-- A change of one slot spares the others. -/
theorem slot_modifySlot_ne (x : Context) {i j : Nat} (f : ResponseSlot → ResponseSlot)
    (h : i ≠ j) : (x.modifySlot i f).slot j = x.slot j := by
  rw [slot, modifySlot, List.getElem?_modify_ne _ _ h]
  rfl

theorem slot_modifySlot_self {i : Nat} (f : ResponseSlot → ResponseSlot) (h : i < x.slots.length) :
    (x.modifySlot i f).slot i = f (x.slot i) := by
  rw [slot, modifySlot, slot, List.getElem?_modify_eq, List.getElem?_eq_getElem h]
  rfl

/-- Only the slot within reach is written. -/
theorem reaches_modifySlot {i : Nat} (f : ResponseSlot → ResponseSlot)
    (hi : i = x.currentSlot ∨ x.Shared i) : x.Reaches false (x.modifySlot i f) where
  current := rfl
  length := Nat.le_of_eq (List.length_modify _ _ _).symm
  slots j hj := by
    refine x.slot_modifySlot_ne f ?_
    rintro rfl
    rcases hj with hmute | hout
    · cases hmute
    · exact hout (hi.imp_right .inl)
  labels label j h := .inl h
  queued stage s hs := .inl hs
  firstFailure := rfl
  reports := ⟨[], rfl, by rintro _ _ ⟨⟩⟩

/-- A result goes to the slot of the running step. -/
theorem reaches_setResult (x : Context) (v : Value) : x.Reaches false (x.setResult v) :=
  reaches_modifySlot _ (.inl rfl)

/-- Empty slots make no difference to what a slot holds. -/
theorem slot_append_replicate (slots : List ResponseSlot) (n i : Nat) :
    ((slots ++ List.replicate n ({} : ResponseSlot))[i]?).getD {} = (slots[i]?).getD {} := by
  rw [List.getElem?_append]
  split
  · rfl
  · next h =>
    rw [List.getElem?_replicate, List.getElem?_eq_none (Nat.le_of_not_lt h)]
    split <;> rfl

/-- New slots are within reach of whoever allots them. -/
theorem reaches_newSlots (x : Context) (n : Nat) :
    x.Reaches mute { x with slots := x.slots ++ List.replicate n {} } where
  current := rfl
  length := by rw [List.length_append]; exact Nat.le_add_right _ _
  slots i _ := slot_append_replicate x.slots n i
  labels label i h := .inl h
  queued stage s hs := .inl hs
  firstFailure := rfl
  reports := ⟨[], rfl, by rintro _ _ ⟨⟩⟩

/-- A completion that reports on slots has to own one that it may write, and to report on new
ones. -/
theorem Reaches.complete (h : x.Reaches mute y) {c : Completion}
    (hc : ∀ own slots, c = .reportSteps own slots →
      own = x.currentSlot ∧ ∀ q ∈ slots, x.slots.length ≤ q.2 ∧ q.2 < y.slots.length) :
    x.Reaches mute (y.complete c) := by
  rw [Context.complete]
  split
  · next a ha =>
    split
    · exact h.trans (reaches_of_eq rfl rfl rfl rfl rfl rfl)
    · obtain ⟨new, hnew, hreports⟩ := h.reports
      refine ⟨?_, h.length, h.slots, h.labels, h.queued, h.firstFailure, c :: new,
        congrArg (c :: ·) hnew, fun own slots hmem => ?_⟩
      · rw [← h.current, currentSlot, currentSlot, ha]
        rfl
      · rcases List.mem_cons.mp hmem with heq | hmem
        · exact hc own slots heq.symm
        · exact hreports own slots hmem
  · exact h.trans (reaches_of_eq rfl rfl rfl rfl rfl rfl)

/-- A step that is queued answers in a slot within reach, and mutes nothing. -/
theorem Reaches.queue (h : x.Reaches mute y) {stage : Stage} {step : Step} {first : Bool}
    (hslot : x.Within y step.slot) (hmute : mute = true → step.handler.isMute = true) :
    x.Reaches mute { y with queues := y.queues.add stage step first } where
  current := h.current
  length := h.length
  slots := h.slots
  labels := h.labels
  queued other s hs := by
    rcases Queues.mem_get_add.mp hs with hs | ⟨-, rfl⟩
    · exact h.queued other s hs
    · exact .inr ⟨hslot, hmute⟩
  firstFailure := h.firstFailure
  reports := h.reports

end Context

open Context (Reaches Within)

/-! ## Programs over a context -/

namespace Act

variable {α β : Type} {mute : Bool} {x y : Context}

/-- Whatever the act does stays within its reach, whether or not it succeeds. -/
def Reaching (mute : Bool) (f : Act α) : Prop := ∀ x : Context, x.Reaches mute (f.run.run x).2

theorem reaching_pure (a : α) : Reaching mute (pure a) := fun _ => .refl _

theorem reaching_throw (e : OperationError) : Reaching (α := α) mute (throw e) := fun _ => .refl _

theorem reaching_get : Reaching mute get := fun _ => .refl _

/-- A second act goes on where the first one succeeded. -/
theorem reaches_bind {f : Act α} {k : α → Act β} (hf : x.Reaches mute (f.run.run y).2)
    (hk : ∀ a z, f.run.run y = (.ok a, z) → x.Reaches mute z → x.Reaches mute ((k a).run.run z).2) :
    x.Reaches mute ((f >>= k).run.run y).2 := by
  rw [run_bind]
  split
  · next a z hrun =>
    rw [hrun] at hf
    exact hk a z hrun hf
  · next e z hrun =>
    rw [hrun] at hf
    exact hf

theorem reaching_bind {f : Act α} {k : α → Act β} (hf : Reaching mute f)
    (hk : ∀ a, Reaching mute (k a)) : Reaching mute (f >>= k) :=
  fun x => reaches_bind (hf x) fun a z _ hz => hz.trans (hk a z)

theorem reaching_unless {p : Prop} [Decidable p] {e : OperationError} {f : PUnit → Act α}
    (hf : ∀ u, Reaching mute (f u)) : Reaching mute (if p then f ⟨⟩ else throw e >>= f) := by
  split
  · exact hf ⟨⟩
  · exact reaching_bind (reaching_throw e) hf

theorem reaching_when {p : Prop} [Decidable p] {e : OperationError} {f : PUnit → Act α}
    (hf : ∀ u, Reaching mute (f u)) : Reaching mute (if p then throw e >>= f else f ⟨⟩) := by
  split
  · exact reaching_bind (reaching_throw e) hf
  · exact hf ⟨⟩

section Queue

variable {handler : Handler} {operation : Value} {stage : Stage} {slot : Nat} {first : Bool}

/-- **What is queued answers within reach**, if its slot is. -/
theorem reaches_queue (h : x.Reaches mute y) (hslot : x.Within y slot)
    (hmute : mute = true → handler.isMute = true) :
    x.Reaches mute ((queue handler operation stage slot first).run.run y).2 := by
  rw [queue, run_attempt, Context.queueStep]
  split
  · next a z hz =>
    split at hz
    · cases hz
    · cases ha : Operation.addressOf operation with
      | error e =>
        rw [ha] at hz
        cases hz
      | ok address =>
        rw [ha] at hz
        obtain ⟨-, rfl⟩ := Prod.mk.inj (Except.ok.inj hz)
        exact h.queue hslot hmute
  · exact h

/-- To queue a step writes to no slot. -/
theorem slots_queue (y : Context) :
    ((queue handler operation stage slot first).run.run y).2.slots = y.slots := by
  rw [queue, run_attempt, Context.queueStep]
  split
  · next a z hz =>
    split at hz
    · cases hz
    · cases ha : Operation.addressOf operation with
      | error e =>
        rw [ha] at hz
        cases hz
      | ok address =>
        rw [ha] at hz
        obtain ⟨-, rfl⟩ := Prod.mk.inj (Except.ok.inj hz)
        rfl
  · rfl

/-- A step that is added answers in the slot of the step that adds it. -/
theorem reaching_addStep (hmute : mute = true → handler.isMute = true) :
    Reaching mute (addStep handler operation stage) := fun _ =>
  reaches_queue (.refl _) (.inl rfl) hmute

theorem reaching_addStepFirst (hmute : mute = true → handler.isMute = true) :
    Reaching mute (addStepFirst handler operation stage) := fun _ =>
  reaches_queue (.refl _) (.inl rfl) hmute

/-- What follows on a queued step has as many slots within reach. -/
theorem reaches_addStepFirst_bind {k : Unit → Act Unit} (h : x.Reaches false y)
    (hk : ∀ z, x.Reaches false z → z.slots = y.slots → x.Reaches false ((k ()).run.run z).2) :
    x.Reaches false ((addStepFirst handler operation stage >>= k).run.run y).2 := by
  refine reaches_bind (h.trans (reaching_addStepFirst (by rintro ⟨⟩) y)) fun _ z hrun hz => ?_
  refine hk z hz ?_
  have hslots : ((addStepFirst handler operation stage).run.run y).2.slots = y.slots :=
    slots_queue y
  rwa [hrun] at hslots

end Queue

theorem reaching_complete {c : Completion} (hc : ∀ own slots, c ≠ .reportSteps own slots) :
    Reaching mute (complete c) :=
  fun x => Reaches.complete (.refl x) fun own slots h => absurd h (hc own slots)

theorem reaching_setResult (v : Value) : Reaching false (setResult v) :=
  fun x => x.reaches_setResult v

theorem reaching_readAt (a : Address) : Reaching mute (readAt a) := by
  refine reaching_bind reaching_get fun x => ?_
  split
  · exact reaching_pure _
  · exact reaching_throw _

theorem reaching_read : Reaching mute read := reaching_bind reaching_get fun _ => reaching_readAt _

/-- The transaction has no slots. -/
theorem reaching_onTransaction (what : String)
    (f : Transaction → Except OperationError α × Transaction) :
    Reaching mute (onTransaction what f) := by
  intro x
  by_cases hstage : x.stage = .model
  · rw [run_onTransaction what f hstage]
    exact Context.reaches_of_eq rfl rfl rfl rfl rfl rfl
  · rw [onTransaction_of_error (if_neg hstage)]
    exact .refl x

/-- Steps are queued one after another, each with a slot of its own. -/
theorem reaches_front {γ : Type} {front : List γ → Act Unit} {handler : γ → Handler}
    {operation : γ → Value} {slot : γ → Nat} (hnil : front [] = pure ())
    (hcons : ∀ c l, front (c :: l) =
      front l >>= fun _ => queue (handler c) (operation c) .model (slot c) true)
    {l : List γ} (h : x.Reaches false y) (hl : ∀ c ∈ l, x.Within y (slot c)) :
    x.Reaches false ((front l).run.run y).2 ∧ ((front l).run.run y).2.slots = y.slots := by
  induction l with
  | nil =>
    rw [hnil]
    exact ⟨h, rfl⟩
  | cons c l ih =>
    obtain ⟨hc, hl⟩ := List.forall_mem_cons.mp hl
    obtain ⟨hreaches, hslots⟩ := ih hl
    rw [hcons, run_bind]
    split
    · next a z hrun =>
      rw [hrun] at hreaches hslots
      refine ⟨reaches_queue hreaches (hc.mono ?_) (by rintro ⟨⟩), (slots_queue z).trans hslots⟩
      exact Nat.le_of_eq (congrArg List.length hslots).symm
    · next e z hrun =>
      rw [hrun] at hreaches hslots
      exact ⟨hreaches, hslots⟩

end Act

open Act

/-! ## The global operations -/

/-- The slots that are made for the entries of a list are new. -/
theorem mem_zipIdx_new {γ : Type} {l : List γ} {before after : List ResponseSlot}
    (h : after = before ++ List.replicate l.length ({} : ResponseSlot)) :
    ∀ q ∈ l.zipIdx before.length, before.length ≤ q.2 ∧ q.2 < after.length := by
  rintro ⟨c, i⟩ hq
  obtain ⟨hle, hlt, -⟩ := List.mem_zipIdx hq
  refine ⟨hle, ?_⟩
  rw [h, List.length_append, List.length_replicate]
  omega

/-- The operations of a composite are queued with the slots that were allotted to them. -/
theorem Composite.reaches_queueFront {x y : Context} {l : List (Planned × Nat)}
    (h : x.Reaches false y) (hl : ∀ q ∈ l, x.Within y q.2) :
    x.Reaches false ((queueFront l).run.run y).2 ∧
      ((queueFront l).run.run y).2.slots = y.slots :=
  reaches_front rfl (fun _ _ => rfl) h hl

/-- **A composite reaches its own slot and new ones**, and reports on the new ones only. -/
theorem Composite.reaching_run (r : Registration) (operation : Value) :
    Reaching false (Composite.run r operation) := by
  intro x
  rw [Composite.run, run_get]
  dsimp only
  split
  · exact .refl x
  · next planned _ =>
    show x.Reaches false ((addStepFirst (.collect ((allot planned x).1.map fun q =>
        (q.1.label, q.2))) (Operation.build "collect-composite-results" x.currentAddress) .model
      >>= fun _ => queueFront (allot planned x).1 >>= fun _ =>
        Act.complete (.reportSteps x.currentSlot ((allot planned x).1.map fun q =>
          (q.1.label, q.2)))).run.run (allot planned x).2).2
    rw [allot_eq]
    refine reaches_addStepFirst_bind (x.reaches_newSlots _) fun y hy hslots => ?_
    have hnew := mem_zipIdx_new hslots
    obtain ⟨hfront, hsame⟩ := reaches_queueFront hy fun q hq => .inr (.inr (hnew q hq))
    refine reaches_bind hfront fun _ z hrun hz => hz.complete fun own slots heq => ?_
    rw [hrun] at hsame
    obtain ⟨rfl, rfl⟩ := Completion.reportSteps.inj heq
    refine ⟨rfl, fun q hq => ?_⟩
    obtain ⟨o, ho, rfl⟩ := List.mem_map.mp hq
    exact hsame ▸ hnew o ho

/-- The answers of children go to new slots. -/
theorem Delegation.reaching_queueAll (delegations : List Delegation) :
    Reaching false (queueAll delegations) := by
  intro x
  rw [queueAll]
  split
  · exact .refl x
  · show x.Reaches false ((addStepFirst (.splice ((allot delegations x).1.map fun q =>
        (q.1.path, q.2))) (Operation.build "splice-proxied-results"
          (allot delegations x).2.currentAddress) .model
      >>= fun _ => queueFront (allot delegations x).1).run.run (allot delegations x).2).2
    rw [allot_eq]
    refine reaches_addStepFirst_bind (x.reaches_newSlots _) fun y hy hslots => ?_
    exact (reaches_front rfl (fun _ _ => rfl) hy
      fun q hq => .inr (.inr (mem_zipIdx_new hslots q hq))).1

/-- What is spliced goes to the slot of the running step. -/
theorem Delegation.reaches_splice (parts : List (List String × Nat)) (x : Context) :
    x.Reaches false (splice parts x) := by
  rw [splice]
  induction parts generalizing x with
  | nil => exact .refl x
  | cons p parts ih => exact (x.reaches_setResult _).trans (ih _)

namespace GlobalOperation

variable {α : Type}

theorem reaching_orThrow (o : Except OperationError α) : Reaching false (orThrow o) := by
  cases o with
  | ok a => exact reaching_pure a
  | error e => exact reaching_throw e

theorem reaching_attributeNamed (r : Registration) (name : String) :
    Reaching false (attributeNamed r name) := by
  refine reaching_bind reaching_get fun x => reaching_bind (reaching_orThrow _) fun node => ?_
  split
  · exact reaching_pure _
  · exact reaching_throw _

/-- An attribute is written to the model, or by a step that answers in the same slot. -/
theorem reaching_writeAttributeAct (r : Registration) (operation : Value) :
    Reaching false (writeAttributeAct r operation) := by
  refine reaching_bind (reaching_orThrow _) fun name => reaching_bind reaching_get fun x =>
    reaching_bind (reaching_attributeNamed r name) fun entry => ?_
  dsimp only
  refine reaching_unless fun _ => reaching_when fun _ => reaching_bind (reaching_orThrow _)
    fun _ => ?_
  split
  · exact reaching_addStepFirst (by rintro ⟨⟩)
  · exact reaching_onTransaction _ _

/-- **A global operation stays within its reach.** -/
theorem reaching_run (g : GlobalOperation) (r : Registration) (operation : Value) :
    Reaching false (g.run r operation) := by
  have throws : ∀ {α : Type} (o : Except OperationError α), Reaching false (orThrow o) :=
    fun o => reaching_orThrow o
  cases g with
  | readResource =>
    exact reaching_bind (throws _) fun _ => reaching_bind (throws _) fun _ =>
      reaching_bind (throws _) fun _ => reaching_bind reaching_get fun _ =>
        reaching_bind (throws _) fun _ => reaching_bind reaching_read fun _ =>
          reaching_bind (reaching_setResult _) fun _ => Delegation.reaching_queueAll _
  | readAttribute =>
    refine reaching_bind (throws _) fun _ => reaching_bind (throws _) fun _ =>
      reaching_bind (reaching_attributeNamed r _) fun entry => ?_
    split
    · exact reaching_bind reaching_get fun _ => reaching_addStepFirst (by rintro ⟨⟩)
    · exact reaching_bind reaching_read fun _ => reaching_setResult _
  | writeAttribute => exact reaching_writeAttributeAct r operation
  | undefineAttribute => exact reaching_writeAttributeAct r _
  | readChildrenNames =>
    refine reaching_bind (throws _) fun _ => reaching_bind reaching_get fun _ =>
      reaching_bind (throws _) fun node => ?_
    dsimp only
    exact reaching_unless fun _ => reaching_bind reaching_read fun _ => reaching_setResult _
  | readChildrenTypes =>
    exact reaching_bind reaching_get fun _ => reaching_bind (throws _) fun _ =>
      reaching_setResult _
  | readOperationNames => exact reaching_bind reaching_get fun _ => reaching_setResult _
  | readOperationDescription =>
    refine reaching_bind (throws _) fun _ => reaching_bind reaching_get fun _ => ?_
    dsimp only
    split
    · exact reaching_setResult _
    · exact reaching_throw _
  | readResourceDescription =>
    exact reaching_bind (throws _) fun _ => reaching_bind (throws _) fun _ =>
      reaching_bind (throws _) fun _ => reaching_bind reaching_get fun _ =>
        reaching_bind (throws _) fun _ => reaching_bind (reaching_setResult _)
          fun _ => Delegation.reaching_queueAll _
  | composite => exact Composite.reaching_run r operation
  | validate =>
    show Reaching false (validateAct r operation)
    rw [validateAct]
    split
    · exact reaching_throw _
    · refine reaching_bind (throws _) fun p => reaching_bind (throws _) fun resolved => ?_
      split
      · exact throws _
      · exact reaching_bind reaching_get fun _ => reaching_addStepFirst (by rintro ⟨⟩)

end GlobalOperation

/-! ## Programs over a scene -/

namespace Deed

variable {α β : Type} {mute : Bool}

/-- Whatever the deed does to its context stays within its reach. -/
def Reaching (mute : Bool) (d : Deed α) : Prop :=
  ∀ s : Scene, s.context.Reaches mute (d.run.run s).2.context

theorem reaching_pure (a : α) : Reaching mute (pure a) := fun _ => .refl _

theorem reaching_throw (e : OperationError) : Reaching (α := α) mute (throw e) := fun _ => .refl _

theorem reaching_get : Reaching mute get := fun _ => .refl _

theorem reaching_bind {d : Deed α} {k : α → Deed β} (hd : Reaching mute d)
    (hk : ∀ a, Reaching mute (k a)) : Reaching mute (d >>= k) := by
  intro s
  have hs := hd s
  rw [run_bind]
  split
  · next a t hrun =>
    rw [hrun] at hs
    exact hs.trans (hk a t)
  · next e t hrun =>
    rw [hrun] at hs
    exact hs

/-- What is done to the context alone. -/
theorem reaching_act {f : Act α} (h : Act.Reaching mute f) : Reaching mute (act f) := by
  intro s
  rw [run_act]
  exact h s.context

theorem reaching_orThrow (o : Except OperationError α) : Reaching mute (orThrow o) := by
  cases o with
  | ok a => exact reaching_pure a
  | error e => exact reaching_throw e

theorem reaching_context : Reaching mute context := fun _ => .refl _

theorem reaching_onContext {f : Context → Context} (h : ∀ x : Context, x.Reaches mute (f x)) :
    Reaching mute (onContext f) := fun s => h s.context

/-- The plane has no slots. -/
theorem reaching_onPlane (f : Plane → Plane) : Reaching mute (onPlane f) := fun _ => .refl _

theorem reaching_log (line : String) : Reaching mute (log line) := reaching_onPlane _

theorem reaching_target (named : Option Value) : Reaching mute (target named) := by
  cases named with
  | some v => exact reaching_orThrow _
  | none => exact reaching_bind reaching_context fun _ => reaching_pure _

theorem reaching_resourceName : Reaching mute resourceName := by
  refine reaching_bind reaching_context fun x => ?_
  split
  · exact reaching_pure _
  · exact reaching_throw _

theorem reaching_attachStream (mime text : String) : Reaching mute (attachStream mime text) :=
  fun _ => Context.reaches_of_eq rfl rfl rfl rfl rfl rfl

end Deed

open Deed

namespace WorkerSteps

variable {mute : Bool}

theorem reaching_onWorkers {α : Type}
    (f : WorkerContainer → Except WorkerError (α × WorkerContainer)) :
    Reaching mute (onWorkers f) := by
  refine reaching_bind reaching_get fun s => ?_
  split
  · exact reaching_bind (reaching_onPlane _) fun _ => reaching_pure _
  · exact reaching_throw _

/-- A step that is queued for the same operation. -/
theorem reaching_queueHere (name : String) {handler : Handler} (stage : Stage)
    (h : handler.isMute = true) : Reaching mute (queueHere name handler stage) :=
  reaching_bind reaching_context fun _ => reaching_act (Act.reaching_addStep fun _ => h)

theorem reaching_add (attributes : List AttributeDefinition) (operation : Value) :
    Reaching mute (add attributes operation) :=
  reaching_bind reaching_resourceName fun _ => reaching_bind (reaching_orThrow _) fun _ =>
    reaching_bind (reaching_orThrow _) fun _ => reaching_bind reaching_context fun _ =>
      reaching_bind (reaching_act (Act.reaching_onTransaction _ _)) fun _ =>
        reaching_bind (reaching_queueHere _ _ rfl) fun _ => reaching_queueHere _ _ rfl

theorem reaching_start (name : String) (k : KeepAlive) : Reaching mute (start name k) :=
  reaching_bind (reaching_onWorkers _) fun _ =>
    reaching_act (Act.reaching_complete (by rintro _ _ ⟨⟩))

theorem reaching_remove : Reaching mute remove :=
  reaching_bind reaching_resourceName fun _ => reaching_bind reaching_context fun _ =>
    reaching_bind (reaching_act (Act.reaching_onTransaction _ _)) fun _ =>
      reaching_queueHere _ _ rfl

/-- A worker that is stopped is restored by a completion, which reports nothing. -/
theorem reaching_stop (name : String) : Reaching mute (stop name) := by
  refine reaching_bind reaching_get fun s => ?_
  split
  · exact reaching_bind (reaching_onPlane _) fun _ =>
      reaching_act (Act.reaching_complete (by rintro _ _ ⟨⟩))
  · exact reaching_pure ()

theorem reaching_writeKeepAlive (operation : Value) :
    Reaching mute (writeKeepAlive operation) :=
  reaching_bind reaching_resourceName fun _ => reaching_bind (reaching_orThrow _) fun _ =>
    reaching_bind reaching_context fun _ =>
      reaching_bind (reaching_act (Act.reaching_onTransaction _ _)) fun _ =>
        reaching_queueHere _ _ rfl

theorem reaching_applyKeepAlive (name : String) (k : KeepAlive) :
    Reaching mute (applyKeepAlive name k) :=
  reaching_bind (reaching_onWorkers _) fun _ =>
    reaching_act (Act.reaching_complete (by rintro _ _ ⟨⟩))

end WorkerSteps

/-! ## Scripts and handlers -/

/-- A labelled slot is made. -/
theorem Context.reaches_slot {mute : Bool} (x : Context) (label : String) :
    x.Reaches mute { x.newSlot.2 with labels := Dict.put x.labels label x.newSlot.1 } := by
  have hnew : x.Reaches mute x.newSlot.2 := x.reaches_newSlots 1
  refine ⟨rfl, hnew.length, hnew.slots, fun other i hi => ?_, fun _ _ hs => .inl hs,
    rfl, [], rfl, by rintro _ _ ⟨⟩⟩
  rw [Dict.get?_put] at hi
  split at hi
  · obtain rfl := Option.some.inj hi
    refine .inr ⟨Nat.le_refl _, ?_⟩
    show x.slots.length < (x.slots ++ [({} : ResponseSlot)]).length
    rw [List.length_append]
    exact Nat.lt_succ_self _
  · exact .inl hi

/-- **An instruction stays within its reach**, and a mute one answers nowhere. -/
theorem Instruction.perform_reaches {mute : Bool} (operation : Value) (i : Instruction)
    (hmute : mute = true → i.isMute = true) : Reaching mute (i.perform operation) := by
  have proceeds : ∀ {α : Type} {d : Deed α}, Reaching mute d →
      Reaching mute (d >>= fun _ => pure Effect.proceed) :=
    fun hd => reaching_bind hd fun _ => reaching_pure _
  have writes : i.isMute = false → ∀ {f : Context → Context},
      (∀ x : Context, x.Reaches false (f x)) → Reaching mute (onContext f) := by
    intro hi f hf
    cases mute with
    | false => exact reaching_onContext hf
    | true => cases hi.symm.trans (hmute rfl)
  cases i with
  | set | unset | touch | create =>
    exact reaching_bind (reaching_target _) fun _ =>
      proceeds (reaching_act (Act.reaching_onTransaction _ _))
  | remove =>
    exact reaching_bind (reaching_target _) fun _ =>
      reaching_bind (reaching_act (Act.reaching_onTransaction _ _)) fun _ =>
        proceeds (reaching_log _)
  | read =>
    exact reaching_bind (reaching_target _) fun _ =>
      reaching_bind (reaching_act (Act.reaching_readAt _)) fun _ => proceeds (reaching_log _)
  | snapshot | showResult | showSlot | input | showNote =>
    exact reaching_bind reaching_context fun _ => proceeds (reaching_log _)
  | acquire =>
    exact reaching_bind reaching_context fun _ =>
      reaching_bind (reaching_orThrow _) fun _ => reaching_pure _
  | result | resultOperation | resultPath =>
    exact proceeds (writes rfl fun x => x.reaches_setResult _)
  | resultCancelled =>
    exact reaching_bind reaching_get fun _ =>
      proceeds (writes rfl fun x => x.reaches_setResult _)
  | header =>
    exact proceeds (writes rfl fun x => Context.reaches_modifySlot _ (.inl rfl))
  | failSlot label =>
    exact proceeds (writes rfl fun x =>
      Context.reaches_modifySlot _ (.inr (x.shared_labelled label)))
  | report =>
    exact reaching_bind reaching_context fun _ => proceeds (reaching_onPlane _)
  | slot label => exact proceeds (reaching_onContext fun x => x.reaches_slot label)
  | step stage body other first label =>
    intro s
    have hqueue : ∀ i, s.context.Within s.context i → s.context.Reaches mute
        ((act (Act.queue (.script body) (other.getD operation) stage i first) >>= fun _ =>
          pure Effect.proceed).run.run s).2.context := by
      intro i hi
      have hreaches : s.context.Reaches mute ((Act.queue (.script body) (other.getD operation)
          stage i first).run.run s.context).2 := Act.reaches_queue (.refl _) hi hmute
      rw [run_bind, run_act]
      split
      all_goals
        next hrun =>
        obtain ⟨-, rfl⟩ := Prod.mk.inj hrun
        exact hreaches
    cases label with
    | none => exact hqueue s.context.currentSlot (.inl rfl)
    | some label =>
      exact hqueue (s.context.labelled label) (.inr (.inl (s.context.shared_labelled label)))
  | complete | onRollback =>
    exact proceeds (reaching_onContext fun x => Reaches.complete (.refl x) (by rintro _ _ ⟨⟩))
  | rollbackOnly =>
    exact proceeds (reaching_onContext fun _ => Context.reaches_of_eq rfl rfl rfl rfl rfl rfl)
  | fail error => exact reaching_throw _
  | attempt | wait | nested => exact reaching_pure _
  | log | unknown => exact proceeds (reaching_log _)
  | info | settings | operations =>
    exact reaching_bind reaching_get fun _ => proceeds (reaching_log _)
  | stream mime text asResult =>
    refine reaching_bind (reaching_attachStream _ _) fun id => ?_
    cases asResult with
    | true => exact proceeds (writes rfl fun x => x.reaches_setResult _)
    | false => exact reaching_pure _
  | cancel =>
    refine reaching_bind reaching_context fun x => ?_
    dsimp only
    split
    · exact proceeds (reaching_onPlane _)
    · exact reaching_pure _
  | process change =>
    refine reaching_bind reaching_get fun s => ?_
    cases change with
    | some change => exact proceeds (reaching_onPlane _)
    | none => exact reaching_pure _
  | note key value =>
    exact reaching_bind reaching_context fun _ => reaching_bind
      (reaching_onContext fun _ => Context.reaches_of_eq rfl rfl rfl rfl rfl rfl) fun _ =>
        proceeds (reaching_log _)

/-- **A handler that does not wait stays within its reach**, and a mute one answers nowhere. -/
theorem Handler.deed?_reaches {mute : Bool} {h : Handler} {operation : Value} {d : Deed Unit}
    (hd : h.deed? operation = some d) (hmute : mute = true → h.isMute = true) :
    Reaching mute d := by
  have loud : h.isMute = false → Reaching false d → Reaching mute d := by
    intro hh hreaches
    cases mute with
    | false => exact hreaches
    | true => cases hh.symm.trans (hmute rfl)
  cases h with
  | script | forward => cases hd
  | add attributes =>
    obtain rfl := Option.some.inj hd
    exact reaching_bind (reaching_orThrow _) fun _ => reaching_bind reaching_context fun _ =>
      reaching_act (Act.reaching_onTransaction _ _)
  | remove =>
    obtain rfl := Option.some.inj hd
    exact reaching_bind reaching_context fun _ =>
      reaching_bind (reaching_act (Act.reaching_onTransaction _ _)) fun _ => reaching_pure _
  | global g =>
    obtain rfl := Option.some.inj hd
    exact loud rfl (reaching_bind reaching_get fun _ => reaching_act (g.reaching_run _ _))
  | splice parts =>
    obtain rfl := Option.some.inj hd
    exact loud rfl (reaching_onContext (Delegation.reaches_splice parts))
  | collect slots =>
    obtain rfl := Option.some.inj hd
    exact loud rfl (reaching_onContext fun x => x.reaches_setResult _)
  | seed resources =>
    obtain rfl := Option.some.inj hd
    have hone : ∀ a r, Reaching mute (seedOne a r) := by
      intro a r
      refine reaching_bind reaching_context fun x => ?_
      split
      · exact reaching_pure ()
      · exact reaching_act (Act.reaching_onTransaction _ _)
    clear hmute loud
    induction resources with
    | nil => exact reaching_pure ()
    | cons r resources ih => exact reaching_bind (hone r.1 r.2) fun _ => ih rfl
  | countRuns counter =>
    obtain rfl := Option.some.inj hd
    exact loud rfl (reaching_bind reaching_get fun _ => reaching_bind (reaching_onPlane _)
      fun _ => reaching_onContext fun x => x.reaches_setResult _)
  | addWorker attributes => exact Option.some.inj hd ▸ WorkerSteps.reaching_add _ _
  | startWorker name k => exact Option.some.inj hd ▸ WorkerSteps.reaching_start _ _
  | confirmWorker name => exact Option.some.inj hd ▸ WorkerSteps.reaching_onWorkers _
  | removeWorker => exact Option.some.inj hd ▸ WorkerSteps.reaching_remove
  | stopWorker name => exact Option.some.inj hd ▸ WorkerSteps.reaching_stop _
  | writeKeepAlive => exact Option.some.inj hd ▸ WorkerSteps.reaching_writeKeepAlive _
  | applyKeepAlive name k => exact Option.some.inj hd ▸ WorkerSteps.reaching_applyKeepAlive _ _

end ManagementPlane
