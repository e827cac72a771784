import ManagementPlane.Proofs.Global.Upshot
import ManagementPlane.Proofs.Value.Paths

/-!
# Proofs/Proxied/Asking — answers that others have to complete

A step may answer a value with gaps and leave questions to proxied controllers.  An `Inquiry` is
such a value with its questions: `Inquiry.run_act` says what the step leaves in the queue and in the
slots, one step and one slot for each question and a last step that puts the answers into the gaps,
and `Inquiry.splice_eq` what that last step makes of the value.
-/

namespace ManagementPlane

namespace Delegation

/-- The address that a question carries. -/
def address (d : Delegation) : Address :=
  match Operation.addressOf d.operation with
  | .ok a => a
  | .error _ => Address.root

/-- The question concerns what is at its proxy or below it. -/
structure Sound (d : Delegation) : Prop where
  addressed : Operation.addressOf d.operation = .ok d.address
  below : d.proxy.node.length ≤ d.address.length

/-- What the proxy is asked, which knows addresses from its own root on. -/
def question (d : Delegation) : Proxy × Value :=
  (d.proxy, d.operation.set Key.address (Address.toValue (d.address.drop d.proxy.node.length)))

/-- The step that asks, and whose answer goes to a slot. -/
def step (d : Delegation) (slot : Nat) : Step :=
  { handler := .forward d.proxy, operation := d.operation, address := d.address, slot }

/-- Why an operation fails whose question was answered with a failure. -/
def failure (d : Delegation) (response : Value) : String :=
  (Response.failureText? response).getD ("proxied operation at " ++ d.address.text ++ " failed")

theorem allot_eq (ds : List Delegation) (x : Context) :
    allot ds x = (ds.zipIdx x.slots.length,
      { x with slots := x.slots ++ List.replicate ds.length {} }) := by
  induction ds generalizing x with
  | nil => simp [allot]
  | cons d ds ih => simp [allot, Context.newSlot, ih, List.replicate_succ, List.zipIdx_cons]

theorem run_queueFront {l : List (Delegation × Nat)} {x : Context} (hstage : x.stage = .model)
    (hl : ∀ q ∈ l, q.1.Sound) :
    (queueFront l).run.run x = (.ok (), { x with queues := { x.queues with
      model := l.map (fun q => q.1.step q.2) ++ x.queues.model } }) := by
  induction l with
  | nil => rfl
  | cons q l ih =>
    obtain ⟨hq, hl⟩ := List.forall_mem_cons.mp hl
    rw [queueFront, run_bind, ih hl]
    exact Composite.run_queue hstage hq.addressed

/-- The results of slots, each with its path. -/
def results (x : Context) (parts : List (List String × Nat)) : List (List String × Value) :=
  parts.map fun part => (part.1, (x.slot part.2).result)

/-- **Answers are written one after another**, each at its path. -/
theorem splice_eq {parts : List (List String × Nat)} {x : Context} {s : ResponseSlot}
    {rest : List ResponseSlot} (hslot : x.currentSlot = 0) (hslots : x.slots = s :: rest)
    (hparts : ∀ part ∈ parts, part.2 ≠ 0) : splice parts x =
      { x with slots := { s with result := s.result.replaceAll (results x parts) } :: rest } := by
  induction parts generalizing x s with
  | nil =>
    show x = { x with slots := s :: rest }
    rw [← hslots]
  | cons part parts ih =>
    obtain ⟨hpart, hparts⟩ := List.forall_mem_cons.mp hparts
    have hresult : x.result = s.result := by rw [Context.result, hslot, Context.slot, hslots]; rfl
    set y := x.setResult (x.result.setPath part.1 (x.slot part.2).result) with hy
    have hyslots : y.slots =
        { s with result := s.result.setPath part.1 (x.slot part.2).result } :: rest := by
      rw [hy, Context.setResult, Context.modifySlot, hslot, hslots, hresult]
      rfl
    have hothers : ∀ i, i ≠ 0 → y.slot i = x.slot i := by
      intro i hi
      obtain ⟨i, rfl⟩ := Nat.exists_eq_succ_of_ne_zero hi
      rw [Context.slot, Context.slot, hyslots, hslots]
      rfl
    have hvalues : results y parts = results x parts :=
      List.map_congr_left fun other hother => by rw [hothers _ (hparts other hother)]
    refine (ih (x := y) hslot hyslots hparts).trans ?_
    rw [hvalues]
    rfl

end Delegation

/-- A value with gaps, and the questions whose answers belong there. -/
structure Inquiry where
  address : Address
  value : Value
  questions : List Delegation

namespace Inquiry

variable {I : Inquiry} {x : Context} {ws : List Value}

/-- Answers the value and leaves the questions. -/
def act (I : Inquiry) : Act Unit := do
  Act.setResult I.value
  Delegation.queueAll I.questions

/-- The places of the answers, and the slots where they are to be found. -/
def parts (I : Inquiry) : List (List String × Nat) :=
  (I.questions.zipIdx 1).map fun q => (q.1.path, q.2)

/-- The step that puts the answers into the value. -/
def splicing (I : Inquiry) : Step where
  handler := .splice I.parts
  operation := Operation.build "splice-proxied-results" I.address
  address := I.address
  slot := Context.rootSlot

/-- The steps that are left when `k` questions are answered. -/
def steps (I : Inquiry) (k : Nat) : List Step :=
  ((I.questions.zipIdx 1).drop k).map (fun q => q.1.step q.2) ++ [I.splicing]

/-- The slots when some questions are answered. -/
def slots (I : Inquiry) (ws : List Value) : List ResponseSlot :=
  .answered I.value :: ws.map .answered ++
    List.replicate (I.questions.length - ws.length) ({} : ResponseSlot)

/-- The value with answers at their places. -/
def result (I : Inquiry) (ws : List Value) : Value :=
  I.value.replaceAll ((I.questions.map (·.path)).zip ws)

theorem setResult_value (hslot : x.currentSlot = 0) (hslots : x.slots = [({} : ResponseSlot)]) :
    x.setResult I.value = { x with slots := [.answered I.value] } := by
  rw [Context.setResult, Context.modifySlot, hslot, hslots]
  rfl

/-- Every question has a slot of its own. -/
theorem run_allot (I : Inquiry) (x : Context) :
    (modifyGet (Delegation.allot I.questions) : Act _).run.run
      { x with slots := [.answered I.value] } =
      (.ok (I.questions.zipIdx 1), { x with slots := I.slots [] }) := by
  show (Except.ok (Delegation.allot _ _).1, (Delegation.allot _ _).2) = _
  rw [Delegation.allot_eq]
  rfl

/-- The step that puts the answers into the value is queued before all others. -/
theorem run_addSplicing (hstage : x.stage = .model) (hslot : x.currentSlot = 0)
    (hqueue : x.queues.model = []) : (Act.addStepFirst (.splice I.parts)
      (Operation.build "splice-proxied-results" I.address) .model).run.run x =
        (.ok (), { x with queues := { x.queues with model := [I.splicing] } }) := by
  have hplace : Operation.addressOf (Operation.build "splice-proxied-results" I.address) =
      .ok I.address := Address.ofValue_toValue I.address
  refine (Composite.run_queue (h := .splice I.parts) (i := x.currentSlot) hstage hplace).trans ?_
  rw [hqueue, hslot]
  rfl

/-- **A step that leaves questions** queues one step for each, and one behind them. -/
theorem run_act (hquestions : ∀ d ∈ I.questions, d.Sound) (hstage : x.stage = .model)
    (hactive : x.active = some { address := I.address, slot := 0 })
    (hslots : x.slots = [({} : ResponseSlot)]) (hqueue : x.queues.model = []) :
    I.act.run.run x = (.ok (), { x with
      slots := I.slots []
      queues := { x.queues with model := if I.questions = [] then [] else I.steps 0 } }) := by
  have hslot : x.currentSlot = 0 := by rw [Context.currentSlot, hactive]; rfl
  have haddress : x.currentAddress = I.address := by rw [Context.currentAddress, hactive]; rfl
  have hvalue : I.act.run.run x =
      (Delegation.queueAll I.questions).run.run { x with slots := [.answered I.value] } := by
    rw [← setResult_value hslot hslots]
    rfl
  rw [hvalue]
  by_cases hnone : I.questions = []
  · rw [if_pos hnone, Inquiry.slots, hnone, ← hqueue]
    rfl
  · have hfront : ∀ q ∈ I.questions.zipIdx 1, q.1.Sound := fun q hq =>
      hquestions q.1 (List.fst_mem_of_mem_zipIdx hq)
    have hsplicing := run_addSplicing (I := I) (x := { x with slots := I.slots [] }) hstage hslot
      hqueue
    rw [Delegation.queueAll, if_neg (by simpa using hnone), if_neg hnone]
    show ((modifyGet (Delegation.allot I.questions) : Act _) >>= fun allotted =>
      get >>= fun y => Act.addStepFirst (.splice (allotted.map fun q => (q.1.path, q.2)))
        (Operation.build "splice-proxied-results" y.currentAddress) .model >>= fun _ =>
      Delegation.queueFront allotted).run.run { x with slots := [.answered I.value] } = _
    rw [run_bind, run_allot]
    dsimp only
    rw [run_get, show ({ x with slots := I.slots [] } : Context).currentAddress = I.address from
      haddress, run_bind, ← Inquiry.parts, hsplicing]
    dsimp only
    rw [Delegation.run_queueFront (by exact hstage) hfront]
    rfl

theorem slot_answered {k : Nat} {w : Value} (hslots : x.slots = I.slots ws)
    (hw : ws[k]? = some w) : x.slot (k + 1) = .answered w := by
  obtain ⟨hk, -⟩ := List.getElem?_eq_some_iff.mp hw
  rw [Context.slot, hslots, Inquiry.slots, List.cons_append, List.getElem?_cons_succ,
    List.getElem?_append_left (by simpa using hk), List.getElem?_map, hw]
  rfl

theorem slot_root (hslots : x.slots = I.slots ws) :
    x.slot Context.rootSlot = .answered I.value := by
  rw [Context.slot, hslots]
  rfl

/-- An answer goes to the slot of its question. -/
theorem slots_concat {w : Value} (hlength : ws.length < I.questions.length) :
    (I.slots ws).modify (ws.length + 1) ({ · with result := w }) = I.slots (ws ++ [w]) := by
  obtain ⟨n, hn⟩ := Nat.exists_eq_add_of_lt hlength
  set blanks := List.replicate n ({} : ResponseSlot) with hblanks
  have hslots : I.slots ws =
      .answered I.value :: (ws.map .answered ++ ({} : ResponseSlot) :: blanks) := by
    rw [Inquiry.slots, show I.questions.length - ws.length = n + 1 by omega]
    rfl
  have hnext : I.slots (ws ++ [w]) =
      .answered I.value :: (ws.map .answered ++ .answered w :: blanks) := by
    rw [Inquiry.slots, List.length_append, List.length_singleton,
      show I.questions.length - (ws.length + 1) = n by omega]
    simp [hblanks]
  have hblank : (I.slots ws)[ws.length + 1]? = some {} := by
    rw [hslots, List.getElem?_cons_succ, List.getElem?_append_right (by simp)]
    simp
  rw [Execution.modify_blank hblank, hslots, hnext, List.set_cons_succ,
    List.set_append_right _ _ (by simp)]
  simp

/-- **The last step puts every answer at its place.** -/
theorem splice_eq (hslot : x.currentSlot = 0) (hslots : x.slots = I.slots ws)
    (hlength : ws.length = I.questions.length) : Delegation.splice I.parts x =
      { x with slots := .answered (I.result ws) :: ws.map .answered } := by
  have hrest : I.slots ws = .answered I.value :: ws.map .answered := by
    rw [Inquiry.slots, hlength, Nat.sub_self, List.replicate_zero, List.append_nil]
  have hparts : ∀ part ∈ I.parts, part.2 ≠ 0 := by
    intro part hpart
    obtain ⟨⟨d, i⟩, hq, rfl⟩ := List.mem_map.mp hpart
    have hi : 1 ≤ i := List.le_snd_of_mem_zipIdx hq
    exact Nat.one_le_iff_ne_zero.mp hi
  have hvalues : Delegation.results x I.parts = (I.questions.map (·.path)).zip ws := by
    refine List.ext_getElem? fun k => ?_
    rw [Delegation.results, Inquiry.parts, List.map_map, List.getElem?_map, List.getElem?_zipIdx,
      List.zip_eq_zipWith, List.getElem?_zipWith, List.getElem?_map]
    cases hd : I.questions[k]? with
    | none => rfl
    | some d =>
      obtain ⟨hk, -⟩ := List.getElem?_eq_some_iff.mp hd
      obtain ⟨w, hw⟩ : ∃ w, ws[k]? = some w := ⟨_, List.getElem?_eq_getElem (hlength ▸ hk)⟩
      simp [hw, Nat.add_comm 1 k, slot_answered hslots hw, ResponseSlot.answered]
  rw [Delegation.splice_eq hslot (hslots.trans hrest) hparts, hvalues]
  rfl

end Inquiry

end ManagementPlane
