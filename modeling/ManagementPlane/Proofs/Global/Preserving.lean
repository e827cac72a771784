import ManagementPlane.Proofs.Global.Work

/-!
# Proofs/Global/Preserving — what holds of a context throughout the work of a step

An act preserves a property of contexts when the property holds afterwards, whether or not the act
succeeds (`Act.Preserves`).  Two global operations leave work to others: a composite queues its
steps, and a write goes to the model or to the writer of the attribute.  What they preserve is what
those preserve (`Composite.preserves_run`, `GlobalOperation.preserves_writeAttributeAct`).
-/

namespace ManagementPlane

namespace Act

variable {α β : Type} {I : Context → Prop} {P : α → Prop} {Q : β → Prop}

/-- The act preserves `I`, whether or not it succeeds, and what it answers satisfies `P`. -/
def Preserves (I : Context → Prop) (P : α → Prop) (f : Act α) : Prop :=
  ∀ x, I x → I (f.run.run x).2 ∧ ∀ v, (f.run.run x).1 = .ok v → P v

theorem preserves_pure {v : α} (h : P v) : Preserves I P (pure v) :=
  fun _ hx => ⟨hx, fun _ hv => Except.ok.inj hv ▸ h⟩

theorem preserves_throw (e : OperationError) : Preserves I P (throw e) :=
  fun _ hx => ⟨hx, by rintro _ ⟨⟩⟩

/-- What was computed before has to answer as is said. -/
theorem preserves_orThrow {o : Except OperationError α} (h : ∀ v, o = .ok v → P v) :
    Preserves I P (GlobalOperation.orThrow o) := by
  cases o with
  | ok v => exact preserves_pure (h v rfl)
  | error e => exact preserves_throw e

/-- What the first act answers may be assumed of the second. -/
theorem preserves_bind {f : Act α} {k : α → Act β} (hf : Preserves I P f)
    (hk : ∀ v, P v → Preserves I Q (k v)) : Preserves I Q (f >>= k) := by
  intro x hx
  obtain ⟨hI, hP⟩ := hf x hx
  rw [run_bind]
  split
  · rename_i v y hrun
    rw [hrun] at hI hP
    exact hk v (hP v rfl) y hI
  · rename_i e y hrun
    rw [hrun] at hI
    exact ⟨hI, by rintro _ ⟨⟩⟩

/-- What is read off the context satisfies all that is preserved. -/
theorem preserves_get : Preserves I I get := fun _ hx => ⟨hx, fun _ hv => Except.ok.inj hv ▸ hx⟩

theorem preserves_modify {f : Context → Context} (h : ∀ x, I x → I (f x)) :
    Preserves I (fun _ => True) (modify f) := fun x hx => ⟨h x hx, fun _ _ => trivial⟩

theorem preserves_modifyGet {f : Context → α × Context} (h : ∀ x, I x → I (f x).2 ∧ P (f x).1) :
    Preserves I P (modifyGet f) :=
  fun x hx => ⟨(h x hx).1, fun _ hv => Except.ok.inj hv ▸ (h x hx).2⟩

/-- A step is queued in a stage that is not over, with the address of its operation. -/
theorem preserves_queue {handler : Handler} {operation : Value} {stage : Stage} {slot : Nat}
    {first : Bool} (h : ∀ (x : Context) a, I x → ¬ stage < x.stage →
      Operation.addressOf operation = .ok a →
      I { x with queues := x.queues.add stage ⟨handler, operation, a, slot⟩ first }) :
    Preserves I (fun _ => True) (queue handler operation stage slot first) := by
  intro x hx
  refine ⟨?_, fun _ _ => trivial⟩
  rw [queue, run_attempt, Context.queueStep]
  split
  · rename_i y hy
    split at hy
    · cases hy
    · rename_i hstage
      cases ha : Operation.addressOf operation with
      | error e =>
        rw [ha] at hy
        cases hy
      | ok a =>
        rw [ha] at hy
        obtain rfl := (Prod.mk.inj (Except.ok.inj hy)).2
        exact h x a hx hstage ha
  · exact hx

theorem preserves_addStepFirst {handler : Handler} {operation : Value} {stage : Stage}
    (h : ∀ (x : Context) a slot, I x → ¬ stage < x.stage → Operation.addressOf operation = .ok a →
      I { x with queues := x.queues.add stage ⟨handler, operation, a, slot⟩ true }) :
    Preserves I (fun _ => True) (addStepFirst handler operation stage) :=
  preserves_bind preserves_get fun y _ => preserves_queue fun x a => h x a y.currentSlot

/-- Only the first stage writes, so the change has to preserve the invariant there. -/
theorem preserves_onTransaction {what : String}
    {f : Transaction → Except OperationError α × Transaction}
    (h : ∀ x : Context, I x → x.stage = .model → I { x with transaction := (f x.transaction).2 }) :
    Preserves I (fun _ => True) (onTransaction what f) := by
  intro x hx
  refine ⟨?_, fun _ _ => trivial⟩
  by_cases hstage : x.stage = .model
  · rw [run_onTransaction what f hstage]
    exact h x hx hstage
  · rw [onTransaction_of_error (if_neg hstage)]
    exact hx

end Act

open Act

/-! ## Composites -/

namespace Composite

variable {r : Registration} {base : Address} {i : Nat} {I : Context → Prop}

/-- To allot slots preserves what every new slot preserves. -/
theorem preserves_allot (hslot : ∀ x, I x → I x.newSlot.2) (ps : List Planned) (x : Context)
    (hx : I x) : I (allot ps x).2 ∧ ∀ p ∈ (allot ps x).1, p.1 ∈ ps := by
  induction ps generalizing x with
  | nil => exact ⟨hx, by rintro _ ⟨⟩⟩
  | cons p ps ih =>
    obtain ⟨hI, hmem⟩ := ih _ (hslot x hx)
    exact ⟨hI, List.forall_mem_cons.mpr ⟨List.mem_cons_self,
      fun q hq => List.mem_cons_of_mem _ (hmem q hq)⟩⟩

/-- The operations of a composite are queued one after the other. -/
theorem preserves_queueFront {ps : List (Planned × Nat)} (h : ∀ p ∈ ps, ∀ (x : Context) a, I x →
      Operation.addressOf p.1.operation = .ok a →
      I { x with queues := x.queues.add .model ⟨p.1.handler, p.1.operation, a, p.2⟩ true }) :
    Preserves I (fun _ => True) (queueFront ps) := by
  induction ps with
  | nil => exact preserves_pure trivial
  | cons p ps ih =>
    obtain ⟨hp, hps⟩ := List.forall_mem_cons.mp h
    exact preserves_bind (ih hps) fun _ _ => preserves_queue fun x a hx _ ha => hp x a hx ha

/-- **A composite preserves** what its steps, queued where they lead to, preserve. -/
theorem preserves_run {operation : Value} {S : Step → Prop}
    (haddress : ∀ x, I x → x.currentAddress = base)
    (hqueue : ∀ (x : Context) step, I x → S step →
      I { x with queues := x.queues.add .model step true })
    (hslot : ∀ x, I x → I x.newSlot.2)
    (hcomplete : ∀ x own slots, I x → I (x.complete (.reportSteps own slots)))
    (hcollect : ∀ slots operation a i, S ⟨.collect slots, operation, a, i⟩)
    (hsteps : ∀ step ∈ stepsOf operation, ∀ name relative resolved,
      Operation.parse step = .ok (name, relative) →
      r.resolve (base ++ relative) name = .ok resolved →
      ∀ i, S ⟨resolved.handler, step.set Key.address (base ++ relative).toValue,
        base ++ relative, i⟩) :
    Preserves I (fun _ => True) (Composite.run r operation) := by
  refine preserves_bind preserves_get fun x hx => ?_
  dsimp only
  rw [haddress x hx]
  split
  · exact preserves_throw _
  · rename_i planned hplan
    have hplanned := exists_of_mem_planFrom (planFrom_of_plan hplan)
    have hallot : Preserves I (fun allotted => ∀ p ∈ allotted, p.1 ∈ planned)
        (modifyGet (allot planned)) := preserves_modifyGet (preserves_allot hslot planned)
    refine preserves_bind preserves_get fun _ _ =>
      preserves_bind hallot fun allotted hmem => ?_
    refine preserves_bind (preserves_addStepFirst fun y a slot hy _ _ =>
      hqueue y _ hy (hcollect _ _ a slot)) fun _ _ => ?_
    refine preserves_bind (preserves_queueFront fun p hp y a hy ha => ?_) fun _ _ =>
      preserves_modify fun y hy => hcomplete y _ _ hy
    obtain ⟨step, hstep, name, relative, resolved, hparse, hresolve, hoperation, hhandler⟩ :=
      hplanned _ (hmem p hp)
    rw [hoperation, Operation.addressOf_set] at ha
    obtain rfl := Except.ok.inj ha
    rw [hoperation, hhandler]
    exact hqueue y _ hy (hsteps step hstep name relative resolved hparse hresolve p.2)

end Composite

/-! ## Writing an attribute -/

namespace GlobalOperation

variable {r : Registration} {a : Address} {I : Context → Prop}

/-- The attribute that is found is registered at the address of the operation. -/
theorem preserves_attributeNamed (haddress : ∀ x, I x → x.currentAddress = a) (name : String) :
    Preserves I (fun entry => ∃ node, r.findLocal a = .ok node ∧
      Dict.get? node.attributes name = some entry) (attributeNamed r name) := by
  refine preserves_bind preserves_get fun x hx => ?_
  dsimp only
  rw [haddress x hx]
  refine preserves_bind (P := fun node => r.findLocal a = .ok node)
    (preserves_orThrow fun _ h => h) fun node hnode => ?_
  split
  · rename_i entry hentry
    exact preserves_pure ⟨node, hnode, hentry⟩
  · exact preserves_throw _

/-- **A write of an attribute preserves** what the writing itself preserves, once the value has
passed the definition of the attribute. -/
theorem preserves_writeAttributeAct {operation : Value}
    (haddress : ∀ x, I x → x.currentAddress = a)
    (hwrite : ∀ name node entry, r.findLocal a = .ok node →
      Dict.get? node.attributes name = some entry →
      entry.definition.check (operation.get Key.value) = .ok () →
      Preserves I (fun _ => True) (match entry.writer with
        | some writer => Act.addStepFirst writer operation .model
        | none => Act.updateAt a fun node =>
          if (operation.get Key.value).isDefined then
            node.setAttribute name (operation.get Key.value)
          else node.removeAttribute name)) :
    Preserves I (fun _ => True) (writeAttributeAct r operation) := by
  refine preserves_bind (P := fun _ => True) (preserves_orThrow fun _ _ => trivial) fun name _ => ?_
  refine preserves_bind preserves_get fun x hx => ?_
  dsimp only
  rw [haddress x hx]
  refine preserves_bind (preserves_attributeNamed haddress name) fun entry hentry => ?_
  obtain ⟨node, hnode, hentry⟩ := hentry
  have hchecked : Preserves I (fun _ => True)
      (orThrow (entry.definition.check (operation.get Key.value)) >>= fun _ =>
        match entry.writer with
        | some writer => Act.addStepFirst writer operation .model
        | none => Act.updateAt a fun node =>
          if (operation.get Key.value).isDefined then
            node.setAttribute name (operation.get Key.value)
          else node.removeAttribute name) :=
    preserves_bind (preserves_orThrow fun _ h => h) fun _ hcheck =>
      hwrite name node entry hnode hentry hcheck
  split
  · split
    · exact preserves_bind (P := fun _ => True) (preserves_throw _) fun _ _ => hchecked
    · exact hchecked
  · refine preserves_bind (P := fun _ => True) (preserves_throw _) fun _ _ => ?_
    split
    · exact preserves_bind (P := fun _ => True) (preserves_throw _) fun _ _ => hchecked
    · exact hchecked

end GlobalOperation

end ManagementPlane
