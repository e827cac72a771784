import ManagementPlane.Proofs.Proxied.Confined

/-!
# Proofs/Proxied/Foretold — a validation foretells what an operation comes to
-/

namespace ManagementPlane

open Inquiry (FailsWith)

/-- The machine is about to run the handler that an operation leads to. -/
def Machine.Begins (m : Machine) (owner : Owner) : Prop :=
  ∃ x rest o a slot, m.ready = .operation [x] o :: rest ∧ x.controller = owner.controller ∧
    x.phase = .handling ⟨owner.entry.handler, owner.operation, a, slot⟩ .begin

namespace Machine.Bears

variable {p₀ : Plane} {m : Machine} {W : List Task} {n c c' : Nat} {operation target : Value}
  {proxy : Proxy} {a b : Address} {name text : String} {owner : Owner} {node : Registration}

/-! ## Operations -/

/-- **An operation that a proxy answers for** gets to the controller behind it. -/
theorem proxied (hp : p₀.Resting W) (hm : m.Bears p₀ W n c operation)
    (hc : c < p₀.controllers.length) (hparse : Operation.parse operation = .ok (name, a))
    (hresolve : (p₀.registration c).resolve a name = .ok (.proxied proxy))
    (hhost : p₀.host? proxy.delegate = some c') :
    ∃ m', m.Leads m' ∧ m'.Bears p₀ W n c' (proxy.relative operation a) :=
  hm.hop hp hc (fun _ _ h hx => hx.handsOn_of_proxied hparse (h.registration c ▸ hresolve))
    (hp.federated.of_resolve hc hresolve).2.1 hresolve hhost

/-- **An operation that is refused** is answered with the reason. -/
theorem refused (hp : p₀.Resting W) (hm : m.Bears p₀ W n c operation)
    (hc : c < p₀.controllers.length) (h : p₀.Destined c operation (.refused text)) :
    m.Delivers n (FailsWith · text) := by
  generalize hfate : Fate.refused text = fate at h
  induction h generalizing m with
  | unparsed hparse =>
    obtain rfl := Fate.refused.inj hfate
    exact hm.fails hp fun _ _ _ hx => hx.failsAlone_of_unparsed hparse
  | unresolved hparse hresolve =>
    obtain rfl := Fate.refused.inj hfate
    exact hm.fails hp fun _ _ h hx => hx.failsAlone_of_refused hparse
      (h.registration _ ▸ Execution.consulted_of_unresolved hresolve)
  | rejected hparse hresolve hcheck =>
    obtain rfl := Fate.refused.inj hfate
    exact hm.fails hp fun _ _ h hx => hx.failsAlone_of_refused hparse
      (h.registration _ ▸ Execution.consulted_of_rejected hresolve hcheck)
  | accepted hparse hresolve hcheck => cases hfate
  | proxied hparse hresolve hhost h ih =>
    obtain ⟨m', hleads, hm'⟩ := hm.proxied hp hc hparse hresolve hhost
    obtain ⟨-, -, c', hc', hhost'⟩ := hp.federated.of_resolve hc hresolve
    obtain rfl := Option.some.inj (hhost'.symm.trans hhost)
    exact .of_leads hleads (ih hm' hc' hfate)

/-- **An operation that is accepted** begins its handler. -/
theorem reached (hp : p₀.Resting W) (hm : m.Bears p₀ W n c operation)
    (hc : c < p₀.controllers.length) (h : p₀.Destined c operation (.reached owner)) :
    ∃ m', m.Leads m' ∧ m'.Begins owner := by
  generalize hfate : Fate.reached owner = fate at h
  induction h generalizing m with
  | accepted hparse hresolve hcheck =>
    obtain rfl := Fate.reached.inj hfate
    obtain ⟨p, x, o, levels, hturns, hfresh, -, hunmoved⟩ := hm
    obtain ⟨q, y, hpasses, hphase, hcontroller⟩ := hfresh.begins_of_accepted (p := p) hparse
      (hunmoved.registration _ ▸ hresolve) hcheck (hunmoved.tree _ ▸ hp.free _ hc)
    obtain ⟨m', hleads, hm'⟩ := hturns.passes hpasses
    obtain ⟨rest, hready⟩ := hm'.head
    exact ⟨m', hleads, y, rest, o, _, _, hready, hcontroller, hphase⟩
  | proxied hparse hresolve hhost h ih =>
    obtain ⟨m', hleads, hm'⟩ := hm.proxied hp hc hparse hresolve hhost
    obtain ⟨-, -, c', hc', hhost'⟩ := hp.federated.of_resolve hc hresolve
    obtain rfl := Option.some.inj (hhost'.symm.trans hhost)
    obtain ⟨m'', hleads', hbegins⟩ := ih hm' hc' hfate
    exact ⟨m'', hleads.trans hleads', hbegins⟩
  | _ => cases hfate

/-! ## Validations -/

section

variable (hp : p₀.Resting W) (hm : m.Bears p₀ W n c operation) (hc : c < p₀.controllers.length)
  (hoperation : Operation.Validates operation b target)
  (hserves : (p₀.registration c).resolve b GlobalOperation.validate.name =
    .ok (.here node GlobalOperation.validate.entry))
include hp hm hc hoperation hserves

/-- **The validation of what a proxy answers for** gets to the controller behind it. -/
theorem proxied_validation (hparse : Operation.parse target = .ok (name, a))
    (hresolve : (p₀.registration c).resolve a name = .ok (.proxied proxy))
    (hhost : p₀.host? proxy.delegate = some c') :
    ∃ m', m.Leads m' ∧
      m'.Bears p₀ W n c' (Operation.validation [] (proxy.relative target a)) := by
  have hhop := hm.hop hp hc (fun _ _ h hx => hx.handsOn_of_validation hoperation
    (h.registration c ▸ hserves) hparse (h.registration c ▸ hresolve)) le_rfl hresolve hhost
  rwa [List.drop_length, Operation.set_validation] at hhop

/-- **The validation of an operation that is refused** fails for the same reason. -/
theorem refused_validation (h : p₀.Destined c target (.refused text)) :
    m.Delivers n (FailsWith · text) := by
  generalize hfate : Fate.refused text = fate at h
  induction h generalizing m operation b node with
  | @unparsed c target e hparse =>
    obtain rfl := Fate.refused.inj hfate
    exact hm.fails hp fun _ _ h hx => hx.failsAlone_of_invalid hoperation
      (h.registration _ ▸ hserves) (Operation.ordinary_parse target e hparse)
      (GlobalOperation.run_validate_unparsed hoperation hparse)
  | @unresolved c target name a e hparse hresolve =>
    obtain rfl := Fate.refused.inj hfate
    exact hm.fails hp fun _ _ h hx => hx.failsAlone_of_invalid hoperation
      (h.registration _ ▸ hserves) (Registration.ordinary_resolve _ _ _ e hresolve)
      (GlobalOperation.run_validate_unresolved hoperation hparse (h.registration _ ▸ hresolve))
  | @rejected c target name a node' entry e hparse hresolve hcheck =>
    obtain rfl := Fate.refused.inj hfate
    refine hm.fails hp fun _ _ h hx => hx.failsAlone_of_invalid hoperation
      (h.registration _ ▸ hserves) (OperationDefinition.ordinary_check _ _ e hcheck) fun y => ?_
    rw [GlobalOperation.run_validate_here hoperation hparse (h.registration _ ▸ hresolve), hcheck]
  | accepted hparse hresolve hcheck => cases hfate
  | @proxied c c' target name a proxy fate hparse hresolve hhost h ih =>
    obtain ⟨m', hleads, hm'⟩ :=
      hm.proxied_validation hp hc hoperation hserves hparse hresolve hhost
    obtain ⟨-, -, i, hi, hhost'⟩ := hp.federated.of_resolve hc hresolve
    obtain rfl := Option.some.inj (hhost'.symm.trans hhost)
    obtain ⟨root, hroot⟩ := hp.federated.validates i hi
    exact .of_leads hleads (ih hm' hi (Operation.validates_validation rfl rfl) hroot hfate)

/-- **The validation of an operation that is accepted** succeeds. -/
theorem reached_validation (h : p₀.Destined c target (.reached owner)) :
    m.Delivers n Execution.Succeeds := by
  generalize hfate : Fate.reached owner = fate at h
  induction h generalizing m operation b node with
  | @accepted c target name a node' entry hparse hresolve hcheck =>
    refine hm.completes hp fun _ _ h hx => hx.completesAlone_of_valid hoperation
      (h.registration _ ▸ hserves) fun y => ?_
    rw [GlobalOperation.run_validate_here hoperation hparse (h.registration _ ▸ hresolve), hcheck]
  | @proxied c c' target name a proxy fate hparse hresolve hhost h ih =>
    obtain ⟨m', hleads, hm'⟩ :=
      hm.proxied_validation hp hc hoperation hserves hparse hresolve hhost
    obtain ⟨-, -, i, hi, hhost'⟩ := hp.federated.of_resolve hc hresolve
    obtain rfl := Option.some.inj (hhost'.symm.trans hhost)
    obtain ⟨root, hroot⟩ := hp.federated.validates i hi
    exact .of_leads hleads (ih hm' hi (Operation.validates_validation rfl rfl) hroot hfate)
  | _ => cases hfate

end

end Machine.Bears

/-! ## What neither of them does -/

/-- No value lies in itself. -/
theorem Value.get?_ne_self (v : Value) (key : String) : v.get? key ≠ some v := by
  intro h
  cases v with
  | object fields =>
    have hfield : sizeOf (key, Value.object fields) < sizeOf fields :=
      List.sizeOf_lt_of_mem (Dict.mem_of_get? h)
    simp only [Prod.mk.sizeOf_spec, Value.object.sizeOf_spec] at hfield
    omega
  | _ => cases h

/-- An operation that is handed on keeps its value. -/
theorem Proxy.get?_value_relative (proxy : Proxy) (target : Value) (a : Address) :
    (proxy.relative target a).get? Key.value = target.get? Key.value :=
  (Value.get?_set _ _ _ _).trans (if_neg (by decide))

namespace Plane

open Execution (consulted consulted_of_unresolved consulted_of_rejected consulted_of_proxied
  consulted_eq_ok)

variable {p : Plane} {fate : Fate} {text : String} {value : Option Value} {c : Nat}
  {operation target : Value} {proxy : Proxy} {name : String} {a : Address} {owner : Owner}
  {step : Step}

theorem Destined.of_proxied (h : p.Destined c target fate)
    (hparse : Operation.parse target = .ok (name, a))
    (hresolve : (p.registration c).resolve a name = .ok (.proxied proxy)) :
    ∃ c', p.host? proxy.delegate = some c' ∧ p.Destined c' (proxy.relative target a) fate := by
  cases h with
  | proxied hparse' hresolve' hhost h =>
    cases hparse.symm.trans hparse'
    cases hresolve.symm.trans hresolve'
    exact ⟨_, hhost, h⟩
  | _ => simp_all

theorem Destined.carries (h : p.Destined c target (.reached owner)) :
    owner.operation.get? Key.value = target.get? Key.value := by
  generalize hfate : Fate.reached owner = fate at h
  induction h with
  | accepted =>
    obtain rfl := Fate.reached.inj hfate
    rfl
  | proxied hparse hresolve hhost h ih =>
    exact (ih hfate).trans (Proxy.get?_value_relative _ _ _)
  | _ => cases hfate

/-- A step that hands on an operation that is refused. -/
def Handing (p : Plane) (text : String) (c : Nat) (step : Step) : Prop :=
  ∃ proxy name, step.handler = .forward proxy ∧
    Operation.parse step.operation = .ok (name, step.address) ∧
    (p.registration c).resolve step.address name = .ok (.proxied proxy) ∧
    p.Destined c step.operation (.refused text)

/-- **An operation that is refused** does nothing but hand itself on. -/
theorem confines_refused (p : Plane) (text : String) :
    p.Confines (p.Destined · · (.refused text)) (p.Handing text) where
  opens := by
    intro c operation name a resolved h hparse hconsulted
    cases h with
    | unparsed hparse' => cases hparse.symm.trans hparse'
    | unresolved hparse' hresolve =>
      cases hparse.symm.trans hparse'
      cases hconsulted.symm.trans (consulted_of_unresolved hresolve)
    | rejected hparse' hresolve hcheck =>
      cases hparse.symm.trans hparse'
      cases hconsulted.symm.trans (consulted_of_rejected hresolve hcheck)
    | proxied hparse' hresolve hhost h =>
      cases hparse.symm.trans hparse'
      obtain rfl := Except.ok.inj (hconsulted.symm.trans (consulted_of_proxied hresolve))
      exact ⟨rfl, _, name, rfl, hparse, hresolve, .proxied hparse hresolve hhost h⟩
  works := fun ⟨proxy, _, hhandler, _⟩ => .inl ⟨proxy, hhandler⟩
  forwards := by
    rintro c step proxy ⟨proxy', name, hhandler', hparse, hresolve, h⟩ hhandler
    obtain rfl := Handler.forward.inj (hhandler'.symm.trans hhandler)
    exact h.of_proxied hparse hresolve

/-- A target that leads to that fate, and carries that value. -/
structure Heads (p : Plane) (fate : Fate) (value : Option Value) (c : Nat) (target : Value) :
    Prop where
  known : c < p.controllers.length
  destined : p.Destined c target fate
  carries : target.get? Key.value = value

theorem Heads.of_proxied (h : p.Heads fate value c target) (hp : p.Federated)
    (hparse : Operation.parse target = .ok (name, a))
    (hresolve : (p.registration c).resolve a name = .ok (.proxied proxy)) :
    ∃ c', p.host? proxy.delegate = some c' ∧
      p.Heads fate value c' (proxy.relative target a) := by
  obtain ⟨c', hhost, hdestined⟩ := h.destined.of_proxied hparse hresolve
  obtain ⟨-, -, i, hi, hhost'⟩ := hp.of_resolve h.known hresolve
  obtain rfl := Option.some.inj (hhost'.symm.trans hhost)
  exact ⟨i, hhost, hi, hdestined, (Proxy.get?_value_relative _ _ _).trans h.carries⟩

/-- The operation is an accepted validation of such a target. -/
def Validating (p : Plane) (fate : Fate) (value : Option Value) (c : Nat) (operation : Value) :
    Prop :=
  ∃ b target node, Operation.Validates operation b target ∧
    (p.registration c).resolve b GlobalOperation.validate.name =
      .ok (.here node GlobalOperation.validate.entry) ∧ p.Heads fate value c target

/-- A step that validates such a target, or hands its validation on. -/
def Validations (p : Plane) (fate : Fate) (value : Option Value) (c : Nat) (step : Step) : Prop :=
  step.handler = .global .validate ∧ p.Validating fate value c step.operation ∨
    ∃ proxy target name a slot, step = GlobalOperation.validating proxy target a slot ∧
      Operation.parse target = .ok (name, a) ∧
      (p.registration c).resolve a name = .ok (.proxied proxy) ∧ p.Heads fate value c target

/-- **A validation** does nothing but look at its target and hand itself on. -/
theorem Federated.confines_validation (hp : p.Federated) (fate : Fate) (value : Option Value) :
    p.Confines (p.Validating fate value) (p.Validations fate value) where
  opens := by
    rintro c operation name a resolved ⟨b, target, node, hvalidates, hserves, hheads⟩ hparse
      hconsulted
    cases hparse.symm.trans hvalidates.parsed
    obtain rfl := Except.ok.inj
      (hconsulted.symm.trans (consulted_eq_ok hserves hvalidates.accepted))
    exact ⟨rfl, .inl ⟨rfl, _, target, node, hvalidates, hserves, hheads⟩⟩
  works := by
    rintro c step (⟨hhandler, b, target, node, hvalidates, hserves, hheads⟩ |
      ⟨proxy, target, name, a, slot, rfl, -⟩)
    · refine .inr ⟨hhandler, fun x hstage => ?_⟩
      cases hheads.destined with
      | unparsed hparse =>
        exact .inl ⟨_, GlobalOperation.run_validate_unparsed hvalidates hparse x⟩
      | unresolved hparse hresolve =>
        exact .inl ⟨_, GlobalOperation.run_validate_unresolved hvalidates hparse hresolve x⟩
      | rejected hparse hresolve hcheck =>
        exact .inl ⟨_, GlobalOperation.run_validate_here hvalidates hparse hresolve x⟩
      | accepted hparse hresolve hcheck =>
        exact .inl ⟨_, GlobalOperation.run_validate_here hvalidates hparse hresolve x⟩
      | proxied hparse hresolve hhost h =>
        exact .inr ⟨_, .inr ⟨_, _, _, _, _, rfl, hparse, hresolve, hheads⟩,
          GlobalOperation.run_validate_proxied hvalidates hparse hresolve hstage⟩
    · exact .inl ⟨proxy, rfl⟩
  forwards := by
    rintro c step proxy (⟨hhandler', -⟩ |
      ⟨proxy', target, name, a, slot, rfl, hparse, hresolve, hheads⟩) hhandler
    · cases hhandler'.symm.trans hhandler
    · obtain rfl := Handler.forward.inj hhandler
      obtain ⟨c', hhost, hheads'⟩ := hheads.of_proxied hp hparse hresolve
      obtain ⟨root, hroot⟩ := hp.validates c' hheads'.known
      refine ⟨c', hhost, [], proxy'.relative target a, root, ?_, hroot, hheads'⟩
      show Operation.Validates ((Operation.validation proxy'.node (proxy'.relative target a)).set
        Key.address (Address.toValue (proxy'.node.drop proxy'.node.length))) _ _
      rw [List.drop_length, Operation.set_validation]
      exact Operation.validates_validation rfl rfl

/-- No step of a validation is a step of what it validates. -/
theorem Validations.operation_ne (h : p.Validations fate value c step)
    (hvalue : operation.get? Key.value = value) : step.operation ≠ operation := by
  have hlies : ∃ target, step.operation.get? Key.value = some target ∧
      target.get? Key.value = value := by
    rcases h with ⟨-, b, target, node, hvalidates, -, hheads⟩ |
      ⟨proxy, target, name, a, slot, rfl, -, -, hheads⟩
    · exact ⟨target, hvalidates.value, hheads.carries⟩
    · exact ⟨_, rfl, (Proxy.get?_value_relative _ _ _).trans hheads.carries⟩
  obtain ⟨target, hstep, htarget⟩ := hlies
  rintro rfl
  exact target.get?_ne_self Key.value (htarget.trans (hvalue.symm.trans hstep))

end Plane

end ManagementPlane
