import ManagementPlane.Proofs.Proxied.Splicing

/-!
# Proofs/Proxied/Destined — what an operation comes to before its handler runs

An operation is parsed, resolved and checked, on the controller that it is submitted to or on the
one that a proxy hands it on to (`Plane.Destined`).  In a federation (`Plane.Federated`) every
operation comes to one end: it reaches the handler of a controller, or it is refused
(`Federated.destined`).

A validation of the operation takes the same way, with the operation as its value.  What it does on
one controller is read off the same constructors (`GlobalOperation.run_validate_here` and its
siblings), and what it hands on is the validation of what the operation itself hands on
(`Operation.set_validation`).
-/

namespace ManagementPlane

/-- A controller, an operation as it gets there, and what it leads to. -/
structure Owner where
  controller : Nat
  operation : Value
  entry : OperationEntry

/-- What an operation comes to before its handler runs. -/
inductive Fate
  | reached (owner : Owner)
  | refused (text : String)

/-- The value that is forwarded to the controller behind a proxy. -/
def Proxy.relative (proxy : Proxy) (operation : Value) (a : Address) : Value :=
  operation.set Key.address (Address.toValue (a.drop proxy.node.length))

/-- **Behind a proxy** the operation has the same name, at the rest of its address. -/
theorem Proxy.parse_relative {proxy : Proxy} {operation : Value} {name : String} {a : Address}
    (h : Operation.parse operation = .ok (name, a)) :
    Operation.parse (proxy.relative operation a) = .ok (name, a.drop proxy.node.length) := by
  obtain ⟨hname, hempty, -, hconcrete⟩ := Operation.parse_eq_ok.mp h
  refine Operation.parse_eq_ok.mpr ⟨?_, hempty, Operation.addressOf_set _ _, ?_⟩
  · rw [relative, Value.get?_set, if_neg (by decide), hname]
  · rw [← List.take_append_drop proxy.node.length a, Address.isConcrete_append] at hconcrete
    exact (Bool.and_eq_true _ _ ▸ hconcrete).2

theorem Registration.proxyFor?_ne_nil {r : Registration} {a : Address} {proxy : Proxy}
    (hroot : r.proxy = none) : r.proxyFor? a ≠ some ([], proxy) := by
  cases a with
  | nil =>
    rw [proxyFor?_nil hroot]
    rintro ⟨⟩
  | cons e es =>
    rw [proxyFor?_cons hroot]
    simp [Option.bind_eq_some_iff]

namespace Plane

variable {p : Plane} {c c' n : Nat} {operation : Value} {fate other : Fate} {a b : Address}
  {name description : String} {e : OperationError} {node : Registration} {entry : OperationEntry}
  {proxy : Proxy}

/-- The controller that answers behind a proxy. -/
def host? (p : Plane) : Delegate → Option Nat
  | .controller c => some c
  | .actor a => some (p.actor a).controller
  | _ => none

/-- **What an operation comes to** on a controller, and on those that proxies hand it on to. -/
inductive Destined (p : Plane) : Nat → Value → Fate → Prop
  | unparsed {c : Nat} {operation : Value} {e : OperationError}
      (hparse : Operation.parse operation = .error e) : Destined p c operation (.refused e.message)
  | unresolved {c : Nat} {operation : Value} {name : String} {a : Address} {e : OperationError}
      (hparse : Operation.parse operation = .ok (name, a))
      (hresolve : (p.registration c).resolve a name = .error e) :
    Destined p c operation (.refused e.message)
  /-- The parameters are wrong. -/
  | rejected {c : Nat} {operation : Value} {name : String} {a : Address} {node : Registration}
      {entry : OperationEntry} {e : OperationError}
      (hparse : Operation.parse operation = .ok (name, a))
      (hresolve : (p.registration c).resolve a name = .ok (.here node entry))
      (hcheck : entry.definition.check operation = .error e) :
    Destined p c operation (.refused e.message)
  | accepted {c : Nat} {operation : Value} {name : String} {a : Address} {node : Registration}
      {entry : OperationEntry} (hparse : Operation.parse operation = .ok (name, a))
      (hresolve : (p.registration c).resolve a name = .ok (.here node entry))
      (hcheck : entry.definition.check operation = .ok ()) :
    Destined p c operation (.reached ⟨c, operation, entry⟩)
  /-- A proxy answers for the address. -/
  | proxied {c c' : Nat} {operation : Value} {name : String} {a : Address} {proxy : Proxy}
      {fate : Fate} (hparse : Operation.parse operation = .ok (name, a))
      (hresolve : (p.registration c).resolve a name = .ok (.proxied proxy))
      (hhost : p.host? proxy.delegate = some c')
      (h : Destined p c' (proxy.relative operation a) fate) : Destined p c operation fate

theorem Destined.unique (h : p.Destined c operation fate) (h' : p.Destined c operation other) :
    other = fate := by
  induction h with
  | unparsed hparse => cases h' <;> simp_all
  | unresolved hparse hresolve => cases h' <;> simp_all
  | rejected hparse hresolve hcheck => cases h' <;> simp_all
  | accepted hparse hresolve hcheck => cases h' <;> simp_all
  | proxied hparse hresolve hhost h ih =>
    cases h' with
    | proxied hparse' hresolve' hhost' h' =>
      cases hparse.symm.trans hparse'
      cases hresolve.symm.trans hresolve'
      cases hhost.symm.trans hhost'
      exact ih h'
    | _ => simp_all

/-- **Controllers that are connected by proxies.**  Each is built by registrations with its proxies
as deep as their nodes, offers the validation of operations at its root, and hands on to another one
whatever it does not answer for itself. -/
structure Federated (p : Plane) : Prop where
  built : ∀ c < p.controllers.length, ∃ description calls,
    p.registration c = (Registration.root description).built calls ∧
      ((Registration.root description).built calls).Placed
  validates : ∀ c < p.controllers.length, ∃ node,
    (p.registration c).resolve [] GlobalOperation.validate.name =
      .ok (.here node GlobalOperation.validate.entry)
  joined : ∀ c < p.controllers.length, ∀ a b proxy,
    (p.registration c).proxyFor? a = some (b, proxy) →
      ∃ c' < p.controllers.length, p.host? proxy.delegate = some c'

theorem Federated.of_resolve (hp : p.Federated) (hc : c < p.controllers.length)
    (h : (p.registration c).resolve a name = .ok (.proxied proxy)) :
    0 < proxy.node.length ∧ proxy.node.length ≤ a.length ∧
      ∃ c' < p.controllers.length, p.host? proxy.delegate = some c' := by
  obtain ⟨b, howner⟩ := Registration.resolve_proxied_iff.mp h
  obtain ⟨description, calls, hbuilt, hplaced⟩ := hp.built c hc
  have hlength : proxy.node.length = b.length :=
    Registration.length_of_proxyFor? hplaced (hbuilt ▸ howner)
  have hroot : (p.registration c).proxy = none := by
    obtain ⟨node, hvalidates⟩ := hp.validates c hc
    cases hproxy : (p.registration c).proxy with
    | none => rfl
    | some owner =>
      rw [Registration.resolve, Registration.proxyFor?_of_proxy hproxy] at hvalidates
      cases hvalidates
  refine ⟨?_, ?_, hp.joined c hc a b proxy howner⟩
  · rw [hlength, List.length_pos_iff]
    rintro rfl
    exact Registration.proxyFor?_ne_nil hroot howner
  · rw [hlength]
    obtain ⟨⟨depth, owner⟩, -, heq⟩ := Option.map_eq_some_iff.mp howner
    rw [← (Prod.mk.inj heq).1]
    exact List.length_take_le' _ _

/-- **Every operation comes to an end**, since its address gets shorter with every proxy. -/
theorem Federated.destined (hp : p.Federated) (hc : c < p.controllers.length) (operation : Value) :
    ∃ fate, p.Destined c operation fate := by
  have hlength : ∀ n, ∀ c < p.controllers.length, ∀ operation,
      (∀ name a, Operation.parse operation = .ok (name, a) → a.length < n) →
        ∃ fate, p.Destined c operation fate := by
    intro n
    induction n with
    | zero =>
      intro c hc operation hn
      cases hparse : Operation.parse operation with
      | error e => exact ⟨_, .unparsed hparse⟩
      | ok parsed => exact absurd (hn _ _ hparse) (Nat.not_lt_zero _)
    | succ n ih =>
      intro c hc operation hn
      cases hparse : Operation.parse operation with
      | error e => exact ⟨_, .unparsed hparse⟩
      | ok parsed =>
        obtain ⟨name, a⟩ := parsed
        cases hresolve : (p.registration c).resolve a name with
        | error e => exact ⟨_, .unresolved hparse hresolve⟩
        | ok resolved =>
          cases resolved with
          | here node entry =>
            cases hcheck : entry.definition.check operation with
            | error e => exact ⟨_, .rejected hparse hresolve hcheck⟩
            | ok _ => exact ⟨_, .accepted hparse hresolve hcheck⟩
          | proxied proxy =>
            obtain ⟨hpos, hle, c', hc', hhost⟩ := hp.of_resolve hc hresolve
            obtain ⟨fate, hfate⟩ := ih c' hc' (proxy.relative operation a)
                fun name' a' hparse' => by
              rw [Proxy.parse_relative hparse] at hparse'
              obtain ⟨-, rfl⟩ := Prod.mk.inj (Except.ok.inj hparse')
              have := hn _ _ hparse
              rw [List.length_drop]
              omega
            exact ⟨fate, .proxied hparse hresolve hhost hfate⟩
  cases hparse : Operation.parse operation with
  | error e => exact ⟨_, .unparsed hparse⟩
  | ok parsed =>
    refine hlength (parsed.2.length + 1) c hc operation fun name a h => ?_
    rw [Except.ok.inj (hparse.symm.trans h)]
    exact Nat.lt_succ_self _

end Plane

/-! ## Validations -/

namespace Operation

/-- The validation of an operation, at an address. -/
def validation (a : Address) (target : Value) : Value :=
  (build GlobalOperation.validate.name a).set Key.value target

/-- The operation is an accepted validation of the target, at an address. -/
structure Validates (operation : Value) (a : Address) (target : Value) : Prop where
  parsed : parse operation = .ok (GlobalOperation.validate.name, a)
  value : operation.get? Key.value = some target
  object : target.type = .object
  accepted : GlobalOperation.validate.definition.check operation = .ok ()

variable {a b : Address} {target operation : Value}

theorem validates_validation (ha : a.isConcrete = true) (h : target.type = .object) :
    Validates (validation a target) a target where
  parsed := parse_eq_ok.mpr ⟨rfl, by decide, Address.ofValue_toValue a, ha⟩
  value := rfl
  object := h
  accepted := by cases target <;> first | rfl | cases h

theorem set_validation (a b : Address) (target : Value) :
    (validation a target).set Key.address (Address.toValue b) = validation b target := rfl

end Operation

namespace GlobalOperation

variable {r node : Registration} {operation target : Value} {a b : Address} {name : String}
  {e : OperationError} {entry : OperationEntry} {proxy : Proxy}

theorem filter_value (h : Operation.Validates operation b target) :
    (operation.get? Key.value).filter Value.isDefined = some target := by
  rw [h.value, Option.filter_some, if_pos]
  cases target <;> first | rfl | cases h.object

/-- **A validation fails as the operation does** that cannot be parsed, resolved or accepted. -/
theorem run_validate_unparsed (h : Operation.Validates operation b target)
    (hparse : Operation.parse target = .error e) (x : Context) :
    (validateAct r operation).run.run x = (.error e, x) := by
  rw [validateAct, filter_value h]
  dsimp only
  rw [hparse]
  rfl

theorem run_validate_unresolved (h : Operation.Validates operation b target)
    (hparse : Operation.parse target = .ok (name, a)) (hresolve : r.resolve a name = .error e)
    (x : Context) : (validateAct r operation).run.run x = (.error e, x) := by
  rw [validateAct, filter_value h]
  dsimp only
  rw [hparse]
  show (orThrow (r.resolve a name) >>= _).run.run x = _
  rw [hresolve]
  rfl

theorem run_validate_here (h : Operation.Validates operation b target)
    (hparse : Operation.parse target = .ok (name, a))
    (hresolve : r.resolve a name = .ok (.here node entry)) (x : Context) :
    (validateAct r operation).run.run x = (entry.definition.check target, x) := by
  rw [validateAct, filter_value h]
  dsimp only
  rw [hparse]
  show (orThrow (r.resolve a name) >>= _).run.run x = _
  rw [hresolve]
  show (orThrow (entry.definition.check target)).run.run x = _
  cases entry.definition.check target <;> rfl

/-- The step that forwards the validation of an operation to a proxy. -/
def validating (proxy : Proxy) (target : Value) (a : Address) (slot : Nat) : Step :=
  ⟨.forward proxy, Operation.validation proxy.node (proxy.relative target a), proxy.node, slot⟩

/-- **A validation is handed on** where the operation is. -/
theorem run_validate_proxied (h : Operation.Validates operation b target)
    (hparse : Operation.parse target = .ok (name, a))
    (hresolve : r.resolve a name = .ok (.proxied proxy)) {x : Context} (hstage : x.stage = .model) :
    (validateAct r operation).run.run x = (.ok (), { x with queues := { x.queues with
      model := validating proxy target a x.currentSlot :: x.queues.model } }) := by
  rw [validateAct, filter_value h]
  dsimp only
  rw [hparse]
  show (orThrow (r.resolve a name) >>= _).run.run x = _
  rw [hresolve]
  have haddress : Operation.addressOf (Operation.validation proxy.node (proxy.relative target a)) =
      .ok proxy.node := Address.ofValue_toValue proxy.node
  have hqueue := Composite.run_queue (h := .forward proxy) (i := x.currentSlot) hstage haddress
  refine Eq.trans ?_ hqueue
  show (Act.queue (.forward proxy) (Operation.validation proxy.node (proxy.relative target a))
    x.stage x.currentSlot true).run.run x = _
  rw [hstage]

end GlobalOperation

end ManagementPlane
