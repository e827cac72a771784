import ManagementPlane.Proofs.Global.Alone

/-!
# Proofs/Global/Sequence — a composite is its steps, one after another

`Plane.InTurn` executes operations one after another, each with a commit of its own, and goes on
when one of them fails.  A composite at `base` comes to what its steps come to when they are
executed in turn at their joined addresses (`Plane.composite_in_turn`): it succeeds exactly when all
of them do, and then it publishes what they publish and answers what they answer; otherwise it
publishes nothing.

The two runs meet in the upshots of the steps, which do not depend on the operation that a step
belongs to: `inTurn_of_through` and `inTurn_of_halts` are for steps by themselves what
`ends_of_through` and `ends_of_halts` are for those of a composite.
-/

namespace ManagementPlane

open Transaction (Keeps)
open Composite (Drawn Planned Plans)
open Execution (Ends Fails Halts IsFatal Refuses Succeeds Through)

instance (answer : Answer) : Decidable (Succeeds answer) :=
  match answer with
  | .ok (response, _) => decidable_of_iff (Response.isSuccess response = true)
    ⟨fun h => ⟨response, _, rfl, h⟩, by rintro ⟨_, _, ⟨⟩, h⟩; exact h⟩
  | .error _ => .isFalse (by rintro ⟨_, _, ⟨⟩, _⟩)

instance (answer : Answer) : Decidable (IsFatal answer) :=
  match answer with
  | .error (.fatal reason) => .isTrue ⟨reason, rfl⟩
  | .error .accessDenied => .isFalse (by rintro ⟨_, ⟨⟩⟩)
  | .ok _ => .isFalse (by rintro ⟨_, ⟨⟩⟩)

theorem Execution.Fails.not_succeeds {answer : Answer} (h : Fails answer) : ¬ Succeeds answer := by
  rintro ⟨response', streams', heq, hsuccess⟩
  obtain ⟨response, streams, rfl, hfailure⟩ := h
  cases heq
  cases hfailure.symm.trans hsuccess

theorem Execution.IsFatal.not_succeeds {answer : Answer} (h : IsFatal answer) :
    ¬ Succeeds answer := by
  rintro ⟨response, streams, rfl, -⟩
  obtain ⟨reason, ⟨⟩⟩ := h

theorem Execution.Refuses.not_succeeds {fatal : Bool} {answer : Answer}
    (h : Refuses fatal answer) : ¬ Succeeds answer := by
  cases fatal with
  | true => exact IsFatal.not_succeeds h
  | false => exact Fails.not_succeeds h

namespace Plane

/-- **Operations in turn**: each is executed on the plane that the one before left, whatever it
answered. -/
inductive InTurn (c : Nat) : Plane → List Value → List Answer → Plane → Prop
  | nil (p : Plane) : InTurn c p [] [] p
  | cons {p q q' : Plane} {operation : Value} {operations : List Value} {answer : Answer}
      {answers : List Answer} (h : p.Executes c operation answer q)
      (hrest : InTurn c q operations answers q') :
    InTurn c p (operation :: operations) (answer :: answers) q'

variable {c : Nat} {p q q' : Plane} {r : Registration} {root root' : Resource} {base : Address}
  {step : Value} {steps operations : List Value} {answers answers' : List Answer} {fatal : Bool}
  {ps : List Planned} {vs : List Value}

/-- The answers of operations in turn and the plane they leave are unique. -/
theorem InTurn.unique (h : InTurn c p operations answers q)
    (h' : InTurn c p operations answers' q') : answers' = answers ∧ q' = q := by
  induction h generalizing answers' with
  | nil p =>
    cases h'
    exact ⟨rfl, rfl⟩
  | cons hfirst _ ih =>
    obtain _ | ⟨hfirst', hrest'⟩ := h'
    obtain ⟨rfl, rfl⟩ := hfirst.unique hfirst'
    obtain ⟨rfl, rfl⟩ := ih hrest'
    exact ⟨rfl, rfl⟩

/-! ## A step by itself -/

/-- A step by itself that is not accepted fails. -/
theorem executes_unaccepted (hr : r.Local) (hp : p.Idle c r root)
    (hnot : base.isConcrete = true → ∀ a entry, ¬ r.Accepts base step a entry) :
    ∃ answer q, p.Executes c (Operation.below base step) answer q ∧ Fails answer ∧ q.Idle c r root ∧
      Keeps (p.tree c) (q.tree c) := by
  refine executes_rejected hr hp fun a entry hleads hcheck => ?_
  obtain ⟨name, relative, node, hparse, -⟩ := id hleads
  have hbase := Operation.isConcrete_of_parse_below hparse
  exact hnot hbase a entry ⟨(Registration.leadsTo_below hbase).mp hleads, hcheck⟩

/-- **A step by itself** is executed and leaves the controller idle. -/
theorem executes_step (hr : r.Local) (hstep : Drawn r base step) (hp : p.Idle c r root) :
    ∃ answer q root', p.Executes c (Operation.below base step) answer q ∧ q.Idle c r root' := by
  by_cases h : base.isConcrete = true ∧ ∃ a entry, r.Accepts base step a entry
  · obtain ⟨hbase, a, entry, hleads, hcheck⟩ := h
    have hleads' := (Registration.leadsTo_below hbase).mpr hleads
    have hwrites := Handler.writes_of_standard (hstep.standard hleads)
    obtain ⟨u, hends⟩ := hstep.ends hr a entry hleads root
    cases u with
    | answered v root' =>
      obtain ⟨q, hq, hidle, -⟩ := executes_answered hp hleads' hcheck hwrites hends
      exact ⟨_, q, root', hq, hidle⟩
    | stopped fatal =>
      obtain ⟨answer, q, hq, -, hidle, -⟩ := executes_stopped hp hleads' hcheck hwrites hends
      exact ⟨answer, q, root, hq, hidle⟩
  · have hnot : base.isConcrete = true → ∀ a entry, ¬ r.Accepts base step a entry :=
      fun hbase a entry haccepts => h ⟨hbase, a, entry, haccepts⟩
    obtain ⟨answer, q, hq, -, hidle, -⟩ := executes_unaccepted hr hp hnot
    exact ⟨answer, q, root, hq, hidle⟩

/-! ## Steps in turn -/

/-- Steps are executed in turn and leave the controller idle. -/
theorem inTurn_steps (hr : r.Local) (hsteps : ∀ s ∈ steps, Drawn r base s)
    (hp : p.Idle c r root) : ∃ answers q root',
      p.InTurn c (steps.map (Operation.below base)) answers q ∧ q.Idle c r root' := by
  induction steps generalizing p root with
  | nil => exact ⟨[], p, root, .nil p, hp⟩
  | cons step steps ih =>
    obtain ⟨hstep, hsteps⟩ := List.forall_mem_cons.mp hsteps
    obtain ⟨answer, q, next, hq, hidle⟩ := executes_step hr hstep hp
    obtain ⟨answers, q', root', hturn, hidle'⟩ := ih hsteps hidle
    exact ⟨answer :: answers, q', root', .cons hq hturn, hidle'⟩

/-- What a step answers wherever it is executed is among the answers of the steps in turn. -/
theorem InTurn.exists_of_mem {P : Answer → Prop} (hr : r.Local)
    (hsteps : ∀ s ∈ steps, Drawn r base s) (hp : p.Idle c r root)
    (hturn : p.InTurn c (steps.map (Operation.below base)) answers q) (hstep : step ∈ steps)
    (h : ∀ {p : Plane} {root : Resource}, p.Idle c r root →
      ∃ answer q, p.Executes c (Operation.below base step) answer q ∧ P answer) :
    ∃ answer ∈ answers, P answer := by
  induction steps generalizing p root answers with
  | nil => cases hstep
  | cons s steps ih =>
    obtain ⟨hs, hsteps⟩ := List.forall_mem_cons.mp hsteps
    rw [List.map_cons] at hturn
    obtain _ | ⟨hfirst, hrest⟩ := hturn
    rcases List.mem_cons.mp hstep with rfl | hstep
    · obtain ⟨answer, q, hq, hanswer⟩ := h hp
      obtain ⟨rfl, -⟩ := hq.unique hfirst
      exact ⟨_, List.mem_cons_self, hanswer⟩
    · obtain ⟨answer, q, next, hq, hidle⟩ := executes_step hr hs hp
      obtain ⟨rfl, rfl⟩ := hq.unique hfirst
      obtain ⟨answer, hmem, hanswer⟩ := ih hsteps hidle hrest hstep
      exact ⟨answer, List.mem_cons_of_mem _ hmem, hanswer⟩

/-- **Steps that all answer** answer in turn, and leave the root that they come to. -/
theorem inTurn_of_through (hbase : base.isConcrete = true) (hsteps : ∀ s ∈ steps, Drawn r base s)
    (hplans : List.Forall₂ (Plans r base) steps ps) (hps : Through r ps root vs root')
    (hp : p.Idle c r root) (hfinish : p.finish c = id) :
    ∃ q, p.InTurn c (steps.map (Operation.below base))
      ((vs.map Response.success).map fun response => .ok (response, [])) q ∧ q.Idle c r root' := by
  induction hps generalizing p steps with
  | nil root =>
    cases hplans
    exact ⟨p, .nil p, hp⟩
  | cons hends hps ih =>
    obtain _ | ⟨hplan, hplans⟩ := hplans
    obtain ⟨hstep, hsteps⟩ := List.forall_mem_cons.mp hsteps
    obtain ⟨-, entry, ⟨hleads, hcheck⟩, hoperation, hhandler⟩ := hplan.accepts
    rw [hoperation, hhandler] at hends
    obtain ⟨q, hq, hidle, hsame⟩ := executes_answered hp
      ((Registration.leadsTo_below hbase).mpr hleads) hcheck
      (Handler.writes_of_standard (hstep.standard hleads)) hends
    obtain ⟨q', hturn, hidle'⟩ := ih hsteps hplans hidle (hsame.trans hfinish)
    rw [hfinish] at hq
    exact ⟨q', .cons hq hturn, hidle'⟩

/-- **A step that stops** is refused in turn as well. -/
theorem inTurn_of_halts (hr : r.Local) (hbase : base.isConcrete = true)
    (hsteps : ∀ s ∈ steps, Drawn r base s) (hplans : List.Forall₂ (Plans r base) steps ps)
    (hps : Halts r ps root fatal) (hp : p.Idle c r root) :
    ∃ answers q, p.InTurn c (steps.map (Operation.below base)) answers q ∧
      ∃ answer ∈ answers, Refuses fatal answer := by
  induction hps generalizing p steps with
  | here hends =>
    obtain _ | ⟨hplan, hplans⟩ := hplans
    obtain ⟨hstep, hsteps⟩ := List.forall_mem_cons.mp hsteps
    obtain ⟨-, entry, ⟨hleads, hcheck⟩, hoperation, hhandler⟩ := hplan.accepts
    rw [hoperation, hhandler] at hends
    obtain ⟨answer, q, hq, hrefuses, hidle, -⟩ := executes_stopped hp
      ((Registration.leadsTo_below hbase).mpr hleads) hcheck
      (Handler.writes_of_standard (hstep.standard hleads)) hends
    obtain ⟨answers, q', -, hturn, -⟩ := inTurn_steps hr hsteps hidle
    exact ⟨answer :: answers, q', .cons hq hturn, answer, List.mem_cons_self, hrefuses⟩
  | later hends hps ih =>
    obtain _ | ⟨hplan, hplans⟩ := hplans
    obtain ⟨hstep, hsteps⟩ := List.forall_mem_cons.mp hsteps
    obtain ⟨-, entry, ⟨hleads, hcheck⟩, hoperation, hhandler⟩ := hplan.accepts
    rw [hoperation, hhandler] at hends
    obtain ⟨q, hq, hidle, -⟩ := executes_answered hp
      ((Registration.leadsTo_below hbase).mpr hleads) hcheck
      (Handler.writes_of_standard (hstep.standard hleads)) hends
    obtain ⟨answers, q', hturn, answer, hmem, hrefuses⟩ := ih hsteps hplans hidle
    exact ⟨_, q', .cons hq hturn, answer, List.mem_cons_of_mem _ hmem, hrefuses⟩

end Plane

/-! ## Composites -/

namespace Composite

/-- The composite of the given steps at `base`. -/
def operation (base : Address) (steps : List Value) : Value :=
  (Operation.build GlobalOperation.composite.name base).set Key.steps (.list steps)

variable {r : Registration} {base : Address} {steps : List Value}

theorem get?_steps_operation (base : Address) (steps : List Value) :
    (operation base steps).get? Key.steps = some (.list steps) := Value.get?_set_self _ _ _

theorem parse_operation_iff {name : String} {a : Address} :
    Operation.parse (operation base steps) = .ok (name, a) ↔
      name = GlobalOperation.composite.name ∧ a = base ∧ base.isConcrete = true := by
  have hname : (operation base steps).get? Key.operation
      = some (.string GlobalOperation.composite.name) := by
    rw [operation, Value.get?_set, if_neg (by decide)]
    rfl
  have haddress : Operation.addressOf (operation base steps) = .ok base := by
    have hget : (operation base steps).get? Key.address = some base.toValue := by
      rw [operation, Value.get?_set, if_neg (by decide)]
      rfl
    rw [Operation.addressOf, Value.get, hget]
    exact Address.ofValue_toValue base
  rw [Operation.parse_eq_ok, hname, haddress]
  constructor
  · rintro ⟨hop, -, hbase, hconcrete⟩
    obtain rfl := Except.ok.inj hbase
    cases hop
    exact ⟨rfl, rfl, hconcrete⟩
  · rintro ⟨rfl, rfl, hconcrete⟩
    exact ⟨rfl, by decide, rfl, hconcrete⟩

/-- A composite is accepted whatever its steps are. -/
theorem check_operation (base : Address) (steps : List Value) :
    GlobalOperation.composite.entry.definition.check (operation base steps) = .ok () := by
  have hunknown : GlobalOperation.composite.definition.unknownParameter? (operation base steps)
      = none := by
    show (Dict.keys (Dict.put _ Key.steps (Value.list steps))).find? _ = none
    rw [Dict.keys_put, show Dict.keys (Operation.build GlobalOperation.composite.name base).fields
      = [Key.operation, Key.address] from rfl]
    decide
  show GlobalOperation.composite.definition.check _ = _
  rw [OperationDefinition.check, hunknown]
  show AttributeDefinition.checkFields [(Key.steps, _)] _ = _
  rw [AttributeDefinition.checkFields, AttributeDefinition.checkFields, Value.get,
    get?_steps_operation, AttributeDefinition.check]
  rfl

theorem leadsTo_operation_iff (hr : r.Local) (hcomposite : ∀ node, r.find? base = some node →
      r.operation? base GlobalOperation.composite.name = some GlobalOperation.composite.entry)
    {a : Address} {entry : OperationEntry} : r.LeadsTo [] (operation base steps) a entry ↔
      a = base ∧ entry = GlobalOperation.composite.entry ∧ base.isConcrete = true ∧
        (r.find? base).isSome = true := by
  constructor
  · rintro ⟨name, b, node, hparse, rfl, hresolve⟩
    obtain ⟨rfl, rfl, hconcrete⟩ := parse_operation_iff.mp hparse
    obtain ⟨node', entry', heq, hfind, hentry⟩ := hr.resolve hresolve
    cases heq
    rw [hcomposite node hfind] at hentry
    exact ⟨rfl, (Option.some.inj hentry).symm, hconcrete, by rw [hfind]; rfl⟩
  · rintro ⟨rfl, rfl, hconcrete, hfind⟩
    obtain ⟨node, hnode⟩ := Option.isSome_iff_exists.mp hfind
    exact ⟨_, a, node, parse_operation_iff.mpr ⟨rfl, rfl, hconcrete⟩, rfl,
      hr.resolve_eq hnode (hcomposite node hnode)⟩

/-- Where a composite leads nowhere, its steps do not either. -/
theorem isSome_find?_of_accepts (hr : r.Local) {step : Value} {a : Address} {entry : OperationEntry}
    (h : r.Accepts base step a entry) : (r.find? base).isSome = true := by
  obtain ⟨⟨name, relative, node, -, rfl, hresolve⟩, -⟩ := h
  obtain ⟨_, _, -, hfind, -⟩ := hr.resolve hresolve
  rw [Registration.isSome_find?]
  refine hr.lookup?_prefix (b := relative) ?_
  rw [← Registration.isSome_find?, hfind]
  rfl

/-- What a composite, which answered and left `q`, has to do with its steps, which answered in turn
and left `q'`. -/
structure Agrees (c : Nat) (p q q' : Plane) (answer : Answer) (answers : List Answer) : Prop where
  succeeds : Succeeds answer ↔ ∀ a ∈ answers, Succeeds a
  /-- A success publishes what the steps publish. -/
  root : Succeeds answer → (q.tree c).root = (q'.tree c).root
  /-- Its result is what the steps respond. -/
  responses : Succeeds answer → ∃ responses : List Value,
    answers = responses.map (fun response => .ok (response, [])) ∧ answer = .ok
      (Response.success (.object (responses.mapIdx fun i response => (label i, response))), [])
  /-- Anything else publishes nothing. -/
  keeps : ¬ Succeeds answer → Keeps (p.tree c) (q.tree c)
  /-- It is an ordinary failure, unless one of the steps is fatal by itself. -/
  fails : ¬ Succeeds answer → Fails answer ∨ IsFatal answer ∧ ∃ a ∈ answers, IsFatal a

variable {c : Nat} {p q q' : Plane} {answer : Answer} {answers : List Answer} {fatal : Bool}

/-- A composite that is refused agrees with steps one of which is refused. -/
theorem agrees_of_refused (hrefuses : Refuses fatal answer) (hkeeps : Keeps (p.tree c) (q.tree c))
    (hsteps : ∃ a ∈ answers, Refuses fatal a) : Agrees c p q q' answer answers := by
  obtain ⟨a, ha, hrefuses'⟩ := hsteps
  refine ⟨⟨fun h => absurd h hrefuses.not_succeeds,
    fun h => absurd (h a ha) hrefuses'.not_succeeds⟩,
    fun h => absurd h hrefuses.not_succeeds, fun h => absurd h hrefuses.not_succeeds,
    fun _ => hkeeps, fun _ => ?_⟩
  cases fatal with
  | true => exact .inr ⟨hrefuses, a, ha, hrefuses'⟩
  | false => exact .inl hrefuses

/-- The labels of the steps stand in order. -/
theorem zip_labels (responses : List Value) :
    ((List.range' 0 responses.length).map label).zip responses
      = responses.mapIdx fun i response => (label i, response) := by
  refine List.ext_getElem (by simp) fun i h₁ h₂ => ?_
  simp

/-- A composite that answers with the responses of its steps agrees with steps that answer so. -/
theorem agrees_of_answered {responses : List Value}
    (hresponses : ∀ response ∈ responses, Response.isSuccess response = true)
    (hroot : (q.tree c).root = (q'.tree c).root) :
    Agrees c p q q' (.ok (Response.success (.object
        (((List.range' 0 responses.length).map label).zip responses)), []))
      (responses.map fun response => .ok (response, [])) := by
  have hsucceeds : Succeeds (.ok (Response.success (.object
      (((List.range' 0 responses.length).map label).zip responses)), [])) := ⟨_, _, rfl, rfl⟩
  refine ⟨⟨fun _ => ?_, fun _ => hsucceeds⟩, fun _ => hroot, fun _ => ⟨responses, rfl, ?_⟩,
    absurd hsucceeds, absurd hsucceeds⟩
  · exact List.forall_mem_map.mpr fun response hmem => ⟨response, [], rfl, hresponses _ hmem⟩
  · rw [zip_labels]

end Composite

namespace Plane

open Composite (Agrees)

variable {c : Nat} {p q q' : Plane} {r : Registration} {root root' : Resource} {base : Address}
  {steps : List Value}

/-- A composite and one of its steps are not accepted. -/
theorem composite_of_unaccepted (hp : p.Idle c r root) (hr : r.Local)
    (hsteps : ∀ s ∈ steps, Drawn r base s) {answer : Answer} {q : Plane}
    (hq : p.Executes c (Composite.operation base steps) answer q) (hfails : Fails answer)
    (hkeeps : Keeps (p.tree c) (q.tree c)) {s : Value} (hs : s ∈ steps)
    (hnot : base.isConcrete = true → ∀ a entry, ¬ r.Accepts base s a entry) :
    ∃ answer q answers q', p.Executes c (Composite.operation base steps) answer q ∧
      p.InTurn c (steps.map (Operation.below base)) answers q' ∧
      Agrees c p q q' answer answers := by
  obtain ⟨answers, q', root', hturn, -⟩ := inTurn_steps hr hsteps hp
  have hrefuses : Refuses false answer := hfails
  refine ⟨answer, q, answers, q', hq, hturn, Composite.agrees_of_refused hrefuses hkeeps ?_⟩
  refine hturn.exists_of_mem hr hsteps hp hs fun hidle => ?_
  obtain ⟨answer, q, hq, hfails, -⟩ := executes_unaccepted hr hidle hnot
  exact ⟨answer, q, hq, hfails⟩

theorem composite_of_idle (hp : p.Idle c r root) (hfinish : p.finish c = id) (hr : r.Local)
    (hcomposite : ∀ node, r.find? base = some node →
      r.operation? base GlobalOperation.composite.name = some GlobalOperation.composite.entry)
    (hsteps : ∀ s ∈ steps, Drawn r base s)
    (hempty : steps = [] → base.isConcrete = true ∧ (r.find? base).isSome = true) :
    ∃ answer q answers q', p.Executes c (Composite.operation base steps) answer q ∧
      p.InTurn c (steps.map (Operation.below base)) answers q' ∧
      Agrees c p q q' answer answers := by
  by_cases h : base.isConcrete = true ∧ (r.find? base).isSome = true
  · obtain ⟨hbase, hfind⟩ := h
    have hleads : r.LeadsTo [] (Composite.operation base steps) base _ :=
      (Composite.leadsTo_operation_iff hr hcomposite).mpr ⟨rfl, rfl, hbase, hfind⟩
    have hcheck := Composite.check_operation base steps
    have hplanned : Composite.plan r base (Composite.operation base steps)
        = Composite.planFrom r base 0 steps := by
      rw [Composite.plan, Composite.get?_steps_operation]
      rfl
    cases hplan : Composite.planFrom r base 0 steps with
    | error e =>
      obtain ⟨hfatal, s, hs, hnot⟩ := Composite.planFrom_eq_error hr hsteps hplan
      obtain ⟨answer, q, hq, hrefuses, -, hkeeps⟩ := executes_stopped hp hleads hcheck rfl
        (Execution.ends_of_refused (hplanned.trans hplan))
      rw [hfatal] at hrefuses
      exact composite_of_unaccepted hp hr hsteps hq hrefuses hkeeps hs fun _ => hnot
    | ok ps =>
      have hplans := Composite.plans_of_planFrom hr hsteps hplan
      have hlabels := Composite.labels_planFrom hplan
      have haddresses := Composite.addressOf_of_plans hplans
      rcases Execution.through_or_halts (Composite.ends_of_plans hplans fun s hs =>
        (hsteps s hs).ends hr) root with ⟨vs, root', hthrough⟩ | ⟨fatal, hhalts⟩
      · obtain ⟨q, hq, hidle, -⟩ := executes_answered hp hleads hcheck rfl
          (Execution.ends_of_through (hplanned.trans hplan) haddresses hthrough)
        obtain ⟨q', hturn, hidle'⟩ :=
          inTurn_of_through hbase hsteps hplans hthrough hp hfinish
        have hlength : steps.length = (vs.map Response.success).length :=
          hplans.length_eq.trans (hthrough.length_eq.trans (List.length_map _).symm)
        rw [hfinish, id_eq, hlabels, hlength] at hq
        refine ⟨_, q, _, q', hq, hturn, Composite.agrees_of_answered ?_ ?_⟩
        · exact List.forall_mem_map.mpr fun v _ => rfl
        · exact hidle.root.trans hidle'.root.symm
      · obtain ⟨answer, q, hq, hrefuses, -, hkeeps⟩ := executes_stopped hp hleads hcheck rfl
          (Execution.ends_of_halts (hplanned.trans hplan) haddresses hhalts)
        obtain ⟨answers, q', hturn, hsteps'⟩ := inTurn_of_halts hr hbase hsteps hplans hhalts hp
        exact ⟨answer, q, answers, q', hq, hturn,
          Composite.agrees_of_refused hrefuses hkeeps hsteps'⟩
  · obtain ⟨s, hs⟩ : ∃ s, s ∈ steps := List.exists_mem_of_ne_nil _ fun hnil => h (hempty hnil)
    have hnot : ∀ a entry, r.LeadsTo [] (Composite.operation base steps) a entry →
        entry.definition.check (Composite.operation base steps) ≠ .ok () :=
      fun a entry hleads _ => h ((Composite.leadsTo_operation_iff hr hcomposite).mp hleads).2.2
    obtain ⟨answer, q, hq, hfails, -, hkeeps⟩ := executes_rejected hr hp hnot
    refine composite_of_unaccepted hp hr hsteps hq hfails hkeeps hs fun hbase a entry haccepts => ?_
    exact h ⟨hbase, Composite.isSome_find?_of_accepts hr haccepts⟩

/-- **A composite is its steps run in sequence.**  On a controller by itself, where no operation
runs, a composite of standard steps succeeds exactly when all its steps succeed that are executed
in turn at their joined addresses; then it publishes the same root, and its result holds their
responses.  Otherwise it publishes nothing.  What is executed ends in one way only
(`Executes.unique`, `InTurn.unique`).

A composite without steps is refused where nothing is registered, and a step that is fatal by
itself is fatal in a composite. -/
theorem composite_in_turn (hhosts : p.Hosts c) (hfree : (p.tree c).lock = {})
    (hprocess : (p.processState c).isDegraded = false) (hr : (p.registration c).Local)
    (hcomposite : ∀ node, (p.registration c).find? base = some node →
      (p.registration c).operation? base GlobalOperation.composite.name
        = some GlobalOperation.composite.entry)
    (hsteps : ∀ s ∈ steps, Drawn (p.registration c) base s)
    (hempty : steps = [] →
      base.isConcrete = true ∧ ((p.registration c).find? base).isSome = true) :
    ∃ answer q answers q', p.Executes c (Composite.operation base steps) answer q ∧
      p.InTurn c (steps.map (Operation.below base)) answers q' ∧
      Agrees c p q q' answer answers := by
  refine composite_of_idle ⟨hhosts, rfl, rfl, hfree⟩ ?_ hr hcomposite hsteps hempty
  funext response
  rw [finish, hprocess]
  rfl

end Plane

/-! ## A shelf -/

/-- A model of shelves with items, which can be added with the given attributes, and removed. -/
def Registration.shelves (added : List AttributeDefinition) : Registration :=
  let remove : String × OperationEntry :=
    ("remove", { definition := removeDefinition, handler := .remove })
  let items : Registration :=
    { address := [⟨"shelf", "*"⟩, ⟨"item", "*"⟩], description := ""
      operations :=
        [("add", { definition := addDefinition added, handler := .add added }), remove]
      attributes := [("value", { definition := { name := "value", type := .string }
                                 access := .readWrite })] }
  let shelves : Registration :=
    { address := [⟨"shelf", "*"⟩], description := "", children := [("item", [("*", items)])] }
  { Registration.root "" with
    operations := remove :: GlobalOperation.all.map fun g => (g.name, g.entry)
    children := [("shelf", [("*", shelves)])] }

/-- A plane with one shelf, which is empty. -/
def Plane.shelf (added : List AttributeDefinition) : Plane where
  controllers := [{
    name := "main"
    registration := .shelves added
    tree := { root := { children := [("shelf", [("s", {})])] } } }]
  processes := [.running]

theorem Registration.local_shelves (added : List AttributeDefinition) :
    (shelves added).Local := by
  have hitems : ∀ {r : Registration}, r.proxy = none → r.children = [] →
      (∀ f ∈ r.attributes, f.2.reader = none ∧ f.2.writer = none) → r.Local :=
    fun hproxy hchildren hattributes => .intro hproxy hattributes (by rw [hchildren]; rintro _ ⟨⟩)
  refine .intro rfl (by rintro _ ⟨⟩) ?_
  refine List.forall_mem_singleton.mpr (List.forall_mem_singleton.mpr ?_)
  refine .intro rfl (by rintro _ ⟨⟩) ?_
  refine List.forall_mem_singleton.mpr (List.forall_mem_singleton.mpr ?_)
  exact hitems rfl rfl (List.forall_mem_singleton.mpr ⟨rfl, rfl⟩)

theorem Registration.standard_shelves {added : List AttributeDefinition}
    (h : ∀ d ∈ added, d.name ≠ Key.address) : (shelves added).Standard := by
  refine .intro (List.forall_mem_cons.mpr ⟨.remove _, ?_⟩) ?_
  · exact List.forall_mem_map.mpr fun g _ => .global g true
  refine List.forall_mem_singleton.mpr (List.forall_mem_singleton.mpr ?_)
  refine .intro (by rintro _ ⟨⟩) ?_
  refine List.forall_mem_singleton.mpr (List.forall_mem_singleton.mpr ?_)
  refine .intro (List.forall_mem_cons.mpr ⟨.add added _ h, ?_⟩) (by rintro _ ⟨⟩)
  exact List.forall_mem_singleton.mpr (.remove _)

namespace Plane

/-- An item is added, and a composite of its own writes and reads its value. -/
def stocking : List Value :=
  [(Operation.build "add" [⟨"item", "a"⟩]).set "value" "one",
    Composite.operation [⟨"item", "a"⟩]
      [((Operation.build GlobalOperation.writeAttribute.name []).set Key.name "value").set Key.value
          "two",
        (Operation.build GlobalOperation.readAttribute.name []).set Key.name "value"]]

theorem composite_in_turn_stocking :
    let value : List AttributeDefinition := [{ name := "value", type := .string }]
    ∃ answer q answers q', Succeeds answer ∧
      (shelf value).Executes 0 (Composite.operation [⟨"shelf", "s"⟩] stocking) answer q ∧
      (shelf value).InTurn 0 (stocking.map (Operation.below [⟨"shelf", "s"⟩])) answers q' ∧
      Composite.Agrees 0 (shelf value) q q' answer answers := by
  intro value
  have hlocal := Registration.local_shelves value
  have hstandard : (Registration.shelves value).Standard :=
    Registration.standard_shelves (List.forall_mem_singleton.mpr (by decide))
  have hdrawn : ∀ s ∈ stocking, Drawn (Registration.shelves value) [⟨"shelf", "s"⟩] s :=
    fun s _ => Composite.drawn_of_standard hlocal hstandard _ s
  obtain ⟨answer, q, answers, q', hq, hturn, hagrees⟩ := composite_in_turn (c := 0)
    (p := shelf value) ⟨by decide, by decide⟩ rfl rfl hlocal (fun _ _ => rfl) hdrawn (by rintro ⟨⟩)
  have htrial : (trial 0 (shelf value) (Composite.operation [⟨"shelf", "s"⟩] stocking) 40).any
      (fun o => Succeeds o.1) = true := by decide +kernel
  obtain ⟨⟨answer', p'⟩, hrun, hsucceeds⟩ := (Option.any_eq_true _ _).mp htrial
  obtain ⟨rfl, -⟩ := hq.unique (executes_of_trial hrun)
  exact ⟨_, q, answers, q', of_decide_eq_true hsucceeds, hq, hturn, hagrees⟩

/-- What `composite_in_turn` leaves out.  A composite without steps fails where nothing is
registered.  A composite that removes the root does not fail, but ends fatally.  And a composite
refuses to add a resource with an attribute called `address` that is too short for its definition
before the address is joined, which the step by itself does not. -/
theorem composite_not_in_turn :
    (∃ answer q, (shelf []).Executes 0 (Composite.operation [⟨"nope", "x"⟩] []) answer q ∧
      ¬ Succeeds answer ∧ (shelf []).InTurn 0 [] [] (shelf [])) ∧
    (∃ answer q, (shelf []).Executes 0
        (Composite.operation [] [Operation.build "remove" []]) answer q ∧ IsFatal answer) ∧
    let added : List AttributeDefinition :=
      [{ name := "address", type := .list, minLength := some 2 }]
    let step := Operation.build "add" [⟨"item", "a"⟩]
    (∃ answer q answer' q', (shelf added).Executes 0 (Composite.operation [⟨"shelf", "s"⟩] [step])
        answer q ∧ ¬ Succeeds answer ∧
      (shelf added).InTurn 0 [Operation.below [⟨"shelf", "s"⟩] step] [answer'] q' ∧
      Succeeds answer') := by
  refine ⟨?_, ?_, ?_⟩
  · have htrial : (trial 0 (shelf []) (Composite.operation [⟨"nope", "x"⟩] []) 20).any
        (fun o => ¬ Succeeds o.1) = true := by decide +kernel
    obtain ⟨⟨answer, q⟩, hrun, hfails⟩ := (Option.any_eq_true _ _).mp htrial
    exact ⟨answer, q, executes_of_trial hrun, of_decide_eq_true hfails, .nil _⟩
  · have htrial : (trial 0 (shelf []) (Composite.operation [] [Operation.build "remove" []]) 20).any
        (fun o => IsFatal o.1) = true := by decide +kernel
    obtain ⟨⟨answer, q⟩, hrun, hfatal⟩ := (Option.any_eq_true _ _).mp htrial
    exact ⟨answer, q, executes_of_trial hrun, of_decide_eq_true hfatal⟩
  · intro added step
    have htrial : (trial 0 (shelf added) (Composite.operation [⟨"shelf", "s"⟩] [step]) 20).any
        (fun o => ¬ Succeeds o.1) = true := by decide +kernel
    have htrial' : (trial 0 (shelf added) (Operation.below [⟨"shelf", "s"⟩] step) 20).any
        (fun o => Succeeds o.1) = true := by decide +kernel
    obtain ⟨⟨answer, q⟩, hrun, hfails⟩ := (Option.any_eq_true _ _).mp htrial
    obtain ⟨⟨answer', q'⟩, hrun', hsucceeds⟩ := (Option.any_eq_true _ _).mp htrial'
    exact ⟨answer, q, answer', q', executes_of_trial hrun, of_decide_eq_true hfails,
      .cons (executes_of_trial hrun') (.nil q'), of_decide_eq_true hsucceeds⟩

end Plane

end ManagementPlane
