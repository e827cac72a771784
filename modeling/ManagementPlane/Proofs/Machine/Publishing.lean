import ManagementPlane.Proofs.Global.Editing
import ManagementPlane.Proofs.Machine.Transitions

/-!
# Proofs/Machine/Publishing — every root that is published conforms

Any number of operations edit the model of one controller at a time (`Arena`).  Their turns come in
any order, and whatever publishes nothing there may happen in between.  An operation conforms from
its beginning to its end (`Goes.conforms`), and what it commits is its staged root or a merge of
that with the published one.  So every root that is ever published conforms to the registration
(`Arena.Leads.published_conforms`).
-/

namespace ManagementPlane

open Transaction (Keeps)

/-! ## Committing -/

namespace Transaction

variable {demands : AttributeEntry → Prop} {r : Registration} {x y : Transaction} {t tree : Tree}

theorem conforms_publish {base staged : Resource} {began : Nat} {log : List Write}
    (ht : t.root.Conforms demands r []) (hstaged : staged.Conforms demands r [])
    (h : t.publish base began staged log = .ok tree) : tree.root.Conforms demands r [] := by
  rw [Tree.publish] at h
  split at h
  · obtain rfl := Except.ok.inj h
    exact hstaged
  · cases hmerge : Merge.merge t.root base staged log with
    | error e =>
      rw [hmerge] at h
      cases h
    | ok merged =>
      rw [hmerge] at h
      obtain rfl := Except.ok.inj h
      exact Merge.conforms_merge hstaged ht hmerge

/-- **A commit publishes what conforms**, on whatever root it comes. -/
theorem conforms_commit (ht : t.root.Conforms demands r [])
    (hx : ∀ s ∈ x.staging, s.root.Conforms demands r [])
    (h : x.commit t = (.ok (), tree, y)) : tree.root.Conforms demands r [] := by
  have hfinish : ∀ {z : Transaction} {t' : Tree}, t'.root.Conforms demands r [] →
      (z.finish t').1 = tree → tree.root.Conforms demands r [] := by
    rintro z t' ht' rfl
    rw [(z.keeps_finish t').1]
    exact ht'
  rw [commit.eq_def] at h
  split at h
  · rename_i s hs
    split at h
    · split at h
      · rename_i published hpublish
        exact hfinish (conforms_publish ht (hx s hs) hpublish) (congrArg (Prod.fst ∘ Prod.snd) h)
      · cases h
    · exact hfinish ht (congrArg (Prod.fst ∘ Prod.snd) h)
  · exact hfinish ht (congrArg (Prod.fst ∘ Prod.snd) h)

theorem staged_releaseLock {P : Resource → Prop} (h : ∀ s ∈ x.staging, P s.root) (t : Tree) :
    ∀ s ∈ (x.releaseLock t).2.staging, P s.root := by
  rw [releaseLock]
  split
  · rename_i s hs
    split
    · rintro s' hs'
      obtain rfl := Option.some.inj hs'
      exact h s hs
    · exact h
  · exact h

theorem staged_stage {P : Resource → Prop} (h : P t.root) (x : Transaction) :
    ∀ s ∈ (x.stage t).staging, P s.root := by
  rintro s hs
  obtain rfl := Option.some.inj hs
  exact h

theorem Begun.staged {P : Resource → Prop} (hx : Begun t x) (h : P t.root) :
    ∀ s ∈ x.staging, P s.root := by
  obtain ⟨writer, lockTimeout, rfl | rfl⟩ := hx
  · rintro _ ⟨⟩
  · exact staged_stage h _

end Transaction

/-! ## One operation -/

namespace Context

variable {r : Registration} {x y : Context}

theorem Conforms.of_rested (h : x.Conforms r) (hy : x.Rested y) : y.Conforms r where
  staged := hy.transaction ▸ h.staged
  queued stage := hy.queues ▸ h.queued stage
  completed := hy.completed ▸ h.completed

theorem Conforms.of_staging (h : x.Conforms r) {t : Transaction} (ht : t.staging = none) :
    { x with transaction := t }.Conforms r where
  staged := by
    rw [show Context.transaction _ = t from rfl, ht]
    rintro _ ⟨⟩
  queued := h.queued
  completed := h.completed

theorem Conforms.accept (h : x.Conforms r) (f handle : Nat) (response : Value) :
    (Forwarding.accept x f handle response).Conforms r := by
  have haccepting : Conforms r { x.setResult (Response.result response) with
      completions := (x.setResult (Response.result response)).completions ++ [f] } :=
    ⟨h.staged, h.queued, h.completed⟩
  exact haccepting.complete trivial

/-- Telling a completion that has nothing to do with the model leaves the model alone. -/
theorem Conforms.tells (h : x.Conforms r) {c : Completion} {rest : List Completion}
    (hcompleted : x.completed = c :: rest) (d : Decision) (p : Plane) (k : Nat) :
    (c.run d ⟨p, k, { x with completed := rest }⟩).context.Conforms r := by
  obtain ⟨hc, hrest⟩ := List.forall_mem_cons.mp (hcompleted ▸ h.completed)
  have hleft : Conforms r { x with completed := rest } := ⟨h.staged, h.queued, hrest⟩
  cases c with
  | decide handle => exact hleft
  | reportSteps own slots =>
    rw [Completion.run]
    split
    · exact hleft
    · exact ⟨h.staged, h.queued, hrest⟩
  | _ => exact hc.elim

/-- Nothing of what conforms is missing once a step is taken out of its queue. -/
theorem Conforms.nextStep? (h : x.Conforms r) {step : Step}
    (hstep : x.nextStep? = some (step, y)) : y.Conforms r ∧ step.Edits r := by
  obtain ⟨rest, hqueue, rfl⟩ := nextStep?_eq_some hstep
  have hqueued := h.queued x.stage
  rw [hqueue] at hqueued
  obtain ⟨hnext, hrest⟩ := List.forall_mem_cons.mp hqueued
  refine ⟨⟨h.staged, fun stage => ?_, h.completed⟩, hnext⟩
  have hother := h.queued stage
  generalize x.stage = current at hrest
  cases current <;> cases stage <;> first | exact hrest | exact hother

end Context

namespace Execution

variable {r : Registration} {p q : Plane} {x y : Execution}

/-- What an operation does and what it has staged conforms. -/
structure Conforms (r : Registration) (x : Execution) : Prop where
  context : x.context.Conforms r
  opening : x.phase = .opening → Operation.Edits x.operation
  handling : ∀ step w, x.phase = .handling step w → step.Edits r ∧
    x.context.currentAddress = step.address ∧
    (w = .begin ∨ ∃ f due d, w = .forwarding f due d)

/-- Only what begins or runs a step has more to show than its context. -/
theorem Conforms.of_context {phase : Phase} (h : x.context.Conforms r) (hphase : x.phase = phase)
    (hopening : phase ≠ .opening) (hhandling : ∀ step w, phase ≠ .handling step w) :
    x.Conforms r :=
  ⟨h, fun h => absurd (hphase.symm.trans h) hopening,
    fun step w h => absurd (hphase.symm.trans h) (hhandling step w)⟩

/-- An operation that has only begun has nothing to do but its first step. -/
theorem conforms_opened {id : Nat} {address : Address} {t : Transaction} {handler : Handler}
    (h : x.context.Conforms r)
    (ht : ∀ s ∈ t.staging, s.root.Conforms AttributeEntry.IsStored r [])
    (hfirst : Step.Edits r ⟨handler, x.operation, address, Context.rootSlot⟩) :
    (x.opened id address t handler).context.Conforms r where
  staged := ht
  queued stage := by
    cases stage with
    | model => exact List.forall_mem_singleton.mpr hfirst
    | runtime => rintro _ ⟨⟩
    | verify => rintro _ ⟨⟩
    | done => rintro _ ⟨⟩
  completed := h.completed

theorem conforms_afterStep (h : x.context.Conforms r) (step : Step)
    (out : Except OperationError Unit) : (x.afterStep step out).Conforms r := by
  have hcontext := h.of_rested (x.rested_afterStep step out)
  rcases x.phase_afterStep step out with ⟨-, hphase⟩ | ⟨e, hphase, -⟩
  · exact .of_context hcontext hphase (by rintro ⟨⟩) (by rintro _ _ ⟨⟩)
  · exact .of_context hcontext hphase (by rintro ⟨⟩) (by rintro _ _ ⟨⟩)

theorem Conforms.of_comes {step : Step} {next : Next} (h : x.Conforms r) (hstep : step.Edits r)
    (haddress : x.context.currentAddress = step.address) (hnext : Forwarding.Comes x step next)
    (hy : next.after? = some y) : y.Conforms r ∧ y.controller = x.controller := by
  cases hnext with
  | follows =>
    obtain rfl := Option.some.inj hy
    refine ⟨⟨h.context, by rintro ⟨⟩, ?_⟩, rfl⟩
    rintro _ _ ⟨⟩
    exact ⟨hstep, haddress, .inr ⟨_, _, _, rfl⟩⟩
  | fails =>
    obtain rfl := Option.some.inj hy
    exact ⟨conforms_afterStep h.context step _, controller_afterStep x step _⟩
  | concludes =>
    obtain rfl := Option.some.inj hy
    exact ⟨conforms_afterStep (h.context.accept _ _ _) step _, controller_afterStep _ step _⟩
  | blocks =>
    obtain rfl := Option.some.inj hy
    exact ⟨h, rfl⟩
  | crashes => cases hy

/-- **A running step keeps its operation conforming**, here or in another controller. -/
theorem Conforms.work (hr : r.Schematic) (h : x.Conforms r)
    (hp : p.registration x.controller = r) {step : Step} {w : Work}
    (hphase : x.phase = .handling step w) (hy : (work p x step w).next.after? = some y) :
    y.Conforms r ∧ y.controller = x.controller := by
  obtain ⟨hstep, haddress, rfl | ⟨f, due, d, rfl⟩⟩ := h.handling step w hphase
  · cases hdeed : step.handler.deed? step.operation with
    | some deed =>
      obtain ⟨out, z, hrun, hz⟩ := hstep.conforms hr hdeed
        (s := ⟨p, x.controller, x.context⟩) hp ⟨haddress, h.context⟩
      rw [work_deed hdeed, hrun] at hy
      obtain rfl := Option.some.inj hy
      exact ⟨conforms_afterStep hz step out, controller_afterStep _ step out⟩
    | none =>
      obtain ⟨handler, operation, a, i⟩ := step
      cases handler with
      | forward proxy => exact h.of_comes hstep haddress (Forwarding.comes_start proxy) hy
      | script body => exact hstep.elim
      | _ => cases hdeed
  · exact h.of_comes hstep haddress (Forwarding.comes_advance f due d) hy

/-- **Every transition keeps an operation conforming.** -/
theorem Goes.conforms (hr : r.Schematic) (h : Goes p x q y) (hx : x.Conforms r)
    (hp : p.registration x.controller = r)
    (hroot : (p.tree x.controller).root.Conforms AttributeEntry.IsStored r []) :
    y.Conforms r ∧ y.controller = x.controller := by
  have hcontext := hx.context
  cases h with
  | rejects => exact ⟨.of_context hcontext rfl (by rintro ⟨⟩) (by rintro _ _ ⟨⟩), rfl⟩
  | opens hphase hparse hresolve ht hnext =>
    refine ⟨?_, rfl⟩
    have hfirst := hr.edits (hp ▸ hresolve) (Operation.parse_eq_ok.mp hparse).1
      (hx.opening hphase) rfl Context.rootSlot
    rcases hnext with rfl | ⟨due, rfl⟩
    · exact .of_context (conforms_opened hcontext (ht.staged hroot) hfirst) rfl (by rintro ⟨⟩)
        (by rintro _ _ ⟨⟩)
    · exact .of_context (conforms_opened hcontext (ht.staged hroot) hfirst) rfl (by rintro ⟨⟩)
        (by rintro _ _ ⟨⟩)
  | locks hphase ht =>
    refine ⟨.of_context ⟨?_, hcontext.queued, hcontext.completed⟩ rfl (by rintro ⟨⟩)
      (by rintro _ _ ⟨⟩), rfl⟩
    rcases ht with rfl | rfl
    · exact hcontext.staged
    · exact Transaction.staged_stage hroot _
  | picks hphase hstep =>
    obtain ⟨hnext, hedits⟩ := hcontext.nextStep? hstep
    refine ⟨⟨⟨hnext.staged, hnext.queued, hnext.completed⟩, by rintro ⟨⟩, ?_⟩, rfl⟩
    rintro _ _ ⟨⟩
    exact ⟨hedits, rfl, .inl rfl⟩
  | interrupts hphase hnext =>
    refine ⟨.of_context ?_ rfl (by rintro ⟨⟩) (by rintro _ _ ⟨⟩), rfl⟩
    rcases hnext with rfl | ⟨step, hstep⟩
    · exact ⟨hcontext.staged, hcontext.queued, hcontext.completed⟩
    · obtain ⟨hnext, -⟩ := hcontext.nextStep? hstep
      exact ⟨hnext.staged, hnext.queued, hnext.completed⟩
  | passes hphase =>
    exact ⟨.of_context ⟨Transaction.staged_releaseLock hcontext.staged _, hcontext.queued,
      hcontext.completed⟩ hphase (by rintro ⟨⟩) (by rintro _ _ ⟨⟩), rfl⟩
  | prepares => exact ⟨.of_context hcontext rfl (by rintro ⟨⟩) (by rintro _ _ ⟨⟩), rfl⟩
  | works hphase hy => exact hx.work hr hp hphase hy
  | commits hphase ht hcommit =>
    exact ⟨.of_context (hcontext.of_staging ht) rfl (by rintro ⟨⟩) (by rintro _ _ ⟨⟩), rfl⟩
  | reverts hphase ht =>
    exact ⟨.of_context (hcontext.of_staging ht) rfl (by rintro ⟨⟩) (by rintro _ _ ⟨⟩), rfl⟩
  | tells hphase hcompleted =>
    exact ⟨.of_context (hcontext.tells hcompleted _ _ _) hphase (by rintro ⟨⟩) (by rintro _ _ ⟨⟩),
      rfl⟩
  | unwinds hphase hcompleted ht =>
    refine ⟨.of_context ?_ rfl (by rintro ⟨⟩) (by rintro _ _ ⟨⟩), rfl⟩
    rcases ht with rfl | ht
    · exact hcontext
    · exact hcontext.of_staging ht
  | drains hphase hnext =>
    have hdrained : ∀ completions, Context.Conforms r { x.context with completions } :=
      fun _ => ⟨hcontext.staged, hcontext.queued, hcontext.completed⟩
    rcases hnext with ⟨due, rfl⟩ | ⟨answer, rfl⟩
    · exact ⟨.of_context (hdrained _) rfl (by rintro ⟨⟩) (by rintro _ _ ⟨⟩), rfl⟩
    · exact ⟨.of_context (hdrained _) rfl (by rintro ⟨⟩) (by rintro _ _ ⟨⟩), rfl⟩
  | blocks => exact ⟨hx, rfl⟩

/-- **What is published after a transition** conforms if it did before. -/
theorem Goes.publishes (h : Goes p x q y) (hx : x.Conforms r)
    (hroot : (p.tree x.controller).root.Conforms AttributeEntry.IsStored r []) :
    (q.tree x.controller).root.Conforms AttributeEntry.IsStored r [] := by
  have hsteady : ∀ {q : Plane}, p.Steady q →
      (q.tree x.controller).root.Conforms AttributeEntry.IsStored r [] := by
    intro q hq
    rw [(hq.tree x.controller).1]
    exact hroot
  cases h with
  | commits hphase ht hcommit =>
    have hcommitted := Transaction.conforms_commit hroot hx.context.staged hcommit
    rw [Plane.tree, Plane.setTree, Plane.controller_modifyController]
    split
    · exact hcommitted
    · exact hroot
  | rejects _ hq => exact hsteady hq.steady
  | opens _ _ _ _ _ hq => exact hsteady hq.steady
  | locks _ _ hq => exact hsteady hq.steady
  | passes _ _ _ hq => exact hsteady hq.steady
  | prepares _ _ _ hq => exact hsteady hq
  | works => exact hsteady (keeping_work p x _ _).steady
  | reverts _ _ hq => exact hsteady hq.steady
  | @tells e c rest =>
    exact hsteady (steady_completion c e.decision
      ⟨p, x.controller, { x.context with completed := rest }⟩).1
  | unwinds _ _ _ hq => exact hsteady hq.steady
  | picks => exact hroot
  | interrupts => exact hroot
  | drains => exact hroot
  | blocks => exact hroot

theorem steady_discard (x : Execution) (p : Plane) : p.Steady (x.discard p) := by
  have hdrop : ∀ (hs : List Nat) (q : Plane), p.Steady q →
      p.Steady (hs.foldl (fun q h => q.modifyHandle h Prepared.drop) q) := by
    intro hs
    induction hs with
    | nil => exact fun _ hq => hq
    | cons h hs ih => exact fun q hq => ih _ (hq.trans (Plane.steady_of_controllers rfl rfl))
  exact hdrop _ _ (p.steady_setTree x.controller (Transaction.keeps_finish _ _))

end Execution

/-! ## Any number of operations -/

/-- A plane, and the operations that are under way on one of its controllers. -/
structure Arena where
  plane : Plane
  running : List Execution := []

namespace Arena

/-- What may happen on controller `c` while operations that `allowed` admits run there. -/
inductive Step (c : Nat) (allowed : Value → Prop) : Arena → Arena → Prop
  | begins {s : Arena} {operation : Value} (h : allowed operation) (control : Control)
      (input : Input) (sink : Sink) : Step c allowed s
    { s with running := s.running ++ [Execution.new c operation control input sink] }
  /-- Any of the operations takes a turn. -/
  | turns {s : Arena} {i : Nat} {x y : Execution} (hx : s.running[i]? = some x)
      (hy : (x.advance s.plane).next.after? = some y) :
    Step c allowed s ⟨(x.advance s.plane).plane, s.running.set i y⟩
  /-- An operation breaks down, or nobody runs it any more, and lets go of all it holds. -/
  | breaks {s : Arena} {i : Nat} {x : Execution} {q : Plane} (hx : s.running[i]? = some x)
      (hq : q = s.plane ∨
        q = (x.advance s.plane).plane ∧ (x.advance s.plane).next.after? = none) :
    Step c allowed s ⟨x.discard q, s.running.eraseIdx i⟩
  | ends {s : Arena} {i : Nat} {x : Execution} {answer : Answer} (hx : s.running[i]? = some x)
      (h : x.phase = .ended answer) : Step c allowed s { s with running := s.running.eraseIdx i }
  /-- Whatever publishes nothing on the controller may happen around its operations. -/
  | around {s : Arena} {q : Plane} (hkeeps : Keeps (s.plane.tree c) (q.tree c))
      (hregistration : q.registration c = s.plane.registration c) :
    Step c allowed s { s with plane := q }

/-- One arena comes to be another. -/
abbrev Leads (c : Nat) (allowed : Value → Prop) : Arena → Arena → Prop :=
  Relation.ReflTransGen (Step c allowed)

/-- The published root conforms, and so does whatever is under way. -/
structure Conforms (c : Nat) (r : Registration) (s : Arena) : Prop where
  registration : s.plane.registration c = r
  root : (s.plane.tree c).root.Conforms AttributeEntry.IsStored r []
  running : ∀ x ∈ s.running, x.controller = c ∧ x.Conforms r

variable {c : Nat} {r : Registration} {s t : Arena}

theorem conforms_new {operation : Value} (h : Operation.Edits operation) (control : Control)
    (input : Input) (sink : Sink) :
    (Execution.new c operation control input sink).Conforms r where
  context := ⟨by rintro _ ⟨⟩, fun stage => by cases stage <;> rintro _ ⟨⟩, by rintro _ ⟨⟩⟩
  opening _ := h
  handling := by rintro _ _ ⟨⟩

theorem Step.conforms (hr : r.Schematic) (h : Step c Operation.Edits s t)
    (hs : s.Conforms c r) : t.Conforms c r := by
  obtain ⟨hregistration, hroot, hrunning⟩ := hs
  have herased : ∀ i, ∀ x ∈ s.running.eraseIdx i, x.controller = c ∧ x.Conforms r :=
    fun i x hx => hrunning x (List.mem_of_mem_eraseIdx hx)
  cases h with
  | begins h control input sink =>
    refine ⟨hregistration, hroot, fun x hx => ?_⟩
    rcases List.mem_append.mp hx with hx | hx
    · exact hrunning x hx
    · obtain rfl := List.mem_singleton.mp hx
      exact ⟨rfl, conforms_new h control input sink⟩
  | turns hx hy =>
    obtain ⟨rfl, hconforms⟩ := hrunning _ (List.mem_of_getElem? hx)
    have hgoes := Execution.goes_advance hy
    obtain ⟨hy', hcontroller⟩ := hgoes.conforms hr hconforms hregistration hroot
    refine ⟨hgoes.registration.trans hregistration, hgoes.publishes hconforms hroot, fun z hz => ?_⟩
    rcases List.mem_or_eq_of_mem_set hz with hz | rfl
    · exact hrunning z hz
    · exact ⟨hcontroller, hy'⟩
  | @breaks i x q hx hq =>
    have hsteady : s.plane.Steady (x.discard q) := by
      rcases hq with rfl | ⟨rfl, hcrash⟩
      · exact x.steady_discard _
      · exact (Execution.steady_of_crash hcrash).trans (x.steady_discard _)
    refine ⟨(hsteady.registration c).trans hregistration, ?_, herased i⟩
    rw [(hsteady.tree c).1]
    exact hroot
  | ends hx h => exact ⟨hregistration, hroot, herased _⟩
  | around hkeeps hsame => exact ⟨hsame.trans hregistration, hkeeps.1 ▸ hroot, hrunning⟩

/-- **Every root that is published conforms.**  On a controller whose registration is a schema,
and whose model conforms at first, any number of operations add, remove, write and undefine, alone
or in composites, and take their turns in any order. -/
theorem Leads.published_conforms {p₀ : Plane} (hr : (p₀.registration c).Schematic)
    (hroot : (p₀.tree c).root.Conforms AttributeEntry.IsStored (p₀.registration c) [])
    (h : Leads c Operation.Edits ⟨p₀, []⟩ s) :
    (s.plane.tree c).root.Conforms AttributeEntry.IsStored (s.plane.registration c) [] := by
  suffices hs : s.Conforms c (p₀.registration c) by
    rw [hs.registration]
    exact hs.root
  induction h with
  | refl => exact ⟨rfl, hroot, by rintro _ ⟨⟩⟩
  | tail _ hstep ih => exact hstep.conforms hr ih

/-- The arena after a turn of each of the operations at the given positions. -/
def play : List Nat → Arena → Option Arena
  | [], s => some s
  | i :: is, s =>
    (s.running[i]?).bind fun x => (x.advance s.plane).next.after?.bind fun y =>
      play is ⟨(x.advance s.plane).plane, s.running.set i y⟩

theorem leads_play {allowed : Value → Prop} {is : List Nat} (h : play is s = some t) :
    Leads c allowed s t := by
  induction is generalizing s with
  | nil =>
    obtain rfl := Option.some.inj h
    exact .refl
  | cons i is ih =>
    obtain ⟨x, hx, h⟩ := Option.bind_eq_some_iff.mp h
    obtain ⟨y, hy, h⟩ := Option.bind_eq_some_iff.mp h
    exact .head (.turns hx hy) (ih h)

end Arena

/-! ## A stock of items -/

/-- Items have a value, which they must have, and a load, which is measured. -/
def Registration.stock : Registration :=
  let value : AttributeDefinition := { name := "value", type := .string, nillable := false }
  let items : Registration :=
    { address := [⟨"item", "*"⟩], description := ""
      operations :=
        [("add", { definition := addDefinition [value], handler := .add [value] }),
          ("remove", { definition := removeDefinition, handler := .remove })]
      attributes :=
        [("value", { definition := value, access := .readWrite }),
          ("load", { definition := { name := "load", type := .string, nillable := false }
                     access := .metric, reader := some (.script [.result "none"]) })] }
  { Registration.root "" with
    operations := GlobalOperation.all.map fun g => (g.name, g.entry)
    children := [("item", [("*", items)])] }

theorem Registration.schema_stock : stock.Schema := by
  refine .intro ?_ (by rintro _ ⟨⟩) ?_
  · refine List.forall_mem_map.mpr fun g _ hname => ?_
    have hedits : ∀ node, (Handler.global g).Edits node g.name := by
      intro node
      cases g with
      | writeAttribute => exact .write
      | undefineAttribute => exact .undefine
      | composite => exact .composite
      | _ => exact absurd hname (by decide)
    exact ⟨hedits _, fun _ => hedits⟩
  · refine List.forall_mem_singleton.mpr (List.forall_mem_singleton.mpr ?_)
    refine .intro ?_ ?_ (by rintro _ ⟨⟩)
    · refine List.forall_mem_cons.mpr ⟨fun _ => ⟨.add ⟨by decide, ?_, ?_⟩, by rintro ⟨⟩⟩,
        List.forall_mem_singleton.mpr fun _ => ⟨.remove, by rintro ⟨⟩⟩⟩
      · exact List.forall_mem_singleton.mpr ⟨_, rfl, rfl, by decide⟩
      · intro name entry hentry haccess
        rcases List.mem_cons.mp (Dict.mem_of_get? hentry) with h | h
        · obtain ⟨rfl, rfl⟩ := Prod.mk.inj h
          exact ⟨List.mem_singleton_self _, rfl⟩
        · obtain ⟨rfl, rfl⟩ := Prod.mk.inj (List.mem_singleton.mp h)
          exact absurd rfl haccess
    · exact List.forall_mem_cons.mpr ⟨rfl, List.forall_mem_singleton.mpr rfl⟩

/-- A plane with a stock, which is empty. -/
def Plane.stock : Plane where
  controllers := [{ name := "main", registration := .stock, tree := { root := {} } }]
  processes := [.running]

namespace Arena

/-- An operation that adds an item. -/
def adding (name : String) : Value := (Operation.build "add" [⟨"item", name⟩]).set "value" "one"

/-- The stock while two items are added to it at the same time. -/
def stocking : Arena where
  plane := .stock
  running := ["a", "b"].map fun name =>
    .new 0 (adding name) (.decide .keep) {} .discard

theorem edits_adding (name : String) : Operation.Edits (adding name) := by
  have hname : (adding name).get? Key.operation = some (.string "add") := rfl
  refine .intro (fun other h => ?_) fun h => ?_
  · rw [hname] at h
    obtain rfl : "add" = other := by injection Option.some.inj h
    decide
  · rw [hname] at h
    have hcomposite : "add" = GlobalOperation.composite.name := by injection Option.some.inj h
    exact absurd hcomposite (by decide)

theorem leads_stocking : Leads 0 Operation.Edits ⟨.stock, []⟩ stocking :=
  (Relation.ReflTransGen.single (.begins (edits_adding "a") (.decide .keep) {} .discard)).tail
    (.begins (edits_adding "b") (.decide .keep) {} .discard)

theorem conforms_empty {demands : AttributeEntry → Prop} :
    (Plane.stock.tree 0).root.Conforms demands Registration.stock [] := by
  have hfound : Registration.stock.findLocal [] = .ok .stock := rfl
  exact .intro hfound ⟨by rintro _ ⟨⟩, by rintro _ _ ⟨⟩⟩ (by rintro _ ⟨⟩)

/-- Two items are added at the same time, and both are published. -/
theorem published_conforms_stocking : ∃ s, Leads 0 Operation.Edits ⟨.stock, []⟩ s ∧
    (s.plane.tree 0).version = 2 ∧ (s.plane.tree 0).root.Conforms AttributeEntry.IsStored
      (s.plane.registration 0) [] := by
  have hplay : (play ((List.replicate 14 [0, 1]).flatten) stocking).any
      (fun s => (s.plane.tree 0).version = 2) = true := by decide +kernel
  obtain ⟨s, hs, hversion⟩ := (Option.any_eq_true _ _).mp hplay
  have hleads := leads_stocking.trans (leads_play hs)
  have hschematic : (Plane.stock.registration 0).Schematic := Registration.schema_stock.schematic
  exact ⟨s, hleads, of_decide_eq_true hversion,
    Leads.published_conforms hschematic conforms_empty hleads⟩

/-- What is measured is never stored, required or not. -/
theorem metric_not_published : ∃ s, Leads 0 Operation.Edits ⟨.stock, []⟩ s ∧
    (Plane.stock.registration 0).Schematic ∧
    (Plane.stock.tree 0).root.Conforms AttributeEntry.IsRequired (Plane.stock.registration 0) [] ∧
    ¬ (s.plane.tree 0).root.Conforms AttributeEntry.IsRequired (Plane.stock.registration 0) [] := by
  have hplay : (play (List.replicate 14 0) stocking).any (fun s =>
      ((s.plane.tree 0).root.child? ⟨"item", "a"⟩).any fun n =>
        !Dict.has n.attributes "load") = true := by decide +kernel
  obtain ⟨s, hs, hitem⟩ := (Option.any_eq_true _ _).mp hplay
  obtain ⟨n, hn, hload⟩ := (Option.any_eq_true _ _).mp hitem
  refine ⟨s, leads_stocking.trans (leads_play hs), Registration.schema_stock.schematic,
    conforms_empty, fun hconforms => ?_⟩
  obtain ⟨hfound, hfits, -⟩ := hconforms.child? hn
  obtain rfl := Except.ok.inj hfound
  have hmissing := hfits.demanded "load" _ rfl ⟨rfl, rfl⟩
  rw [hmissing] at hload
  cases hload

end Arena

end ManagementPlane
