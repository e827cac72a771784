import ManagementPlane.Machine.Session
import ManagementPlane.Proofs.Global.Upshot
import ManagementPlane.Proofs.Machine.Atomic
import ManagementPlane.Proofs.Proxied.Handing

/-!
# Proofs/Global/Alone — an operation that runs by itself

`Plane.Executes` says what an operation answers, and which plane it leaves, when it is submitted
with a commit to a machine that does nothing else.  What that is follows from the upshot of its
step: an answer is committed (`executes_answered`), a step that stops commits nothing
(`executes_stopped`), and neither does an operation that is not accepted (`executes_rejected`).

The course of the operation is cut where the upshot speaks of it: `pass_begin` leads up to the step,
`passes_kept` and `passes_refused` lead from its end to the answer.
-/

namespace ManagementPlane

open Transaction (Keeps)

namespace Plane

/-- Submitted to controller `c` with a commit, and run by a machine that does nothing else, the
operation ends with the answer and leaves the plane `q`, however long the machine may go on. -/
def Executes (c : Nat) (p : Plane) (operation : Value) (answer : Answer) (q : Plane) : Prop :=
  let submitted := ({ plane := p } : Machine).submit c operation
    (fun _ => .decide .keep) {} .discard
  (q.ticket submitted.1).final = some (.answered answer) ∧ ∃ n, ∀ fuel, n ≤ fuel →
    submitted.2.run (fun p => (p.ticket submitted.1).final.isSome) none fuel = { plane := q }

/-- The answer of an operation and the plane it leaves are unique. -/
theorem Executes.unique {c : Nat} {p q q' : Plane} {operation : Value} {answer answer' : Answer}
    (h : p.Executes c operation answer q) (h' : p.Executes c operation answer' q') :
    answer' = answer ∧ q' = q := by
  obtain ⟨hfinal, n, hrun⟩ := h
  obtain ⟨hfinal', n', hrun'⟩ := h'
  have heq := (hrun (max n n') (le_max_left _ _)).symm.trans (hrun' (max n n') (le_max_right _ _))
  obtain rfl : q = q' := congrArg Machine.plane heq
  have hanswer := Option.some.inj (hfinal.symm.trans hfinal')
  exact ⟨(Final.answered.inj hanswer).symm, rfl⟩

/-- **Executing at once** is what a machine does that has the time. -/
theorem Executes.execute {c : Nat} {p q : Plane} {operation : Value} {answer : Answer}
    (h : p.Executes c operation answer q) : ∃ n, n ≤ Machine.stepLimit →
      ({ plane := p } : Machine).execute c operation (.decide .keep) {} .discard
        = (.answered answer, { plane := q }) := by
  obtain ⟨hfinal, n, hrun⟩ := h
  refine ⟨n, fun hn => ?_⟩
  rw [Machine.execute]
  dsimp only
  rw [Machine.await, Machine.runUntil, hrun _ hn]
  dsimp only
  rw [hfinal]
  rfl

end Plane

theorem Machine.run_of_step {done : Plane → Bool} {limit : Option Nat} {m m' : Machine}
    (h : m.step? = some m') (fuel : Nat) :
    m.run done limit (fuel + 1) = m'.run done limit fuel := by
  rw [Machine.run.eq_def]
  dsimp only
  rw [h]

theorem Machine.run_of_done {done : Plane → Bool} {limit : Option Nat} {m : Machine}
    (h : m.step? = none) (hdone : done m.plane = true) (fuel : Nat) :
    m.run done limit (fuel + 1) = m := by
  rw [Machine.run.eq_def]
  dsimp only
  rw [h]
  exact if_pos hdone

/-- A machine on which nothing is left to do stays as it is. -/
theorem Machine.run_add {done : Plane → Bool} {n : Nat} {m m' : Machine}
    (h : m.run done none n = m') (hstep : m'.step? = none) (hdone : done m'.plane = true)
    (k : Nat) : m.run done none (n + k) = m' := by
  induction n generalizing m with
  | zero =>
    obtain rfl : m = m' := h
    cases k with
    | zero => rfl
    | succ k =>
      rw [Nat.zero_add]
      exact Machine.run_of_done hstep hdone _
  | succ n ih =>
    rw [Nat.add_right_comm]
    rw [Machine.run.eq_def] at h ⊢
    dsimp only at h ⊢
    split at h
    · exact ih h
    · split at h
      · rename_i hdone'
        rw [if_pos hdone']
        exact h
      · rename_i hdone'
        rw [if_neg hdone']
        split at h
        · rename_i hlimit
          cases hlimit
        · exact ih h
        · rename_i hlimit
          cases hlimit
        · exact h

/-- What an operation answers, and which plane it leaves, if a machine that does nothing else is
through with it after `n` steps. -/
def Plane.trial (c : Nat) (p : Plane) (operation : Value) (n : Nat) : Option (Answer × Plane) :=
  let submitted := ({ plane := p } : Machine).submit c operation
    (fun _ => .decide .keep) {} .discard
  match submitted.2.run (fun p => (p.ticket submitted.1).final.isSome) none n with
  | ⟨q, [], []⟩ =>
    match (q.ticket submitted.1).final with
    | some (.answered answer) => some (answer, q)
    | _ => none
  | _ => none

theorem Plane.executes_of_trial {c : Nat} {p q : Plane} {operation : Value} {answer : Answer}
    {n : Nat} (h : trial c p operation n = some (answer, q)) : p.Executes c operation answer q := by
  rw [trial] at h
  split at h
  · rename_i q' hrun
    split at h
    · rename_i answer' hfinal
      cases h
      refine ⟨hfinal, n, fun fuel hfuel => ?_⟩
      obtain ⟨k, rfl⟩ := Nat.exists_eq_add_of_le hfuel
      exact Machine.run_add hrun rfl (by rw [hfinal]; rfl) k
    · cases h
  · cases h

namespace Execution

variable {p q : Plane} {x y : Execution} {o : Origin}

theorem step?_of_pass (h : Pass (p, x) (q, y)) :
    ({ plane := p, ready := [.operation [x] o] } : Machine).step?
      = some { plane := q, ready := [.operation [y] o] } := by
  have hgoing : ∀ {m : Move}, Task.advance p (.operation [x] o) = m →
      m = { plane := q, progress := .going (.operation [y] o) } →
      ({ plane := p, ready := [.operation [x] o] } : Machine).step?
        = some { plane := q, ready := [.operation [y] o] } := by
    rintro m hm rfl
    rw [Machine.step?]
    dsimp only
    rw [hm]
    rfl
  refine hgoing rfl ?_
  cases h with
  | going hopen h =>
    rw [Task.advance, Task.advanceStack.eq_def]
    dsimp only
    split
    · rename_i answer hphase
      exact absurd hphase (hopen answer)
    · rw [h]
  | returned hopen h =>
    rw [Task.advance, Task.advanceStack.eq_def]
    dsimp only
    split
    · rename_i answer hphase
      exact absurd hphase (hopen answer)
    · rw [h]

/-- The machine takes the turns that the operation takes. -/
theorem run_of_passes (done : Plane → Bool) (o : Origin) {s s' : Plane × Execution}
    (h : Passes s s') : ∃ n, ∀ fuel,
    ({ plane := s.1, ready := [.operation [s.2] o] } : Machine).run done none (fuel + n)
      = ({ plane := s'.1, ready := [.operation [s'.2] o] } : Machine).run done none fuel := by
  induction h with
  | refl => exact ⟨0, fun _ => rfl⟩
  | tail _ hpass ih =>
    obtain ⟨n, hn⟩ := ih
    refine ⟨n + 1, fun fuel => ?_⟩
    rw [← Nat.add_assoc, Nat.add_right_comm, hn]
    exact Machine.run_of_step (step?_of_pass hpass) fuel

end Execution

namespace Plane

variable {p q : Plane} {c : Nat} {operation : Value} {answer : Answer} {x : Execution}

/-- The plane with a ticket for the operation that is submitted. -/
def ticketed (p : Plane) : Plane := p.newTicket.2

/-- **An operation that comes to an answer by itself** is executed. -/
theorem executes_of_passes (h : Execution.Passes
    (p.ticketed, Execution.new c operation (.decide .keep) {} .discard) (q, x))
    (hended : x.phase = .ended answer) (htickets : q.tickets = p.ticketed.tickets) :
    p.Executes c operation answer
      (q.modifyTicket p.tickets.length ({ · with final := some (.answered answer) })) := by
  have hlength : p.tickets.length < q.tickets.length := by
    rw [htickets, ticketed, newTicket, List.length_append]
    exact Nat.lt_succ_self _
  have hfinal : ((q.modifyTicket p.tickets.length
      ({ · with final := some (.answered answer) })).ticket p.tickets.length).final
      = some (.answered answer) := by
    rw [ticket_modifyTicket, if_pos ⟨rfl, hlength⟩]
  obtain ⟨n, hn⟩ := Execution.run_of_passes (fun q => (q.ticket p.tickets.length).final.isSome)
    (.ticket p.tickets.length) h
  refine ⟨hfinal, n + 2, fun fuel hfuel => ?_⟩
  obtain ⟨k, rfl⟩ := Nat.exists_eq_add_of_le' hfuel
  have hstep :
      ({ plane := q, ready := [.operation [x] (.ticket p.tickets.length)] } : Machine).step?
      = some { plane := q.modifyTicket p.tickets.length
                ({ · with final := some (.answered answer) }) } := by
    rw [Machine.step?]
    dsimp only
    rw [Task.advance, Task.advanceStack.eq_def]
    dsimp only
    rw [hended]
    rfl
  show Machine.run _ none (k + (n + 2)) _ = _
  rw [Nat.add_left_comm, Nat.add_comm n]
  refine (hn (k + 2)).trans ((Machine.run_of_step hstep (k + 1)).trans ?_)
  exact Machine.run_of_done rfl (by rw [hfinal]; rfl) k

end Plane

/-! ## What goes on around a single operation -/

namespace Transaction

variable {x : Transaction} {t : Tree}

theorem holdsLock_releaseLock (x : Transaction) (t : Tree) :
    (x.releaseLock t).2.holdsLock = false := by
  rw [releaseLock]
  cases hs : x.staging with
  | none => rw [holdsLock, hs]; rfl
  | some s =>
    dsimp only
    split
    · rfl
    · rename_i hlocked
      rw [holdsLock, hs]
      simpa using hlocked

/-- The lock is the transaction's, or nobody's. -/
def Alone (x : Transaction) (t : Tree) : Prop :=
  t.lock = if x.holdsLock then { holder := some x.writer } else {}

theorem Alone.releaseLock (h : x.Alone t) : (x.releaseLock t).1.lock = {} := by
  rw [Alone, holdsLock] at h
  rw [Transaction.releaseLock]
  cases hs : x.staging with
  | none =>
    rw [hs] at h
    exact h
  | some s =>
    rw [hs] at h
    dsimp only
    split
    · rename_i hlocked
      rw [Option.map_some, Option.getD_some, if_pos hlocked] at h
      show t.lock.release = _
      rw [h]
      rfl
    · rename_i hlocked
      rw [Option.map_some, Option.getD_some, if_neg hlocked] at h
      exact h

theorem alone_of_free (h : t.lock = {}) (hx : x.holdsLock = false) : x.Alone t := by
  rw [Alone, hx]
  exact h

theorem Alone.of_worked {y : Transaction} (h : x.Alone t) (hy : x.Worked y) : y.Alone t := by
  rw [Alone, hy.lock, hy.written.alongside.writer]
  exact h

end Transaction

namespace Plane

variable {c : Nat} {p q : Plane} {r : Registration} {root : Resource} {t : Transaction}

/-- What a single operation on controller `c` may change there: the tree, and the count of its
operations. -/
structure Around (c : Nat) (p q : Plane) : Prop where
  tickets : q.tickets = p.tickets
  controllers : q.controllers.length = p.controllers.length
  controller : ∃ tree accepted, q.controller c = { p.controller c with tree, accepted }
  processes : q.processes.length = p.processes.length

theorem Around.trans {p' : Plane} (h : Around c p q) (h' : Around c q p') : Around c p p' := by
  obtain ⟨tree, accepted, hq⟩ := h.controller
  obtain ⟨tree', accepted', hp'⟩ := h'.controller
  refine ⟨h'.tickets.trans h.tickets, h'.controllers.trans h.controllers,
    ⟨tree', accepted', ?_⟩, h'.processes.trans h.processes⟩
  rw [hp', hq]

theorem Around.registration (h : Around c p q) : q.registration c = p.registration c := by
  obtain ⟨tree, accepted, hq⟩ := h.controller
  rw [Plane.registration, hq]
  rfl

theorem Around.hosts (h : Around c p q) (hp : p.Hosts c) : q.Hosts c := by
  obtain ⟨tree, accepted, hq⟩ := h.controller
  refine ⟨h.controllers ▸ hp.controller, ?_⟩
  rw [h.processes, hq]
  exact hp.process

theorem around_of_controllers (htickets : q.tickets = p.tickets)
    (hcontrollers : q.controllers = p.controllers)
    (hprocesses : q.processes.length = p.processes.length) : Around c p q := by
  refine ⟨htickets, by rw [hcontrollers], ⟨(p.controller c).tree, (p.controller c).accepted, ?_⟩,
    hprocesses⟩
  rw [controller, hcontrollers]
  rfl

theorem Around.refl (c : Nat) (p : Plane) : Around c p p := around_of_controllers rfl rfl rfl

theorem around_modifyController (c : Nat) (p : Plane) {f : Controller → Controller}
    (hf : ∃ tree accepted, f (p.controller c) = { p.controller c with tree, accepted }) :
    Around c p (p.modifyController c f) := by
  refine ⟨rfl, List.length_modify _ _ _, ?_, rfl⟩
  rw [controller_modifyController]
  split
  · exact hf
  · exact ⟨_, _, rfl⟩

theorem around_setTree (c : Nat) (p : Plane) (tree : Tree) : Around c p (p.setTree c tree) :=
  around_modifyController c p ⟨_, _, rfl⟩

/-- Nothing runs on the controller, whose model is `root`. -/
structure Idle (c : Nat) (r : Registration) (root : Resource) (p : Plane) : Prop where
  hosts : p.Hosts c
  registration : p.registration c = r
  root : (p.tree c).root = root
  lock : (p.tree c).lock = {}

theorem Idle.ticketed (h : p.Idle c r root) : p.ticketed.Idle c r root :=
  ⟨⟨h.hosts.controller, h.hosts.process⟩, h.registration, h.root, h.lock⟩

/-- A lock that is free is taken at once. -/
theorem takeLock?_of_free {x : Transaction} (h : (p.tree c).lock = {}) (hx : x.hasIntent = false) :
    ∃ tree, Keeps (p.tree c) tree ∧ tree.lock = { holder := some x.writer } ∧
      p.takeLock? c x = some (p.setTree c tree, x.stage (p.tree c)) := by
  refine ⟨{ p.tree c with lock := { holder := some x.writer } }, ⟨rfl, rfl⟩, rfl, ?_⟩
  rw [takeLock?, Transaction.acquire?, if_neg (by rw [hx]; decide), h]
  dsimp only
  rw [show (({} : WriteLock).request x.writer) = { holder := some x.writer } from rfl, if_pos rfl]
  rfl

/-- A single operation with the given transaction runs on the controller. -/
structure Attends (c : Nat) (r : Registration) (t : Transaction) (p : Plane) : Prop where
  hosts : p.Hosts c
  registration : p.registration c = r
  based : t.Based (p.tree c)
  lock : t.Alone (p.tree c)

theorem Attends.releaseLock (h : p.Attends c r t) :
    (p.setTree c (t.releaseLock (p.tree c)).1).Attends c r (t.releaseLock (p.tree c)).2 := by
  have hkeeps := t.keeps_releaseLock (p.tree c)
  have hbased := h.based.releaseLock (p.tree c)
  refine ⟨Plane.hosts_setTree h.hosts _,
    (around_setTree c p _).registration.trans h.registration, ?_, ?_⟩
  · rw [tree_setTree p h.hosts.controller]
    exact ⟨hbased.base.trans hkeeps.1.symm, hbased.began.trans hkeeps.2.symm, hbased.clean⟩
  · rw [tree_setTree p h.hosts.controller]
    exact Transaction.alone_of_free h.lock.releaseLock (t.holdsLock_releaseLock _)

/-- A single operation that commits nothing on controller `c`, and degrades no process. -/
structure Calm (c : Nat) (p q : Plane) : Prop where
  around : Around c p q
  processes : q.processes = p.processes
  keeps : Keeps (p.tree c) (q.tree c)

theorem Calm.trans {p' : Plane} (h : Calm c p q) (h' : Calm c q p') : Calm c p p' :=
  ⟨h.around.trans h'.around, h'.processes.trans h.processes,
    h'.keeps.1.trans h.keeps.1, h'.keeps.2.trans h.keeps.2⟩

/-- The plane after the controller has counted an operation. -/
def counting (c : Nat) (p : Plane) : Plane :=
  p.modifyController c ({ · with accepted := (p.controller c).accepted + 1 })

theorem calm_counting (hp : p.Hosts c) : Calm c p (counting c p) ∧
    ((counting c p).tree c).lock = (p.tree c).lock := by
  have htree : (counting c p).tree c = p.tree c := by
    rw [counting, Plane.tree, Plane.controller_modifyController, if_pos ⟨rfl, hp.controller⟩]
    rfl
  rw [htree]
  exact ⟨⟨around_modifyController c p ⟨_, _, rfl⟩, rfl, by rw [htree]; exact ⟨rfl, rfl⟩⟩, rfl⟩

theorem calm_setTree (hp : p.Hosts c) {tree : Tree} (h : Keeps (p.tree c) tree) :
    Calm c p (p.setTree c tree) :=
  ⟨around_setTree c p tree, rfl, by rw [tree_setTree p hp.controller]; exact h⟩

end Plane

/-- **A commit on the root that the transaction is based on** succeeds and frees the lock. -/
theorem Transaction.Based.commits {x : Transaction} {t : Tree} (h : x.Based t) (hlock : x.Alone t) :
    ∃ published y, x.commit t = (.ok (), published, y) ∧ published.lock = {} := by
  rw [commit.eq_def]
  split
  · rename_i s hs
    split
    · rw [Tree.publish, if_pos h.began.symm]
      have hpublished : Transaction.Alone { x with base := s.root, began := t.version + 1 }
          { t with root := s.root, version := t.version + 1 } := hlock
      exact ⟨(finish { x with base := s.root, began := t.version + 1 }
        { t with root := s.root, version := t.version + 1 }).1, _, rfl, hpublished.releaseLock⟩
    · exact ⟨(x.finish t).1, _, rfl, hlock.releaseLock⟩
  · exact ⟨(x.finish t).1, _, rfl, hlock.releaseLock⟩

namespace Execution

open Plane (Around Calm Attends)

variable {c : Nat} {p q : Plane} {r : Registration} {root : Resource} {x y : Execution}

/-- The caller was told of an ordinary failure. -/
def Fails (answer : Answer) : Prop :=
  ∃ response streams, answer = .ok (response, streams) ∧ Response.isSuccess response = false

/-- How an operation is refused that a step stopped. -/
def Refuses (fatal : Bool) (answer : Answer) : Prop :=
  if fatal then IsFatal answer else Fails answer

/-! ## From the submission to the first step -/

/-- An operation that was accepted and has not begun its first step. -/
def admitted (c : Nat) (operation : Value) (id : Nat) (a : Address) (t : Transaction)
    (handler : Handler) : Execution :=
  { (new c operation (.decide .keep) {} .discard).opened id a t handler with phase := .stepping }

/-- What a controller looks up and checks before it admits an operation. -/
def consulted (r : Registration) (name : String) (a : Address) (operation : Value) :
    Except OperationError Resolved := do
  let resolved ← r.resolve a name
  resolved.check operation
  return resolved

theorem consulted_eq_ok {name : String} {a : Address} {operation : Value} {node : Registration}
    {entry : OperationEntry} (hresolve : r.resolve a name = .ok (.here node entry))
    (hcheck : entry.definition.check operation = .ok ()) :
    consulted r name a operation = .ok (.here node entry) := by
  rw [consulted, hresolve]
  show (entry.definition.check operation >>= fun _ => _) = _
  rw [hcheck]
  rfl

theorem of_consulted_eq_ok (hr : r.Local) {name : String} {a : Address} {operation : Value}
    {resolved : Resolved} (h : consulted r name a operation = .ok resolved) :
    ∃ node entry, r.resolve a name = .ok (.here node entry) ∧
      entry.definition.check operation = .ok () := by
  rw [consulted] at h
  cases hresolve : r.resolve a name with
  | error e =>
    rw [hresolve] at h
    cases h
  | ok found =>
    obtain ⟨node, entry, rfl, -⟩ := hr.resolve hresolve
    rw [hresolve] at h
    refine ⟨node, entry, rfl, ?_⟩
    cases hcheck : entry.definition.check operation with
    | ok _ => rfl
    | error e =>
      replace h : (entry.definition.check operation >>= fun _ => _) = .ok resolved := h
      rw [hcheck] at h
      cases h

section Begin

variable {name : String} {a : Address} {resolved : Resolved} {e : OperationError}

theorem begin_of_error (hparse : Operation.parse x.operation = .ok (name, a))
    (h : consulted ((Plane.counting x.controller p).registration x.controller) name a x.operation
      = .error e) : begin p x = reject (Plane.counting x.controller p) x e := by
  rw [consulted, Plane.counting] at h
  rw [begin, hparse]
  dsimp only
  rw [h, Plane.counting]

/-- The transaction that an operation begins on controller `c`. -/
def transactionOn (c : Nat) (p : Plane) : Transaction :=
  .begin (p.tree c) p.writers (p.settings c).lock

/-- The plane when a transaction on controller `c` has begun. -/
def entering (c : Nat) (p : Plane) : Plane :=
  { Plane.counting c p with writers := (Plane.counting c p).writers + 1 }

theorem begin_of_readOnly (hparse : Operation.parse x.operation = .ok (name, a))
    (h : consulted ((Plane.counting x.controller p).registration x.controller) name a x.operation
      = .ok resolved) (hread : resolved.isReadOnly = true) :
    begin p x = {
      plane := entering x.controller p
      next := .going { x.opened ((p.controller x.controller).accepted + 1) a
        (transactionOn x.controller (Plane.counting x.controller p)) resolved.handler with
          phase := .stepping } } := by
  rw [consulted, Plane.counting] at h
  rw [begin, hparse]
  dsimp only
  rw [h, Plane.counting]
  exact if_pos hread

theorem begin_of_taken (hparse : Operation.parse x.operation = .ok (name, a))
    (h : consulted ((Plane.counting x.controller p).registration x.controller) name a x.operation
      = .ok resolved) (hread : resolved.isReadOnly = false) {t : Transaction}
    (htake : (entering x.controller p).takeLock? x.controller
      (transactionOn x.controller (Plane.counting x.controller p)) = some (q, t)) :
    begin p x = {
      plane := q
      next := .going { x.opened ((p.controller x.controller).accepted + 1) a t resolved.handler with
        phase := .stepping } } := by
  rw [consulted, Plane.counting] at h
  rw [begin, hparse]
  dsimp only
  rw [h]
  refine (if_neg (by rw [hread]; decide)).trans ?_
  rw [entering, transactionOn, Plane.counting] at htake
  rw [htake]
  rfl

end Begin

/-- **An operation that its definition accepts** is admitted at once when nothing else runs. -/
theorem pass_begin (hp : p.Idle c r root) {operation : Value} {a : Address} {entry : OperationEntry}
    (hleads : r.LeadsTo [] operation a entry) (hcheck : entry.definition.check operation = .ok ()) :
    ∃ q id t, Pass (p, new c operation (.decide .keep) {} .discard)
        (q, admitted c operation id a t entry.handler) ∧ Calm c p q ∧ q.Attends c r t ∧
      t.root = root ∧ (entry.definition.readOnly = false → t.hasIntent = true) := by
  obtain ⟨name, b, node, hparse, hb, hresolve⟩ := hleads
  obtain rfl : a = b := hb
  obtain ⟨hcounting, hlock⟩ := Plane.calm_counting hp.hosts
  have hcalm : Calm c p (entering c p) :=
    hcounting.trans ⟨Plane.around_of_controllers rfl rfl rfl, rfl, ⟨rfl, rfl⟩⟩
  have hhosts : (entering c p).Hosts c := hcalm.around.hosts hp.hosts
  have hregistration : (entering c p).registration c = r :=
    hcalm.around.registration.trans hp.registration
  have hfree : ((entering c p).tree c).lock = {} := hlock.trans hp.lock
  have hroot : ((Plane.counting c p).tree c).root = root := hcounting.keeps.1.trans hp.root
  have hconsulted := consulted_eq_ok hresolve hcheck
  rw [← hcounting.around.registration.trans hp.registration] at hconsulted
  have hopen : ∀ answer, (new c operation (.decide .keep) {} .discard).phase ≠ .ended answer := by
    rintro _ ⟨⟩
  cases hreadOnly : entry.definition.readOnly with
  | true =>
    have hbegin := begin_of_readOnly (p := p) (x := new c operation (.decide .keep) {} .discard)
      hparse hconsulted hreadOnly
    exact ⟨_, _, _, .going hopen hbegin, hcalm, ⟨hhosts, hregistration,
      Transaction.based_begin ⟨rfl, rfl⟩ _ _, Transaction.alone_of_free hfree rfl⟩, hroot,
      by rintro ⟨⟩⟩
  | false =>
    obtain ⟨locked, hsame, hlocked, htake⟩ :=
      Plane.takeLock?_of_free (x := transactionOn c (Plane.counting c p)) hfree rfl
    have hset := Plane.tree_setTree (entering c p) hhosts.controller locked
    have hbegin := begin_of_taken (p := p) (x := new c operation (.decide .keep) {} .discard)
      hparse hconsulted hreadOnly htake
    refine ⟨_, _, _, .going hopen hbegin,
      hcalm.trans (Plane.calm_setTree hhosts hsame), ⟨Plane.hosts_setTree hhosts _,
        (Plane.around_setTree c _ _).registration.trans hregistration, ?_, ?_⟩, hroot,
      fun _ => rfl⟩
    · rw [hset]
      exact Transaction.based_stage ⟨hsame.1.symm, hsame.2.symm⟩ _
    · rw [hset, Transaction.Alone, hlocked]
      rfl

/-- **An operation that leads nowhere**, or that is not accepted where it leads, fails at once. -/
theorem pass_rejected (hr : r.Local) (hp : p.Idle c r root) {operation : Value}
    (hnot : ∀ a entry, r.LeadsTo [] operation a entry → entry.definition.check operation ≠ .ok ()) :
    ∃ q x answer, Pass (p, new c operation (.decide .keep) {} .discard) (q, x) ∧
      x.phase = .ended answer ∧ Fails answer ∧ Calm c p q ∧ (q.tree c).lock = {} := by
  have hreject : ∀ {q : Plane} {e : OperationError},
      begin p (new c operation (.decide .keep) {} .discard)
        = reject q (new c operation (.decide .keep) {} .discard) e → Calm c p q →
      (q.tree c).lock = (p.tree c).lock → ∃ q y answer,
        Pass (p, new c operation (.decide .keep) {} .discard) (q, y) ∧ y.phase = .ended answer ∧
        Fails answer ∧ Calm c p q ∧ (q.tree c).lock = {} := by
    intro q e hbegin hcalm hlock
    refine ⟨q, _, _, .going (by rintro _ ⟨⟩) hbegin, rfl, ⟨_, _, rfl, ?_⟩, hcalm,
      hlock.trans hp.lock⟩
    rw [Response.isSuccess_finish]
    rfl
  cases hparse : Operation.parse operation with
  | error e =>
    refine hreject (e := e) ?_ ⟨.refl c p, rfl, rfl, rfl⟩ rfl
    have hnone :
        Operation.parse (new c operation (.decide .keep) {} .discard).operation = .error e := hparse
    rw [begin, hnone]
  | ok parsed =>
    obtain ⟨name, a⟩ := parsed
    obtain ⟨hcounting, hlock⟩ := Plane.calm_counting hp.hosts
    cases hconsulted : consulted r name a operation with
    | error e =>
      rw [← hcounting.around.registration.trans hp.registration] at hconsulted
      exact hreject (begin_of_error hparse hconsulted) hcounting hlock
    | ok resolved =>
      obtain ⟨node, entry, hresolve, hcheck⟩ := of_consulted_eq_ok hr hconsulted
      exact absurd hcheck (hnot a entry ⟨name, a, node, hparse, rfl, hresolve⟩)

/-! ## From the last step to the answer -/

/-- A stage without steps is over, and so is the hold on the lock. -/
theorem pass_stage {s : Stage} (hphase : x.phase = .stepping)
    (hempty : x.context.queues.get x.context.stage = []) (hnext : x.context.stage.next? = some s) :
    Pass (p, x) (p.setTree x.controller
        (x.context.transaction.releaseLock (p.tree x.controller)).1,
      { x with context := { x.context with
          stage := s
          transaction := (x.context.transaction.releaseLock (p.tree x.controller)).2 } }) := by
  refine .going (by rw [hphase]; rintro _ ⟨⟩) ?_
  have hnone : x.context.nextStep? = none := by rw [Context.nextStep?, hempty]
  have hadvance : x.advance p = pick p x := by rw [advance, hphase]
  rw [hadvance, pick, hnone, hnext]

/-- The stages behind the first one have nothing to do. -/
theorem passes_stages (hphase : x.phase = .stepping) (hstage : x.context.stage = .model)
    (hqueues : x.context.queues = {})
    (hp : p.Attends x.controller r x.context.transaction) :
    ∃ q t,
      Passes (p, x) (q, { x with context := { x.context with stage := .done, transaction := t } }) ∧
      Calm x.controller p q ∧ q.Attends x.controller r t ∧
      t.root = x.context.transaction.root := by
  have hpass : ∀ {q : Plane} (s s' : Stage) {t : Transaction}, s.next? = some s' →
      q.Attends x.controller r t → ∃ q' t',
        Pass (q, { x with context := { x.context with stage := s, transaction := t } })
          (q', { x with context := { x.context with stage := s', transaction := t' } }) ∧
        Calm x.controller q q' ∧ q'.Attends x.controller r t' ∧ t'.root = t.root := by
    intro q s s' t hs hq
    refine ⟨_, _, pass_stage (x := { x with context := { x.context with
      stage := s, transaction := t } }) hphase ?_ hs,
      Plane.calm_setTree hq.hosts (t.keeps_releaseLock _), hq.releaseLock, t.root_releaseLock _⟩
    show x.context.queues.get s = []
    rw [hqueues]
    cases s <;> rfl
  obtain ⟨q₁, t₁, hpass₁, hcalm₁, hattends₁, hroot₁⟩ :=
    hpass .model .runtime rfl hp
  obtain ⟨q₂, t₂, hpass₂, hcalm₂, hattends₂, hroot₂⟩ := hpass .runtime .verify rfl hattends₁
  obtain ⟨q₃, t₃, hpass₃, hcalm₃, hattends₃, hroot₃⟩ := hpass .verify .done rfl hattends₂
  have hself : { x with context := { x.context with
      stage := .model, transaction := x.context.transaction } } = x := by rw [← hstage]
  rw [hself] at hpass₁
  exact ⟨q₃, t₃, ((Relation.ReflTransGen.single hpass₁).tail hpass₂).tail hpass₃,
    (hcalm₁.trans hcalm₂).trans hcalm₃, hattends₃, hroot₃.trans (hroot₂.trans hroot₁)⟩

/-- **The operation prepares and is committed.** -/
theorem passes_commit (hphase : x.phase = .stepping) (hstage : x.context.stage = .done)
    (hqueues : x.context.queues = {}) (hinput : x.context.input.cancellation = none)
    (hcontrol : x.control = .decide .keep)
    (hp : p.Attends x.controller r x.context.transaction) :
    ∃ q t, Passes (p, x)
        (q, { x with context := { x.context with transaction := t }, phase := .unwinding .kept }) ∧
      Around x.controller p q ∧ q.processes = p.processes ∧
      (q.tree x.controller).root = x.context.transaction.root ∧
      (q.tree x.controller).lock = {} := by
  set h := p.handles.length with hh
  set p₁ := (p.newHandle {}).2.decideAndDrop h .keep with hp₁
  obtain ⟨published, t, hcommit, hlock⟩ := hp.based.commits hp.lock
  obtain ⟨hroot, -⟩ := hp.based.commit ⟨rfl, rfl⟩ hcommit
  have hprepare : Pass (p, x) (p₁, { x with
      phase := .deciding h ((p₁.settings x.controller).prepared.map (p₁.now + ·)) }) := by
    refine .going (by rw [hphase]; rintro _ ⟨⟩) ?_
    have hnone : x.context.nextStep? = none := by
      rw [Context.nextStep?, hstage, hqueues]
      rfl
    have hadvance : x.advance p = pick p x := by rw [advance, hphase]
    have hcancelled : p.isCancelled x.context.input.cancellation = false := by
      rw [hinput]
      rfl
    rw [hadvance, pick, hnone, hstage, hcancelled]
    show prepare p x = _
    rw [prepare, hcontrol]
    rfl
  have hdecided : (p₁.handle h).outlook.effect? = some .keep := by
    have hlength : h < (p.newHandle {}).2.handles.length := by
      rw [Plane.newHandle, List.length_append]
      exact Nat.lt_succ_self _
    rw [hp₁, Plane.handle_decideAndDrop, if_pos ⟨rfl, hlength⟩, Plane.handle_newHandle, if_pos rfl]
    rfl
  have hdecide : Pass (p₁, { x with
      phase := .deciding h ((p₁.settings x.controller).prepared.map (p₁.now + ·)) })
      ((p₁.modifyHandle h Prepared.leave).setTree x.controller published,
        { x with context := { x.context with transaction := t }, phase := .unwinding .kept }) := by
    refine .going (by rintro _ ⟨⟩) ?_
    rw [advance]
    dsimp only
    rw [Execution.decide.eq_def, hdecided]
    dsimp only
    rw [apply]
    dsimp only
    have htree : (p₁.modifyHandle h Prepared.leave).tree x.controller = p.tree x.controller := rfl
    rw [htree, hcommit]
    rfl
  have haround : Around x.controller p (p₁.modifyHandle h Prepared.leave) :=
    Plane.around_of_controllers rfl rfl rfl
  refine ⟨_, t, (Relation.ReflTransGen.single hprepare).tail hdecide,
    haround.trans (Plane.around_setTree _ _ _), rfl, ?_, ?_⟩
  · rw [Plane.tree_setTree _ (by exact hp.hosts.controller)]
    exact hroot
  · rw [Plane.tree_setTree _ (by exact hp.hosts.controller)]
    exact hlock

/-- The completions of composites are told how it went, and amend the slots unless it went
well. -/
theorem passes_unwinding {e : Ending} (hphase : x.phase = .unwinding e)
    (hcompleted : ∀ d ∈ x.context.completed, d.Reports) :
    ∃ slots, (e = .kept → slots = x.context.slots) ∧
      Passes (p, x) (p, { x with context := { x.context with completed := [], slots } }) := by
  obtain ⟨completed, hx⟩ : ∃ l, l = x.context.completed := ⟨_, rfl⟩
  rw [← hx] at hcompleted
  induction completed generalizing x with
  | nil =>
    refine ⟨x.context.slots, fun _ => rfl, ?_⟩
    rw [hx]
    exact .refl
  | cons d rest ih =>
    obtain ⟨⟨own, labels, rfl⟩, hrest⟩ := List.forall_mem_cons.mp hcompleted
    obtain ⟨slots, hslots, hrun⟩ : ∃ slots, (e = .kept → slots = x.context.slots) ∧
        (Completion.reportSteps own labels).run e.decision
          ⟨p, x.controller, { x.context with completed := rest }⟩
        = ⟨p, x.controller, { x.context with completed := rest, slots }⟩ := by
      rw [Completion.run]
      split
      · exact ⟨x.context.slots, fun _ => rfl, rfl⟩
      · rename_i hdecision
        refine ⟨_, ?_, rfl⟩
        rintro rfl
        exact absurd rfl hdecision
    have hpass : Pass (p, x)
        (p, { x with context := { x.context with completed := rest, slots } }) := by
      refine .going (by rw [hphase]; rintro _ ⟨⟩) ?_
      have hadvance : x.advance p = unwind p x e := by rw [advance, hphase]
      rw [hadvance, unwind, ← hx]
      dsimp only
      rw [hrun]
    obtain ⟨slots', hslots', hpasses⟩ :=
      ih (x := { x with context := { x.context with completed := rest, slots } }) hphase hrest rfl
    exact ⟨slots', fun he => (hslots' he).trans (hslots he), .head hpass hpasses⟩

theorem pass_drain {e : Ending} {deadline : Option Nat} (hphase : x.phase = .draining deadline e)
    (hcompletions : x.context.completions = []) :
    Pass (p, x) (p, { x with phase := .ended ((e.response? x.context).map fun response =>
      (p.finish x.controller response, x.context.streams)) }) := by
  refine .going (by rw [hphase]; rintro _ ⟨⟩) ?_
  have hadvance : x.advance p = drain p x deadline e := by rw [advance, hphase]
  rw [hadvance, drain, hcompletions]

/-- **After a commit** the operation answers what it has in its own slot. -/
theorem passes_answer (hphase : x.phase = .unwinding .kept)
    (hcompleted : ∀ d ∈ x.context.completed, d.Reports)
    (hcompletions : x.context.completions = []) :
    ∃ y, Passes (p, x) (p, y) ∧ y.phase = .ended (.ok
      (p.finish x.controller ((x.context.slot Context.rootSlot).toValue false),
        x.context.streams)) := by
  obtain ⟨slots, hslots, hpasses⟩ := passes_unwinding (p := p) hphase hcompleted
  obtain rfl := hslots rfl
  have hunwound : Pass (p, { x with context := { x.context with completed := [] } })
      (p, { x with
        context := { x.context with completed := [] }
        phase := .draining none .kept }) := by
    refine .going ?_ ?_
    · show ∀ answer, x.phase ≠ .ended answer
      rw [hphase]
      rintro _ ⟨⟩
    · have hadvance : advance p { x with context := { x.context with completed := [] } }
          = unwind p { x with context := { x.context with completed := [] } } .kept := by
        rw [advance]
        dsimp only
        rw [hphase]
      rw [hadvance, unwind]
      rfl
  exact ⟨_, (hpasses.tail hunwound).tail (pass_drain rfl hcompletions), rfl⟩

/-- **After a failure** the model is as before. -/
theorem passes_refused {e : Ending} {fatal : Bool} (hphase : x.phase = .unwinding e)
    (he : e.Stops fatal) (hcompleted : ∀ d ∈ x.context.completed, d.Reports)
    (hcompletions : x.context.completions = [])
    (hp : p.Attends x.controller r x.context.transaction) :
    ∃ q y answer, Passes (p, x) (q, y) ∧ y.phase = .ended answer ∧ Refuses fatal answer ∧
      Around x.controller p q ∧ Keeps (p.tree x.controller) (q.tree x.controller) ∧
      (q.tree x.controller).lock = {} := by
  obtain ⟨slots, -, hpasses⟩ := passes_unwinding (p := p) hphase hcompleted
  set z : Execution := { x with context := { x.context with completed := [], slots } } with hz
  have hadvance : z.advance p = unwound p z e := by
    rw [advance, show z.phase = .unwinding e from hphase]
    dsimp only
    rw [unwind]
  have hopen : ∀ answer, z.phase ≠ .ended answer := by
    show ∀ answer, x.phase ≠ .ended answer
    rw [hphase]
    rintro _ ⟨⟩
  -- both kinds of failure roll the model back, on a plane that has the same controllers
  have hrollback : ∀ {q : Plane}, Around x.controller p q → q.controllers = p.controllers →
      z.advance p = {
        plane := q.setTree x.controller (x.context.transaction.rollback (q.tree x.controller)).1
        next := .going { z.withTransaction
          (x.context.transaction.rollback (q.tree x.controller)).2 with phase := .draining none e }
      } →
      ∃ q y, Passes (p, x) (q, y) ∧ y.phase = .ended ((e.response? y.context).map fun response =>
          (q.finish x.controller response, y.context.streams)) ∧ Around x.controller p q ∧
        Keeps (p.tree x.controller) (q.tree x.controller) ∧ (q.tree x.controller).lock = {} := by
    intro q haround hcontrollers hturn
    have htree : q.tree x.controller = p.tree x.controller := by
      rw [Plane.tree, Plane.tree, Plane.controller, Plane.controller, hcontrollers]
    have hset := Plane.tree_setTree q (haround.hosts hp.hosts).controller
      (x.context.transaction.rollback (q.tree x.controller)).1
    refine ⟨_, _, (hpasses.tail (.going hopen hturn)).tail (pass_drain rfl hcompletions), rfl,
      haround.trans (Plane.around_setTree _ _ _), ?_, ?_⟩
    · rw [hset, htree]
      exact x.context.transaction.keeps_finish _
    · rw [hset, htree]
      exact hp.lock.releaseLock
  cases fatal with
  | false =>
    obtain rfl : e = .failed := he
    obtain ⟨q, y, hpasses, hended, haround, hkeeps, hlock⟩ :=
      hrollback (.refl _ p) rfl hadvance
    refine ⟨q, y, _, hpasses, hended, ⟨_, _, rfl, ?_⟩, haround, hkeeps, hlock⟩
    rw [Response.isSuccess_finish, Response.isSuccess_toValue]
    rfl
  | true =>
    obtain ⟨reason, rfl⟩ : ∃ reason, e = .fatal reason := he
    obtain ⟨q, y, hpasses, hended, haround, hkeeps, hlock⟩ :=
      hrollback (q := p.changeProcess x.controller .reload)
        (Plane.around_of_controllers rfl rfl (List.length_modify _ _ _)) rfl hadvance
    exact ⟨q, y, _, hpasses, hended, ⟨reason, rfl⟩, haround, hkeeps, hlock⟩

/-- **An operation with nothing left to do** is committed and answers. -/
theorem passes_kept (hphase : x.phase = .stepping) (hstage : x.context.stage = .model)
    (hqueues : x.context.queues = {}) (hinput : x.context.input.cancellation = none)
    (hcontrol : x.control = .decide .keep) (hcompleted : ∀ d ∈ x.context.completed, d.Reports)
    (hcompletions : x.context.completions = [])
    (hp : p.Attends x.controller r x.context.transaction) :
    ∃ q y, Passes (p, x) (q, y) ∧ y.phase = .ended (.ok
        (q.finish x.controller ((x.context.slot Context.rootSlot).toValue false),
          x.context.streams)) ∧
      Around x.controller p q ∧ q.processes = p.processes ∧
      (q.tree x.controller).root = x.context.transaction.root ∧
      (q.tree x.controller).lock = {} := by
  obtain ⟨q, t, hstages, hcalm, hattends, hroot⟩ := passes_stages hphase hstage hqueues hp
  obtain ⟨q', t', hcommit, haround, hprocesses, hroot', hlock⟩ := passes_commit
    (x := { x with context := { x.context with stage := .done, transaction := t } })
    hphase rfl hqueues hinput hcontrol hattends
  obtain ⟨y, hanswer, hended⟩ := passes_answer (p := q')
    (x := { x with
      context := { x.context with stage := .done, transaction := t' }
      phase := .unwinding .kept }) rfl hcompleted hcompletions
  exact ⟨q', y, (hstages.trans hcommit).trans hanswer, hended, hcalm.around.trans haround,
    hprocesses.trans hcalm.processes, hroot'.trans hroot, hlock⟩

/-! ## A whole operation -/

theorem poised_admitted {operation : Value} {id : Nat} {a : Address} {t : Transaction}
    {handler : Handler} (hp : p.Attends c r t) (hroot : t.root = root)
    (hintent : handler.writes = true → t.hasIntent = true) :
    Poised r root p (admitted c operation id a t handler)
      ⟨handler, operation, a, Context.rootSlot⟩ [] where
  registration := hp.registration
  phase := rfl
  stage := rfl
  violation := rfl
  rollbackOnly := rfl
  input := rfl
  snapshot := hroot
  queue := rfl
  slot := rfl
  intent := hintent

end Execution

namespace Plane

open Execution (Ends Fails Refuses)

variable {c : Nat} {p q : Plane} {r : Registration} {root root' : Resource} {t : Transaction}
  {operation v : Value} {a : Address} {entry : OperationEntry} {fatal : Bool}

theorem Attends.of_worked {t' : Transaction} (h : p.Attends c r t) (ht : t.Worked t') :
    p.Attends c r t' :=
  ⟨h.hosts, h.registration, ht.written.based h.based, h.lock.of_worked ht⟩

theorem Around.finish (h : Around c p q) (hprocesses : q.processes = p.processes) :
    q.finish c = p.finish c := by
  obtain ⟨tree, accepted, hq⟩ := h.controller
  funext response
  rw [Plane.finish, Plane.finish, processState, processState, hq, hprocesses]

theorem Idle.modifyTicket (h : p.Idle c r root) (t : Nat) (f : Ticket → Ticket) :
    (p.modifyTicket t f).Idle c r root :=
  ⟨⟨h.hosts.controller, h.hosts.process⟩, h.registration, h.root, h.lock⟩

/-- **An operation whose step answers** is committed. -/
theorem executes_answered (hp : p.Idle c r root) (hleads : r.LeadsTo [] operation a entry)
    (hcheck : entry.definition.check operation = .ok ())
    (hwrites : entry.handler.writes = !entry.definition.readOnly)
    (hends : Ends r entry.handler operation a root (.answered v root')) :
    ∃ q, p.Executes c operation (.ok (p.finish c (Response.success v), [])) q ∧
      q.Idle c r root' ∧ q.finish c = p.finish c := by
  obtain ⟨q₁, id, t, hbegin, hcalm, hattends, hroot, hintent⟩ :=
    Execution.pass_begin hp.ticketed hleads hcheck
  set x := Execution.admitted c operation id a t entry.handler with hx
  obtain ⟨more, t', new, hworked, hroot', hnew, hstep⟩ := hends q₁ x _ _
    (Execution.poised_admitted hattends hroot fun hw => hintent (by simpa [hwrites] using hw))
  have hcompleted : ∀ d ∈ new ++ x.context.completed, d.Reports := by
    rw [show x.context.completed = [] from rfl, List.append_nil]
    exact hnew
  obtain ⟨q, y, hkept, hended, haround, hprocesses, hq, hlock⟩ := Execution.passes_kept
    (x := x.after [] (x.context.slots.set Context.rootSlot (.answered v) ++ more) t' new)
    rfl rfl rfl rfl rfl hcompleted rfl (hattends.of_worked hworked)
  have haround' := hcalm.around.trans haround
  have hfinish : q.finish c = p.finish c := haround'.finish (hprocesses.trans hcalm.processes)
  have hidle : q.Idle c r root' := ⟨haround'.hosts hp.ticketed.hosts,
    haround'.registration.trans hp.registration, hq.trans hroot', hlock⟩
  refine ⟨_, executes_of_passes ((hstep.head hbegin).trans hkept) ?_ haround'.tickets,
    hidle.modifyTicket _ _, hfinish⟩
  rw [hended, ← hfinish]
  rfl

/-- **An operation whose step stops it** is refused and commits nothing. -/
theorem executes_stopped (hp : p.Idle c r root) (hleads : r.LeadsTo [] operation a entry)
    (hcheck : entry.definition.check operation = .ok ())
    (hwrites : entry.handler.writes = !entry.definition.readOnly)
    (hends : Ends r entry.handler operation a root (.stopped fatal)) :
    ∃ answer q, p.Executes c operation answer q ∧ Refuses fatal answer ∧ q.Idle c r root ∧
      Keeps (p.tree c) (q.tree c) := by
  obtain ⟨q₁, id, t, hbegin, hcalm, hattends, hroot, hintent⟩ :=
    Execution.pass_begin hp.ticketed hleads hcheck
  set x := Execution.admitted c operation id a t entry.handler with hx
  obtain ⟨y, e, hstep, hphase, hstops, hleaves⟩ := hends q₁ x _ _
    (Execution.poised_admitted hattends hroot fun hw => hintent (by simpa [hwrites] using hw))
  obtain ⟨new, hcompleted, hreports⟩ := hleaves.completed
  rw [show x.context.completed = [] from rfl, List.append_nil] at hcompleted
  have hcontroller : y.controller = c := hleaves.controller
  obtain ⟨q, z, answer, hrefused, hended, hrefuses, haround, hkeeps, hlock⟩ :=
    Execution.passes_refused hphase hstops (hcompleted ▸ hreports) hleaves.completions
      (hcontroller ▸ hattends.of_worked hleaves.transaction)
  rw [hcontroller] at haround hkeeps hlock
  have haround' := hcalm.around.trans haround
  have hkeeps' : Keeps (p.tree c) (q.tree c) :=
    ⟨hkeeps.1.trans hcalm.keeps.1, hkeeps.2.trans hcalm.keeps.2⟩
  have hidle : q.Idle c r root := ⟨haround'.hosts hp.ticketed.hosts,
    haround'.registration.trans hp.registration, hkeeps'.1.trans hp.root, hlock⟩
  exact ⟨answer, _, executes_of_passes ((hstep.head hbegin).trans hrefused) hended
    haround'.tickets, hrefuses, hidle.modifyTicket _ _, hkeeps'⟩

/-- **An operation that is not accepted** fails and commits nothing. -/
theorem executes_rejected (hr : r.Local) (hp : p.Idle c r root)
    (hnot : ∀ a entry, r.LeadsTo [] operation a entry → entry.definition.check operation ≠ .ok ()) :
    ∃ answer q, p.Executes c operation answer q ∧ Fails answer ∧ q.Idle c r root ∧
      Keeps (p.tree c) (q.tree c) := by
  obtain ⟨q, x, answer, hpass, hended, hfails, hcalm, hlock⟩ :=
    Execution.pass_rejected hr hp.ticketed hnot
  have hidle : q.Idle c r root := ⟨hcalm.around.hosts hp.ticketed.hosts,
    hcalm.around.registration.trans hp.registration, hcalm.keeps.1.trans hp.root, hlock⟩
  exact ⟨answer, _, executes_of_passes (.single hpass) hended hcalm.around.tickets, hfails,
    hidle.modifyTicket _ _, hcalm.keeps⟩

end Plane

end ManagementPlane
