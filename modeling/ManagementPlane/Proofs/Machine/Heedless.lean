import ManagementPlane.Proofs.Machine.Ending
import ManagementPlane.Proofs.Pipeline.Blind

/-!
# Proofs/Machine/Heedless — turns that a cancellation does not change

An operation looks at its cancellation while its pipeline lasts, and never again
(`Execution.Heedless`).  So whoever has another cancellation, or has come through its pipeline,
takes the same turn in planes that differ in that cancellation (`Execution.alike_advance`).
-/

namespace ManagementPlane

open Plane

/-- The turns come to the same, in planes that stay alike. -/
structure Turn.Alike (c : Nat) (t u : Turn) : Prop where
  plane : t.plane.Alike c u.plane
  spawned : u.spawned = t.spawned
  next : u.next = t.next

variable {c : Nat} {p q : Plane} {x : Execution} {step : Step}

/-- A wait ends in the same way where the cancellation is that of somebody else. -/
theorem Execution.alike_interruption? (hx : x.context.input.cancellation ≠ some c)
    (h : p.Alike c q) (due : Nat) (what : String) :
    x.interruption? q due what = x.interruption? p due what := by
  have hglance : q.glance = p.glance := h.read Plane.glance fun _ _ => rfl
  rw [interruption?, interruption?, hglance, h.now, h.settings, h.overtakes hx]

/-! ## Forwarding -/

namespace Forwarding

/-- A participant that breaks the rules does so in both planes. -/
theorem alike_unruly (h : p.Alike c q) (f : Nat) (name : String) (conduct : Misconduct) :
    (unruly q f name conduct).1 = (unruly p f name conduct).1 ∧
      (unruly p f name conduct).2.Alike c (unruly q f name conduct).2 := by
  obtain ⟨hfirst, hnew⟩ := h.newHandle {}
  cases conduct with
  | preparesTwice =>
    have hreported := hnew.reportOutcome f (.prepared (p.newHandle {}).1 (Response.success name))
    obtain ⟨hsecond, hlast⟩ := hreported.newHandle {}
    rw [unruly, unruly]
    dsimp only
    rw [hfirst, hsecond]
    exact ⟨rfl, (hlast.reportOutcome f _).modifyForward f _⟩
  | failsAfterPreparing =>
    rw [unruly, unruly]
    dsimp only
    rw [hfirst]
    exact ⟨rfl, (hnew.reportOutcome f _).failForward f _⟩
  | preparesAfterFailing =>
    rw [unruly, unruly]
    dsimp only
    rw [hfirst]
    exact ⟨rfl, ((hnew.reportOutcome f _).reportOutcome f _).modifyForward f _⟩
  | preparesLate ms => exact ⟨by rw [unruly, unruly, h.now], h⟩
  | neverCompletes =>
    rw [unruly, unruly]
    dsimp only
    rw [hfirst]
    exact ⟨rfl, hnew.reportOutcome f _⟩
  | completesTwice =>
    rw [unruly, unruly]
    dsimp only
    rw [hfirst]
    exact ⟨rfl, hnew.reportOutcome f _⟩
  | preparesDeaf =>
    obtain ⟨hdeaf, hnew⟩ := h.newHandle { listening := false }
    rw [unruly, unruly]
    dsimp only
    rw [hdeaf]
    exact ⟨rfl, (hnew.reportOutcome f _).modifyForward f _⟩
  | failsBare => exact ⟨rfl, h.failForward f _⟩
  | failsStructured => exact ⟨rfl, h.failForward f _⟩
  | staysSilent => exact ⟨rfl, h.modifyForward f _⟩

/-- A participant that stands in for a controller asks for no cancellation. -/
theorem alike_mock (h : p.Alike c q) (m f : Nat) (operation : Value) :
    (mock q m f operation).1 = (mock p m f operation).1 ∧
      (mock p m f operation).2.Alike c (mock q m f operation).2 := by
  have hmocks : q.mocks = p.mocks := h.read Plane.mocks fun _ _ => rfl
  have hnoted : ∀ g, (p.modifyMock m g).Alike c (q.modifyMock m g) :=
    fun g => h.map (Plane.modifyMock · m g) fun _ _ => rfl
  rw [mock, mock, hmocks]
  dsimp only
  split
  · exact ⟨rfl, hnoted _⟩
  · next result _ _ =>
    obtain ⟨hfirst, hnew⟩ := (hnoted _).newHandle {}
    rw [hfirst]
    exact ⟨rfl, hnew.reportOutcome f (.prepared _ (Response.success result))⟩
  · exact ⟨rfl, (hnoted _).failForward f _⟩
  · exact ⟨rfl, hnoted _⟩

/-- The operation gets to the child in both planes or in neither, with the same tasks on the way.
-/
theorem alike_dispatch (h : p.Alike c q) (x : Execution) (proxy : Proxy) (operation : Value)
    (f : Nat) :
    (dispatch q x proxy operation f).1 = (dispatch p x proxy operation f).1 ∧
      (dispatch q x proxy operation f).2.1 = (dispatch p x proxy operation f).2.1 ∧
      (dispatch p x proxy operation f).2.2.Alike c (dispatch q x proxy operation f).2.2 := by
  rw [dispatch, dispatch]
  split
  · have hlinks : q.links = p.links := h.read Plane.links fun _ _ => rfl
    have hnumber : q.newLink.1 = p.newLink.1 := congrArg List.length hlinks
    have hnew := h.map (fun p => p.newLink.2) fun _ _ => rfl
    dsimp only
    rw [hnumber]
    exact ⟨rfl, rfl, hnew⟩
  · next a _ =>
    have hexchanges : q.exchanges = p.exchanges := h.read Plane.exchanges fun _ _ => rfl
    have hnew : ((p.newExchange (p.actor a).nextNumber).2.modifyActor a fun k =>
        { k with nextNumber := k.nextNumber + 1 }).Alike c
        ((q.newExchange (p.actor a).nextNumber).2.modifyActor a fun k =>
          { k with nextNumber := k.nextNumber + 1 }) :=
      Alike.modifyActor (h.map (fun p' => (p'.newExchange (p.actor a).nextNumber).2)
        fun _ _ => rfl) a _
    have hnumber : (q.newExchange (p.actor a).nextNumber).1 =
        (p.newExchange (p.actor a).nextNumber).1 := congrArg List.length hexchanges
    dsimp only
    rw [h.actor, hnumber]
    split
    · obtain ⟨hticket, hsent⟩ := hnew.send a (.execute (p.actor a).nextNumber
        (p.newExchange (p.actor a).nextNumber).1 operation
        { x.context.input with cancellation := none })
      rw [hticket]
      exact ⟨rfl, rfl, hsent⟩
    · exact ⟨rfl, rfl, hnew.failForward f _⟩
  · next m _ =>
    obtain ⟨hspawned, halike⟩ := alike_mock h m f operation
    generalize mock p m f operation = before at hspawned halike ⊢
    generalize mock q m f operation = after at hspawned halike ⊢
    obtain ⟨spawned, p'⟩ := before
    obtain ⟨spawned', q'⟩ := after
    obtain rfl : spawned' = spawned := hspawned
    cases spawned' with
    | none => exact ⟨rfl, rfl, halike⟩
    | some spawned => exact ⟨rfl, rfl, halike⟩
  · next name conduct _ =>
    obtain ⟨hspawned, halike⟩ := alike_unruly h f name conduct
    exact ⟨rfl, hspawned, halike⟩

variable (hx : x.context.input.cancellation ≠ some c)

include hx

/-- A step is forwarded in both planes, or overtaken by a cancellation in both. -/
theorem alike_start (h : p.Alike c q) (proxy : Proxy) :
    (start p x step proxy).Alike c (start q x step proxy) := by
  have hforwards : q.forwards = p.forwards := h.read Plane.forwards fun _ _ => rfl
  have hnew : p.newForward.2.Alike c q.newForward.2 :=
    h.map (fun p => p.newForward.2) fun _ _ => rfl
  have hnumber : q.newForward.1 = p.newForward.1 := congrArg List.length hforwards
  rw [start, start]
  dsimp only
  rw [h.overtakes hx]
  split
  · exact ⟨h, rfl, rfl⟩
  · split
    · exact ⟨h, rfl, rfl⟩
    · rw [hnumber]
      obtain ⟨hout, hspawned, halike⟩ := alike_dispatch hnew x proxy
        (step.operation.set Key.address (Address.toValue (step.address.drop proxy.node.length)))
        p.newForward.1
      generalize dispatch p.newForward.2 x proxy _ p.newForward.1 = before
        at hout hspawned halike ⊢
      generalize dispatch q.newForward.2 x proxy _ p.newForward.1 = after
        at hout hspawned halike ⊢
      obtain ⟨out, spawned, p'⟩ := before
      obtain ⟨out', spawned', q'⟩ := after
      obtain rfl : out' = out := hout
      obtain rfl : spawned' = spawned := hspawned
      cases out' with
      | ok delivery => exact ⟨halike, rfl, by rw [hnew.now, hnew.settings]⟩
      | error reason => exact ⟨Alike.modifyForward halike _ _, rfl, rfl⟩

omit hx in
/-- A forwarded step that is given up lets go of the same handle. -/
theorem alike_stop (h : p.Alike c q) (f : Nat) (d : Delivery) (e : OperationError) :
    (stop p x step f d e).Alike c (stop q x step f d e) := by
  have hunread : unread? q f d = unread? p f d := by
    cases d with
    | linked l => rw [unread?, unread?, h.link]
    | delivered => rw [unread?, unread?, h.forward]
    | _ => rfl
  have hgone := h.letGo (unread? p f d)
  refine ⟨?_, rfl, rfl⟩
  show (abandon p f d).Alike c (abandon q f d)
  rw [abandon, abandon, hunread]
  cases d with
  | sending a ticket e => exact ((hgone.modifyActor a _).modifyExchange e _).modifyForward f _
  | linked l => exact (hgone.modifyLink l _).modifyForward f _
  | following a e => exact (hgone.modifyExchange e _).modifyForward f _
  | delivered => exact hgone.modifyForward f _

/-- Nothing has arrived yet: the deadline passes in both planes, or in neither. -/
theorem alike_wait (h : p.Alike c q) (f due : Nat) (d : Delivery) :
    (wait p x step f due d).Alike c (wait q x step f due d) := by
  rw [wait, wait, h.now, h.settings, h.isCancelled hx]
  split
  · exact alike_stop h f d _
  · split
    · exact alike_stop h f d _
    · exact ⟨h, rfl, rfl⟩

/-- What has arrived is the same, and so is what becomes of it. -/
theorem alike_follow (h : p.Alike c q) (f due : Nat) (d : Delivery) :
    (follow p x step f due d).Alike c (follow q x step f due d) := by
  have hwait : ∀ d, (wait p x step f due d).Alike c (wait q x step f due d) :=
    alike_wait hx h f due
  rw [follow.eq_def, follow.eq_def]
  dsimp only
  cases d with
  | sending a ticket e =>
    dsimp only
    rw [h.actor]
    split
    · exact ⟨h, rfl, rfl⟩
    · split
      · exact ⟨h.failForward f _, rfl, rfl⟩
      · exact hwait _
  | linked l =>
    dsimp only
    rw [h.link]
    split
    · exact ⟨(h.modifyLink l _).reportOutcome f (.prepared _ _), rfl, rfl⟩
    · exact ⟨h.failForward f _, rfl, rfl⟩
    · exact ⟨h.failForward f _, rfl, rfl⟩
    · exact hwait _
  | following a e =>
    have hseen := h.modifyExchange e fun _ => (p.exchange e).next.2
    dsimp only
    rw [h.exchange]
    split
    · exact ⟨hseen.report _ _, rfl, rfl⟩
    · next response _ =>
      obtain ⟨hfirst, hnew⟩ := hseen.newHandle {}
      rw [hfirst]
      exact ⟨(hnew.reportOutcome f _).modifyActor a _, rfl, rfl⟩
    · exact ⟨(hseen.modifyExchange e _).failForward f _, rfl, rfl⟩
    · exact ⟨hseen.failForward f _, rfl, rfl⟩
    · exact hwait _
  | delivered =>
    dsimp only
    rw [h.forward]
    split
    · exact ⟨h, rfl, rfl⟩
    · split
      · exact ⟨h.modifyForward f _, rfl, rfl⟩
      · exact hwait _

/-- A forwarded step takes the same turn: it is interrupted in both planes, or in neither. -/
theorem alike_advance (h : p.Alike c q) (f due : Nat) (d : Delivery) :
    (advance p x step f due d).Alike c (advance q x step f due d) := by
  rw [advance, advance, Execution.alike_interruption? hx h]
  split
  · exact alike_stop h f d _
  · exact alike_follow hx h f due d

end Forwarding

/-! ## The pipeline -/

namespace Plane

/-- The lock is free in both planes, or in neither. -/
theorem Alike.takeLock? (h : p.Alike c q) (k : Nat) (t : Transaction) :
    (p.takeLock? k t = none ∧ q.takeLock? k t = none) ∨
      ∃ p' q' t', p.takeLock? k t = some (p', t') ∧ q.takeLock? k t = some (q', t') ∧
        p'.Alike c q' := by
  rw [Plane.takeLock?, Plane.takeLock?, h.tree]
  cases t.acquire? (p.tree k) with
  | none => exact .inl ⟨rfl, rfl⟩
  | some out => exact .inr ⟨_, _, _, rfl, rfl, h.setTree k _⟩

theorem Alike.queueForLock (h : p.Alike c q) (k : Nat) (t : Transaction) :
    (p.queueForLock k t).Alike c (q.queueForLock k t) :=
  h.map (Plane.queueForLock · k t) fun _ _ => rfl

theorem Alike.leaveLock (h : p.Alike c q) (k : Nat) (t : Transaction) :
    (p.leaveLock k t).Alike c (q.leaveLock k t) := h.map (Plane.leaveLock · k t) fun _ _ => rfl

/-- However an operation makes known that it has prepared. -/
theorem Alike.announcePrepared (h : p.Alike c q) (control : Control) (i : Nat)
    (tentative : Value) :
    (p.announcePrepared control i tentative).Alike c (q.announcePrepared control i tentative) := by
  cases control with
  | decide d => exact h.decideAndDrop i d
  | announce decisions =>
    refine Alike.modifyHandle (alike_foldl ?_ decisions (h.writeLog _)) i _
    intro p q h d
    obtain ⟨hout, hdecided⟩ := h.decide i d
    dsimp only
    rw [hout]
    exact hdecided.writeLog _
  | hold t => exact h.modifyTicket t _
  | relay l =>
    rw [Plane.announcePrepared, Plane.announcePrepared]
    dsimp only
    rw [h.link]
    split
    · exact h.modifyLink l _
    · exact h.decideAndDrop i .rollback
  | exchange e a =>
    rw [Plane.announcePrepared, Plane.announcePrepared]
    dsimp only
    rw [h.actor, h.exchange]
    split
    · have henrolled := h.modifyActor a fun k => { k with
        enrollments := k.enrollments ++ [.prepared (p.exchange e).number i] }
      rw [henrolled.exchange]
      split
      · exact henrolled.modifyExchange e _
      · exact (henrolled.decideAndDrop i .rollback).modifyActor a _
    · exact h.decideAndDrop i .rollback
  | stopWorker name d =>
    have hstopped := h.map (fun p => { p with workers := p.workers.stop name }) fun _ _ => rfl
    exact hstopped.decideAndDrop i d

end Plane

namespace Execution

/-- An operation is refused with the same response. -/
theorem alike_reject (h : p.Alike c q) (x : Execution) (e : OperationError) :
    (reject p x e).Alike c (reject q x e) := by
  rw [reject, reject, h.finish]
  exact ⟨h, rfl, rfl⟩

/-- An operation begins: it is refused in both planes, waits for the lock in both, or opens in
both. -/
theorem alike_begin (h : p.Alike c q) : (begin p x).Alike c (begin q x) := by
  rw [begin, begin]
  split
  · exact alike_reject h x _
  · next name address _ =>
    have haccepted := h.map (Plane.modifyController · x.controller
      ({ · with accepted := (p.controller x.controller).accepted + 1 })) fun _ _ => rfl
    dsimp only
    rw [h.controller]
    generalize p.modifyController x.controller
      ({ · with accepted := (p.controller x.controller).accepted + 1 }) = p₁ at haccepted ⊢
    generalize q.modifyController x.controller
      ({ · with accepted := (p.controller x.controller).accepted + 1 }) = q₁ at haccepted ⊢
    have hbegun := haccepted.map ({ · with writers := p₁.writers + 1 }) fun _ _ => rfl
    rw [haccepted.registration, haccepted.tree, haccepted.writers, haccepted.settings]
    split
    · exact alike_reject haccepted x _
    · next resolved _ =>
      split
      · exact ⟨hbegun, rfl, rfl⟩
      · rcases hbegun.takeLock? x.controller (Transaction.begin (p₁.tree x.controller) p₁.writers
          (p₁.settings x.controller).lock) with ⟨hp, hq⟩ | ⟨p', q', t, hp, hq, htaken⟩
        · rw [hp, hq]
          exact ⟨hbegun.queueForLock _ _, rfl, by rw [hbegun.now]⟩
        · rw [hp, hq]
          exact ⟨htaken, rfl, rfl⟩

/-- Whoever waits for the lock gets it in both planes, or fails in both, or goes on waiting. -/
theorem alike_awaitLock (h : p.Alike c q) (due : Nat) :
    (awaitLock p x due).Alike c (awaitLock q x due) := by
  rw [awaitLock, awaitLock]
  dsimp only
  rcases h.takeLock? x.controller x.context.transaction with
    ⟨hp, hq⟩ | ⟨p', q', t, hp, hq, htaken⟩
  · rw [hp, hq, h.now]
    dsimp only
    split
    · exact alike_reject (h.leaveLock _ _) x _
    · exact ⟨h, rfl, rfl⟩
  · rw [hp, hq]
    exact ⟨htaken, rfl, rfl⟩

/-- An operation prepares with the same handle and the same deadline. -/
theorem alike_prepare (h : p.Alike c q) : (prepare p x).Alike c (prepare q x) := by
  obtain ⟨hnumber, hnew⟩ := h.newHandle {}
  rw [prepare, prepare]
  dsimp only
  rw [hnumber]
  have hannounced := hnew.announcePrepared x.control (p.newHandle {}).1
    ((x.context.slot Context.rootSlot).toValue false)
  refine ⟨hannounced, rfl, ?_⟩
  dsimp only
  rw [hannounced.settings, hannounced.now]

/-! ## The end -/

/-- A decision finds the same staged model, and commits it or fails to. -/
theorem alike_apply (h : p.Alike c q) (i : Nat) (d : Decision) :
    (apply p x i d).Alike c (apply q x i d) := by
  have hleft := h.modifyHandle i Prepared.leave
  rw [apply.eq_def, apply.eq_def]
  dsimp only
  rw [hleft.tree]
  cases d with
  | keep =>
    dsimp only
    split <;> exact ⟨hleft.setTree _ _, rfl, rfl⟩
  | rollback => exact ⟨hleft.setTree _ _, rfl, rfl⟩

/-- An operation that has prepared looks at its handle and at the clock only. -/
theorem alike_decide (h : p.Alike c q) (i : Nat) (due : Option Nat) :
    (decide p x i due).Alike c (decide q x i due) := by
  rw [decide.eq_def, decide.eq_def, h.handle, h.now]
  split
  · exact alike_apply h i _
  · split
    · split
      · exact alike_apply h i .rollback
      · exact ⟨h, rfl, rfl⟩
    · exact ⟨h, rfl, rfl⟩

/-- When everything is told, what is staged is rolled back in both planes. -/
theorem alike_unwound (h : p.Alike c q) (e : Ending) :
    (unwound p x e).Alike c (unwound q x e) := by
  have hback : ∀ {p q : Plane}, p.Alike c q →
      Turn.Alike c
        { plane := p.setTree x.controller
            (x.context.transaction.rollback (p.tree x.controller)).1
          next := .going { x.withTransaction
            (x.context.transaction.rollback (p.tree x.controller)).2 with
            phase := .draining none e } }
        { plane := q.setTree x.controller
            (x.context.transaction.rollback (q.tree x.controller)).1
          next := .going { x.withTransaction
            (x.context.transaction.rollback (q.tree x.controller)).2 with
            phase := .draining none e } } := by
    intro p q h
    rw [h.tree]
    exact ⟨h.setTree _ _, rfl, rfl⟩
  cases e with
  | kept => exact ⟨h, rfl, rfl⟩
  | rolledBack failure => exact ⟨h, rfl, rfl⟩
  | failed => exact hback h
  | fatal reason => exact hback (h.changeProcess _ _)

/-- **A completion is told the same outcome**, and does the same unless it asks for the
cancellation. -/
theorem alike_unwind (h : p.Alike c q) (hx : x.context.input.cancellation = some c →
    ∀ k ∈ x.context.completed, k.isDiscreet = true) (e : Ending) :
    (unwind p x e).Alike c (unwind q x e) := by
  rw [unwind, unwind]
  split
  · exact alike_unwound h e
  · next k rest hcompleted =>
    have hk : x.context.input.cancellation = some c → k.isDiscreet = true :=
      fun hown => hx hown k (hcompleted ▸ List.mem_cons_self)
    have hrun := k.alike_run e.decision
      (s := ⟨p, x.controller, { x.context with completed := rest }⟩)
      (t := ⟨q, x.controller, { x.context with completed := rest }⟩) ⟨h, rfl, rfl⟩ hk
    refine ⟨hrun.plane, rfl, ?_⟩
    dsimp only
    rw [hrun.context]

/-- An operation that drains waits for the same forwarded steps. -/
theorem alike_drain (h : p.Alike c q) (due : Option Nat) (e : Ending) :
    (drain p x due e).Alike c (drain q x due e) := by
  rw [drain, drain]
  dsimp only
  split
  · simp only [h.finish]
    exact ⟨h, rfl, rfl⟩
  · next f rest _ =>
    rw [h.forward, h.now, h.settings]
    split
    · exact ⟨h, rfl, rfl⟩
    · split
      · exact ⟨h, rfl, rfl⟩
      · split <;> exact ⟨h, rfl, rfl⟩

/-- An operation that is dropped leaves the same handles behind. -/
theorem alike_discard (h : p.Alike c q) (x : Execution) :
    (x.discard p).Alike c (x.discard q) := by
  rw [discard, discard, h.tree]
  exact alike_foldl (fun h i => h.modifyHandle i _) _ (h.setTree _ _)

/-- A nested operation gives its answer back to the one that waits for it. -/
theorem alike_resume (h : p.Alike c q) (x : Execution) (answer : Answer) :
    (x.resume q answer).2 = (x.resume p answer).2 ∧
      (x.resume p answer).1.Alike c (x.resume q answer).1 := by
  rw [resume.eq_def, resume.eq_def]
  split
  · exact ⟨rfl, h.writeLog _⟩
  · exact ⟨rfl, h⟩

/-! ## Running steps -/

/-- The operation does not look at the cancellation `c` any more, if it ever did: with that
cancellation it is through with its pipeline, and no completion that is left asks for it. -/
structure Heedless (c : Nat) (x : Execution) : Prop where
  through : x.phase.isRunning = true → x.context.input.cancellation ≠ some c
  discreet : x.context.input.cancellation = some c →
    ∀ k ∈ x.context.completed, k.isDiscreet = true

/-- A step that failed is caught by the same attempt, or by none. -/
theorem alike_recover (h : p.Alike c q) (frames : List Frame) (e : OperationError) :
    (recover p x step frames e).Alike c (recover q x step frames e) := by
  rw [recover, recover]
  split
  · exact ⟨h.writeLog _, rfl, rfl⟩
  · exact ⟨h, rfl, rfl⟩

/-- The instructions of a step whose operation has another cancellation. -/
theorem alike_runScript (hx : x.context.input.cancellation ≠ some c) (h : p.Alike c q)
    (frames : List Frame) :
    (runScript p x step frames).Alike c (runScript q x step frames) := by
  rw [runScript.eq_def, runScript.eq_def]
  split
  · exact ⟨h, rfl, rfl⟩
  · exact ⟨h, rfl, rfl⟩
  · next caught i is rest =>
    obtain ⟨hout, halike⟩ := i.alike_perform (c := c) (s := ⟨p, x.controller, x.context⟩)
      (t := ⟨q, x.controller, x.context⟩) step.operation ⟨h, rfl, rfl⟩ fun hown => absurd hown hx
    dsimp only
    generalize ((i.perform step.operation).run).run ⟨p, x.controller, x.context⟩ = before
      at hout halike ⊢
    generalize ((i.perform step.operation).run).run ⟨q, x.controller, x.context⟩ = after
      at hout halike ⊢
    obtain ⟨out, s⟩ := before
    obtain ⟨out', t⟩ := after
    obtain rfl : out' = out := hout
    have hplane := halike.plane
    have hcontext : t.context = s.context := halike.context
    dsimp only at hplane ⊢
    rw [hcontext]
    cases out' with
    | error e => exact alike_recover hplane _ e
    | ok effect =>
      cases effect with
      | proceed => exact ⟨hplane, rfl, rfl⟩
      | enter body => exact ⟨hplane, rfl, rfl⟩
      | pause ms what =>
        dsimp only
        rw [hplane.now, hplane.settings]
        exact ⟨hplane, rfl, rfl⟩
      | nest operation => exact ⟨hplane, rfl, rfl⟩
      | acquire =>
        dsimp only
        rcases hplane.takeLock? x.controller s.context.transaction with
          ⟨hp, hq⟩ | ⟨p', q', t', hp, hq, htaken⟩
        · rw [hp, hq]
          exact ⟨hplane.queueForLock _ _, rfl, by rw [hplane.now]⟩
        · rw [hp, hq]
          exact ⟨htaken, rfl, rfl⟩

/-- A step that waits for the lock. -/
theorem alike_acquire (h : p.Alike c q) (due : Nat) (frames : List Frame) :
    (acquire p x step due frames).Alike c (acquire q x step due frames) := by
  rw [acquire, acquire]
  dsimp only
  rcases h.takeLock? x.controller x.context.transaction with
    ⟨hp, hq⟩ | ⟨p', q', t, hp, hq, htaken⟩
  · rw [hp, hq, h.now]
    dsimp only
    split
    · exact alike_recover (h.leaveLock _ _) frames _
    · exact ⟨h, rfl, rfl⟩
  · rw [hp, hq]
    exact ⟨htaken, rfl, rfl⟩

section Running

variable (hx : x.context.input.cancellation ≠ some c)

include hx

/-- A step that pauses looks at the clock, and at a cancellation that is not `c`. -/
theorem alike_pause (h : p.Alike c q) (wake due : Nat) (what : String) (frames : List Frame) :
    (pause p x step wake due what frames).Alike c (pause q x step wake due what frames) := by
  rw [pause, pause, alike_interruption? hx h, h.now, h.settings, h.isCancelled hx]
  split
  · exact alike_recover h frames _
  · split
    · exact ⟨h, rfl, rfl⟩
    · split
      · exact alike_recover h frames _
      · split
        · exact alike_recover h frames _
        · exact ⟨h, rfl, rfl⟩

/-- **A step does the same work** in both planes, if its operation has another cancellation. -/
theorem alike_work (h : p.Alike c q) (w : Work) : (work p x step w).Alike c (work q x step w) := by
  cases w with
  | begin =>
    rw [work, work]
    split
    · exact ⟨h, rfl, rfl⟩
    · exact Forwarding.alike_start hx h _
    · split
      · next deed hdeed =>
        obtain ⟨hout, halike⟩ := Handler.deed?_blind c hdeed ⟨p, x.controller, x.context⟩
          ⟨q, x.controller, x.context⟩ ⟨h, rfl, rfl⟩
        generalize deed.run.run ⟨p, x.controller, x.context⟩ = before at hout halike ⊢
        generalize deed.run.run ⟨q, x.controller, x.context⟩ = after at hout halike ⊢
        refine ⟨halike.plane, rfl, ?_⟩
        show Next.returned { x with context := after.2.context } step after.1 = _
        rw [hout, halike.context]
        rfl
      · exact ⟨h, rfl, rfl⟩
  | running frames => exact alike_runScript hx h frames
  | acquiring due frames => exact alike_acquire h due frames
  | pausing wake due what frames => exact alike_pause hx h wake due what frames
  | nesting frames => exact ⟨h, rfl, rfl⟩
  | forwarding f due d => exact Forwarding.alike_advance hx h f due d

/-- The next step is picked from the queues, in both planes the same one. -/
theorem alike_pick (h : p.Alike c q) : (pick p x).Alike c (pick q x) := by
  rw [pick, pick]
  dsimp only
  rw [h.isCancelled hx, h.tree]
  split
  · split <;> exact ⟨h, rfl, rfl⟩
  · split
    · exact ⟨h.setTree _ _, rfl, rfl⟩
    · split
      · exact ⟨h, rfl, rfl⟩
      · exact alike_prepare h

end Running

/-- **An operation that does not look at the cancellation takes the same turn with it and without
it.** -/
theorem alike_advance (h : p.Alike c q) (hx : x.Heedless c) :
    (x.advance p).Alike c (x.advance q) := by
  rw [advance, advance]
  split
  · exact alike_begin h
  · exact alike_awaitLock h _
  · next hphase => exact alike_pick (hx.through (by rw [hphase]; rfl)) h
  · next hphase => exact alike_work (hx.through (by rw [hphase]; rfl)) h _
  · exact alike_decide h _ _
  · exact alike_unwind h hx.discreet _
  · exact alike_drain h _ _
  · exact ⟨h, rfl, rfl⟩

end Execution

end ManagementPlane
