import ManagementPlane.Machine.Forwarding

/-!
# Machine/Advance — one step of one operation

`Execution.advance` takes an operation from one phase to the next.  The order at the end is the
same on every path: the model is committed or rolled back, the completed steps are told, the latest
first, and then the participants are waited for; only a pipeline that failed tells its completed
steps before it rolls the model back.
-/

namespace ManagementPlane

namespace Plane

/-- Takes the write lock of a controller for a transaction, if that can be had now. -/
def takeLock? (p : Plane) (c : Nat) (t : Transaction) : Option (Plane × Transaction) :=
  (t.acquire? (p.tree c)).map fun (tree, t) => (p.setTree c tree, t)

/-- Queues for the write lock. -/
def queueForLock (p : Plane) (c : Nat) (t : Transaction) : Plane :=
  p.setTree c { p.tree c with lock := (p.tree c).lock.request t.writer }

/-- Leaves the queue for the write lock. -/
def leaveLock (p : Plane) (c : Nat) (t : Transaction) : Plane :=
  p.setTree c { p.tree c with lock := (p.tree c).lock.withdraw t.writer }

/-- Hands a handle to whoever decides. -/
def announcePrepared (p : Plane) (control : Control) (h : Nat) (tentative : Value) : Plane :=
  match control with
  | .decide d => p.decideAndDrop h d
  | .announce decisions =>
    let p := p.writeLog ("prepared: " ++ tentative.render)
    let p := decisions.foldl (fun p d =>
      let (out, p) := p.decide h d
      p.writeLog (d.name ++ ": " ++ match out with
        | .ok () => "ok"
        | .error e => e.kind)) p
    p.modifyHandle h Prepared.drop
  | .hold t => p.modifyTicket t ({ · with prepared := some (h, tentative) })
  | .relay l =>
    let (accepted, link) := (p.link l).propose h tentative
    if accepted then p.modifyLink l fun _ => link else p.decideAndDrop h .rollback
  | .exchange e a =>
    if (p.actor a).isOpen then
      let number := (p.exchange e).number
      let enroll (news : Enrollment) (p : Plane) : Plane :=
        p.modifyActor a fun k => { k with enrollments := k.enrollments ++ [news] }
      let p := enroll (.prepared number h) p
      if (p.exchange e).followed then p.modifyExchange e (·.send (.prepared tentative))
      else enroll (.withdrawn number) (p.decideAndDrop h .rollback)
    else p.decideAndDrop h .rollback
  | .stopWorker name d => { p with workers := p.workers.stop name }.decideAndDrop h d

end Plane

namespace Execution

def withTransaction (x : Execution) (t : Transaction) : Execution :=
  { x with context := { x.context with transaction := t } }

/-- The operation ends without having begun. -/
def reject (p : Plane) (x : Execution) (e : OperationError) : Turn where
  plane := p
  next := .going
    { x with phase := .ended (.ok (p.finish x.controller (Response.failure e.message), [])) }

/-- The context of an operation whose handler is known. -/
def opened (x : Execution) (id : Nat) (address : Address) (t : Transaction) (handler : Handler) :
    Execution :=
  let first : Step := { handler, operation := x.operation, address, slot := Context.rootSlot }
  { x with context :=
      { x.context with id, address, transaction := t, queues := { model := [first] } } }

/-- Resolves an operation, checks it, and asks for the write lock unless it is read-only. -/
def begin (p : Plane) (x : Execution) : Turn :=
  match Operation.parse x.operation with
  | .error e => reject p x e
  | .ok (name, address) =>
    let c := x.controller
    let id := (p.controller c).accepted + 1
    let p := p.modifyController c ({ · with accepted := id })
    let resolved := do
      let resolved ← (p.registration c).resolve address name
      resolved.check x.operation
      return resolved
    match resolved with
    | .error e => reject p x e
    | .ok resolved =>
      let t := Transaction.begin (p.tree c) p.writers (p.settings c).lock
      let p := { p with writers := p.writers + 1 }
      let x := x.opened id address t resolved.handler
      if resolved.isReadOnly then { plane := p, next := .going { x with phase := .stepping } }
      else
        match p.takeLock? c t with
        | some (p, t) =>
          { plane := p, next := .going { x.withTransaction t with phase := .stepping } }
        | none =>
          { plane := p.queueForLock c t
            next := .going { x with phase := .locking (p.now + t.lockTimeout) } }

/-- Waits for the write lock before the first step. -/
def awaitLock (p : Plane) (x : Execution) (deadline : Nat) : Turn :=
  let t := x.context.transaction
  match p.takeLock? x.controller t with
  | some (p, t) => { plane := p, next := .going { x.withTransaction t with phase := .stepping } }
  | none =>
    if deadline ≤ p.now then reject (p.leaveLock x.controller t) x t.lockTimedOut
    else { plane := p, next := .blocked x }

/-- The pipeline is through: the operation prepares. -/
def prepare (p : Plane) (x : Execution) : Turn :=
  let tentative := (x.context.slot Context.rootSlot).toValue false
  let (h, p) := p.newHandle {}
  let p := p.announcePrepared x.control h tentative
  { plane := p
    next := .going { x with
      phase := .deciding h ((p.settings x.controller).prepared.map (p.now + ·)) } }

/-- Takes the next step, or goes on to the next stage, or prepares. -/
def pick (p : Plane) (x : Execution) : Turn :=
  let cancelled := p.isCancelled x.context.input.cancellation
  let interrupt (context : Context) (slot : Nat) : Turn :=
    { plane := p
      next := .going { x with context := context.interrupt slot, phase := .unwinding .failed } }
  match x.context.nextStep? with
  | some (step, context) =>
    if cancelled then interrupt context step.slot
    else
      { plane := p
        next := .going
          { x with context := context.beginStep step, phase := .handling step .begin } }
  | none =>
    match x.context.stage.next? with
    | some stage =>
      let (tree, t) := x.context.transaction.releaseLock (p.tree x.controller)
      { plane := p.setTree x.controller tree
        next := .going { x with context := { x.context with stage, transaction := t } } }
    | none => if cancelled then interrupt x.context Context.rootSlot else prepare p x

/-! ## Scripts -/

/-- Drops the frames that a failure ends; none when nothing catches it. -/
def catching : List Frame → Option (List Frame)
  | [] => none
  | f :: rest => if f.caught then some rest else catching rest

/-- A script goes on after a failure where it is caught, and ends its step otherwise. -/
def recover (p : Plane) (x : Execution) (step : Step) (frames : List Frame) (e : OperationError) :
    Turn :=
  match catching frames with
  | some rest =>
    { plane := p.writeLog ("caught " ++ e.kind ++ ": " ++ e.message)
      next := .going { x with phase := .handling step (.running rest) } }
  | none => { plane := p, next := .returned x step (.error e) }

/-- Does the next instruction of a script. -/
def runScript (p : Plane) (x : Execution) (step : Step) : List Frame → Turn
  | [] => { plane := p, next := .returned x step (.ok ()) }
  | ⟨_, []⟩ :: rest =>
    { plane := p, next := .going { x with phase := .handling step (.running rest) } }
  | ⟨caught, i :: is⟩ :: rest =>
    let frames := ⟨caught, is⟩ :: rest
    let (out, scene) := ((i.perform step.operation).run).run ⟨p, x.controller, x.context⟩
    let p := scene.plane
    let x := { x with context := scene.context }
    let go (work : Work) : Turn :=
      { plane := p, next := .going { x with phase := .handling step work } }
    match out with
    | .error e => recover p x step (⟨caught, i :: is⟩ :: rest) e
    | .ok .proceed => go (.running frames)
    | .ok (.enter body) => go (.running (⟨true, body⟩ :: frames))
    | .ok (.pause ms what) =>
      go (.pausing (p.now + ms) (p.now + (p.settings x.controller).blocking) what frames)
    | .ok (.nest operation) =>
      { plane := p
        next := .nesting { x with phase := .handling step (.nesting frames) } operation }
    | .ok .acquire =>
      let t := x.context.transaction
      match p.takeLock? x.controller t with
      | some (p, t) =>
        { plane := p
          next := .going { x.withTransaction t with phase := .handling step (.running frames) } }
      | none =>
        { plane := p.queueForLock x.controller t
          next := .going { x with
            phase := .handling step (.acquiring (p.now + t.lockTimeout) frames) } }

/-- Waits for the write lock inside a script. -/
def acquire (p : Plane) (x : Execution) (step : Step) (deadline : Nat) (frames : List Frame) :
    Turn :=
  let t := x.context.transaction
  match p.takeLock? x.controller t with
  | some (p, t) =>
    { plane := p
      next := .going { x.withTransaction t with phase := .handling step (.running frames) } }
  | none =>
    if deadline ≤ p.now then recover (p.leaveLock x.controller t) x step frames t.lockTimedOut
    else { plane := p, next := .blocked x }

/-- Waits for time to pass, unless the time of the wait is over or the operation was cancelled. -/
def pause (p : Plane) (x : Execution) (step : Step) (wake deadline : Nat) (what : String)
    (frames : List Frame) : Turn :=
  match x.interruption? p deadline what with
  | some e => recover p x step frames e
  | none =>
    if wake ≤ p.now then
      { plane := p, next := .going { x with phase := .handling step (.running frames) } }
    else if deadline ≤ p.now then
      recover p x step frames (.timeout (p.settings x.controller).blocking what)
    else if p.isCancelled x.context.input.cancellation then recover p x step frames .cancelled
    else { plane := p, next := .blocked x }

/-- Goes on after an operation that ran on top. -/
def resume (p : Plane) (x : Execution) (answer : Answer) : Plane × Execution :=
  match x.phase with
  | .handling step (.nesting frames) =>
    (p.writeLog (match answer with
      | .ok (response, _) => "nested: " ++ response.render
      | .error e => "nested error: " ++ e.message),
      { x with phase := .handling step (.running frames) })
  | _ => (p, x)

/-- Goes on with the running step. -/
def work (p : Plane) (x : Execution) (step : Step) : Work → Turn
  | .begin =>
    match step.handler with
    | .script body =>
      { plane := p, next := .going { x with phase := .handling step (.running [⟨false, body⟩]) } }
    | .forward proxy => Forwarding.start p x step proxy
    | handler =>
      match handler.deed? step.operation with
      | some deed =>
        let (out, scene) := deed.run.run ⟨p, x.controller, x.context⟩
        { plane := scene.plane, next := .returned { x with context := scene.context } step out }
      | none => { plane := p, next := .returned x step (.ok ()) }
  | .running frames => runScript p x step frames
  | .acquiring deadline frames => acquire p x step deadline frames
  | .pausing wake deadline what frames => pause p x step wake deadline what frames
  | .nesting _ => { plane := p, next := .blocked x }
  | .forwarding f deadline delivery => Forwarding.advance p x step f deadline delivery

/-! ## The end -/

/-- Applies a decision to the model. -/
def apply (p : Plane) (x : Execution) (h : Nat) (d : Decision) : Turn :=
  let p := p.modifyHandle h Prepared.leave
  let finished (tree : Tree) (t : Transaction) (ending : Ending) : Turn :=
    { plane := p.setTree x.controller tree
      next := .going { x.withTransaction t with phase := .unwinding ending } }
  match d with
  | .keep =>
    match x.context.transaction.commit (p.tree x.controller) with
    | (.ok (), tree, t) => finished tree t .kept
    | (.error e, tree, t) => finished tree t (.rolledBack e.message)
  | .rollback =>
    let (tree, t) := x.context.transaction.rollback (p.tree x.controller)
    finished tree t (.rolledBack "Operation was rolled back")

/-- Waits for the decision; without one in time the operation rolls back. -/
def decide (p : Plane) (x : Execution) (h : Nat) (deadline : Option Nat) : Turn :=
  match (p.handle h).outlook.effect? with
  | some d => apply p x h d
  | none =>
    match deadline with
    | some due => if due ≤ p.now then apply p x h .rollback else { plane := p, next := .blocked x }
    | none => { plane := p, next := .blocked x }

/-- After the last completion: a pipeline that failed rolls the model back, and a fatal failure
calls for a reload. -/
def unwound (p : Plane) (x : Execution) (ending : Ending) : Turn :=
  let rollBack (p : Plane) : Turn :=
    let (tree, t) := x.context.transaction.rollback (p.tree x.controller)
    { plane := p.setTree x.controller tree
      next := .going { x.withTransaction t with phase := .draining none ending } }
  match ending with
  | .failed => rollBack p
  | .fatal _ => rollBack (p.changeProcess x.controller .reload)
  | _ => { plane := p, next := .going { x with phase := .draining none ending } }

/-- Tells the completed steps the outcome, the latest first. -/
def unwind (p : Plane) (x : Execution) (ending : Ending) : Turn :=
  match x.context.completed with
  | [] => unwound p x ending
  | c :: rest =>
    let scene := c.run ending.decision ⟨p, x.controller, { x.context with completed := rest }⟩
    { plane := scene.plane, next := .going { x with context := scene.context } }

/-- Waits for the participants in turn, for each as long as a wait may last. -/
def drain (p : Plane) (x : Execution) (deadline : Option Nat) (ending : Ending) : Turn :=
  let wait (x : Execution) (deadline : Option Nat) : Turn :=
    { plane := p, next := .going { x with phase := .draining deadline ending } }
  match x.context.completions with
  | [] =>
    let answer := (ending.response? x.context).map fun response =>
      (p.finish x.controller response, x.context.streams)
    { plane := p, next := .going { x with phase := .ended answer } }
  | f :: rest =>
    let next := { x with context := { x.context with completions := rest } }
    if (p.forward f).isComplete then wait next none
    else
      match deadline with
      | none => wait x (some (p.now + (p.settings x.controller).blocking))
      | some due => if due ≤ p.now then wait next none else { plane := p, next := .blocked x }

/-- One step of an operation. -/
def advance (p : Plane) (x : Execution) : Turn :=
  match x.phase with
  | .opening => begin p x
  | .locking deadline => awaitLock p x deadline
  | .stepping => pick p x
  | .handling step w => work p x step w
  | .deciding h deadline => decide p x h deadline
  | .unwinding ending => unwind p x ending
  | .draining deadline ending => drain p x deadline ending
  | .ended _ => { plane := p, next := .blocked x }

/-- Lets go of everything that an operation holds. -/
def discard (p : Plane) (x : Execution) : Plane :=
  let (tree, _) := x.context.transaction.rollback (p.tree x.controller)
  let p := p.setTree x.controller tree
  (x.context.completed.filterMap Completion.handle?).foldl
    (fun p h => p.modifyHandle h Prepared.drop) p

end Execution

end ManagementPlane
