import ManagementPlane.Machine.Advance

/-!
# Machine/Run — all tasks together

A machine runs the first of its ready tasks until that has to wait.  Tasks whose wait is over queue
up behind the ready ones, in the order in which they began to wait, and new tasks behind them.  The
clock stands still as long as anything can run; then it jumps to the next time that a task waits
for.
-/

namespace ManagementPlane

/-- What is left of a task after one step. -/
inductive Progress
  | going (t : Task)
  | blocked (t : Task)
  | finished
  deriving Inhabited

structure Move where
  plane : Plane
  spawned : List Task := []
  progress : Progress
  deriving Inhabited

namespace Origin

/-- Tells how an operation ended. -/
def tell (o : Origin) (p : Plane) (answer : Answer) : Plane :=
  let response : Value := match answer with
    | .ok (response, _) => response
    | .error e => Response.failure e.message
  match o with
  | ticket t => p.modifyTicket t ({ · with final := some (.answered answer) })
  | link l => p.modifyLink l ({ · with final := some (.answered response) })
  | exchange e => p.modifyExchange e fun x => (x.send (.completed response)).close

/-- Tells that an operation broke down. -/
def tellCrash (o : Origin) (p : Plane) (reason : String) : Plane :=
  match o with
  | ticket t => p.modifyTicket t ({ · with final := some (.crashed reason) })
  | link l => p.modifyLink l ({ · with final := some (.crashed reason) })
  | exchange e => p.modifyExchange e Exchange.close

end Origin

namespace Task

/-- One step of a stack of operations. -/
def advanceStack (p : Plane) (origin : Origin) : List Execution → Move
  | [] => { plane := p, progress := .finished }
  | x :: rest =>
    match x.phase with
    | .ended answer =>
      match rest with
      | [] => { plane := origin.tell p answer, progress := .finished }
      | y :: ys =>
        let (p, y) := y.resume p answer
        { plane := p, progress := .going (.operation (y :: ys) origin) }
    | _ =>
      let turn := x.advance p
      match turn.next with
      | .going x =>
        { plane := turn.plane, spawned := turn.spawned
          progress := .going (.operation (x :: rest) origin) }
      | .returned x step out =>
        { plane := turn.plane, spawned := turn.spawned
          progress := .going (.operation (x.afterStep step out :: rest) origin) }
      | .blocked x =>
        { plane := turn.plane, spawned := turn.spawned
          progress := .blocked (.operation (x :: rest) origin) }
      | .nesting x value =>
        let nested := Execution.new p.top value (.decide .keep) {} .discard
        { plane := turn.plane, spawned := turn.spawned
          progress := .going (.operation (nested :: x :: rest) origin) }
      | .crashed reason =>
        let p := (x :: rest).foldl (fun p x => x.discard p) turn.plane
        { plane := origin.tellCrash p reason, spawned := turn.spawned, progress := .finished }

/-- One step of the follower of a prepared exchange. -/
def advanceFollow (p : Plane) (a e f : Nat) (sink : Sink) (state : Follow) : Move :=
  let go (p : Plane) (state : Follow) : Move :=
    { plane := p, progress := .going (.follow a e f sink state) }
  let stay : Move := { plane := p, progress := .blocked (.follow a e f sink state) }
  let finish (p : Plane) (response : Value) : Move :=
    let p := (p.completeForward f response).modifyExchange e Exchange.leave
    { plane := p.modifyActor a fun k => { k with clients := k.clients - 1 }, progress := .finished }
  match state with
  | .deciding h =>
    match (p.handle h).outlook.effect? with
    | none => stay
    | some d =>
      let p := p.modifyHandle h Prepared.leave
      if (p.actor a).isOpen then
        let (r, p) := p.newReply
        let (ticket, p) := p.send a (.resolve (p.exchange e).number d r)
        go p (.sending ticket r)
      else go p .finishing
  | .sending ticket r =>
    if !(p.actor a).isWaiting ticket then go p (.replying r)
    else if !(p.actor a).isOpen then go p .finishing
    else stay
  | .replying r =>
    match p.reply r with
    | .awaited => stay
    | _ => go p .finishing
  | .finishing =>
    let (sight, exchange) := (p.exchange e).next
    let q := p.modifyExchange e fun _ => exchange
    match sight with
    | .event (.message m) => go (q.report sink m) .finishing
    | .event (.prepared _) => go q .finishing
    | .event (.completed response) => finish q response
    | .ended => finish q (Response.failure TransportError.exchangeClosed.message)
    | .nothingYet => stay

/-- One turn of an actor. -/
def advanceServe (p : Plane) (a : Nat) : Move :=
  if !(p.actor a).isOpen then { plane := p, progress := .finished }
  else
    let (turn, actor) := (p.actor a).poll
    let p := p.modifyActor a fun _ => actor
    let go (p : Plane) (spawned : List Task) : Move :=
      { plane := p, spawned, progress := .going (.serve a) }
    match turn with
    | .enrolled => go p []
    | .start _ e value input =>
      let x := Execution.new actor.controller value (.exchange e a) input (.exchange e)
      go p [.operation [x] (.exchange e)]
    | .decide h d r => go ((p.decideAndDrop h d).setReply r (.answered (.ok ()))) []
    | .refuse number r => go (p.setReply r (.answered (.error (.unknownExchange number)))) []
    | .stop handles =>
      { plane := handles.foldl (fun p h => p.decideAndDrop h .rollback) p, progress := .finished }
    | .wait => { plane := p, progress := .blocked (.serve a) }

/-- The final response of a mock participant. -/
def mockResponse (result : Value) : Decision → Value
  | .keep => Response.success result
  | .rollback => (Response.failure "Operation was rolled back").set Key.rolledBack true

/-- One step of a task. -/
def advance (p : Plane) (t : Task) : Move :=
  let stay : Move := { plane := p, progress := .blocked t }
  let halt (p : Plane) : Move := { plane := p, progress := .finished }
  match t with
  | operation stack origin => advanceStack p origin stack
  | relay l f =>
    match (p.link l).final with
    | some (.answered response) => halt (p.completeForward f response)
    | some (.crashed _) => halt (p.modifyForward f Forward.release)
    | none => stay
  | follow a e f sink state => advanceFollow p a e f sink state
  | serve a => advanceServe p a
  | expect m h f result =>
    match (p.handle h).outlook.effect? with
    | some d =>
      halt ((p.modifyMock m fun k => { k with decisions := k.decisions ++ [d] }).completeForward f
        (mockResponse result d))
    | none => stay
  | watch label h =>
    match (p.handle h).outlook with
    | .pending => stay
    | .decided d => halt (p.writeLog (label ++ ": " ++ d.name))
    | .dropped => halt (p.writeLog (label ++ ": dropped"))
  | prepareLate wake f response =>
    if wake ≤ p.now then
      let (h, p) := p.newHandle {}
      let p := (p.reportOutcome f (.prepared h response)).modifyForward f Forward.release
      { plane := p, progress := .going (.watch "first" h) }
    else stay
  | completeTwice h f response =>
    match (p.handle h).outlook.effect? with
    | some _ =>
      halt ((p.modifyForward f (·.complete response)).completeForward f response)
    | none => stay
  | cancelAt wake c => if wake ≤ p.now then halt (p.cancel c) else stay

end Task

structure Machine where
  plane : Plane := {}
  ready : List Task := []
  blocked : List Task := []
  deriving Inhabited

namespace Machine

/-- Queues the blocked tasks that can go on. -/
def wake (m : Machine) : Machine :=
  let (woken, blocked) := m.blocked.partition (·.canGo m.plane)
  { m with ready := m.ready ++ woken, blocked }

/-- One step of the first ready task; none when nothing can run. -/
def step? (m : Machine) : Option Machine :=
  match m.ready with
  | [] => none
  | t :: rest =>
    let move := t.advance m.plane
    let m : Machine := match move.progress with
      | .going t => { plane := move.plane, ready := t :: rest, blocked := m.blocked }
      | _ => { plane := move.plane, ready := rest, blocked := m.blocked }
    let m := m.wake
    let m := { m with ready := m.ready ++ move.spawned }
    some (match move.progress with
      | .blocked t => { m with blocked := m.blocked ++ [t] }
      | _ => m)

/-- The next time that a task waits for. -/
def due? (m : Machine) : Option Nat := (m.blocked.filterMap Task.due?).min?

/-- Lets the clock jump to a time that is not past. -/
def elapse (m : Machine) (time : Nat) : Machine :=
  { m with plane := { m.plane with now := max m.plane.now time } }.wake

/-- Runs until nothing can run and `done` holds, or the time `limit` is reached, or nothing will
ever happen again.  At most `fuel` steps are done. -/
def run (done : Plane → Bool) (limit : Option Nat) : Nat → Machine → Machine
  | 0, m => m
  | fuel + 1, m =>
    match m.step? with
    | some m => run done limit fuel m
    | none =>
      if done m.plane then m
      else
        match m.due?, limit with
        | some due, some limit =>
          if limit ≤ due then m.elapse limit else run done (some limit) fuel (m.elapse due)
        | some due, none => run done none fuel (m.elapse due)
        | none, some limit => m.elapse limit
        | none, none => m

end Machine

end ManagementPlane
