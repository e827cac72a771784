import ManagementPlane.Pipeline.Scene

/-!
# Pipeline/Perform — what the instructions of a script do

`Instruction.perform` does one instruction.  Those that have to wait, or that go into a body of
their own, answer an `Effect` that says what is to happen before the script goes on.
-/

namespace ManagementPlane

/-- What is left to do for an instruction. -/
inductive Effect
  | proceed
  /-- Take write intent. -/
  | acquire
  | pause (ms : Nat) (what : String)
  | nest (operation : Value)
  /-- Run a body whose failure is caught. -/
  | enter (body : Script)
  deriving Inhabited

namespace Context

/-- The slot that a script gave a label, or else the operation's own. -/
def labelled (x : Context) (label : String) : Nat := (Dict.get? x.labels label).getD rootSlot

end Context

namespace Scene

/-- One line about the state of an operation. -/
def info (s : Scene) : String :=
  let x := s.context
  let flag (b : Bool) : String := if b then "true" else "false"
  "info: stage=" ++ x.stage.name
    ++ " address=" ++ x.currentAddress.text
    ++ " intent=" ++ flag x.transaction.hasIntent
    ++ " rollback_only=" ++ flag x.rollbackOnly
    ++ " cancelled=" ++ flag (s.plane.isCancelled x.input.cancellation)
    ++ " id=" ++ toString x.id
    ++ " inputs=" ++ toString x.input.streams.length
    ++ " root_slot=" ++ flag (x.currentSlot = Context.rootSlot)
    ++ " first_failure=" ++ (Value.ofOption x.firstFailure).render
    ++ " state=" ++ (s.plane.processState s.controller).name

/-- One line about the time limits of the controller. -/
def limits (s : Scene) : String :=
  let settings := s.plane.settings s.controller
  "settings: " ++ toString settings.blocking
    ++ " " ++ (settings.prepared.map toString).getD "none"
    ++ " " ++ toString settings.lock

/-- One line about the operations at the current address. -/
def operations (s : Scene) : String :=
  "operations: " ++ String.intercalate ","
    ((s.plane.registration s.controller).operationNames s.context.currentAddress)

end Scene

namespace Deed

/-- Attaches a stream to the response and answers its id. -/
def attachStream (mime text : String) : Deed String := do
  let s ← get
  let stream : ResultStream := { id := "stream-" ++ toString s.plane.streams, mime, text }
  set { s with
    plane := { s.plane with streams := s.plane.streams + 1 }
    context := { s.context with streams := s.context.streams ++ [stream] } }
  return stream.id

end Deed

namespace Instruction

/-- The attachment that a script keeps a note in. -/
def noteKey (key : String) : AttachmentKey .value := ⟨key⟩

/-- Does one instruction for a step of the given operation. -/
def perform (operation : Value) : Instruction → Deed Effect
  | set target name value => do
    Deed.act (Act.updateAt (← Deed.target target) (·.setAttribute name value))
    return .proceed
  | unset target name => do
    Deed.act (Act.updateAt (← Deed.target target) (·.removeAttribute name))
    return .proceed
  | touch target => do
    Deed.act (Act.updateAt (← Deed.target target) id)
    return .proceed
  | create target resource => do
    Deed.act (Act.createAt (← Deed.target target) resource)
    return .proceed
  | remove target => do
    let removed ← Deed.act (Act.removeAt (← Deed.target target))
    Deed.log ("removed: " ++ removed.toDeepValue.render)
    return .proceed
  | read target recursive => do
    let resource ← Deed.act (Act.readAt (← Deed.target target))
    Deed.log ("read: " ++ (resource.toValue recursive).render)
    return .proceed
  | snapshot => do
    Deed.log ("snapshot: " ++ (← Deed.context).snapshot.toDeepValue.render)
    return .proceed
  | acquire => do
    Deed.orThrow ((← Deed.context).requireModelStage "acquiring write intent")
    return .acquire
  | result value => do
    Deed.onContext (·.setResult value)
    return .proceed
  | resultOperation => do
    Deed.onContext (·.setResult operation)
    return .proceed
  | resultCancelled => do
    let s ← get
    let cancelled := s.plane.isCancelled s.context.input.cancellation
    Deed.onContext (·.setResult (.boolean cancelled))
    return .proceed
  | resultPath path value => do
    Deed.onContext fun x => x.setResult (x.result.setPath path value)
    return .proceed
  | showResult => do
    Deed.log ("result: " ++ (← Deed.context).result.render)
    return .proceed
  | header name value => do
    Deed.onContext fun x => x.modifySlot x.currentSlot (·.setHeader name value)
    return .proceed
  | report message => do
    let x ← Deed.context
    Deed.onPlane (·.report x.sink message)
    return .proceed
  | slot label => do
    Deed.onContext fun x =>
      let (i, x) := x.newSlot
      { x with labels := Dict.put x.labels label i }
    return .proceed
  | showSlot label => do
    let x ← Deed.context
    Deed.log ("slot: " ++ ((x.slot (x.labelled label)).toValue false).render)
    return .proceed
  | failSlot label failure => do
    Deed.onContext fun x => x.modifySlot (x.labelled label) ({ · with failure := some failure })
    return .proceed
  | step stage body other first label => do
    let x ← Deed.context
    let i := match label with
      | some label => x.labelled label
      | none => x.currentSlot
    Deed.act (Act.queue (.script body) (other.getD operation) stage i first)
    return .proceed
  | complete label afterwards => do
    Deed.onContext (·.complete (.script label false afterwards))
    return .proceed
  | onRollback label afterwards => do
    Deed.onContext (·.complete (.script label true afterwards))
    return .proceed
  | rollbackOnly => do
    Deed.onContext ({ · with rollbackOnly := true })
    return .proceed
  | fail error => throw error
  | attempt body => return .enter body
  | wait ms what => return .pause ms what
  | nested operation => return .nest operation
  | log text => do
    Deed.log text
    return .proceed
  | info => do
    Deed.log (← get).info
    return .proceed
  | settings => do
    Deed.log (← get).limits
    return .proceed
  | operations => do
    Deed.log (← get).operations
    return .proceed
  | input index => do
    Deed.log ("input: " ++ (((← Deed.context).input.streams[index]?).getD "none"))
    return .proceed
  | stream mime text asResult => do
    let id ← Deed.attachStream mime text
    if asResult then Deed.onContext (·.setResult (.string id))
    return .proceed
  | cancel => do
    match (← Deed.context).input.cancellation with
    | some c => Deed.onPlane (·.cancel c)
    | none => pure ()
    return .proceed
  | process change => do
    let c := (← get).controller
    match change with
    | some change => Deed.onPlane (·.changeProcess c change)
    | none => pure ()
    return .proceed
  | note key value => do
    let x ← Deed.context
    Deed.onContext fun x => { x with attachments := x.attachments.attach (noteKey key) value }
    Deed.log ("note was " ++ (Value.ofOption (x.attachments.get? (noteKey key))).render)
    return .proceed
  | showNote key => do
    let x ← Deed.context
    Deed.log ("note is " ++ (Value.ofOption (x.attachments.get? (noteKey key))).render)
    return .proceed
  | unknown name => do
    Deed.log ("? " ++ name)
    return .proceed

end Instruction

end ManagementPlane
