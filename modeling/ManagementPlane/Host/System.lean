import ManagementPlane.Configuration.Basic
import ManagementPlane.Host.Domain

/-!
# Host/System — the server and the domain in one host

A host builds the server, a way for the domain to reach it, and the domain, and then runs `setup` on
both.  When it shuts down it lets go of everything; an actor in between ends once nobody holds one
of its clients.
-/

namespace ManagementPlane

inductive HostError
  | client (e : ClientError)
  | registration (controller : String) (e : RegistrationError)
  | setup (controller reason : String)
  /-- A result is not what its caller expects. -/
  | unexpectedResult (reason : String)
  | shutdown (reason : String)
  deriving DecidableEq, Repr, Inhabited

def HostError.message : HostError → String
  | client e => e.message
  | registration controller e =>
    "Failed to register the " ++ controller ++ " model: " ++ e.message
  | setup controller reason => "Setup of the " ++ controller ++ " controller failed: " ++ reason
  | unexpectedResult reason => "Unexpected result: " ++ reason
  | shutdown reason => "Shutdown failed: " ++ reason

structure Host where
  machine : Machine
  /-- The controller of the server. -/
  server : Nat
  /-- The controller of the domain. -/
  domain : Nat
  /-- The actor between the two, when there is one. -/
  actor : Option Nat
  /-- How many milliseconds a shutdown waits. -/
  patience : Nat
  deriving Inhabited

namespace Host

/-- Adds a controller with an empty model and a process state of its own. -/
def addController (name : String) (registration : Except RegistrationError Registration)
    (settings : Settings) (p : Plane) : Except HostError (Nat × Plane) :=
  let (process, p) := p.newProcess
  match registration.bind fun r => Controller.build name r .empty settings process with
  | .ok c => .ok (p.newController c)
  | .error e => .error (.registration name e)

/-- Runs the operation that creates the first resources. -/
def runSetup (name : String) (c : Nat) (m : Machine) : Except HostError Machine :=
  let (final, m) :=
    m.execute c (Operation.build "setup" Address.root) (.decide .keep) {} .discard
  match final with
  | .answered (.ok (response, _)) =>
    if Response.isSuccess response then .ok m
    else .error (.setup name ((Response.failureText? response).getD ""))
  | .answered (.error e) => .error (.setup name e.message)
  | .crashed reason => .error (.setup name reason)

/-- The way of the domain to the server, and the actor on it. -/
def connect (c : HostConfiguration) (server : Nat) (p : Plane) : Delegate × Option Nat × Machine :=
  match c.proxyTransport with
  | .direct => (.controller server, none, { plane := p })
  | .remote =>
    let (a, p) := p.newActor { controller := server, capacity := c.controller.actorBuffer }
    (.actor a, some a, Machine.spawn { plane := p } (.serve a))

def start (c : HostConfiguration) : Except HostError Host := do
  let settings := c.controller.settings
  let (counter, p) := Plane.newCounter { workers := { capacity := c.workerCapacity } }
  let (server, p) ← addController "server" (Server.registration counter) settings p
  let (delegate, actor, m) := connect c server p
  let (domain, p) ← addController "domain" (Domain.registration delegate) settings m.plane
  let m ← runSetup "server" server { m with plane := p }
  let m ← runSetup "domain" domain m
  return { machine := m, server, domain, actor, patience := settings.blocking }

/-- Lets go of the host and waits for the actor to end.  `leaked` says that somebody still holds the
domain.  Without patience there is no time for the actor to end. -/
def shutdown (h : Host) (leaked : Bool) : Except HostError Unit :=
  match h.actor with
  | none => .ok ()
  | some a =>
    let m := if leaked then h.machine
      else h.machine.change (·.modifyActor a fun k => { k with clients := k.clients - 1 })
    let ended (p : Plane) : Bool := !(p.actor a).isOpen
    let m := if h.patience = 0 then m
      else Machine.run ended (some (m.plane.now + h.patience)) Machine.stepLimit m
    if ended m.plane then .ok ()
    else .error (.shutdown "transport actor did not stop; a client is still in use")

end Host

end ManagementPlane
