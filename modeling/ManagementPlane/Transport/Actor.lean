import ManagementPlane.Pipeline.Context
import ManagementPlane.Prepared

/-!
# Transport/Actor — a controller served over a channel of requests

An actor starts an operation for every `execute` request and keeps the handles of the prepared ones
in a table until a `resolve` request decides them.  `poll` is one turn of the actor.  Enrollments
of prepared operations come before requests, so that a decision never overtakes the enrollment it
refers to.  When all clients are gone the actor ends, and what is still pending is rolled back.
-/

namespace ManagementPlane

inductive ActorRequest
  /-- Starts an operation; its events go to an exchange. -/
  | execute (number exchange : Nat) (operation : Value) (input : Input)
  /-- Decides a prepared operation; the answer goes to a reply. -/
  | resolve (number : Nat) (decision : Decision) (reply : Nat)
  deriving Inhabited, Repr

/-- News of a running operation for its actor. -/
inductive Enrollment
  | prepared (number handle : Nat)
  /-- The operation has no follower and rolled back. -/
  | withdrawn (number : Nat)
  deriving DecidableEq, Repr, Inhabited

structure Actor where
  controller : Nat
  /-- How many requests wait in the channel at most. -/
  capacity : Nat
  /-- How many hold a client of the actor. -/
  clients : Nat := 1
  nextNumber : Nat := 1
  requests : List ActorRequest := []
  /-- Requests that found the channel full, by ticket. -/
  backlog : List (Nat × ActorRequest) := []
  enrollments : List Enrollment := []
  /-- The prepared operations by number of their exchange, with their handles. -/
  pending : List (Nat × Nat) := []
  isOpen : Bool := true
  deriving Inhabited, Repr

namespace Actor

/-! ## The channel -/

/-- Sends a request.  In a full channel it waits under its ticket; a closed one drops it. -/
def send (a : Actor) (ticket : Nat) (r : ActorRequest) : Actor :=
  if a.requests.length < a.capacity && a.backlog.isEmpty then
    { a with requests := a.requests ++ [r] }
  else { a with backlog := a.backlog ++ [(ticket, r)] }

/-- Whether the request of a ticket still waits for room. -/
def isWaiting (a : Actor) (ticket : Nat) : Bool := a.backlog.any fun (t, _) => t = ticket

/-- Takes a waiting request back. -/
def withdraw (a : Actor) (ticket : Nat) : Actor :=
  { a with backlog := a.backlog.filter fun (t, _) => t ≠ ticket }

/-- Takes the oldest request and lets the one that waits longest in. -/
def receive? (a : Actor) : Option (ActorRequest × Actor) :=
  match a.requests with
  | [] => none
  | r :: rest =>
    match a.backlog with
    | [] => some (r, { a with requests := rest })
    | (_, next) :: others => some (r, { a with requests := rest ++ [next], backlog := others })

/-! ## The table of prepared operations -/

def handleOf? (a : Actor) (number : Nat) : Option Nat :=
  (a.pending.find? fun (n, _) => n = number).map Prod.snd

def forget (a : Actor) (number : Nat) : Actor :=
  { a with pending := a.pending.filter fun (n, _) => n ≠ number }

def enroll (a : Actor) : Enrollment → Actor
  | .prepared number handle =>
    { a.forget number with pending := (a.forget number).pending ++ [(number, handle)] }
  | .withdrawn number => a.forget number

/-! ## A turn -/

/-- What an actor does in one turn. -/
inductive Turn
  /-- It noted an enrollment. -/
  | enrolled
  | start (number exchange : Nat) (operation : Value) (input : Input)
  /-- It passes a decision to a handle and acknowledges. -/
  | decide (handle : Nat) (decision : Decision) (reply : Nat)
  /-- It refuses a decision on an operation that is not pending. -/
  | refuse (number reply : Nat)
  /-- It ends and rolls back the handles. -/
  | stop (handles : List Nat)
  | wait
  deriving Inhabited, Repr

def serve (a : Actor) : ActorRequest → Turn × Actor
  | .execute number exchange operation input => (.start number exchange operation input, a)
  | .resolve number decision reply =>
    match a.handleOf? number with
    | some handle => (.decide handle decision reply, a.forget number)
    | none => (.refuse number reply, a)

def poll (a : Actor) : Turn × Actor :=
  match a.enrollments with
  | e :: rest => (.enrolled, { a with enrollments := rest }.enroll e)
  | [] =>
    match a.receive? with
    | some (r, a) => a.serve r
    | none =>
      if a.clients = 0 then
        (.stop (a.pending.map Prod.snd), { a with pending := [], isOpen := false })
      else (.wait, a)

/-- Whether the actor has something to do. -/
def isReady (a : Actor) : Bool :=
  !a.enrollments.isEmpty || !a.requests.isEmpty || a.clients = 0

end Actor

end ManagementPlane
