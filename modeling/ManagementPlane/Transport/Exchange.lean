import ManagementPlane.Pipeline.Handler

/-!
# Transport/Exchange — the events of one operation on a served controller

An exchange carries one operation: reports while it runs, its tentative response once it prepared,
and its final response.  Events are read in the order they were sent, and are lost when nobody
follows the exchange any more.
-/

namespace ManagementPlane

inductive ExchangeEvent
  | message (m : Message)
  /-- The operation prepared; the response is tentative. -/
  | prepared (response : Value)
  /-- The operation ended. -/
  | completed (response : Value)
  deriving Inhabited, Repr

structure Exchange where
  /-- The number of the exchange on its actor. -/
  number : Nat := 0
  events : List ExchangeEvent := []
  /-- Whether somebody follows the exchange. -/
  followed : Bool := true
  /-- Whether more events can come. -/
  active : Bool := true
  deriving Inhabited, Repr

namespace Exchange

/-- Sends an event to a follower; without one nothing happens. -/
def send (x : Exchange) (e : ExchangeEvent) : Exchange :=
  if x.followed then { x with events := x.events ++ [e] } else x

/-- What a follower sees next. -/
inductive Sight
  | event (e : ExchangeEvent)
  | ended
  | nothingYet
  deriving Inhabited, Repr

/-- Takes the next event. -/
def next (x : Exchange) : Sight × Exchange :=
  match x.events with
  | e :: rest => (.event e, { x with events := rest })
  | [] => (if x.active then .nothingYet else .ended, x)

/-- The follower goes away, and what was sent is lost. -/
def leave (x : Exchange) : Exchange := { x with followed := false, events := [] }

/-- No more events will come. -/
def close (x : Exchange) : Exchange := { x with active := false }

/-- Whether a follower has something to see. -/
def isReady (x : Exchange) : Bool := !x.events.isEmpty || !x.active

end Exchange

end ManagementPlane
