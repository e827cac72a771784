import ManagementPlane.Prepared
import ManagementPlane.Value.Basic

/-!
# Proxied/Forward — what a forwarded step hears from its participant

The participant of a forwarded step reports one outcome: it prepared, with a handle that waits for
the decision, or it failed.  `Forward.report` accepts the first outcome that reaches a step which
still listens, and nothing else; whoever reports a refused handle has to roll it back.  After the
decision the participant completes, and the first completion counts.
-/

namespace ManagementPlane

/-- How a participant ended its part before the decision. -/
inductive Outcome
  | prepared (handle : Nat) (response : Value)
  | failed (response : Value)
  deriving Inhabited, Repr

namespace Outcome

/-- The handle that waits for a decision. -/
def handle? : Outcome → Option Nat
  | prepared handle _ => some handle
  | failed _ => none

end Outcome

structure Forward where
  /-- The outcome that reached the step. -/
  outcome : Option Outcome := none
  /-- Every outcome that was reported, in order. -/
  reports : List Outcome := []
  /-- Whether the step still waits. -/
  listening : Bool := true
  /-- How many could still report. -/
  reporters : Nat := 1
  /-- The final response of the participant. -/
  completion : Option Value := none
  deriving Inhabited, Repr

namespace Forward

/-- Reports an outcome, and answers whether it was accepted. -/
def report (f : Forward) (o : Outcome) : Bool × Forward :=
  let heard := { f with reports := f.reports ++ [o] }
  if f.reports.isEmpty && f.listening then (true, { heard with outcome := some o })
  else (false, heard)

/-- The step stops waiting. -/
def abandon (f : Forward) : Forward := { f with listening := false }

/-- One of those that could report is gone. -/
def release (f : Forward) : Forward := { f with reporters := f.reporters - 1 }

/-- Reports the final response. -/
def complete (f : Forward) (response : Value) : Forward :=
  { f with completion := some (f.completion.getD response) }

/-- Whether there is nothing left to wait for before the decision. -/
def isAnswered (f : Forward) : Bool := f.outcome.isSome || f.reporters = 0

/-- Whether there is nothing left to wait for after the decision. -/
def isComplete (f : Forward) : Bool := f.completion.isSome || f.reporters = 0

/-! ## The first outcome is the only one -/

@[simp] theorem reports_report (f : Forward) (o : Outcome) :
    (f.report o).2.reports = f.reports ++ [o] := by
  rw [report]
  split <;> rfl

end Forward

/-! ## Links

A link joins a forwarded step to a participant in the same process: the participant offers its
handle over it, or ends without having prepared. -/

/-- How the task of a participant ended. -/
inductive LinkEnd
  | answered (response : Value)
  /-- The task broke down. -/
  | crashed (reason : String)
  deriving Inhabited, Repr

structure Link where
  /-- The handle and the tentative response of the participant. -/
  offer : Option (Nat × Value) := none
  /-- Whether the forwarded step still waits for the offer. -/
  listening : Bool := true
  final : Option LinkEnd := none
  deriving Inhabited, Repr

namespace Link

/-- Offers a prepared handle, and answers whether it was taken. -/
def propose (l : Link) (handle : Nat) (response : Value) : Bool × Link :=
  if l.listening && l.offer.isNone then (true, { l with offer := some (handle, response) })
  else (false, l)

def abandon (l : Link) : Link := { l with listening := false }

/-- Takes the offer off the link, and waits for no other. -/
def take (l : Link) : Link := { l with offer := none, listening := false }

end Link

end ManagementPlane
