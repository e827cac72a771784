import ManagementPlane.Error

/-!
# Prepared — a prepared operation waits for one decision

Whoever holds a clone of the handle may decide; only the first decision counts.  The participant
listens for it, and takes it as a rollback when every clone is dropped without a decision.
-/

namespace ManagementPlane

/-- What becomes of a prepared operation. -/
inductive Decision
  | keep
  | rollback
  deriving DecidableEq, Repr, Inhabited

/-- The word for a decision. -/
def Decision.name : Decision → String
  | keep => "commit"
  | rollback => "rollback"

/-- The state that all clones of a handle share. -/
structure Prepared where
  clones : Nat := 1
  /-- The first decision. -/
  decision : Option Decision := none
  /-- Whether the participant still waits. -/
  listening : Bool := true
  deriving DecidableEq, Repr, Inhabited

namespace Prepared

/-- What the participant can observe. -/
inductive Outlook
  | pending
  | decided (d : Decision)
  /-- Every clone is gone, and nothing was decided. -/
  | dropped
  deriving DecidableEq, Repr, Inhabited

def isResolved (p : Prepared) : Bool := p.decision.isSome

/-- Decides.  Only the first decision is accepted, and it reaches only a participant that still
listens. -/
def resolve (p : Prepared) (d : Decision) : Except DecisionError Unit × Prepared :=
  match p.decision with
  | some _ => (.error .alreadyResolved, p)
  | none =>
    (if p.listening then .ok () else .error .participantGone, { p with decision := some d })

def clone (p : Prepared) : Prepared := { p with clones := p.clones + 1 }

def drop (p : Prepared) : Prepared := { p with clones := p.clones - 1 }

/-- The participant stops waiting. -/
def leave (p : Prepared) : Prepared := { p with listening := false }

def outlook (p : Prepared) : Outlook :=
  match p.decision with
  | some d => .decided d
  | none => if p.clones = 0 then .dropped else .pending

/-- What the participant does: a dropped handle is a rollback. -/
def Outlook.effect? : Outlook → Option Decision
  | pending => none
  | decided d => some d
  | dropped => some .rollback

/-! ## Only the first decision counts -/

theorem resolve_of_isResolved {p : Prepared} (h : p.isResolved = true) (d : Decision) :
    p.resolve d = (.error .alreadyResolved, p) := by
  obtain ⟨e, he⟩ := Option.isSome_iff_exists.1 h
  simp [resolve, he]

@[simp] theorem isResolved_resolve (p : Prepared) (d : Decision) :
    (p.resolve d).2.isResolved = true := by
  unfold resolve isResolved
  split <;> simp_all

end Prepared

end ManagementPlane
