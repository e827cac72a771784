import ManagementPlane.Tree.Merge

/-!
# Tree/Basic — the published model and the lock its writers take

A `Tree` holds the published root, the number of times it was replaced, and a write lock that
passes from holder to the longest waiting writer.  Only `publish` replaces the root, and always as
a whole.
-/

namespace ManagementPlane

/-- A lock that is handed on in the order of the requests.  Writers are known by number. -/
structure WriteLock where
  holder : Option Nat := none
  waiting : List Nat := []
  deriving DecidableEq, Repr, Inhabited

namespace WriteLock

/-- Takes the lock if it is free and joins the queue otherwise; asking again changes nothing. -/
def request (l : WriteLock) (writer : Nat) : WriteLock :=
  if l.holder = none then { l with holder := some writer }
  else if l.holder = some writer ∨ writer ∈ l.waiting then l
  else { l with waiting := l.waiting ++ [writer] }

/-- Leaves the queue. -/
def withdraw (l : WriteLock) (writer : Nat) : WriteLock :=
  { l with waiting := l.waiting.filter (· ≠ writer) }

/-- Hands the lock to the writer that waits longest. -/
def release (l : WriteLock) : WriteLock :=
  match l.waiting with
  | [] => { holder := none, waiting := [] }
  | next :: rest => { holder := some next, waiting := rest }

end WriteLock

structure Tree where
  root : Resource
  /-- How often the root was replaced. -/
  version : Nat := 0
  lock : WriteLock := {}
  deriving Inhabited, Repr

namespace Tree

/-- Publishes a staged root that was built on the root of version `began`: as it is when that is
still the published one, and merged otherwise. -/
def publish (t : Tree) (base : Resource) (began : Nat) (staged : Resource) (log : List Write) :
    Except OperationError Tree :=
  if t.version = began then .ok { t with root := staged, version := t.version + 1 }
  else (Merge.merge t.root base staged log).map fun merged =>
    { t with root := merged, version := t.version + 1 }

end Tree

end ManagementPlane
