import ManagementPlane.Tree.Basic

/-!
# Tree/Transaction — one operation's view of a tree

A `Transaction` reads from the root it began with until it takes write intent; then it has a
`Staging`: a root of its own, a log of the addresses it wrote, and the write lock until that is
released.  `commit` publishes the staged root if anything was touched, `rollback` forgets it, and
both end the staging.
-/

namespace ManagementPlane

/-- Writes that are staged and not published. -/
structure Staging where
  root : Resource
  /-- Whether a write was attempted. -/
  dirty : Bool := false
  log : List Write := []
  /-- Whether the write lock is still held. -/
  locked : Bool := true
  deriving Inhabited, Repr

structure Transaction where
  /-- The number under which the transaction asks for the lock. -/
  writer : Nat
  base : Resource
  /-- The version of the tree that `base` was published as. -/
  began : Nat
  staging : Option Staging := none
  lockTimeout : Nat
  deriving Inhabited, Repr

namespace Transaction

/-- A transaction on the root that is published now. -/
def begin (t : Tree) (writer lockTimeout : Nat) : Transaction :=
  { writer, base := t.root, began := t.version, lockTimeout }

def hasIntent (x : Transaction) : Bool := x.staging.isSome

def holdsLock (x : Transaction) : Bool := (x.staging.map (·.locked)).getD false

def isDirty (x : Transaction) : Bool := (x.staging.map (·.dirty)).getD false

/-- The root that reads are served from. -/
def root (x : Transaction) : Resource := (x.staging.map (·.root)).getD x.base

def read (x : Transaction) (a : Address) : Except OperationError Resource :=
  match x.root.navigate? a with
  | some r => .ok r
  | none => .error (.resourceNotFound a)

/-! ## Write intent -/

/-- Starts staging on the root that is published now; the transaction holds the lock. -/
def stage (x : Transaction) (t : Tree) : Transaction :=
  { x with base := t.root, began := t.version, staging := some { root := t.root } }

/-- Takes write intent at once, when it is there already or the lock is free; `none` when the
transaction has to wait. -/
def acquire? (x : Transaction) (t : Tree) : Option (Tree × Transaction) :=
  if x.hasIntent then some (t, x)
  else
    let lock := t.lock.request x.writer
    if lock.holder = some x.writer then some ({ t with lock }, x.stage t) else none

/-- The failure to get the lock in time. -/
def lockTimedOut (x : Transaction) : OperationError :=
  .timeout x.lockTimeout "the controller write lock"

/-- Lets other writers in; what is staged stays. -/
def releaseLock (x : Transaction) (t : Tree) : Tree × Transaction :=
  match x.staging with
  | some s =>
    if s.locked then
      ({ t with lock := t.lock.release }, { x with staging := some { s with locked := false } })
    else (t, x)
  | none => (t, x)

/-! ## Writing

A write fails without intent.  With it the staging counts as dirty from then on, even when the
write itself fails. -/

/-- Runs a write against the staged root.  It answers the new root and what to log, or why it
failed. -/
def write (x : Transaction) (f : Resource → Except OperationError (α × Resource × Write)) :
    Except OperationError α × Transaction :=
  match x.staging with
  | none =>
    (.error (.contractViolation
      "the model was modified by an operation that does not hold write intent"), x)
  | some s =>
    match f s.root with
    | .error e => (.error e, { x with staging := some { s with dirty := true } })
    | .ok (a, root, w) =>
      let log := if w ∈ s.log then s.log else s.log ++ [w]
      (.ok a, { x with staging := some { s with dirty := true, root, log } })

/-- Changes the resource at an address. -/
def update (x : Transaction) (a : Address) (f : Resource → α × Resource) :
    Except OperationError α × Transaction :=
  x.write fun root =>
    match root.navigate? a with
    | none => .error (.resourceNotFound a)
    | some node => .ok ((f node).1, root.modifyAt a fun _ => (f node).2, .update a)

/-- Adds a resource; its parent must exist and its name be free. -/
def create (x : Transaction) (a : Address) (r : Resource) :
    Except OperationError Unit × Transaction :=
  match a.getLast? with
  | none => (.error (.duplicateResource Address.root), x)
  | some e =>
    x.write fun root =>
      match root.navigate? a.parent with
      | none => .error (.resourceNotFound a.parent)
      | some node =>
        if node.hasChild e then .error (.duplicateResource a)
        else .ok ((), root.modifyAt a.parent (·.putChild e r), .create a)

/-- Removes a resource with everything below it and answers what was removed. -/
def remove (x : Transaction) (a : Address) : Except OperationError Resource × Transaction :=
  match a.getLast? with
  | none => (.error (.contractViolation "the root resource cannot be removed"), x)
  | some e =>
    x.write fun root =>
      match root.navigate? a.parent with
      | none => .error (.resourceNotFound a.parent)
      | some node =>
        match node.child? e with
        | none => .error (.resourceNotFound a)
        | some removed => .ok (removed, root.modifyAt a.parent (·.removeChild e), .remove a)

/-! ## The end of a transaction -/

/-- Ends the staging and gives up the lock. -/
def finish (x : Transaction) (t : Tree) : Tree × Transaction :=
  let (t, x) := x.releaseLock t
  (t, { x with staging := none })

/-- Publishes what was staged.  On a conflict nothing is published. -/
def commit (x : Transaction) (t : Tree) : Except OperationError Unit × Tree × Transaction :=
  match x.staging with
  | some s =>
    if s.dirty then
      match t.publish x.base x.began s.root s.log with
      | .ok published =>
        (.ok (), { x with base := published.root, began := published.version }.finish published)
      | .error e => (.error e, x.finish t)
    else (.ok (), x.finish t)
  | none => (.ok (), x.finish t)

/-- Forgets what was staged. -/
def rollback (x : Transaction) (t : Tree) : Tree × Transaction := x.finish t

end Transaction

end ManagementPlane
