import ManagementPlane.Error
import ManagementPlane.Resource.Basic

/-!
# Tree/Merge — bringing staged writes onto a model that moved on

A transaction stages its writes on the root it began with and logs the addresses it wrote.  When
another root was published meanwhile, `merge` applies the difference between base and staged root
to the current one, write by write, and reports a conflict where both sides touched the same thing.
-/

namespace ManagementPlane

/-- A logged write. -/
inductive Write
  | update (address : Address)
  | create (address : Address)
  | remove (address : Address)
  deriving DecidableEq, Repr, Inhabited

namespace Write

def address : Write → Address
  | update a => a
  | create a => a
  | remove a => a

/-- Whether the write carries a whole subtree. -/
def isStructural : Write → Bool
  | update _ => false
  | _ => true

/-- Whether a structural write of the log carries `w` along: one at an ancestor, or, for an update,
one at its own resource. -/
def isCarried (log : List Write) (w : Write) : Bool :=
  log.any fun o =>
    o.isStructural && o.address.covers w.address
      && (o.address.length < w.address.length || !w.isStructural)

end Write

namespace Merge

/-- Equality of attributes that may be missing. -/
def sameAttribute : Option Value → Option Value → Bool
  | none, none => true
  | some a, some b => a == b
  | _, _ => false

/-- Names of the attributes of either resource, those of the first in front. -/
def attributeNames (before after : Resource) : List String :=
  Dict.keys before.attributes
    ++ (Dict.keys after.attributes).filter (!Dict.has before.attributes ·)

/-- Brings the changes of the named attributes onto a node that must still hold their old values. -/
def mergeAttributes (before after : Resource) :
    List String → Resource → Option Resource
  | [], node => some node
  | name :: names, node =>
    let old := before.attribute? name
    let new := after.attribute? name
    if sameAttribute old new then mergeAttributes before after names node
    else if !sameAttribute (node.attribute? name) old then none
    else mergeAttributes before after names (match new with
      | some v => node.setAttribute name v
      | none => node.removeAttribute name)

/-- Changes the resource at an address, unless it is missing or refuses the change. -/
def changeAt (a : Address) (f : Resource → Option Resource) (root : Resource) :
    Option Resource :=
  ((root.navigate? a).bind f).map fun node => root.modifyAt a fun _ => node

/-- Adds a child whose name must be free. -/
def addChild (e : Element) (child node : Resource) : Option Resource :=
  if node.hasChild e then none else some (node.putChild e child)

/-- Removes a child that must be what it was. -/
def dropChild (e : Element) (was node : Resource) : Option Resource :=
  match node.child? e with
  | some now => if now == was then some (node.removeChild e) else none
  | none => none

/-- One write brought onto `root`; `none` when it conflicts. -/
def applyWrite (base staged root : Resource) : Write → Option Resource
  | .update a =>
    match base.navigate? a, staged.navigate? a with
    | some before, some after =>
      changeAt a (mergeAttributes before after (attributeNames before after)) root
    | _, _ => some root
  | .create a =>
    match staged.navigate? a, a.getLast? with
    | some created, some e => changeAt a.parent (addChild e created) root
    | some _, none => none
    | none, _ => some root
  | .remove a =>
    match base.navigate? a, a.getLast? with
    | some removed, some e => changeAt a.parent (dropChild e removed) root
    | some _, none => none
    | none, _ => some root

/-- Applies writes in order; the first conflict is reported with its address. -/
def applyWrites (base staged : Resource) :
    List Write → Resource → Except OperationError Resource
  | [], root => .ok root
  | w :: ws, root =>
    match applyWrite base staged root w with
    | some next => applyWrites base staged ws next
    | none => .error (.concurrentModification w.address)

/-- The writes that turned `base` into `staged`, on top of `current`. -/
def merge (current base staged : Resource) (log : List Write) :
    Except OperationError Resource :=
  applyWrites base staged (log.filter (!Write.isCarried log ·)) current

end Merge

end ManagementPlane
