import ManagementPlane.Value.Basic

/-!
# Attachments — notes that the steps of one operation leave for each other

A slot is named by the kind of what it holds together with a name, so slots of one name and
different kinds do not meet.
-/

namespace ManagementPlane

/-- What can be attached. -/
inductive AttachmentKind
  | integer
  | text
  | value
  deriving DecidableEq, Repr, Inhabited

/-- What a slot of a kind holds. -/
abbrev AttachmentKind.Content : AttachmentKind → Type
  | integer => Int
  | text => String
  | value => Value

/-- A kind and a name. -/
structure AttachmentKey (kind : AttachmentKind) where
  name : String
  deriving DecidableEq, Repr, Inhabited

/-- What steps leave for later ones, apart by kind and found by name. -/
structure Attachments where
  integers : Dict Int := []
  texts : Dict String := []
  values : Dict Value := []
  deriving Inhabited, Repr

namespace Attachments

variable {kind : AttachmentKind}

/-- The slots of one kind. -/
def slots (m : Attachments) : (kind : AttachmentKind) → Dict kind.Content
  | .integer => m.integers
  | .text => m.texts
  | .value => m.values

def withSlots (m : Attachments) : (kind : AttachmentKind) → Dict kind.Content → Attachments
  | .integer, d => { m with integers := d }
  | .text, d => { m with texts := d }
  | .value, d => { m with values := d }

/-- What is attached under a key. -/
def get? (m : Attachments) (k : AttachmentKey kind) : Option kind.Content :=
  Dict.get? (m.slots kind) k.name

/-- Stores under a key. -/
def attach (m : Attachments) (k : AttachmentKey kind) (v : kind.Content) : Attachments :=
  m.withSlots kind (Dict.put (m.slots kind) k.name v)

def detach (m : Attachments) (k : AttachmentKey kind) : Attachments :=
  m.withSlots kind (Dict.erase (m.slots kind) k.name)

/-- Overwrites what is stored; an empty slot stays empty. -/
def replace (m : Attachments) (k : AttachmentKey kind) (v : kind.Content) : Attachments :=
  if (m.get? k).isSome then m.attach k v else m

def size (m : Attachments) : Nat := m.integers.length + m.texts.length + m.values.length

def isEmpty (m : Attachments) : Bool := m.size = 0

end Attachments

end ManagementPlane
