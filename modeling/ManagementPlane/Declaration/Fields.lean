import ManagementPlane.Value.Basic

/-!
# Declaration/Fields — reading the fields of a declaration

Declarations are objects.  A field that is missing, or is not of the kind that is asked for, reads
as nothing at all.
-/

namespace ManagementPlane

namespace Value

/-- The text under a key, empty when there is none. -/
def textAt (v : Value) (key : String) : String := ((v.get? key).bind asString?).getD ""

/-- The text under a key. -/
def textAt? (v : Value) (key : String) : Option String := (v.get? key).bind asString?

/-- The items of the list under a key. -/
def itemsAt (v : Value) (key : String) : List Value := ((v.get? key).bind asList?).getD []

/-- The texts in the list under a key. -/
def textsAt (v : Value) (key : String) : List String := (v.itemsAt key).filterMap asString?

def integerAt? (v : Value) (key : String) : Option Int :=
  match v.get? key with
  | some (.integer i) => some i.toInt
  | _ => none

/-- A count under a key; below zero counts as zero. -/
def countAt? (v : Value) (key : String) : Option Nat := (v.integerAt? key).map Int.toNat

def countAt (v : Value) (key : String) (default : Nat := 0) : Nat := (v.countAt? key).getD default

/-- The flag under a key. -/
def flagAt (v : Value) (key : String) (default : Bool := false) : Bool :=
  match v.get? key with
  | some (.boolean b) => b
  | _ => default

/-! ## Nesting -/

mutual

/-- How deep lists and objects are nested. -/
def depth : Value → Nat
  | .list items => itemsDepth items + 1
  | .object fields => fieldsDepth fields + 1
  | _ => 0

def itemsDepth : List Value → Nat
  | [] => 0
  | v :: vs => max (depth v) (itemsDepth vs)

def fieldsDepth : List (String × Value) → Nat
  | [] => 0
  | (_, v) :: fs => max (depth v) (fieldsDepth fs)

end

end Value

end ManagementPlane
