/-!
# Address/Basic — where a resource stands in the model

An `Address` is the list of `key=value` elements walked from the root; the empty address is the
root itself.  Patterns are addresses too: an element whose value is `*` stands for any value of its
key.  `covers` compares a pattern with the beginning of an address, `fits` with all of it.
-/

namespace ManagementPlane

/-- One step of an address: a child type and a name. -/
structure Element where
  key : String
  value : String
  deriving DecidableEq, Repr, Inhabited

namespace Element

/-- The value that stands for any name. -/
def anyValue : String := "*"

def isWildcard (e : Element) : Bool := e.value = anyValue

/-- Whether `e`, read as a pattern, stands for `other`. -/
def fits (e other : Element) : Bool := e.key = other.key && (e.isWildcard || e.value = other.value)

def text (e : Element) : String := e.key ++ "=" ++ e.value

/-- By key, then by value. -/
def order (a b : Element) : Ordering := (compare a.key b.key).then (compare a.value b.value)

end Element

/-- The elements from the root to a resource. -/
abbrev Address := List Element

namespace Address

def root : Address := []

def parent (a : Address) : Address := a.dropLast

/-- Whether no element is a wildcard. -/
def isConcrete (a : Address) : Bool := a.all (!·.isWildcard)

/-- Whether a pattern fits the beginning of an address. -/
def covers : Address → Address → Bool
  | [], _ => true
  | _ :: _, [] => false
  | p :: ps, e :: es => p.fits e && covers ps es

/-- Whether a pattern fits an address element by element. -/
def fits (a other : Address) : Bool := a.length = other.length && covers a other

/-- Every element behind a slash; the root is a single slash. -/
def text : Address → String
  | [] => "/"
  | e :: es => "/" ++ e.text ++ (if es.isEmpty then "" else text es)

/-- Lexicographic order of the elements. -/
def order : Address → Address → Ordering
  | [], [] => .eq
  | [], _ :: _ => .lt
  | _ :: _, [] => .gt
  | a :: as, b :: bs => (a.order b).then (order as bs)

@[simp] theorem covers_root (a : Address) : covers root a = true := by cases a <;> rfl

end Address

end ManagementPlane
