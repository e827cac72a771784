import ManagementPlane.Decimal.Binary64
import ManagementPlane.Dict

/-!
# Value/Basic — the dynamic values that operations, attributes and responses carry

A `Value` is a tree of scalars, lists and insertion-ordered objects, with `undefined` for "no
value".  Reading is partial (`get?`, `asInteger?`); writing through a key turns whatever stands in
the way into an object (`update`), so a write always takes effect.
-/

namespace ManagementPlane

/-- A value of the model, of an operation or of a response. -/
inductive Value
  | undefined
  | boolean (b : Bool)
  | integer (i : Int64)
  | double (x : Binary64)
  | string (s : String)
  | list (items : List Value)
  | object (fields : List (String × Value))
  deriving Inhabited, Repr

/-- The kind of a value, as definitions name it. -/
inductive ValueType
  | undefined
  | boolean
  | integer
  | double
  | string
  | list
  | object
  deriving DecidableEq, Repr, Inhabited

namespace ValueType

def name : ValueType → String
  | undefined => "UNDEFINED"
  | boolean => "BOOLEAN"
  | integer => "INT"
  | double => "DOUBLE"
  | string => "STRING"
  | list => "LIST"
  | object => "OBJECT"

/-- The kind of the given name. -/
def ofName? (s : String) : Option ValueType :=
  [undefined, boolean, integer, double, string, list, object].find? (·.name = s)

end ValueType

/-- Reads an optional sign and at least one digit, nothing else, within 64 signed bits. -/
def parseInt64? (s : String) : Option Int64 :=
  let (negative, digits) := match s.toList with
    | '-' :: r => (true, r)
    | '+' :: r => (false, r)
    | r => (false, r)
  if digits.isEmpty || !digits.all Char.isDigit then none
  else
    let n := digits.foldl (fun n c => n * 10 + (c.toNat - '0'.toNat)) 0
    let i : Int := if negative then -n else n
    if Int64.minValue.toInt ≤ i ∧ i ≤ Int64.maxValue.toInt then some (Int64.ofInt i) else none

/-- Equality up to the case of the 26 Latin letters. -/
def sameIgnoringCase (s t : String) : Bool :=
  s.toList.map Char.toLower = t.toList.map Char.toLower

namespace Value

def emptyObject : Value := object []

/-- A count as a value. -/
def ofNat (n : Nat) : Value :=
  if n < twoPow 63 then integer (Int64.ofNat n) else double (Binary64.ofNat n)

def ofOption : Option Value → Value := (·.getD undefined)

def ofStrings (ss : List String) : Value := list (ss.map string)

instance : Coe String Value := ⟨string⟩

instance : Coe Bool Value := ⟨boolean⟩

def type : Value → ValueType
  | undefined => .undefined
  | boolean _ => .boolean
  | integer _ => .integer
  | double _ => .double
  | string _ => .string
  | list _ => .list
  | object _ => .object

def isDefined : Value → Bool
  | undefined => false
  | _ => true

/-! ## Equality

Objects agree when they hold the same keys with equal values, in whatever order; doubles agree
numerically. -/

mutual

/-- Equality of values. -/
def same : Value → Value → Bool
  | undefined, undefined => true
  | boolean a, boolean b => a == b
  | integer a, integer b => a == b
  | double a, double b => a.same b
  | string a, string b => a == b
  | list a, list b => sameItems a b
  | object a, object b => a.length == b.length && fieldsIn a b
  | _, _ => false

/-- Items are compared in their order. -/
def sameItems : List Value → List Value → Bool
  | [], [] => true
  | a :: as, b :: bs => same a b && sameItems as bs
  | _, _ => false

/-- Whether each of the first fields is found, with an equal value, among the second. -/
def fieldsIn : List (String × Value) → List (String × Value) → Bool
  | [], _ => true
  | (k, v) :: rest, fields =>
    (match Dict.get? fields k with
      | some w => same v w
      | none => false) && fieldsIn rest fields

end

instance : BEq Value := ⟨same⟩

/-! ## Reading -/

def asString? : Value → Option String
  | string s => some s
  | _ => none

/-- A boolean, also written as a string in any letter case. -/
def asBoolean? : Value → Option Bool
  | boolean b => some b
  | string s =>
    if sameIgnoringCase s "true" then some true
    else if sameIgnoringCase s "false" then some false
    else none
  | _ => none

/-- An integer, also written as a string. -/
def asInteger? : Value → Option Int64
  | integer i => some i
  | string s => parseInt64? s
  | _ => none

def asDouble? : Value → Option Binary64
  | double x => some x
  | integer i => some (Binary64.ofInt i.toInt)
  | _ => none

def asList? : Value → Option (List Value)
  | list items => some items
  | _ => none

def asObject? : Value → Option (Dict Value)
  | object fields => some fields
  | _ => none

/-- The fields of an object; nothing else has any. -/
def fields : Value → Dict Value
  | object fields => fields
  | _ => []

def keys (v : Value) : List String := Dict.keys v.fields

def get? (v : Value) (key : String) : Option Value := Dict.get? v.fields key

/-- The value under `key`, undefined when there is none. -/
def get (v : Value) (key : String) : Value := ofOption (v.get? key)

/-- The value at a path of keys. -/
def getPath? (v : Value) : List String → Option Value
  | [] => some v
  | key :: path => (v.get? key).bind (getPath? · path)

/-- Whether `key` is present and holds something. -/
def hasDefined (v : Value) (key : String) : Bool := ((v.get? key).map isDefined).getD false

/-! ## Writing -/

/-- Applies `f` to the slot of `key`, which starts out undefined; what is no object becomes one. -/
def update (v : Value) (key : String) (f : Value → Value) : Value :=
  object (Dict.put v.fields key (f (v.get key)))

/-- Applies `f` to the slot at the end of a chain of keys. -/
def updatePath : List String → (Value → Value) → Value → Value
  | [], f, v => f v
  | key :: path, f, v => v.update key (updatePath path f)

def set (v : Value) (key : String) (w : Value) : Value := v.update key fun _ => w

/-- The value with another one at a path of keys. -/
def setPath (v : Value) (path : List String) (w : Value) : Value := updatePath path (fun _ => w) v

/-- Removes a key of an object; nothing else changes. -/
def erase : Value → String → Value
  | object fields, key => object (Dict.erase fields key)
  | v, _ => v

/-- Appends to a list; what is no list becomes one. -/
def push (v : Value) (w : Value) : Value := list ((v.asList?.getD []) ++ [w])

/-! ## What was written is read back -/

@[simp] theorem get?_set_self (v : Value) (key : String) (w : Value) :
    (v.set key w).get? key = some w := by
  simp [set, update, get?, fields]

theorem get?_set (v : Value) (key other : String) (w : Value) :
    (v.set key w).get? other = if key = other then some w else v.get? other := by
  simp [set, update, get?, fields, Dict.get?_put]

end Value

end ManagementPlane
