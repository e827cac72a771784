import ManagementPlane.Error
import ManagementPlane.Value.Printer

/-!
# Address/Codec — addresses as text and as values

The text form `/a=b/c=d` skips empty segments, so repeated slashes do not matter.  The structured
form is a list of elements and can hold any key and value.  `ofValue` reads both, and `toValue`
writes the structured one.
-/

namespace ManagementPlane

namespace Element

/-- A segment `key=value`, split at the first equals sign; neither part may be empty. -/
def ofText (s : List Char) : Except OperationError Element :=
  let key := s.takeWhile (· ≠ '=')
  let value := (s.dropWhile (· ≠ '=')).drop 1
  if key.isEmpty || value.isEmpty then .error (.invalidAddress (String.ofList s))
  else .ok ⟨String.ofList key, String.ofList value⟩

/-- An element is the object with one field `key: value`. -/
def toValue (e : Element) : Value := .object [(e.key, .string e.value)]

/-- Reads one field, `{"type": t, "value": v}` or a pair of strings. -/
def ofValue (v : Value) : Except OperationError Element :=
  let refused : Except OperationError Element := .error (.invalidAddress v.render)
  let ofStrings (key value : Option Value) : Except OperationError Element :=
    match key, value with
    | some (.string k), some (.string s) => .ok ⟨k, s⟩
    | _, _ => refused
  match v with
  | .object [(key, value)] => .ok ⟨key, value.plain⟩
  | .object [f, g] =>
    if Dict.has [f, g] "type" then ofStrings (Dict.get? [f, g] "type") (Dict.get? [f, g] "value")
    else refused
  | .list [key, value] => ofStrings (some key) (some value)
  | _ => refused

end Element

namespace Address

/-- The pieces between slashes, empty ones included. -/
def splitSlashes : List Char → List (List Char)
  | [] => [[]]
  | c :: rest =>
    if c = '/' then [] :: splitSlashes rest
    else match splitSlashes rest with
      | [] => [[c]]
      | piece :: pieces => (c :: piece) :: pieces

/-- Reads the text form. -/
def ofText (s : String) : Except OperationError Address :=
  ((splitSlashes s.toList).filter (!·.isEmpty)).mapM Element.ofText

def toValue (a : Address) : Value := .list (a.map Element.toValue)

/-- Reads an address: nothing at all is the root, then the text form and the structured form. -/
def ofValue : Value → Except OperationError Address
  | .undefined => .ok root
  | .string s => ofText s
  | .list items => items.mapM Element.ofValue
  | v => .error (.invalidAddress v.render)

end Address

end ManagementPlane
