import ManagementPlane.Decimal.Notation
import ManagementPlane.Value.Basic

/-!
# Value/Printer — values as JSON text

`render` writes the compact form, `pretty` the one indented by two spaces.  Strings escape the
quote, the backslash and the control characters below the space; all else stands for itself.
-/

namespace ManagementPlane.Value

def hexDigit (n : Nat) : Char := Nat.digitChar (n % 16)

/-- A character inside a quoted string. -/
def escape (c : Char) : List Char :=
  if c = '"' then ['\\', '"']
  else if c = '\\' then ['\\', '\\']
  else if c.toNat < 0x20 then
    if c.toNat = 0x08 then ['\\', 'b']
    else if c.toNat = 0x0c then ['\\', 'f']
    else if c = '\n' then ['\\', 'n']
    else if c = '\r' then ['\\', 'r']
    else if c = '\t' then ['\\', 't']
    else ['\\', 'u', '0', '0', hexDigit (c.toNat / 16), hexDigit c.toNat]
  else [c]

/-- A text in quotes, with what has to be escaped. -/
def quoted (s : String) : List Char := '"' :: (s.toList.flatMap escape ++ ['"'])

/-- The digits of an integer behind its sign. -/
def integerChars (i : Int) : List Char :=
  if i < 0 then '-' :: Decimal.digitChars i.natAbs else Decimal.digitChars i.natAbs

/-- The text of a value that has no parts. -/
def scalarChars : Value → List Char
  | boolean true => ['t', 'r', 'u', 'e']
  | boolean false => ['f', 'a', 'l', 's', 'e']
  | integer i => integerChars i.toInt
  | double x => x.chars
  | string s => quoted s
  | _ => ['n', 'u', 'l', 'l']

/-! ## Compact text -/

mutual

/-- The compact form. -/
def chars : Value → List Char
  | list items => '[' :: (itemChars items ++ [']'])
  | object fields => '\x7b' :: (fieldChars fields ++ ['\x7d'])
  | v => scalarChars v

def itemChars : List Value → List Char
  | [] => []
  | [v] => chars v
  | v :: rest => chars v ++ ',' :: itemChars rest

def fieldChars : List (String × Value) → List Char
  | [] => []
  | [(k, v)] => quoted k ++ ':' :: chars v
  | (k, v) :: rest => quoted k ++ ':' :: (chars v ++ ',' :: fieldChars rest)

end

/-- The compact form, as a text. -/
def render (v : Value) : String := String.ofList v.chars

/-- Strings as they are, everything else as its text. -/
def plain : Value → String
  | string s => s
  | v => v.render

/-! ## Indented text -/

/-- A line break and the indentation of `depth` levels. -/
def lineBreak (depth : Nat) : List Char := '\n' :: List.replicate (2 * depth) ' '

mutual

/-- The text of a value that stands at the given depth. -/
def prettyChars (depth : Nat) : Value → List Char
  | list [] => ['[', ']']
  | list items => '[' :: (prettyItems (depth + 1) items ++ (lineBreak depth ++ [']']))
  | object [] => ['\x7b', '\x7d']
  | object fields => '\x7b' :: (prettyFields (depth + 1) fields ++ (lineBreak depth ++ ['\x7d']))
  | v => scalarChars v

/-- Items on lines of their own, each but the last followed by a comma. -/
def prettyItems (depth : Nat) : List Value → List Char
  | [] => []
  | [v] => lineBreak depth ++ prettyChars depth v
  | v :: rest => lineBreak depth ++ (prettyChars depth v ++ ',' :: prettyItems depth rest)

def prettyFields (depth : Nat) : List (String × Value) → List Char
  | [] => []
  | [(k, v)] => lineBreak depth ++ (quoted k ++ ':' :: ' ' :: prettyChars depth v)
  | (k, v) :: rest =>
    lineBreak depth ++
      (quoted k ++ ':' :: ' ' :: (prettyChars depth v ++ ',' :: prettyFields depth rest))

end

/-- The indented form. -/
def pretty (v : Value) : String := String.ofList (v.prettyChars 0)

end ManagementPlane.Value
