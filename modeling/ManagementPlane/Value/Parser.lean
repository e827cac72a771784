import ManagementPlane.Decimal.Numeral
import ManagementPlane.Value.Basic

/-!
# Value/Parser — JSON text read as values

`parse?` reads one value with nothing but blanks around it.  Each reader takes the characters that
remain and answers what it read together with the rest, or `none` when the text is refused:
arrays and objects nested deeper than `maxDepth`, numbers too large for a double, surrogates
without their partner and raw control characters are refused along with everything outside the
grammar.  A repeated key keeps its first place and its last value.
-/

namespace ManagementPlane.Value

/-- How deep arrays and objects may nest. -/
def maxDepth : Nat := 127

def isBlank (c : Char) : Bool := c = ' ' || c = '\n' || c = '\t' || c = '\r'

def skipBlanks (s : List Char) : List Char := s.dropWhile isBlank

/-- The rest of `s` behind the characters of `word`. -/
def afterWord? : List Char → List Char → Option (List Char)
  | [], s => some s
  | w :: word, c :: s => if w = c then afterWord? word s else none
  | _ :: _, [] => none

/-! ## Strings -/

def hexValue? (c : Char) : Option Nat :=
  if '0' ≤ c ∧ c ≤ '9' then some (c.toNat - '0'.toNat)
  else if 'a' ≤ c ∧ c ≤ 'f' then some (c.toNat - 'a'.toNat + 10)
  else if 'A' ≤ c ∧ c ≤ 'F' then some (c.toNat - 'A'.toNat + 10)
  else none

/-- The number written by four hexadecimal digits. -/
def hex4? (a b c d : Char) : Option Nat := do
  let a ← hexValue? a
  let b ← hexValue? b
  let c ← hexValue? c
  let d ← hexValue? d
  return ((a * 16 + b) * 16 + c) * 16 + d

/-- The character that a backslash and one letter stand for. -/
def unescape? : Char → Option Char
  | '"' => some '"'
  | '\\' => some '\\'
  | '/' => some '/'
  | 'b' => some '\x08'
  | 'f' => some '\x0c'
  | 'n' => some '\n'
  | 'r' => some '\r'
  | 't' => some '\t'
  | _ => none

def isHighSurrogate (n : Nat) : Bool := 0xD800 ≤ n && n < 0xDC00

def isLowSurrogate (n : Nat) : Bool := 0xDC00 ≤ n && n < 0xE000

/-- Puts a character in front of what was read after it. -/
def consRead (c : Char) : Option (List Char × List Char) → Option (List Char × List Char)
  | some (cs, rest) => some (c :: cs, rest)
  | none => none

/-- The characters up to the closing quote; `high` is a first surrogate that waits for its
partner, which has to follow at once. -/
def stringBody (high : Option Nat) : List Char → Option (List Char × List Char)
  | [] => none
  | '"' :: rest => if high.isNone then some ([], rest) else none
  | '\\' :: 'u' :: a :: b :: c :: d :: rest =>
    match high, hex4? a b c d with
    | none, some n =>
      if isHighSurrogate n then stringBody (some n) rest
      else if isLowSurrogate n then none
      else consRead (Char.ofNat n) (stringBody none rest)
    | some h, some n =>
      if isLowSurrogate n then
        consRead (Char.ofNat (0x10000 + (h - 0xD800) * 0x400 + (n - 0xDC00)))
          (stringBody none rest)
      else none
    | _, none => none
  | '\\' :: c :: rest =>
    match high, unescape? c with
    | none, some e => consRead e (stringBody none rest)
    | _, _ => none
  | c :: rest =>
    if high.isSome || c.toNat < 0x20 || c = '\\' then none
    else consRead c (stringBody none rest)

/-! ## Numbers -/

def digitValue (c : Char) : Nat := c.toNat - '0'.toNat

/-- The leading digits and what follows them. -/
def digits (s : List Char) : List Nat × List Char :=
  ((s.takeWhile Char.isDigit).map digitValue, s.dropWhile Char.isDigit)

/-- A whole part: a single zero, or digits that do not start with one. -/
def wholePart? (s : List Char) : Option (List Nat × List Char) :=
  match digits s with
  | ([], _) => none
  | ([d], rest) => some ([d], rest)
  | (0 :: _, _) => none
  | (ds, rest) => some (ds, rest)

/-- A fraction, if a point follows; the point needs a digit behind it. -/
def fractionPart? : List Char → Option (Option (List Nat) × List Char)
  | '.' :: s =>
    match digits s with
    | ([], _) => none
    | (ds, rest) => some (some ds, rest)
  | s => some (none, s)

/-- The sign of an exponent: whether it is negative, and the rest. -/
def exponentSign : List Char → Bool × List Char
  | '-' :: s => (true, s)
  | '+' :: s => (false, s)
  | s => (false, s)

/-- The digits of an exponent behind its sign; at least one is needed. -/
def exponentDigits? (s : List Char) : Option (Option (Bool × List Nat) × List Char) :=
  let (down, s) := exponentSign s
  match digits s with
  | ([], _) => none
  | (ds, rest) => some (some (down, ds), rest)

/-- An exponent, if its letter follows. -/
def exponentPart? : List Char → Option (Option (Bool × List Nat) × List Char)
  | 'e' :: s => exponentDigits? s
  | 'E' :: s => exponentDigits? s
  | s => some (none, s)

def numeral? (s : List Char) : Option (Numeral × List Char) := do
  let (negative, s) := match s with
    | '-' :: r => (true, r)
    | r => (false, r)
  let (whole, s) ← wholePart? s
  let (fraction, s) ← fractionPart? s
  let (exponent, s) ← exponentPart? s
  return (⟨negative, whole, fraction, exponent⟩, s)

/-- The value of a written number, unless it is too large. -/
def ofMeaning? : Numeral.Meaning → Option Value
  | .integer i => some (integer (Int64.ofInt i))
  | .double x => some (double x)
  | .overflow => none

def number? (s : List Char) : Option (Value × List Char) := do
  let (n, rest) ← numeral? s
  let v ← ofMeaning? n.meaning
  return (v, rest)

/-! ## Values

`depth` is the number of levels that may still be opened.  `fuel` bounds the number of readers
that call each other; the length of the text is always enough. -/

/-- A constant, when its word is there. -/
def constant? (word : List Char) (v : Value) (s : List Char) : Option (Value × List Char) :=
  (afterWord? word s).map (v, ·)

mutual

/-- One value, blanks in front of it allowed. -/
def value? (fuel depth : Nat) (s : List Char) : Option (Value × List Char) :=
  match fuel with
  | 0 => none
  | fuel + 1 =>
    match skipBlanks s with
    | [] => none
    | '"' :: rest => (stringBody none rest).map fun (cs, rest) => (string (String.ofList cs), rest)
    | '[' :: rest =>
      match depth with
      | 0 => none
      | depth + 1 =>
        match skipBlanks rest with
        | ']' :: rest => some (list [], rest)
        | rest => (items? fuel depth rest).map fun (vs, rest) => (list vs, rest)
    | '\x7b' :: rest =>
      match depth with
      | 0 => none
      | depth + 1 =>
        match skipBlanks rest with
        | '\x7d' :: rest => some (object [], rest)
        | rest => (fields? fuel depth [] rest).map fun (fs, rest) => (object fs, rest)
    | 'n' :: rest => constant? ['u', 'l', 'l'] undefined rest
    | 't' :: rest => constant? ['r', 'u', 'e'] (boolean true) rest
    | 'f' :: rest => constant? ['a', 'l', 's', 'e'] (boolean false) rest
    | s => number? s

/-- One or more items up to the closing bracket. -/
def items? (fuel depth : Nat) (s : List Char) : Option (List Value × List Char) :=
  match fuel with
  | 0 => none
  | fuel + 1 =>
    match value? fuel depth s with
    | none => none
    | some (v, rest) =>
      match skipBlanks rest with
      | ']' :: rest => some ([v], rest)
      | ',' :: rest => (items? fuel depth rest).map fun (vs, rest) => (v :: vs, rest)
      | _ => none

/-- One or more fields up to the closing brace, stored into those read before. -/
def fields? (fuel depth : Nat) (before : Dict Value) (s : List Char) :
    Option (Dict Value × List Char) :=
  match fuel with
  | 0 => none
  | fuel + 1 =>
    match skipBlanks s with
    | '"' :: rest =>
      match stringBody none rest with
      | none => none
      | some (key, rest) =>
        match skipBlanks rest with
        | ':' :: rest =>
          match value? fuel depth rest with
          | none => none
          | some (v, rest) =>
            let fields := Dict.put before (String.ofList key) v
            match skipBlanks rest with
            | '\x7d' :: rest => some (fields, rest)
            | ',' :: rest => fields? fuel depth fields rest
            | _ => none
        | _ => none
    | _ => none

end

/-- Reads a whole text as one value. -/
def parseChars? (s : List Char) : Option Value :=
  match value? (s.length + 1) maxDepth s with
  | some (v, rest) => if (skipBlanks rest).isEmpty then some v else none
  | none => none

def parse? (s : String) : Option Value := parseChars? s.toList

end ManagementPlane.Value
