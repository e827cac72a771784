import ManagementPlane.Value.Parser

/-!
# Configuration/Layer — settings laid over settings

A layer is a list of settings, each a value under a key.  `overlay` lays one over a table: a table
that meets a table is merged with it, and anything else takes the place of what it meets.  A key may
be a path to a setting further down, of names and positions: `logging.level`, `ports[0]`.  What is
in the way of a path gives way.  Keys are the same in any letter case.
-/

namespace ManagementPlane

namespace Configuration

/-- Settings by key, the later ones over the earlier ones. -/
abbrev Layer := List (String × Value)

/-! ## Letter case -/

/-- The small form of a letter; one sign outside the Latin letters has a Latin small form. -/
def lowerChar (c : Char) : Char := if c = '\u212a' then 'k' else c.toLower

def lower (s : String) : String := String.ofList (s.toList.map lowerChar)

/-! ## Paths -/

inductive PathStep
  | field (name : String)
  | item (index : Int)
  deriving DecidableEq, Repr, Inhabited

def isNameChar (c : Char) : Bool := c.isAlphanum || c = ' ' || c = '_' || c = '-'

/-- A position between brackets, which blanks may surround. -/
def index? (cs : List Char) : Option Int :=
  let isBlank (c : Char) : Bool := c = ' ' || c = '\t'
  let bare := ((cs.dropWhile isBlank).reverse.dropWhile isBlank).reverse
  if bare.head? = some '+' then none else (parseInt64? (String.ofList bare)).map Int64.toInt

/-- The steps of a path behind its first name. -/
def steps? : Nat → List Char → Option (List PathStep)
  | _, [] => some []
  | n + 1, '.' :: rest =>
    let name := rest.takeWhile isNameChar
    if name.isEmpty then none
    else (steps? n (rest.dropWhile isNameChar)).map (.field (String.ofList name) :: ·)
  | n + 1, '[' :: rest =>
    match index? (rest.takeWhile (· ≠ ']')), rest.dropWhile (· ≠ ']') with
    | some i, ']' :: rest => (steps? n rest).map (.item i :: ·)
    | _, _ => none
  | _, _ => none

/-- The path that a key spells; a key that spells none is a name of its own. -/
def path (key : String) : List PathStep :=
  let cs := key.toList
  let name := cs.takeWhile isNameChar
  let steps := if name.isEmpty then none else steps? cs.length (cs.dropWhile isNameChar)
  match steps with
  | some steps => .field (String.ofList name) :: steps
  | none => [.field key]

/-! ## Laying over -/

mutual

/-- Puts a value under a name. -/
def merge (table : Value) (name : String) : Value → Value
  | .object fields =>
    table.set (lower name) (mergeAll ((table.get? (lower name)).getD .emptyObject) fields)
  | v => table.set (lower name) v

/-- Puts values under their names. -/
def mergeAll (table : Value) : List (String × Value) → Value
  | [] => table
  | (name, v) :: rest => mergeAll (merge table name v) rest

end

/-- The place that an index means in a list of `n` items; one below zero counts from the end. -/
def position (index : Int) (n : Nat) : Nat :=
  if index < 0 then n - index.natAbs else index.toNat

/-- Puts a value at the end of a path. -/
def assign : List PathStep → Value → Value → Value
  | [], _, v => v
  | [.field name], table, v => merge table name v
  | .field name :: rest, table, v => table.update (lower name) fun inner => assign rest inner v
  | .item i :: rest, there, v =>
    let items := (there.asList?).getD []
    let n := position i items.length
    let items := items ++ List.replicate (n + 1 - items.length) .undefined
    .list (items.modify n fun inner => assign rest inner v)

/-- Lays a layer over a table. -/
def overlay (table : Value) (layer : Layer) : Value :=
  layer.foldl (fun table (key, v) => assign (path key) table v) table

/-! ## Where layers come from -/

/-- The settings of a file that holds an object; a mark of the byte order in front is skipped. -/
def ofFile? (text : String) : Option Layer :=
  let cs := text.toList
  let cs := if cs.head? = some '\ufeff' then cs.drop 1 else cs
  match Value.parse? (String.ofList cs) with
  | some (.object fields) => some fields
  | _ => none

/-- Two low lines stand for a point. -/
def pointed : List Char → List Char
  | '_' :: '_' :: rest => '.' :: pointed rest
  | c :: rest => c :: pointed rest
  | [] => []

/-- The settings among the environment variables: those whose names begin with the word and two low
lines.  Every value is a text. -/
def ofEnvironment (word : String) (vars : List (String × String)) : Layer :=
  let lead := (lower word).toList ++ ['_', '_']
  vars.filterMap fun (name, text) =>
    let cs := (lower name).toList
    if lead.isPrefixOf cs then
      some (String.ofList (pointed (cs.drop lead.length)), .string text)
    else none

end Configuration

end ManagementPlane
