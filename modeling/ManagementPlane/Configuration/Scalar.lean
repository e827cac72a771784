import ManagementPlane.Configuration.Layer
import ManagementPlane.Decimal.Notation

/-!
# Configuration/Scalar — counts and texts of a configuration

Settings that come from the environment are texts, whatever they mean, so a count may be spelled as
one, and a text may be given as a number.  A count is at most `maxCount`.
-/

namespace ManagementPlane

def maxCount : Nat := UInt64.size - 1

/-- The count nearest to a finite number; a half is rounded up. -/
def Binary64.nearestCount (x : Binary64) : Nat :=
  if x.negative then 0
  else
    let num := x.significand * twoPow x.exponent.toNat
    let den := twoPow (-x.exponent).toNat
    min ((2 * num + den) / (2 * den)) maxCount

namespace Configuration

/-- Digits and nothing else, but for a plus sign in front. -/
def parseCount? (s : String) : Option Nat :=
  let digits := match s.toList with
    | '+' :: rest => rest
    | cs => cs
  if digits.isEmpty || !digits.all Char.isDigit then none
  else
    let n := digits.foldl (fun n c => n * 10 + (c.toNat - '0'.toNat)) 0
    if n ≤ maxCount then some n else none

def count? : Value → Option Nat
  | .integer i => if i < 0 then none else some i.toInt.toNat
  | .double x => some x.nearestCount
  | .boolean b => some b.toNat
  | .string s =>
    match lower s with
    | "true" | "on" | "yes" => some 1
    | "false" | "off" | "no" => some 0
    | _ => parseCount? s
  | _ => none

def text? : Value → Option String
  | .string s => some s
  | .boolean b => some (toString b)
  | .integer i => some (toString i.toInt)
  | .double x => some (String.ofList x.positional)
  | _ => none

/-- The setting of a section by its name, or by its place when the section is a list. -/
def setting? (part : Value) (place : Nat) (name : String) : Option Value :=
  match part with
  | .object fields => Dict.get? fields name
  | .list items => items[place]?
  | _ => none

/-- Whether a value can be a section at all. -/
def isSection : Value → Bool
  | .object _ => true
  | .list _ => true
  | _ => false

end Configuration

end ManagementPlane
