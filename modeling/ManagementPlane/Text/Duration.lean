import ManagementPlane.Decimal.Power

/-!
# Text/Duration — spans of time as text

`durationText` is the form that messages show: a number of milliseconds, in seconds from one second
on, with as many decimals as it needs.  `secondsText` is the exact form: seconds with all nine
decimals.
-/

namespace ManagementPlane

/-- Three decimals without the zeros at their end; nothing when all are zero. -/
def milliDecimals (ms : Nat) : List Char :=
  let digit (n : Nat) : Char := Nat.digitChar (n % 10)
  let shown := [digit (ms / 100), digit (ms / 10), digit ms].reverse.dropWhile (· = '0')
  if shown.isEmpty then [] else '.' :: shown.reverse

/-- The text of a span in milliseconds. -/
def durationText (ms : Nat) : String :=
  if ms = 0 then "0ns"
  else if ms < 1000 then toString ms ++ "ms"
  else toString (ms / 1000) ++ String.ofList (milliDecimals (ms % 1000)) ++ "s"

/-- The text of a span in nanoseconds, in seconds with nine decimals. -/
def secondsText (ns : Nat) : String :=
  let decimals := (toString (ns % tenPow 9)).toList
  toString (ns / tenPow 9) ++ "."
    ++ String.ofList (List.replicate (9 - decimals.length) '0' ++ decimals)

end ManagementPlane
