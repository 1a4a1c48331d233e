import Almanac.Clock
import Almanac.Numeral
/-!
# Dates and times as text

Dates are written `2024-02-29` and times `03:04:05`. A year before 0 or after 9999 has a sign.
-/
namespace Almanac

namespace Date

/-- Four digits, and a sign before four digits or more for a year that needs it. -/
def yearText (year : Int) : String :=
  if 0 ≤ year ∧ year ≤ 9999 then Numeral.padded 4 year.natAbs
  else (if year < 0 then "-" else "+") ++ Numeral.padded 4 year.natAbs

def text (d : Date) : String :=
  yearText d.year ++ "-" ++ Numeral.padded 2 d.month ++ "-" ++ Numeral.padded 2 d.day

end Date

namespace Clock

def timeText (l : Int) : String :=
  Numeral.padded 2 (hour l) ++ ":" ++ Numeral.padded 2 (minute l) ++ ":" ++
    Numeral.padded 2 (second l)

/-- A point and the fewest of 3, 6 or 9 digits that are exact; nothing for no fraction. -/
def fractionText (nanos : Nat) : String :=
  if nanos = 0 then ""
  else if nanos % 1000000 = 0 then "." ++ Numeral.padded 3 (nanos / 1000000)
  else if nanos % 1000 = 0 then "." ++ Numeral.padded 6 (nanos / 1000)
  else "." ++ Numeral.padded 9 nanos

end Clock
end Almanac
