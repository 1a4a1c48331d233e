import Almanac.Clock.Text
import Almanac.Zone
/-!
# Moments

An instant seen in a zone, and an instant with a fraction of a second. Both are written with the
date and time that the clocks of the zone show and the name that the zone has for its offset.
-/
namespace Almanac

/-- A place on the calendar: an instant seen in a zone. -/
structure Moment where
  zone : Zone
  instant : Int
deriving DecidableEq

namespace Moment

def localTime (m : Moment) : Int := m.zone.toLocal m.instant

def text (m : Moment) : String :=
  (Clock.date m.localTime).text ++ " " ++ Clock.timeText m.localTime ++ " " ++
    (m.zone.offsetAt m.instant).abbreviation

end Moment

/-- An instant to the nanosecond. The fraction counts forward from the second, also before 1970. -/
structure Timestamp where
  second : Int
  nanos : Fin 1000000000
deriving DecidableEq

namespace Timestamp

def ofSecond (t : Int) : Timestamp := ⟨t, 0⟩

/-- As the clocks of the zone show it. -/
def textIn (z : Zone) (t : Timestamp) : String :=
  let l := z.toLocal t.second
  (Clock.date l).text ++ " " ++ Clock.timeText l ++ Clock.fractionText t.nanos ++ " " ++
    (z.offsetAt t.second).abbreviation

end Timestamp
end Almanac
