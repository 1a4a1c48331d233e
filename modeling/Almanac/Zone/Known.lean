import Almanac.Zone.Table.Africa
import Almanac.Zone.Table.America
import Almanac.Zone.Table.Antarctica
import Almanac.Zone.Table.Asia
import Almanac.Zone.Table.Australia
import Almanac.Zone.Table.Etc
import Almanac.Zone.Table.Europe
import Almanac.Zone.Table.Pacific
/-!
# Zones by name

The zones that an expression may name. Names are case-sensitive, and two names of the same clocks
are two zones.
-/
namespace Almanac.Zone

/-- Every zone with a name. -/
def known : List Zone :=
  etcZones ++ europeZones ++ asiaZones ++ americaZones ++ africaZones ++ antarcticaZones ++
    australiaZones ++ pacificZones

def find? (name : String) : Option Zone := known.find? (·.name == name)

/-- The zone that a setting of the environment names; colons before the name are dropped. -/
def ofSetting? (setting : String) : Option Zone :=
  find? (String.ofList (setting.toList.dropWhile (· == ':')))

theorem name_of_find? {name : String} {z : Zone} (h : find? name = some z) : z.name = name := by
  simpa using List.find?_some h

theorem mem_known_of_find? {name : String} {z : Zone} (h : find? name = some z) : z ∈ known :=
  List.mem_of_find?_eq_some h

end Almanac.Zone
