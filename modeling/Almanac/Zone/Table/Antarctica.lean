import Almanac.Zone.Rule
/-!
# Zones of Antarctica
-/
namespace Almanac.Zone

def casey : Zone := .ofRules "Antarctica/Casey" (.ofSeconds 0 "-00")
  [rule 2020 2022 10 (.onOrAfter .sunday 1) (timeOfDay 0 1 0) 28800 39600 "+11"]
  [once (-31536000) 28800 "+08", once 1255802400 39600 "+11", once 1267714800 28800 "+08",
   once 1319738400 39600 "+11", once 1329843600 28800 "+08", once 1477065600 39600 "+11",
   once 1520701200 28800 "+08", once 1538856000 39600 "+11", once 1552752000 28800 "+08",
   once 1570129200 39600 "+11", once 1583596800 28800 "+08", once 1615640400 28800 "+08",
   once 1647090000 28800 "+08", once 1678291200 28800 "+08"]

def troll : Zone := .ofRules "Antarctica/Troll" (.ofSeconds 0 "-00")
  [rule 2005 2099 3 (.last .sunday) (timeOfDay 1 0 0) 0 7200 "+02",
   rule 2005 2099 10 (.last .sunday) (timeOfDay 3 0 0) 7200 0 "+00"]
  [once 1108166400 0 "+00"]

def antarcticaZones : List Zone :=
  [casey, troll]

end Almanac.Zone
