import Almanac.Zone.Rule
/-!
# Zones named without an area

Universal time under its several names, fixed offsets, and zones named for their abbreviation.
-/
namespace Almanac.Zone

def eet : Zone := .ofRules "EET" (.ofSeconds 5692 "LMT")
  [rule 1981 2099 3 (.last .sunday) (timeOfDay 3 0 0) 7200 10800 "EEST",
   rule 1981 1995 9 (.last .sunday) (timeOfDay 4 0 0) 10800 7200 "EET",
   rule 1996 2099 10 (.last .sunday) (timeOfDay 4 0 0) 10800 7200 "EET"]
  [once (-2344642492) 5692 "AMT", once (-1686101632) 7200 "EET",
   once (-1182996000) 10800 "EEST", once (-1178161200) 7200 "EET",
   once (-906861600) 10800 "EEST", once (-904878000) 7200 "CEST", once (-857257200) 3600 "CET",
   once (-844477200) 7200 "CEST", once (-828237600) 3600 "CET", once (-812422800) 7200 "EET",
   once (-552362400) 10800 "EEST", once (-541652400) 7200 "EET", once 166485600 10800 "EEST",
   once 186184800 7200 "EET", once 198028800 10800 "EEST", once 213753600 7200 "EET",
   once 228873600 10800 "EEST", once 244080000 7200 "EET", once 260323200 10800 "EEST",
   once 275446800 7200 "EET", once 291798000 10800 "EEST", once 307407600 7200 "EET",
   once 323388000 10800 "EEST", once 338936400 7200 "EET"]

def est : Zone := .ofRules "EST" (.ofSeconds (-19088) "LMT")
  []
  [once (-2524502512) (-19176) "CMT", once (-1946918424) (-18000) "EST"]

def gmtMinus12 : Zone := .fixed "Etc/GMT+12" (.ofSeconds (-43200) "-12")

def gmtPlus14 : Zone := .fixed "Etc/GMT-14" (.ofSeconds 50400 "+14")

def etcUtc : Zone := .fixed "Etc/UTC" (.ofSeconds 0 "UTC")

def gmt : Zone := .fixed "GMT" (.ofSeconds 0 "GMT")

def utc : Zone := .fixed "UTC" (.ofSeconds 0 "UTC")

def moscow : Zone := .ofRules "W-SU" (.ofSeconds 9017 "LMT")
  [rule 1981 1984 4 (.day 1) (timeOfDay 0 0 0) 10800 14400 "MSD",
   rule 1981 1983 10 (.day 1) (timeOfDay 0 0 0) 14400 10800 "MSK",
   rule 1984 1990 9 (.last .sunday) (timeOfDay 3 0 0) 14400 10800 "MSK",
   rule 1985 1990 3 (.last .sunday) (timeOfDay 2 0 0) 10800 14400 "MSD",
   rule 1992 2010 3 (.last .sunday) (timeOfDay 2 0 0) 10800 14400 "MSD",
   rule 1992 1995 9 (.last .sunday) (timeOfDay 3 0 0) 14400 10800 "MSK",
   rule 1996 2010 10 (.last .sunday) (timeOfDay 3 0 0) 14400 10800 "MSK"]
  [once (-2840149817) 9017 "MMT", once (-1688265017) 9079 "MMT", once (-1656819079) 12679 "MST",
   once (-1641353479) 9079 "MMT", once (-1627965079) 16279 "MDST",
   once (-1618716679) 12679 "MST", once (-1596429079) 16279 "MDST",
   once (-1593820800) 14400 "MSD", once (-1589860800) 10800 "MSK",
   once (-1542427200) 14400 "MSD", once (-1539493200) 18000 "+05",
   once (-1525323600) 14400 "MSD", once (-1522728000) 10800 "MSK",
   once (-1491188400) 7200 "EET", once (-1247536800) 10800 "MSK", once 670374000 10800 "EEST",
   once 686102400 7200 "EET", once 695779200 10800 "MSK", once 1301180400 14400 "MSK",
   once 1414274400 10800 "MSK"]

def zulu : Zone := .fixed "Zulu" (.ofSeconds 0 "UTC")

def etcZones : List Zone :=
  [eet, est, gmtMinus12, gmtPlus14, etcUtc, gmt, utc, moscow, zulu]

end Almanac.Zone
