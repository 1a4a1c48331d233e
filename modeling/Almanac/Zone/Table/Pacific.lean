import Almanac.Zone.Rule
/-!
# Zones of the Pacific
-/
namespace Almanac.Zone

def apia : Zone := .ofRules "Pacific/Apia" (.ofSeconds 45184 "LMT")
  [rule 2012 2021 4 (.onOrAfter .sunday 1) (timeOfDay 4 0 0) 50400 46800 "+13",
   rule 2012 2020 9 (.last .sunday) (timeOfDay 3 0 0) 46800 50400 "+14"]
  [once (-2445424384) (-41216) "LMT", once (-1861878784) (-41400) "-1130",
   once (-631110600) (-39600) "-11", once 1285498800 (-36000) "-10",
   once 1301752800 (-39600) "-11", once 1316872800 (-36000) "-10", once 1325239200 50400 "+14"]

def chatham : Zone := .ofRules "Pacific/Chatham" (.ofSeconds 44028 "LMT")
  [rule 1975 1988 10 (.last .sunday) (timeOfDay 2 45 0) 45900 49500 "+1345",
   rule 1976 1989 3 (.onOrAfter .sunday 1) (timeOfDay 3 45 0) 49500 45900 "+1245",
   rule 1989 1994 10 (.onOrAfter .sunday 2) (timeOfDay 2 45 0) 45900 49500 "+1345",
   rule 1990 2007 3 (.onOrAfter .sunday 15) (timeOfDay 3 45 0) 49500 45900 "+1245",
   rule 1995 2006 10 (.onOrAfter .sunday 1) (timeOfDay 2 45 0) 45900 49500 "+1345",
   rule 2007 2099 9 (.last .sunday) (timeOfDay 2 45 0) 45900 49500 "+1345",
   rule 2008 2099 4 (.onOrAfter .sunday 1) (timeOfDay 3 45 0) 49500 45900 "+1245"]
  [once (-3192437628) 44100 "+1215", once (-757426500) 45900 "+1245",
   once 152632800 49500 "+1345", once 162309600 45900 "+1245"]

def kwajalein : Zone := .ofRules "Pacific/Kwajalein" (.ofSeconds 40160 "LMT")
  []
  [once (-2177492960) 39600 "+11", once (-1041418800) 36000 "+10",
   once (-907408800) 32400 "+09", once (-817462800) 39600 "+11", once (-7988400) (-43200) "-12",
   once 745934400 43200 "+12"]

def pacificZones : List Zone :=
  [apia, chatham, kwajalein]

end Almanac.Zone
