import Almanac.Zone.Rule
/-!
# Zones of Europe
-/
namespace Almanac.Zone

def kyiv : Zone := .ofRules "Europe/Kyiv" (.ofSeconds 7324 "LMT")
  [rule 1981 1984 4 (.day 1) (timeOfDay 0 0 0) 10800 14400 "MSD",
   rule 1981 1983 10 (.day 1) (timeOfDay 0 0 0) 14400 10800 "MSK",
   rule 1984 1989 9 (.last .sunday) (timeOfDay 3 0 0) 14400 10800 "MSK",
   rule 1985 1990 3 (.last .sunday) (timeOfDay 2 0 0) 10800 14400 "MSD",
   rule 1991 1995 9 (.last .sunday) (timeOfDay 3 0 0) 10800 7200 "EET",
   rule 1992 1996 3 (.last .sunday) (timeOfDay 2 0 0) 7200 10800 "EEST",
   rule 1996 2099 10 (.last .sunday) (timeOfDay 4 0 0) 10800 7200 "EET",
   rule 1997 2099 3 (.last .sunday) (timeOfDay 3 0 0) 7200 10800 "EEST"]
  [once (-2840148124) 7324 "KMT", once (-1441159324) 7200 "EET", once (-1247536800) 10800 "MSK",
   once (-892522800) 7200 "CEST", once (-857257200) 3600 "CET", once (-844556400) 7200 "CEST",
   once (-828226800) 3600 "CET", once (-825382800) 10800 "MSK", once 646783200 10800 "EEST"]

def dublin : Zone := .ofRules "Europe/Dublin" (.ofSeconds (-1521) "LMT")
  [rule 1918 1920 3 (.onOrAfter .sunday 24) (timeOfDay 2 0 0) 0 3600 "BST",
   rule 1925 1938 10 (.onOrAfter .sunday 2) (timeOfDay 3 0 0) 3600 0 "GMT",
   rule 1950 1953 4 (.onOrAfter .sunday 15) (timeOfDay 2 0 0) 0 3600 "IST",
   rule 1950 1952 10 (.onOrAfter .sunday 20) (timeOfDay 3 0 0) 3600 0 "GMT",
   rule 1953 1960 10 (.onOrAfter .sunday 1) (timeOfDay 3 0 0) 3600 0 "GMT",
   rule 1961 1963 3 (.last .sunday) (timeOfDay 2 0 0) 0 3600 "IST",
   rule 1961 1967 10 (.onOrAfter .sunday 23) (timeOfDay 3 0 0) 3600 0 "GMT",
   rule 1964 1967 3 (.onOrAfter .sunday 16) (timeOfDay 2 0 0) 0 3600 "IST",
   rule 1971 1975 10 (.last .sunday) (timeOfDay 3 0 0) 3600 0 "GMT",
   rule 1972 1980 3 (.onOrAfter .sunday 15) (timeOfDay 2 0 0) 0 3600 "IST",
   rule 1976 1980 10 (.onOrAfter .sunday 23) (timeOfDay 3 0 0) 3600 0 "GMT",
   rule 1981 2099 3 (.last .sunday) (timeOfDay 1 0 0) 0 3600 "IST",
   rule 1981 1994 10 (.onOrAfter .sunday 23) (timeOfDay 2 0 0) 3600 0 "GMT",
   rule 1995 1998 10 (.onOrAfter .sunday 22) (timeOfDay 2 0 0) 3600 0 "GMT",
   rule 1999 2099 10 (.last .sunday) (timeOfDay 2 0 0) 3600 0 "GMT"]
  [once (-2821649679) (-1521) "DMT", once (-1691962479) 2079 "IST", once (-1680471279) 0 "GMT",
   once (-1664143200) 3600 "BST", once (-1650146400) 0 "GMT", once (-1617487200) 0 "GMT",
   once (-1586037600) 0 "GMT", once (-1552168800) 0 "GMT", once (-1538344800) 3600 "BST",
   once (-1522533600) 0 "GMT", once (-1507500000) 3600 "IST", once (-1490565600) 0 "GMT",
   once (-1473631200) 3600 "IST", once (-1460930400) 0 "GMT", once (-1442786400) 3600 "IST",
   once (-1428876000) 0 "GMT", once (-1410732000) 3600 "IST", once (-1379282400) 3600 "IST",
   once (-1348437600) 3600 "IST", once (-1315778400) 3600 "IST", once (-1284328800) 3600 "IST",
   once (-1253484000) 3600 "IST", once (-1221429600) 3600 "IST", once (-1189980000) 3600 "IST",
   once (-1159135200) 3600 "IST", once (-1126476000) 3600 "IST", once (-1095631200) 3600 "IST",
   once (-1063576800) 3600 "IST", once (-1032127200) 3600 "IST", once (-1001282400) 3600 "IST",
   once (-969228000) 3600 "IST", once (-950479200) 0 "GMT", once (-942012000) 3600 "IST",
   once (-733356000) 0 "GMT", once (-719445600) 3600 "IST", once (-699487200) 0 "GMT",
   once (-684972000) 3600 "IST", once (-668037600) 0 "GMT", once (-654732000) 3600 "IST",
   once (-636588000) 0 "GMT", once (-496274400) 3600 "IST", once (-464220000) 3600 "IST",
   once (-432165600) 3600 "IST", once (-401320800) 3600 "IST", once (-369266400) 3600 "IST",
   once (-337816800) 3600 "IST", once (-306972000) 3600 "IST", once (-59004000) 3600 "IST"]

def kiev : Zone := kyiv.renamed "Europe/Kiev"

def london : Zone := .ofRules "Europe/London" (.ofSeconds (-75) "LMT")
  [rule 1918 1920 3 (.onOrAfter .sunday 24) (timeOfDay 2 0 0) 0 3600 "BST",
   rule 1925 1938 10 (.onOrAfter .sunday 2) (timeOfDay 3 0 0) 3600 0 "GMT",
   rule 1941 1943 8 (.onOrAfter .sunday 9) (timeOfDay 3 0 0) 7200 3600 "BST",
   rule 1942 1944 4 (.onOrAfter .sunday 1) (timeOfDay 2 0 0) 3600 7200 "BDST",
   rule 1950 1953 4 (.onOrAfter .sunday 15) (timeOfDay 2 0 0) 0 3600 "BST",
   rule 1950 1952 10 (.onOrAfter .sunday 20) (timeOfDay 3 0 0) 3600 0 "GMT",
   rule 1953 1960 10 (.onOrAfter .sunday 1) (timeOfDay 3 0 0) 3600 0 "GMT",
   rule 1961 1963 3 (.last .sunday) (timeOfDay 2 0 0) 0 3600 "BST",
   rule 1961 1967 10 (.onOrAfter .sunday 23) (timeOfDay 3 0 0) 3600 0 "GMT",
   rule 1964 1967 3 (.onOrAfter .sunday 16) (timeOfDay 2 0 0) 0 3600 "BST",
   rule 1971 1975 10 (.last .sunday) (timeOfDay 3 0 0) 3600 0 "GMT",
   rule 1972 1980 3 (.onOrAfter .sunday 15) (timeOfDay 2 0 0) 0 3600 "BST",
   rule 1976 1980 10 (.onOrAfter .sunday 23) (timeOfDay 3 0 0) 3600 0 "GMT",
   rule 1981 2099 3 (.last .sunday) (timeOfDay 1 0 0) 0 3600 "BST",
   rule 1981 1994 10 (.onOrAfter .sunday 23) (timeOfDay 2 0 0) 3600 0 "GMT",
   rule 1995 1998 10 (.onOrAfter .sunday 22) (timeOfDay 2 0 0) 3600 0 "GMT",
   rule 1999 2099 10 (.last .sunday) (timeOfDay 2 0 0) 3600 0 "GMT"]
  [once (-3852662325) 0 "GMT", once (-1691964000) 3600 "BST", once (-1680472800) 0 "GMT",
   once (-1664143200) 3600 "BST", once (-1650146400) 0 "GMT", once (-1617487200) 0 "GMT",
   once (-1586037600) 0 "GMT", once (-1552168800) 0 "GMT", once (-1538344800) 3600 "BST",
   once (-1522533600) 0 "GMT", once (-1507500000) 3600 "BST", once (-1490565600) 0 "GMT",
   once (-1473631200) 3600 "BST", once (-1460930400) 0 "GMT", once (-1442786400) 3600 "BST",
   once (-1428876000) 0 "GMT", once (-1410732000) 3600 "BST", once (-1379282400) 3600 "BST",
   once (-1348437600) 3600 "BST", once (-1315778400) 3600 "BST", once (-1284328800) 3600 "BST",
   once (-1253484000) 3600 "BST", once (-1221429600) 3600 "BST", once (-1189980000) 3600 "BST",
   once (-1159135200) 3600 "BST", once (-1126476000) 3600 "BST", once (-1095631200) 3600 "BST",
   once (-1063576800) 3600 "BST", once (-1032127200) 3600 "BST", once (-1001282400) 3600 "BST",
   once (-969228000) 3600 "BST", once (-950479200) 0 "GMT", once (-942012000) 3600 "BST",
   once (-904518000) 7200 "BDST", once (-798073200) 3600 "BST", once (-781052400) 7200 "BDST",
   once (-772066800) 3600 "BST", once (-764805600) 0 "GMT", once (-748476000) 3600 "BST",
   once (-733356000) 0 "GMT", once (-719445600) 3600 "BST", once (-717030000) 7200 "BDST",
   once (-706748400) 3600 "BST", once (-699487200) 0 "GMT", once (-687996000) 3600 "BST",
   once (-668037600) 0 "GMT", once (-654732000) 3600 "BST", once (-636588000) 0 "GMT",
   once (-496274400) 3600 "BST", once (-464220000) 3600 "BST", once (-432165600) 3600 "BST",
   once (-401320800) 3600 "BST", once (-369266400) 3600 "BST", once (-337816800) 3600 "BST",
   once (-306972000) 3600 "BST", once (-59004000) 3600 "BST"]

def paris : Zone := .ofRules "Europe/Paris" (.ofSeconds 561 "LMT")
  [rule 1916 1919 10 (.onOrAfter .monday 2) (timeOfDay 0 0 0) 3600 0 "WET",
   rule 1922 1938 10 (.onOrAfter .sunday 2) (timeOfDay 0 0 0) 3600 0 "WET",
   rule 1977 1980 4 (.onOrAfter .sunday 1) (timeOfDay 2 0 0) 3600 7200 "CEST",
   rule 1977 1988 9 (.onOrAfter .sunday 25) (timeOfDay 3 0 0) 7200 3600 "CET",
   rule 1981 2099 3 (.last .sunday) (timeOfDay 2 0 0) 3600 7200 "CEST",
   rule 1989 1995 9 (.last .sunday) (timeOfDay 3 0 0) 7200 3600 "CET",
   rule 1996 2099 10 (.last .sunday) (timeOfDay 3 0 0) 7200 3600 "CET"]
  [once (-2486592561) 561 "PMT", once (-1855958961) 0 "WET", once (-1689814800) 3600 "WEST",
   once (-1665363600) 3600 "WEST", once (-1635123600) 3600 "WEST",
   once (-1604278800) 3600 "WEST", once (-1574038800) 3600 "WEST", once (-1552266000) 0 "WET",
   once (-1539997200) 3600 "WEST", once (-1520557200) 0 "WET", once (-1507510800) 3600 "WEST",
   once (-1470618000) 3600 "WEST", once (-1444006800) 3600 "WEST",
   once (-1411952400) 3600 "WEST", once (-1379293200) 3600 "WEST",
   once (-1348448400) 3600 "WEST", once (-1316394000) 3600 "WEST",
   once (-1284339600) 3600 "WEST", once (-1253494800) 3600 "WEST",
   once (-1221440400) 3600 "WEST", once (-1191200400) 3600 "WEST",
   once (-1160355600) 3600 "WEST", once (-1127696400) 3600 "WEST",
   once (-1096851600) 3600 "WEST", once (-1063587600) 3600 "WEST",
   once (-1033347600) 3600 "WEST", once (-1002502800) 3600 "WEST",
   once (-969238800) 3600 "WEST", once (-950490000) 0 "WET", once (-942012000) 3600 "WEST",
   once (-932436000) 7200 "CEST", once (-857257200) 3600 "CET", once (-844556400) 7200 "CEST",
   once (-828226800) 3600 "CET", once (-812502000) 7200 "CEST", once (-800071200) 7200 "WEMT",
   once (-796266000) 3600 "WEST", once (-781052400) 7200 "WEMT", once (-766623600) 3600 "CET",
   once 196819200 7200 "CEST", once 212540400 3600 "CET"]

def europeZones : List Zone :=
  [kyiv, dublin, kiev, london, paris]

end Almanac.Zone
