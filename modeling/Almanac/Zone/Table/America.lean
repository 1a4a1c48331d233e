import Almanac.Zone.Rule
/-!
# Zones of the Americas
-/
namespace Almanac.Zone

def barbados : Zone := .ofRules "America/Barbados" (.ofSeconds (-14309) "LMT")
  [rule 1978 1980 4 (.onOrAfter .sunday 15) (timeOfDay 2 0 0) (-14400) (-10800) "ADT"]
  [once (-1841256091) (-14400) "AST", once (-874263600) (-10800) "ADT",
   once (-862682400) (-14400) "AST", once (-841604400) (-10800) "ADT",
   once (-830714400) (-14400) "AST", once (-811882800) (-12600) "-0330",
   once (-798660000) (-14400) "AST", once 234943200 (-10800) "ADT",
   once 244616400 (-14400) "AST", once 276066000 (-14400) "AST", once 307515600 (-14400) "AST",
   once 338706000 (-14400) "AST"]

def caracas : Zone := .ofRules "America/Caracas" (.ofSeconds (-16064) "LMT")
  []
  [once (-2524505536) (-16060) "CMT", once (-1826739140) (-16200) "-0430",
   once (-157750200) (-14400) "-04", once 1197183600 (-16200) "-0430",
   once 1462086000 (-14400) "-04"]

def havana : Zone := .ofRules "America/Havana" (.ofSeconds (-19768) "LMT")
  [rule 1940 1942 6 (.onOrAfter .sunday 1) (timeOfDay 0 0 0) (-18000) (-14400) "CDT",
   rule 1940 1942 9 (.onOrAfter .sunday 1) (timeOfDay 0 0 0) (-14400) (-18000) "CST",
   rule 1969 1977 4 (.last .sunday) (timeOfDay 0 0 0) (-18000) (-14400) "CDT",
   rule 1969 1971 10 (.last .sunday) (timeOfDay 0 0 0) (-14400) (-18000) "CST",
   rule 1972 1974 10 (.day 8) (timeOfDay 0 0 0) (-14400) (-18000) "CST",
   rule 1975 1977 10 (.last .sunday) (timeOfDay 0 0 0) (-14400) (-18000) "CST",
   rule 1978 1990 10 (.onOrAfter .sunday 8) (timeOfDay 0 0 0) (-14400) (-18000) "CST",
   rule 1981 1983 5 (.onOrAfter .sunday 8) (timeOfDay 0 0 0) (-18000) (-14400) "CDT",
   rule 1986 1989 3 (.onOrAfter .sunday 15) (timeOfDay 0 0 0) (-18000) (-14400) "CDT",
   rule 1990 1997 4 (.onOrAfter .sunday 1) (timeOfDay 0 0 0) (-18000) (-14400) "CDT",
   rule 1991 1995 10 (.onOrAfter .sunday 8) (timeOfDay 1 0 0) (-14400) (-18000) "CST",
   rule 1998 2003 10 (.last .sunday) (timeOfDay 1 0 0) (-14400) (-18000) "CST",
   rule 2000 2003 4 (.onOrAfter .sunday 1) (timeOfDay 0 0 0) (-18000) (-14400) "CDT",
   rule 2006 2010 10 (.last .sunday) (timeOfDay 1 0 0) (-14400) (-18000) "CST",
   rule 2012 2099 11 (.onOrAfter .sunday 1) (timeOfDay 1 0 0) (-14400) (-18000) "CST",
   rule 2013 2099 3 (.onOrAfter .sunday 8) (timeOfDay 0 0 0) (-18000) (-14400) "CDT"]
  [once (-2524501832) (-19776) "HMT", once (-1402813824) (-18000) "CST",
   once (-1311534000) (-14400) "CDT", once (-1300996800) (-18000) "CST",
   once (-775681200) (-14400) "CDT", once (-767822400) (-18000) "CST",
   once (-744231600) (-14400) "CDT", once (-736372800) (-18000) "CST",
   once (-144702000) (-14400) "CDT", once (-134251200) (-18000) "CST",
   once (-113425200) (-14400) "CDT", once (-102542400) (-18000) "CST",
   once (-86295600) (-14400) "CDT", once (-72907200) (-18000) "CST",
   once (-54154800) (-14400) "CDT", once (-41457600) (-18000) "CST",
   once 263365200 (-14400) "CDT", once 290581200 (-14400) "CDT", once 322030800 (-14400) "CDT",
   once 452667600 (-14400) "CDT", once 484117200 (-14400) "CDT", once 844578000 (-18000) "CST",
   once 876632400 (-18000) "CST", once 891147600 (-14400) "CDT", once 922597200 (-14400) "CDT",
   once 1080450000 (-14400) "CDT", once 1173589200 (-14400) "CDT",
   once 1205643600 (-14400) "CDT", once 1236488400 (-14400) "CDT",
   once 1268542800 (-14400) "CDT", once 1300597200 (-14400) "CDT",
   once 1321160400 (-18000) "CST", once 1333256400 (-14400) "CDT"]

def losAngeles : Zone := .ofRules "America/Los_Angeles" (.ofSeconds (-28378) "LMT")
  [rule 1950 1966 4 (.last .sunday) (timeOfDay 1 0 0) (-28800) (-25200) "PDT",
   rule 1950 1961 9 (.last .sunday) (timeOfDay 2 0 0) (-25200) (-28800) "PST",
   rule 1962 2006 10 (.last .sunday) (timeOfDay 2 0 0) (-25200) (-28800) "PST",
   rule 1967 1973 4 (.last .sunday) (timeOfDay 2 0 0) (-28800) (-25200) "PDT",
   rule 1976 1986 4 (.last .sunday) (timeOfDay 2 0 0) (-28800) (-25200) "PDT",
   rule 1987 2006 4 (.onOrAfter .sunday 1) (timeOfDay 2 0 0) (-28800) (-25200) "PDT",
   rule 2007 2099 3 (.onOrAfter .sunday 8) (timeOfDay 2 0 0) (-28800) (-25200) "PDT",
   rule 2007 2099 11 (.onOrAfter .sunday 1) (timeOfDay 2 0 0) (-25200) (-28800) "PST"]
  [once (-2717640000) (-28800) "PST", once (-1633269600) (-25200) "PDT",
   once (-1615129200) (-28800) "PST", once (-1601820000) (-25200) "PDT",
   once (-1583679600) (-28800) "PST", once (-880207200) (-25200) "PWT",
   once (-769395600) (-25200) "PPT", once (-765385200) (-28800) "PST",
   once (-687967140) (-25200) "PDT", once (-662655600) (-28800) "PST",
   once 126698400 (-25200) "PDT", once 162381600 (-25200) "PDT"]

def newYork : Zone := .ofRules "America/New_York" (.ofSeconds (-17762) "LMT")
  [rule 1918 1920 3 (.last .sunday) (timeOfDay 2 0 0) (-18000) (-14400) "EDT",
   rule 1918 1920 10 (.last .sunday) (timeOfDay 2 0 0) (-14400) (-18000) "EST",
   rule 1921 1941 4 (.last .sunday) (timeOfDay 2 0 0) (-18000) (-14400) "EDT",
   rule 1921 1941 9 (.last .sunday) (timeOfDay 2 0 0) (-14400) (-18000) "EST",
   rule 1945 1954 9 (.last .sunday) (timeOfDay 2 0 0) (-14400) (-18000) "EST",
   rule 1946 1973 4 (.last .sunday) (timeOfDay 2 0 0) (-18000) (-14400) "EDT",
   rule 1955 2006 10 (.last .sunday) (timeOfDay 2 0 0) (-14400) (-18000) "EST",
   rule 1976 1986 4 (.last .sunday) (timeOfDay 2 0 0) (-18000) (-14400) "EDT",
   rule 1987 2006 4 (.onOrAfter .sunday 1) (timeOfDay 2 0 0) (-18000) (-14400) "EDT",
   rule 2007 2099 3 (.onOrAfter .sunday 8) (timeOfDay 2 0 0) (-18000) (-14400) "EDT",
   rule 2007 2099 11 (.onOrAfter .sunday 1) (timeOfDay 2 0 0) (-14400) (-18000) "EST"]
  [once (-2717650800) (-18000) "EST", once (-880218000) (-14400) "EWT",
   once (-769395600) (-14400) "EPT", once 126687600 (-14400) "EDT",
   once 162370800 (-14400) "EDT"]

def santiago : Zone := .ofRules "America/Santiago" (.ofSeconds (-16965) "LMT")
  [rule 1928 1932 4 (.day 1) (timeOfDay 0 0 0) (-14400) (-18000) "-05",
   rule 1928 1932 9 (.day 1) (timeOfDay 0 0 0) (-18000) (-14400) "-04",
   rule 1970 1972 10 (.onOrAfter .sunday 9) (timeOfDay 0 0 0) (-14400) (-10800) "-03",
   rule 1971 1986 3 (.onOrAfter .sunday 9) (timeOfDay 0 0 0) (-10800) (-14400) "-04",
   rule 1974 1989 10 (.onOrAfter .sunday 9) (timeOfDay 0 0 0) (-14400) (-10800) "-03",
   rule 1988 1996 3 (.onOrAfter .sunday 9) (timeOfDay 0 0 0) (-10800) (-14400) "-04",
   rule 1991 1997 10 (.onOrAfter .sunday 9) (timeOfDay 0 0 0) (-14400) (-10800) "-03",
   rule 1999 2010 10 (.onOrAfter .sunday 9) (timeOfDay 0 0 0) (-14400) (-10800) "-03",
   rule 2000 2007 3 (.onOrAfter .sunday 8) (timeOfDay 0 0 0) (-10800) (-14400) "-04",
   rule 2012 2014 4 (.last .sunday) (timeOfDay 0 0 0) (-10800) (-14400) "-04",
   rule 2012 2014 9 (.onOrAfter .sunday 2) (timeOfDay 0 0 0) (-14400) (-10800) "-03",
   rule 2016 2018 5 (.onOrAfter .sunday 9) (timeOfDay 0 0 0) (-10800) (-14400) "-04",
   rule 2016 2018 8 (.onOrAfter .sunday 8) (timeOfDay 0 0 0) (-14400) (-10800) "-03",
   rule 2019 2099 4 (.onOrAfter .sunday 2) (timeOfDay 0 0 0) (-10800) (-14400) "-04",
   rule 2019 2021 9 (.onOrAfter .sunday 2) (timeOfDay 0 0 0) (-14400) (-10800) "-03",
   rule 2023 2099 9 (.onOrAfter .sunday 2) (timeOfDay 0 0 0) (-14400) (-10800) "-03"]
  [once (-2524504635) (-16965) "SMT", once (-1892661435) (-18000) "-05",
   once (-1688410800) (-16965) "SMT", once (-1619205435) (-14400) "-04",
   once (-1593806400) (-16965) "SMT", once (-1335986235) (-14400) "-04",
   once (-870552000) (-18000) "-05", once (-865278000) (-14400) "-04",
   once (-740520000) (-10800) "-03", once (-736635600) (-14400) "-04",
   once (-718056000) (-18000) "-05", once (-713649600) (-14400) "-04",
   once (-36619200) (-10800) "-03", once (-23922000) (-14400) "-04",
   once (-3355200) (-10800) "-03", once 7527600 (-14400) "-04", once 118209600 (-10800) "-03",
   once 545194800 (-14400) "-04", once 653457600 (-10800) "-03", once 859690800 (-14400) "-04",
   once 889930800 (-14400) "-04", once 906868800 (-10800) "-03", once 923194800 (-14400) "-04",
   once 1206846000 (-14400) "-04", once 1237086000 (-14400) "-04",
   once 1270350000 (-14400) "-04", once 1304823600 (-14400) "-04",
   once 1313899200 (-10800) "-03", once 1662868800 (-10800) "-03"]

def saoPaulo : Zone := .ofRules "America/Sao_Paulo" (.ofSeconds (-11188) "LMT")
  [rule 1949 1952 12 (.day 1) (timeOfDay 0 0 0) (-10800) (-7200) "-02",
   rule 1966 1968 3 (.day 1) (timeOfDay 0 0 0) (-7200) (-10800) "-03",
   rule 1988 1991 10 (.onOrAfter .sunday 15) (timeOfDay 0 0 0) (-10800) (-7200) "-02",
   rule 1993 1995 10 (.onOrAfter .sunday 15) (timeOfDay 0 0 0) (-10800) (-7200) "-02",
   rule 2001 2006 2 (.onOrAfter .sunday 15) (timeOfDay 0 0 0) (-7200) (-10800) "-03",
   rule 2008 2011 2 (.onOrAfter .sunday 15) (timeOfDay 0 0 0) (-7200) (-10800) "-03",
   rule 2008 2017 10 (.onOrAfter .sunday 15) (timeOfDay 0 0 0) (-10800) (-7200) "-02",
   rule 2013 2019 2 (.onOrAfter .sunday 16) (timeOfDay 0 0 0) (-7200) (-10800) "-03"]
  [once (-1767214412) (-10800) "-03", once (-1206957600) (-7200) "-02",
   once (-1191362400) (-10800) "-03", once (-1175374800) (-7200) "-02",
   once (-1159826400) (-10800) "-03", once (-622069200) (-10800) "-03",
   once (-591832800) (-10800) "-03", once (-560210400) (-10800) "-03",
   once (-531352800) (-10800) "-03", once (-195426000) (-7200) "-02",
   once (-184197600) (-10800) "-03", once (-155163600) (-7200) "-02",
   once (-150069600) (-10800) "-03", once (-128898000) (-7200) "-02",
   once (-99954000) (-7200) "-02", once (-68418000) (-7200) "-02", once 499748400 (-7200) "-02",
   once 511236000 (-10800) "-03", once 530593200 (-7200) "-02", once 540266400 (-10800) "-03",
   once 562129200 (-7200) "-02", once 571197600 (-10800) "-03", once 602042400 (-10800) "-03",
   once 634701600 (-10800) "-03", once 666756000 (-10800) "-03", once 697600800 (-10800) "-03",
   once 719982000 (-7200) "-02", once 728445600 (-10800) "-03", once 761709600 (-10800) "-03",
   once 793159200 (-10800) "-03", once 824004000 (-10800) "-03", once 844570800 (-7200) "-02",
   once 856058400 (-10800) "-03", once 876106800 (-7200) "-02", once 888717600 (-10800) "-03",
   once 908074800 (-7200) "-02", once 919562400 (-10800) "-03", once 938919600 (-7200) "-02",
   once 951616800 (-10800) "-03", once 970974000 (-7200) "-02", once 1003028400 (-7200) "-02",
   once 1036292400 (-7200) "-02", once 1066532400 (-7200) "-02", once 1099364400 (-7200) "-02",
   once 1129431600 (-7200) "-02", once 1162695600 (-7200) "-02", once 1172368800 (-10800) "-03",
   once 1192330800 (-7200) "-02", once 1330221600 (-10800) "-03", once 1541300400 (-7200) "-02"]

def scoresbysund : Zone := .ofRules "America/Scoresbysund" (.ofSeconds (-5272) "LMT")
  [rule 1981 1995 9 (.last .sunday) (timeOfDay 1 0 0) 0 (-3600) "-01",
   rule 1982 2023 3 (.last .sunday) (timeOfDay 0 0 0) (-3600) 0 "+00",
   rule 1996 2023 10 (.last .sunday) (timeOfDay 1 0 0) 0 (-3600) "-01",
   rule 2024 2099 10 (.last .sunday) (timeOfDay 0 0 0) (-3600) (-7200) "-02",
   rule 2025 2099 3 (.onOrAfter .saturday 24) (timeOfDay 23 0 0) (-7200) (-3600) "-01"]
  [once (-1686090728) (-7200) "-02", once 323841600 (-3600) "-01", once 338961600 (-7200) "-02",
   once 354679200 0 "+00"]

def stJohns : Zone := .ofRules "America/St_Johns" (.ofSeconds (-12652) "LMT")
  [rule 1920 1934 5 (.onOrAfter .sunday 1) (timeOfDay 23 0 0) (-12652) (-9052) "NDT",
   rule 1920 1934 10 (.last .sunday) (timeOfDay 23 0 0) (-9052) (-12652) "NST",
   rule 1936 1941 5 (.onOrAfter .monday 9) (timeOfDay 0 0 0) (-12600) (-9000) "NDT",
   rule 1936 1941 10 (.onOrAfter .monday 1) (timeOfDay 0 0 0) (-9000) (-12600) "NST",
   rule 1946 1950 5 (.onOrAfter .sunday 8) (timeOfDay 2 0 0) (-12600) (-9000) "NDT",
   rule 1946 1950 10 (.onOrAfter .sunday 2) (timeOfDay 2 0 0) (-9000) (-12600) "NST",
   rule 1951 1986 4 (.last .sunday) (timeOfDay 2 0 0) (-12600) (-9000) "NDT",
   rule 1951 1959 9 (.last .sunday) (timeOfDay 2 0 0) (-9000) (-12600) "NST",
   rule 1960 1986 10 (.last .sunday) (timeOfDay 2 0 0) (-9000) (-12600) "NST",
   rule 1989 2006 4 (.onOrAfter .sunday 1) (timeOfDay 0 1 0) (-12600) (-9000) "NDT",
   rule 1989 2006 10 (.last .sunday) (timeOfDay 0 1 0) (-9000) (-12600) "NST",
   rule 2007 2011 3 (.onOrAfter .sunday 8) (timeOfDay 0 1 0) (-12600) (-9000) "NDT",
   rule 2007 2010 11 (.onOrAfter .sunday 1) (timeOfDay 0 1 0) (-9000) (-12600) "NST",
   rule 2011 2099 11 (.onOrAfter .sunday 1) (timeOfDay 2 0 0) (-9000) (-12600) "NST",
   rule 2012 2099 3 (.onOrAfter .sunday 8) (timeOfDay 2 0 0) (-12600) (-9000) "NDT"]
  [once (-2713897748) (-12652) "NST", once (-1664130548) (-9052) "NDT",
   once (-1650137348) (-12652) "NST", once (-1632076148) (-9052) "NDT",
   once (-1615145348) (-12652) "NST", once (-1598650148) (-9052) "NDT",
   once (-1590100148) (-12652) "NST", once (-1096921748) (-12600) "NST",
   once (-1093728600) (-9000) "NDT", once (-1078612200) (-12600) "NST",
   once (-872368200) (-9000) "NWT", once (-769395600) (-9000) "NPT",
   once (-765401400) (-12600) "NST", once 544591860 (-9000) "NDT",
   once 562127460 (-12600) "NST", once 576041460 (-5400) "NDDT", once 594178260 (-12600) "NST"]

def americaZones : List Zone :=
  [barbados, caracas, havana, losAngeles, newYork, santiago, saoPaulo, scoresbysund, stJohns]

end Almanac.Zone
