import Almanac.Zone.Rule
/-!
# Zones of Asia
-/
namespace Almanac.Zone

def beirut : Zone := .ofRules "Asia/Beirut" (.ofSeconds 8520 "LMT")
  [rule 1957 1961 5 (.day 1) (timeOfDay 0 0 0) 7200 10800 "EEST",
   rule 1957 1961 10 (.day 1) (timeOfDay 0 0 0) 10800 7200 "EET",
   rule 1972 1977 10 (.day 1) (timeOfDay 0 0 0) 10800 7200 "EET",
   rule 1973 1977 5 (.day 1) (timeOfDay 0 0 0) 7200 10800 "EEST",
   rule 1984 1987 5 (.day 1) (timeOfDay 0 0 0) 7200 10800 "EEST",
   rule 1984 1991 10 (.day 16) (timeOfDay 0 0 0) 10800 7200 "EET",
   rule 1990 1992 5 (.day 1) (timeOfDay 0 0 0) 7200 10800 "EEST",
   rule 1993 2099 3 (.last .sunday) (timeOfDay 0 0 0) 7200 10800 "EEST",
   rule 1993 1998 9 (.last .sunday) (timeOfDay 0 0 0) 10800 7200 "EET",
   rule 1999 2099 10 (.last .sunday) (timeOfDay 0 0 0) 10800 7200 "EET"]
  [once (-2840149320) 7200 "EET", once (-1570413600) 10800 "EEST",
   once (-1552186800) 7200 "EET", once (-1538359200) 10800 "EEST",
   once (-1522551600) 7200 "EET", once (-1507514400) 10800 "EEST",
   once (-1490583600) 7200 "EET", once (-1473645600) 10800 "EEST",
   once (-1460948400) 7200 "EET", once 78012000 10800 "EEST", once 262735200 10800 "EEST",
   once 275950800 7200 "EET", once 581119200 10800 "EEST", once 610754400 10800 "EEST",
   once 718146000 7200 "EET"]

def gaza : Zone := .ofRules "Asia/Gaza" (.ofSeconds 8272 "LMT")
  [rule 1942 1946 11 (.day 1) (timeOfDay 3 0 0) 10800 7200 "EET",
   rule 1959 1967 5 (.day 1) (timeOfDay 1 0 0) 7200 10800 "EEST",
   rule 1959 1965 9 (.day 30) (timeOfDay 3 0 0) 10800 7200 "EET",
   rule 1990 1992 3 (.onOrAfter .sunday 23) (timeOfDay 0 0 0) 7200 10800 "IDT",
   rule 1991 1993 9 (.onOrAfter .sunday 1) (timeOfDay 0 0 0) 10800 7200 "IST",
   rule 1996 1998 4 (.onOrAfter .friday 1) (timeOfDay 0 0 0) 7200 10800 "EEST",
   rule 1996 1998 9 (.onOrAfter .friday 15) (timeOfDay 1 0 0) 10800 7200 "EET",
   rule 1999 2005 4 (.onOrAfter .friday 15) (timeOfDay 0 0 0) 7200 10800 "EEST",
   rule 1999 2003 10 (.onOrAfter .friday 15) (timeOfDay 0 0 0) 10800 7200 "EET",
   rule 2012 2014 3 (.last .friday) (timeOfDay 0 0 0) 7200 10800 "EEST",
   rule 2016 2018 3 (.onOrAfter .saturday 22) (timeOfDay 1 0 0) 7200 10800 "EEST",
   rule 2016 2018 10 (.last .saturday) (timeOfDay 1 0 0) 10800 7200 "EET",
   rule 2022 2035 10 (.onOrAfter .saturday 24) (timeOfDay 2 0 0) 10800 7200 "EET",
   rule 2026 2054 3 (.onOrAfter .saturday 24) (timeOfDay 2 0 0) 7200 10800 "EEST",
   rule 2040 2067 10 (.onOrAfter .saturday 24) (timeOfDay 2 0 0) 10800 7200 "EET",
   rule 2059 2099 3 (.onOrAfter .saturday 24) (timeOfDay 2 0 0) 7200 10800 "EEST",
   rule 2072 2099 10 (.onOrAfter .saturday 24) (timeOfDay 2 0 0) 10800 7200 "EET"]
  [once (-2185409872) 7200 "EET", once (-933638400) 10800 "EEST", once (-923097600) 7200 "EET",
   once (-919036800) 10800 "EEST", once (-844300800) 10800 "EEST",
   once (-812678400) 10800 "EEST", once (-779846400) 10800 "EEST",
   once (-748310400) 10800 "EEST", once (-399088800) 10800 "EEST", once (-386650800) 7200 "EET",
   once (-368330400) 10800 "EEST", once (-355114800) 7200 "EET", once (-102643200) 7200 "EET",
   once (-81313200) 7200 "IST", once 142380000 10800 "IDT", once 150843600 7200 "IST",
   once 167176800 10800 "IDT", once 178664400 7200 "IST", once 334101600 10800 "IDT",
   once 337730400 7200 "IST", once 452642400 10800 "IDT", once 462319200 7200 "IST",
   once 482277600 10800 "IDT", once 494370000 7200 "IST", once 516751200 10800 "IDT",
   once 526424400 7200 "IST", once 545436000 10800 "IDT", once 558478800 7200 "IST",
   once 576626400 10800 "IDT", once 589323600 7200 "IST", once 609890400 10800 "IDT",
   once 620773200 7200 "IST", once 651618000 7200 "IST", once 733701600 10800 "IDT",
   once 765151200 10800 "IDT", once 778021200 7200 "IST", once 796600800 10800 "IDT",
   once 810075600 7200 "IST", once 820447200 7200 "EET", once 1096581600 7200 "EET",
   once 1128380400 7200 "EET", once 1143842400 10800 "EEST", once 1158872400 7200 "EET",
   once 1175378400 10800 "EEST", once 1189638000 7200 "EET", once 1206655200 10800 "EEST",
   once 1219957200 7200 "EET", once 1238104800 10800 "EEST", once 1252015200 7200 "EET",
   once 1269640860 10800 "EEST", once 1281474000 7200 "EET", once 1301608860 10800 "EEST",
   once 1312146000 7200 "EET", once 1348178400 7200 "EET", once 1380229200 7200 "EET",
   once 1414098000 7200 "EET", once 1427493600 10800 "EEST", once 1445551200 7200 "EET",
   once 1553810400 10800 "EEST", once 1572037200 7200 "EET", once 1585346400 10800 "EEST",
   once 1603490400 7200 "EET", once 1616796000 10800 "EEST", once 1635458400 7200 "EET",
   once 1648332000 10800 "EEST", once 1682726400 10800 "EEST", once 1713571200 10800 "EEST",
   once 1744416000 10800 "EEST", once 2107897200 7200 "EET", once 2138742000 7200 "EET",
   once 2168982000 7200 "EET", once 2199826800 7200 "EET", once 2230066800 7200 "EET",
   once 2234304000 10800 "EEST", once 2260911600 7200 "EET", once 2264544000 10800 "EEST",
   once 2291756400 7200 "EET", once 2295388800 10800 "EEST", once 2321996400 7200 "EET",
   once 2326233600 10800 "EEST", once 2352841200 7200 "EET", once 2356473600 10800 "EEST",
   once 2383686000 7200 "EET", once 2387318400 10800 "EEST", once 2413926000 7200 "EET",
   once 2418163200 10800 "EEST", once 2444770800 7200 "EET", once 2448403200 10800 "EEST",
   once 2475010800 7200 "EET", once 2479248000 10800 "EEST", once 2505855600 7200 "EET",
   once 2509488000 10800 "EEST", once 2536700400 7200 "EET", once 2540332800 10800 "EEST",
   once 2566940400 7200 "EET", once 2571177600 10800 "EEST", once 2597785200 7200 "EET",
   once 2601417600 10800 "EEST", once 2628025200 7200 "EET", once 2632262400 10800 "EEST",
   once 2658870000 7200 "EET", once 2663107200 10800 "EEST", once 2693347200 10800 "EEST",
   once 2724192000 10800 "EEST", once 2754432000 10800 "EEST", once 2785276800 10800 "EEST",
   once 3117913200 7200 "EET", once 3148758000 7200 "EET", once 3179602800 7200 "EET",
   once 3209842800 7200 "EET", once 3240687600 7200 "EET", once 3244320000 10800 "EEST",
   once 3271532400 7200 "EET", once 3275164800 10800 "EEST", once 3301772400 7200 "EET",
   once 3306009600 10800 "EEST", once 3332617200 7200 "EET", once 3336249600 10800 "EEST",
   once 3362857200 7200 "EET", once 3367094400 10800 "EEST", once 3393702000 7200 "EET",
   once 3397939200 10800 "EEST", once 3424546800 7200 "EET", once 3428179200 10800 "EEST",
   once 3454786800 7200 "EET", once 3459024000 10800 "EEST", once 3485631600 7200 "EET",
   once 3489264000 10800 "EEST", once 3516476400 7200 "EET", once 3520108800 10800 "EEST",
   once 3546716400 7200 "EET", once 3550953600 10800 "EEST", once 3577561200 7200 "EET",
   once 3581193600 10800 "EEST", once 3607801200 7200 "EET", once 3612038400 10800 "EEST",
   once 3638646000 7200 "EET", once 3642883200 10800 "EEST", once 3669490800 7200 "EET",
   once 3673123200 10800 "EEST"]

def kathmandu : Zone := .ofRules "Asia/Kathmandu" (.ofSeconds 20476 "LMT")
  []
  [once (-1577943676) 19800 "+0530", once 504901800 20700 "+0545"]

def kolkata : Zone := .ofRules "Asia/Kolkata" (.ofSeconds 21208 "LMT")
  []
  [once (-3645237208) 21200 "HMT", once (-3155694800) 19270 "MMT",
   once (-2019705670) 19800 "IST", once (-891581400) 23400 "+0630",
   once (-872058600) 19800 "IST", once (-862637400) 23400 "+0630",
   once (-764145000) 19800 "IST"]

def pyongyang : Zone := .ofRules "Asia/Pyongyang" (.ofSeconds 30180 "LMT")
  []
  [once (-1948782180) 30600 "KST", once (-1830414600) 32400 "JST",
   once (-768646800) 32400 "KST", once 1439564400 30600 "KST", once 1525446000 32400 "KST"]

def tehran : Zone := .ofRules "Asia/Tehran" (.ofSeconds 12344 "LMT")
  [rule 1991 1995 9 (.day 22) (timeOfDay 0 0 0) 16200 12600 "+0330",
   rule 1992 1995 3 (.day 22) (timeOfDay 0 0 0) 12600 16200 "+0430",
   rule 1997 1999 3 (.day 22) (timeOfDay 0 0 0) 12600 16200 "+0430",
   rule 1997 1999 9 (.day 22) (timeOfDay 0 0 0) 16200 12600 "+0330",
   rule 2001 2003 3 (.day 22) (timeOfDay 0 0 0) 12600 16200 "+0430",
   rule 2001 2003 9 (.day 22) (timeOfDay 0 0 0) 16200 12600 "+0330",
   rule 2009 2011 3 (.day 22) (timeOfDay 0 0 0) 12600 16200 "+0430",
   rule 2009 2011 9 (.day 22) (timeOfDay 0 0 0) 16200 12600 "+0330",
   rule 2013 2015 3 (.day 22) (timeOfDay 0 0 0) 12600 16200 "+0430",
   rule 2013 2015 9 (.day 22) (timeOfDay 0 0 0) 16200 12600 "+0330",
   rule 2017 2019 3 (.day 22) (timeOfDay 0 0 0) 12600 16200 "+0430",
   rule 2017 2019 9 (.day 22) (timeOfDay 0 0 0) 16200 12600 "+0330"]
  [once (-1704165944) 12344 "TMT", once (-1090466744) 12600 "+0330",
   once 227820600 16200 "+0430", once 246223800 14400 "+04", once 259617600 18000 "+05",
   once 271108800 14400 "+04", once 279576000 12600 "+0330", once 296598600 16200 "+0430",
   once 306531000 12600 "+0330", once 322432200 16200 "+0430", once 338499000 12600 "+0330",
   once 673216200 16200 "+0430", once 827353800 16200 "+0430", once 843247800 12600 "+0330",
   once 953584200 16200 "+0430", once 969478200 12600 "+0330", once 1079814600 16200 "+0430",
   once 1095708600 12600 "+0330", once 1111437000 16200 "+0430", once 1127331000 12600 "+0330",
   once 1206045000 16200 "+0430", once 1221939000 12600 "+0330", once 1332275400 16200 "+0430",
   once 1348169400 12600 "+0330", once 1458505800 16200 "+0430", once 1474399800 12600 "+0330",
   once 1584736200 16200 "+0430", once 1600630200 12600 "+0330", once 1616358600 16200 "+0430",
   once 1632252600 12600 "+0330", once 1647894600 16200 "+0430", once 1663788600 12600 "+0330"]

def asiaZones : List Zone :=
  [beirut, gaza, kathmandu, kolkata, pyongyang, tehran]

end Almanac.Zone
