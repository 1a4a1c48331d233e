import Almanac.Zone.Rule
/-!
# Zones of Australia
-/
namespace Almanac.Zone

def brisbane : Zone := .ofRules "Australia/Brisbane" (.ofSeconds 36728 "LMT")
  [rule 1942 1944 3 (.last .sunday) (timeOfDay 3 0 0) 39600 36000 "AEST",
   rule 1989 1991 10 (.last .sunday) (timeOfDay 2 0 0) 36000 39600 "AEDT",
   rule 1990 1992 3 (.onOrAfter .sunday 1) (timeOfDay 3 0 0) 39600 36000 "AEST"]
  [once (-2366791928) 36000 "AEST", once (-1672560000) 39600 "AEDT",
   once (-1665388800) 36000 "AEST", once (-883641600) 39600 "AEDT",
   once (-860400000) 39600 "AEDT", once (-828345600) 39600 "AEDT", once 57686400 39600 "AEDT",
   once 67968000 36000 "AEST"]

def lordHowe : Zone := .ofRules "Australia/Lord_Howe" (.ofSeconds 38180 "LMT")
  [rule 1981 1984 10 (.last .sunday) (timeOfDay 2 0 0) 37800 41400 "+1130",
   rule 1982 1985 3 (.onOrAfter .sunday 1) (timeOfDay 2 0 0) 41400 37800 "+1030",
   rule 1986 1989 3 (.onOrAfter .sunday 15) (timeOfDay 2 0 0) 39600 37800 "+1030",
   rule 1987 1999 10 (.last .sunday) (timeOfDay 2 0 0) 37800 39600 "+11",
   rule 1990 1995 3 (.onOrAfter .sunday 1) (timeOfDay 2 0 0) 39600 37800 "+1030",
   rule 1996 2005 3 (.last .sunday) (timeOfDay 2 0 0) 39600 37800 "+1030",
   rule 2001 2007 10 (.last .sunday) (timeOfDay 2 0 0) 37800 39600 "+11",
   rule 2008 2099 4 (.onOrAfter .sunday 1) (timeOfDay 2 0 0) 39600 37800 "+1030",
   rule 2008 2099 10 (.onOrAfter .sunday 1) (timeOfDay 2 0 0) 37800 39600 "+11"]
  [once (-2364114980) 36000 "AEST", once 352216800 37800 "+1030", once 499188600 39600 "+11",
   once 530033400 39600 "+11", once 967303800 39600 "+11", once 1143903600 37800 "+1030",
   once 1174748400 37800 "+1030"]

def sydney : Zone := .ofRules "Australia/Sydney" (.ofSeconds 36292 "LMT")
  [rule 1942 1944 3 (.last .sunday) (timeOfDay 3 0 0) 39600 36000 "AEST",
   rule 1971 1985 10 (.last .sunday) (timeOfDay 2 0 0) 36000 39600 "AEDT",
   rule 1972 1975 2 (.onOrAfter .sunday 26) (timeOfDay 3 0 0) 39600 36000 "AEST",
   rule 1976 1981 3 (.onOrAfter .sunday 1) (timeOfDay 3 0 0) 39600 36000 "AEST",
   rule 1983 1985 3 (.onOrAfter .sunday 1) (timeOfDay 3 0 0) 39600 36000 "AEST",
   rule 1986 1989 3 (.onOrAfter .sunday 15) (timeOfDay 3 0 0) 39600 36000 "AEST",
   rule 1987 1999 10 (.last .sunday) (timeOfDay 2 0 0) 36000 39600 "AEDT",
   rule 1990 1995 3 (.onOrAfter .sunday 1) (timeOfDay 3 0 0) 39600 36000 "AEST",
   rule 1996 2005 3 (.last .sunday) (timeOfDay 3 0 0) 39600 36000 "AEST",
   rule 2001 2007 10 (.last .sunday) (timeOfDay 2 0 0) 36000 39600 "AEDT",
   rule 2008 2099 4 (.onOrAfter .sunday 1) (timeOfDay 3 0 0) 39600 36000 "AEST",
   rule 2008 2099 10 (.onOrAfter .sunday 1) (timeOfDay 2 0 0) 36000 39600 "AEDT"]
  [once (-2364113092) 36000 "AEST", once (-1672560000) 39600 "AEDT",
   once (-1665388800) 36000 "AEST", once (-883641600) 39600 "AEDT",
   once (-860400000) 39600 "AEDT", once (-828345600) 39600 "AEDT", once 386697600 36000 "AEST",
   once 530035200 39600 "AEDT", once 967305600 39600 "AEDT", once 1143907200 36000 "AEST",
   once 1174752000 36000 "AEST"]

def australiaZones : List Zone :=
  [brisbane, lordHowe, sydney]

end Almanac.Zone
