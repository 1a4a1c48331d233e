import Almanac.Date.Lemmas
import Almanac.Occurrences
import Almanac.Schedule.Expression
import Almanac.Refinement
import Almanac.Search.Checked
import Almanac.Zone.Day.Lemmas
import Almanac.Zone.Lemmas
import Almanac.Proofs.Calendar
import Almanac.Proofs.Units
import Almanac.Proofs.Distance
import Almanac.Proofs.Search
import Almanac.Proofs.Changes
import Almanac.Proofs.Unchanged
import Almanac.Proofs.DistanceLaw
import Almanac.Proofs.Checked
import Almanac.Proofs.Ends
import Almanac.Proofs.PassesInTime
import Almanac.Proofs.Steady
import Almanac.Proofs.Progress
import Almanac.Proofs.ChangeDay
import Almanac.Proofs.DayHours
import Almanac.Proofs.DaySearch
import Almanac.Proofs.Fold
import Almanac.Proofs.Gap
import Almanac.Proofs.Batches
import Almanac.Proofs.EarlyYears
import Almanac.Proofs.ConditionText
import Almanac.Proofs.RoundTrip
import Almanac.Proofs.Spelling
import Almanac.Proofs.Acceptance
import Almanac.Proofs.Meaning
import Almanac.Proofs.Week
import Almanac.Proofs.BrokenDates
import Almanac.Proofs.BrokenSearch
import Almanac.Proofs.Rewind
import Almanac.Proofs.Counting
import Almanac.Proofs.Pulls
import Almanac.Proofs.SameValues
import Almanac.Proofs.PassLength
import Almanac.Proofs.MonthLengths
import Almanac.Proofs.Counters
import Almanac.Proofs.DateStart
import Almanac.Proofs.KnownZones
import Almanac.Proofs.HourStretch
import Almanac.Proofs.HourSteps
import Almanac.Proofs.HoursOfDate
import Almanac.Proofs.MissedHours
import Almanac.Proofs.LocalTimes
import Almanac.Proofs.SearchLog
import Almanac.Proofs.HourStart
import Almanac.Proofs.Wordings
import Almanac.Proofs.ShortForms
