import Almanac.Search
/-!
# Occurrences one by one

The occurrences of a schedule after a reference, found as they are asked for. The sequence ends when
there are no more, or after the first error.

- `Occurrences.pull`: the next one, and the sequence that is left.
-/
namespace Almanac

structure Occurrences where
  schedule : Schedule
  /-- The candidate to go on from, an error still to be given out, or nothing at the end. -/
  pending : Option (Except ScheduleError Int)

namespace Occurrences

/-- Strictly after the reference. -/
def after (s : Schedule) (reference : Timestamp) : Occurrences :=
  ⟨s, some (s.candidateAfter reference)⟩

def pull (o : Occurrences) : Option (Except ScheduleError Int) × Occurrences :=
  match o.pending with
  | none => (none, o)
  | some (.error e) => (some (.error e), { o with pending := none })
  | some (.ok t) =>
    match o.schedule.search Schedule.passLimit t with
    | .ok (some found) =>
      (some (.ok found), { o with pending := some (o.schedule.candidateAfter (.ofSecond found)) })
    | .ok none => (none, { o with pending := none })
    | .error e => (some (.error e), { o with pending := none })

/-- The results of `n` pulls, and the sequence that is left. -/
def take : Nat → Occurrences → List (Option (Except ScheduleError Int)) × Occurrences
  | 0, o => ([], o)
  | n + 1, o =>
    let (item, o) := o.pull
    let (items, o) := take n o
    (item :: items, o)

end Occurrences
end Almanac
