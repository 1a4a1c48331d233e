import Almanac.Error
/-!
# Reading a field expression

A field expression is a list of items with commas between them. An item is a value, a range
`a..b`, or either of them with a step after a slash; `*` with a step begins at 0. A value is a
number or the name of a weekday.

- `Item.readList`: the items in the order of the text. An empty text and `*` constrain nothing and
  have no items.
-/
namespace Almanac.Item

/-- The texts around the first slash. -/
def splitSlash? (text : List Char) : Option (List Char × List Char) :=
  match text.dropWhile (· != '/') with
  | [] => none
  | _ :: after => some (text.takeWhile (· != '/'), after)

/-- The texts around the first two points in a row. -/
def splitDots? : List Char → Option (List Char × List Char)
  | [] => none
  | c :: cs =>
    match c, cs with
    | '.', '.' :: after => some ([], after)
    | _, _ => (splitDots? cs).map fun (before, after) => (c :: before, after)

/-- A value is the name of a weekday or a number. -/
def readValue (word : List Char) : Except ScheduleError Nat :=
  match (Weekday.read? word).map Weekday.index <|> Numeral.read? Field.largest word with
  | some v => .ok v
  | none => .error (.unknownValue (.ofList word))

/-- The base of an item as written, and its step. -/
def splitStep (item : List Char) : Except ScheduleError (List Char × Option Nat) :=
  match splitSlash? item with
  | none => .ok (item, none)
  | some (base, step) =>
    match Numeral.read? Field.largest step with
    | some k => .ok (base, some k)
    | none => .error (.invalidStep (.ofList item))

/-- A range whose end comes before its start runs past the end of the cycle and begins again. It is
then two bases. -/
def basesOfRange (cycle : Option (Nat × Nat)) (text : List Char) (a b : Nat) :
    Except ScheduleError (List Base) :=
  if a ≤ b then .ok [.range a b]
  else match cycle with
    | some (first, last) => .ok [.ofEnds a last, .ofEnds first b]
    | none => .error (.invalidRange (.ofList text))

/-- The bases that a text stands for when the item has a step or has none. -/
def readBases (cycle : Option (Nat × Nat)) (text : List Char) (step : Option Nat) :
    Except ScheduleError (List Base) :=
  match splitDots? text with
  | some (start, stop) =>
    if (splitDots? stop).isSome then .error (.invalidRange (.ofList text))
    else do
      let a ← readValue start
      let b ← readValue stop
      basesOfRange cycle text a b
  | none =>
    if text = ['*'] ∧ step.isSome then .ok [.value 0]
    else return [.value (← readValue text)]

/-- The items that one entry of the list stands for. -/
def read (cycle : Option (Nat × Nat)) (entry : List Char) : Except ScheduleError (List Item) := do
  let (text, step) ← splitStep entry
  let bases ← readBases cycle text step
  return bases.map fun base => ⟨base, step⟩

/-- The items of a field expression, none when it constrains nothing. A range may run past the end
of the `cycle`, if there is one. -/
def readList (cycle : Option (Nat × Nat)) (text : List Char) : Except ScheduleError (List Item) :=
  if text = [] ∨ text = ['*'] then .ok []
  else return (← (text.splitOn ',').mapM (read cycle)).flatten

end Almanac.Item
