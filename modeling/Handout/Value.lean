import Handout.Decimal.Shortest
import Handout.Text.Quoted

/-!
# Values

Configuration files and parameters hold values whose shape is not known beforehand.  A collection that contains
itself is a reference into a table of shared collections.  `Document.describe` writes a value for a message; there
a collection that is met again inside itself is only indicated, and an integer may not have too many digits.
-/

namespace Handout

/-- The greatest number of digits with which an integer is read or written in base ten. -/
def maxDigits : Nat := 4300

/-- The least number that has too many digits to be shown. -/
def numberLimit : Nat := Nat.pow 10 maxDigits

/-- A point in time; `offset` is the distance from universal time in seconds, if it is known. -/
structure Moment where
  year : Nat
  month : Nat
  day : Nat
  hour : Nat
  minute : Nat
  second : Nat
  microsecond : Nat
  offset : Option Int
deriving DecidableEq, Repr

/-- A value of any shape. -/
inductive Value where
  | null
  | bool (b : Bool)
  | int (i : Int)
  | float (f : Float)
  | text (t : Text)
  | bytes (b : Bytes)
  | date (year month day : Nat)
  | moment (m : Moment)
  | list (items : List Value)
  | mapping (entries : List (Value × Value))
  | tuple (items : List Value)
  | set (items : List Value)
  | shared (index : Nat)
deriving Repr, Inhabited

/-- A value with the collections that it refers to. -/
structure Document where
  root : Value
  shared : List Value := []
deriving Repr, Inhabited

namespace Value

/-- The value of a string. -/
def ofString (s : String) : Value := .text (Text.ofString s)

/-- A moment as it is written in messages; trailing zero fields are left out. -/
def describeMoment (m : Moment) : String :=
  let fields := [m.year, m.month, m.day, m.hour, m.minute]
    ++ (if m.microsecond ≠ 0 then [m.second, m.microsecond] else if m.second ≠ 0 then [m.second] else [])
  let offset := match m.offset with
    | none => []
    | some 0 => ["tzinfo=datetime.timezone.utc"]
    | some s =>
      let days := if s < 0 then "days=-1, " else ""
      [s!"tzinfo=datetime.timezone(datetime.timedelta({days}seconds={s % 86400}))"]
  "datetime.datetime(" ++ ", ".intercalate (fields.map toString ++ offset) ++ ")"

/-- The shape of a collection without its items. -/
def outline : Value → String
  | .list _ => "[...]"
  | .mapping _ => "\x7b...\x7d"
  | _ => "..."

/-- Texts with a separator between them. -/
def commas (ts : List Text) : Text := List.intercalate (Text.ofString ", ") ts

mutual

/-- Writes a value, given the shared collections that may be opened and those that are open.  A value with an integer
that is too long cannot be written. -/
def describe (shared : List Value) (fuel : Nat) (opened : List Nat) : Value → Option Text
  | .null => some (Text.ofString "None")
  | .bool b => some (Text.ofString (if b then "True" else "False"))
  | .int i => if numberLimit ≤ i.natAbs then none else some (Text.ofString (toString i))
  | .float f => some (Text.ofString (Decimal.shortest f))
  | .text t => some t.quoted
  | .bytes b => some (Text.quotedBytes b)
  | .date y m d => some (Text.ofString s!"datetime.date({y}, {m}, {d})")
  | .moment m => some (Text.ofString (describeMoment m))
  | .list items => do
    return Text.ofString "[" ++ commas (← describeItems shared fuel opened items) ++ Text.ofString "]"
  | .mapping entries => do
    return Text.ofString "\x7b" ++ commas (← describeEntries shared fuel opened entries) ++ Text.ofString "\x7d"
  | .tuple items => do
    return Text.ofString "(" ++ commas (← describeItems shared fuel opened items) ++ Text.ofString ")"
  | .set items =>
    if items.isEmpty then some (Text.ofString "set()")
    else do
      return Text.ofString "\x7b" ++ commas (← describeItems shared fuel opened items) ++ Text.ofString "\x7d"
  | .shared index =>
    let target := shared.getD index .null
    if opened.contains index then some (Text.ofString target.outline)
    else
      match fuel with
      | 0 => some (Text.ofString target.outline)
      | fuel + 1 => describe shared fuel (index :: opened) target
termination_by v => (fuel, sizeOf v)

/-- Writes the items of a collection. -/
def describeItems (shared : List Value) (fuel : Nat) (opened : List Nat) : List Value → Option (List Text)
  | [] => some []
  | v :: r => do return (← describe shared fuel opened v) :: (← describeItems shared fuel opened r)
termination_by items => (fuel, sizeOf items)

/-- Writes the entries of a mapping. -/
def describeEntries (shared : List Value) (fuel : Nat) (opened : List Nat) :
    List (Value × Value) → Option (List Text)
  | [] => some []
  | (k, v) :: r => do
    let key ← describe shared fuel opened k
    let value ← describe shared fuel opened v
    return (key ++ Text.ofString ": " ++ value) :: (← describeEntries shared fuel opened r)
termination_by entries => (fuel, sizeOf entries)

end

end Value

/-- Writes a value of a document.  Each shared collection is open at most once, which bounds the nesting. -/
def Document.describe (d : Document) (v : Value) : Option Text := v.describe d.shared d.shared.length []

/-- Writes a value that refers to nothing, if it can be written. -/
def Value.display (v : Value) : Text := (v.describe [] 0 []).getD []

end Handout
