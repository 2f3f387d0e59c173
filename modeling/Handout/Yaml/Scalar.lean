import Handout.Value
import Handout.Yaml.Fault

/-!
# Scalars of YAML

A plain scalar has the type that its form shows: nothing, truth value, integer, float, date or moment, and else it
is text.  Integers may be octal, hexadecimal, binary or sexagesimal, floats need a point, and underscores are
ignored in both.  A tag can name the type; then the scalar may still fail to denote a value of it.
-/

namespace Handout.Yaml

/-- The types with a tag of their own. -/
inductive TypeName where
  | null
  | bool
  | int
  | float
  | binary
  | timestamp
  | omap
  | pairs
  | set
  | str
  | seq
  | map
  | merge
  | value
  | unknown
deriving DecidableEq, Repr, Inhabited

/-- The common start of the tags of all known types. -/
def tagBase : String := "tag:yaml.org,2002:"

/-- The known types with their names. -/
def TypeName.table : List (TypeName × String) :=
  [(null, "null"), (bool, "bool"), (int, "int"), (float, "float"), (binary, "binary"), (timestamp, "timestamp"),
   (omap, "omap"), (pairs, "pairs"), (set, "set"), (str, "str"), (seq, "seq"), (map, "map"), (merge, "merge"),
   (value, "value")]

/-- The type that a tag names. -/
def TypeName.ofTag (tag : String) : TypeName :=
  match table.find? fun e => tagBase ++ e.2 == tag with
  | some e => e.1
  | none => unknown

namespace Scalar

/-- The characters of a text; a surrogate becomes U+FFFD. -/
def chars (t : Text) : List Char := t.toString.toList

/-- The words for truth. -/
def trueWords : List String := ["yes", "true", "on"]

/-- The words for falsehood. -/
def falseWords : List String := ["no", "false", "off"]

/-- A word in the three ways of writing it that are recognized. -/
def spellings (w : String) : List (List Char) :=
  let cs := w.toList
  [cs, (cs.take 1).map Char.toUpper ++ cs.drop 1, cs.map Char.toUpper]

/-- Whether a scalar is one of some words. -/
def isAnyOf (words : List String) (cs : List Char) : Bool := words.any fun w => (spellings w).contains cs

/-- A text without a sign in front. -/
def unsigned : List Char → List Char
  | '+' :: r => r
  | '-' :: r => r
  | cs => cs

/-- Whether a character is a digit or an underscore. -/
def isLooseDigit (c : Char) : Bool := c.isDigit || c == '_'

/-- Whether a character is an octal digit. -/
def isOctal (c : Char) : Bool := '0' ≤ c && c ≤ '7'

/-- Whether a character is a hexadecimal digit. -/
def isHex (c : Char) : Bool := c.isDigit || ('a' ≤ c && c ≤ 'f') || ('A' ≤ c && c ≤ 'F')

/-- Whether every character satisfies a test, and there is one. -/
def isRun (p : Char → Bool) (cs : List Char) : Bool := !cs.isEmpty && cs.all p

/-- Whether a piece is a sexagesimal digit. -/
def isSixtieth : List Char → Bool
  | [a] => a.isDigit
  | [a, b] => '0' ≤ a && a ≤ '5' && b.isDigit
  | _ => false

/-- Whether a text starts with a digit and goes on with digits and underscores. -/
def isDigits : List Char → Bool
  | c :: r => c.isDigit && r.all isLooseDigit
  | [] => false

/-- Whether a scalar has the form of an integer. -/
def looksInt (cs : List Char) : Bool :=
  let body := unsigned cs
  let fromOne (cs : List Char) : Bool := isDigits cs && cs.head? != some '0'
  body == ['0'] || fromOne body
    || (body.take 2 == ['0', 'b'] && isRun (fun c => c == '0' || c == '1' || c == '_') (body.drop 2))
    || (body.take 2 == ['0', 'x'] && isRun (fun c => isHex c || c == '_') (body.drop 2))
    || (body.head? == some '0' && isRun (fun c => isOctal c || c == '_') (body.drop 1))
    || (match splitAt ':' body with
      | first :: second :: others => fromOne first && (second :: others).all isSixtieth
      | _ => false)

/-- Whether a text is empty or an exponent with a sign. -/
def isExponent : List Char → Bool
  | [] => true
  | e :: s :: ds => (e == 'e' || e == 'E') && (s == '+' || s == '-') && isRun Char.isDigit ds
  | _ => false

/-- Whether a scalar has the form of a float. -/
def looksFloat (cs : List Char) : Bool :=
  let body := unsigned cs
  let special := [".inf", ".Inf", ".INF"].any fun w => w.toList == body
  let notNumber := [".nan", ".NaN", ".NAN"].any fun w => w.toList == cs
  let before := body.takeWhile (· != '.')
  let after := (body.dropWhile (· != '.')).drop 1
  let hasPoint := body.contains '.'
  let fraction := after.dropWhile isLooseDigit
  special || notNumber
    || (hasPoint && isDigits before && isExponent fraction)
    || (hasPoint && before.isEmpty && body == cs && isDigits (after.takeWhile isLooseDigit) && isExponent fraction)
    || (hasPoint && after.all isLooseDigit && match splitAt ':' before with
      | first :: second :: others => isDigits first && (second :: others).all isSixtieth
      | _ => false)

/-- A point in time as it is written. -/
structure Stamp where
  year : Nat
  month : Nat
  day : Nat
  /-- Hour, minute and second, the digits behind the second, and the distance from universal time in minutes. -/
  time : Option (Nat × Nat × Nat × List Char × Option Int)
  /-- Month and day have two digits each. -/
  full : Bool

/-- The number that digits stand for. -/
def number (ds : List Char) : Nat := ds.foldl (fun v c => 10 * v + (c.toNat - 48)) 0

/-- Between `least` and `most` digits in front of a text, and what follows them. -/
def digits? (least most : Nat) (cs : List Char) : Option (List Char × List Char) :=
  let ds := (cs.take most).takeWhile Char.isDigit
  if least ≤ ds.length then some (ds, cs.drop ds.length) else none

/-- What follows a given character. -/
def after? (c : Char) : List Char → Option (List Char)
  | d :: r => if c = d then some r else none
  | [] => none

/-- Reads the distance from universal time; nothing if there is none. -/
def zone? (cs : List Char) : Option (Option Int) :=
  if cs.isEmpty then some none
  else
    match cs.dropWhile fun c => c == ' ' || c == '\t' with
    | ['Z'] => some (some 0)
    | sign :: r => do
      if sign != '+' && sign != '-' then none
      let (hours, r) ← digits? 1 2 r
      let minutes ← if r.isEmpty then some 0 else do
        let r ← after? ':' r
        let (ms, r) ← digits? 2 2 r
        if r.isEmpty then some (number ms) else none
      let total : Int := 60 * number hours + minutes
      return some (if sign == '-' then -total else total)
    | [] => none

/-- Reads a point in time. -/
def stamp? (cs : List Char) : Option Stamp := do
  let (ys, r) ← digits? 4 4 cs
  let r ← after? '-' r
  let (ms, r) ← digits? 1 2 r
  let r ← after? '-' r
  let (ds, r) ← digits? 1 2 r
  let full := ms.length = 2 ∧ ds.length = 2
  if r.isEmpty then return ⟨number ys, number ms, number ds, none, full⟩
  let blank (c : Char) : Bool := c == ' ' || c == '\t'
  let r' ← match r with
    | 'T' :: r => some r
    | 't' :: r => some r
    | c :: r => if blank c then some (r.dropWhile blank) else none
    | [] => none
  let (hs, r) ← digits? 1 2 r'
  let r ← after? ':' r
  let (mins, r) ← digits? 2 2 r
  let r ← after? ':' r
  let (secs, r) ← digits? 2 2 r
  let (fraction, r) := match r with
    | '.' :: r => (r.takeWhile Char.isDigit, r.dropWhile Char.isDigit)
    | _ => ([], r)
  let zone ← zone? r
  return ⟨number ys, number ms, number ds, some (number hs, number mins, number secs, fraction, zone), full⟩

/-- Whether a plain scalar has the form of a date or a moment. -/
def looksStamp (cs : List Char) : Bool :=
  match stamp? cs with
  | none => false
  | some s => s.full || s.time.isSome

/-- The type that the form of a plain scalar shows. -/
def typeOf (t : Text) : TypeName :=
  let cs := chars t
  if isAnyOf (trueWords ++ falseWords) cs then .bool
  else if looksFloat cs then .float
  else if looksInt cs then .int
  else if cs == ['<', '<'] then .merge
  else if cs.isEmpty || cs == ['~'] || isAnyOf ["null"] cs then .null
  else if looksStamp cs then .timestamp
  else if cs == ['='] then .value
  else .str

/-! ### Values of scalars -/

/-- A text without blanks at its ends. -/
def stripped (cs : List Char) : List Char := chars (Text.trim Text.isWideBlank (cs.map Char.toNat))

/-- The value of a digit. -/
def digitValue (c : Char) : Nat :=
  if c.isDigit then c.toNat - 48 else if isHex c then c.toLower.toNat - 87 else c.toNat

/-- Reads an integer in a given base: blanks around it, a sign and the mark of the base are allowed. -/
def readInt? (base : Nat) (cs : List Char) : Option Int :=
  let cs := stripped cs
  let body := unsigned cs
  let mark := match base with
    | 2 => "bB"
    | 8 => "oO"
    | 16 => "xX"
    | _ => ""
  let body := match body with
    | '0' :: c :: r => if mark.toList.contains c then r else body
    | _ => body
  if isRun (fun c => isHex c && digitValue c < base) body then
    let v : Int := body.foldl (fun v c => base * v + digitValue c) 0
    some (if cs.head? = some '-' then -v else v)
  else none

/-- Reads an integer, or says why there is none. -/
def readInt (base : Nat) (cs : List Char) : Except ScalarFault Int :=
  let count := (cs.filter Char.isDigit).length
  match readInt? base cs with
  | none => .error <| .invalid <|
      Text.ofString s!"invalid literal for int() with base {base}: " ++ Text.quoted (cs.map Char.toNat)
  | some v =>
    if base = 10 ∧ maxDigits < count then
      .error <| .invalid <| Text.ofString <| s!"Exceeds the limit ({maxDigits} digits) for integer string "
        ++ s!"conversion: value has {count} digits; use sys.set_int_max_str_digits() to increase the limit"
    else .ok v

/-- Reads a float: the words for infinity and for no number, or digits with a point and an exponent. -/
def readFloat? (cs : List Char) : Option Float :=
  let cs := stripped cs
  let body := unsigned cs
  let negative := cs.head? = some '-'
  let word := body.map Char.toLower
  let whole := body.takeWhile Char.isDigit
  let r := body.dropWhile Char.isDigit
  let (fraction, r) := match r with
    | '.' :: r => (r.takeWhile Char.isDigit, r.dropWhile Char.isDigit)
    | _ => ([], r)
  let exponent? : Option Int := match r with
    | [] => some 0
    | e :: r =>
      let ds := unsigned r
      if (e == 'e' || e == 'E') && isRun Char.isDigit ds then
        some (if r.head? = some '-' then -(number ds : Int) else number ds)
      else none
  let magnitude? : Option Float :=
    if word == "inf".toList || word == "infinity".toList then some (1.0 / 0.0)
    else if word == "nan".toList then some (0.0 / 0.0)
    else if whole.isEmpty && fraction.isEmpty then none
    else
      match exponent? with
      | none => none
      | some e =>
        let m := number (whole ++ fraction)
        let e := e - fraction.length
        if m = 0 then some 0.0
        else if 400 < e then some (1.0 / 0.0)
        else if e < -((whole.length + fraction.length : Nat) : Int) - 400 then some 0.0
        else some (Float.ofScientific m (e < 0) e.natAbs)
  magnitude?.map fun v => if negative then -v else v

/-- Reads a float, or says why there is none. -/
def readFloat (cs : List Char) : Except ScalarFault Float :=
  match readFloat? cs with
  | some v => .ok v
  | none => .error (.invalid (Text.ofString "could not convert string to float: " ++ Text.quoted (cs.map Char.toNat)))

/-- The integer that a scalar denotes. -/
def toInt (t : Text) : Except ScalarFault Int := do
  let cs := (chars t).filter (· != '_')
  if cs.isEmpty then throw .empty
  let sign : Int := if cs.head? = some '-' then -1 else 1
  let body := unsigned cs
  if body == ['0'] then return 0
  else if body.take 2 == ['0', 'b'] then return sign * (← readInt 2 (body.drop 2))
  else if body.take 2 == ['0', 'x'] then return sign * (← readInt 16 (body.drop 2))
  else if body.isEmpty then throw .empty
  else if body.head? = some '0' then return sign * (← readInt 8 body)
  else if body.contains ':' then
    let parts ← (splitAt ':' body).mapM (readInt 10)
    return sign * parts.foldl (fun v d => 60 * v + d) 0
  else return sign * (← readInt 10 body)

/-- The float that a scalar denotes. -/
def toFloat (t : Text) : Except ScalarFault Float := do
  let cs := ((chars t).filter (· != '_')).map Char.toLower
  if cs.isEmpty then throw .empty
  let signed (v : Float) : Float := if cs.head? = some '-' then -v else v
  let body := unsigned cs
  if body == ".inf".toList then return signed (1.0 / 0.0)
  else if body == ".nan".toList then return 0.0 / 0.0
  else if body.contains ':' then
    let parts ← (splitAt ':' body).mapM readFloat
    let (v, _) := parts.reverse.foldl (fun (v, unit) d => (v + d * unit, unit * 60.0)) ((0.0 : Float), (1.0 : Float))
    return signed v
  else return signed (← readFloat body)

/-- The truth value that a scalar denotes. -/
def toBool (t : Text) : Except ScalarFault Bool :=
  let word := (chars t).map Char.toLower
  if trueWords.any fun w => w.toList == word then .ok true
  else if falseWords.any fun w => w.toList == word then .ok false
  else .error .unknownWord

/-- The number of days in a month. -/
def daysIn (year month : Nat) : Nat :=
  if month = 2 then if (year % 4 = 0 ∧ year % 100 ≠ 0) ∨ year % 400 = 0 then 29 else 28
  else if month = 4 ∨ month = 6 ∨ month = 9 ∨ month = 11 then 30
  else 31

/-- A distance in minutes as it is written in messages. -/
def describeDistance (minutes : Int) : String :=
  let days := minutes / 1440
  let seconds := minutes % 1440 * 60
  let fields := (if days ≠ 0 then [s!"days={days}"] else []) ++ (if seconds ≠ 0 then [s!"seconds={seconds}"] else [])
  "datetime.timedelta(" ++ ", ".intercalate fields ++ ")"

/-- The date or moment that a scalar denotes. -/
def toStamp (t : Text) : Except ScalarFault Value := do
  let invalid {α : Type} (s : String) : Except ScalarFault α := throw (.invalid (Text.ofString s))
  match stamp? (chars t) with
  | none => throw .noMoment
  | some s =>
    let checkDate : Except ScalarFault Unit := do
      if s.year = 0 then invalid "year 0 is out of range"
      if s.month < 1 ∨ 12 < s.month then invalid "month must be in 1..12"
      if s.day < 1 ∨ daysIn s.year s.month < s.day then invalid "day is out of range for month"
    match s.time with
    | none =>
      checkDate
      return .date s.year s.month s.day
    | some (hour, minute, second, fraction, zone) =>
      if let some m := zone then
        if 1440 ≤ m.natAbs then
          invalid <| "offset must be a timedelta strictly between -timedelta(hours=24) and timedelta(hours=24), "
            ++ s!"not {describeDistance m}."
      checkDate
      if 23 < hour then invalid "hour must be in 0..23"
      if 59 < minute then invalid "minute must be in 0..59"
      if 59 < second then invalid "second must be in 0..59"
      let micro := number ((fraction ++ List.replicate 6 '0').take 6)
      return .moment ⟨s.year, s.month, s.day, hour, minute, second, micro, zone.map (60 * ·)⟩

/-- The value of a character in base 64. -/
def sixBits? (c : Nat) : Option Nat :=
  if 65 ≤ c ∧ c ≤ 90 then some (c - 65)
  else if 97 ≤ c ∧ c ≤ 122 then some (c - 71)
  else if 48 ≤ c ∧ c ≤ 57 then some (c + 4)
  else if c = 43 then some 62
  else if c = 47 then some 63
  else none

/-- Reads bytes in base 64, given how many digits of the current group are read, their bits and the padding so
far.  Other characters are ignored. -/
def readBase64 (place bits pads : Nat) : Text → Option Bytes
  | [] => if place = 0 then some [] else none
  | c :: r =>
    if c = 61 then
      if 2 ≤ place then if 4 ≤ place + pads + 1 then some [] else readBase64 place bits (pads + 1) r
      else readBase64 place bits pads r
    else
      match sixBits? c with
      | none => readBase64 place bits pads r
      | some d =>
        match place with
        | 0 => readBase64 1 d 0 r
        | 1 => (readBase64 2 (d % 16) 0 r).map (UInt8.ofNat (bits * 4 + d / 16) :: ·)
        | 2 => (readBase64 3 (d % 4) 0 r).map (UInt8.ofNat (bits * 16 + d / 4) :: ·)
        | _ => (readBase64 0 0 0 r).map (UInt8.ofNat (bits * 64 + d) :: ·)

/-- The value of a scalar of a given type; nothing if the type has no scalars or the scalar is malformed. -/
def read (type : TypeName) (t : Text) : Except Fault Value :=
  match type with
  | .null => .ok .null
  | .str => .ok (.text t)
  | .bool => (toBool t).mapError .scalar |>.map .bool
  | .int => (toInt t).mapError .scalar |>.map .int
  | .float => (toFloat t).mapError .scalar |>.map .float
  | .timestamp => (toStamp t).mapError .scalar
  | .binary =>
    if t.all (· < 128) then
      match readBase64 0 0 0 t with
      | some b => .ok (.bytes b)
      | none => .error .malformed
    else .error .malformed
  | _ => .error .malformed

end Scalar

end Handout.Yaml
