/-!
# Shortest decimals

A finite binary floating-point number is shown by the fewest significant digits that read back as the same number,
and of those by the decimal nearest to it.  The search is in exact arithmetic: a number stands for the interval of
reals that round to it, and for each count of digits the two neighbours on the decimal grid are tried.
-/

namespace Handout.Decimal

/-- A positive number `num / den` with the ends of the interval of reals that round to it, all over `den`.  The ends
belong to the interval iff `closed`. -/
structure Rounded where
  num : Nat
  low : Nat
  high : Nat
  den : Nat
  closed : Bool

/-- The magnitude of a float with the given significand field and exponent field (not all ones). -/
def Rounded.ofFields (fraction exponent : Nat) : Rounded :=
  let m := if exponent = 0 then fraction else (1 <<< 52) + fraction
  -- the number is four times `m`, times two to the power of `e - 1077`
  let e := if exponent = 0 then 1 else exponent
  let scale := 1 <<< (e - 1077)
  let below := if fraction = 0 ∧ 1 < exponent then 1 else 2
  ⟨4 * m * scale, (4 * m - below) * scale, (4 * m + 2) * scale, 1 <<< (1077 - e), m % 2 = 0⟩

/-- Whether `n * 10 ^ up / 10 ^ down` lies in the interval. -/
def Rounded.contains (r : Rounded) (n up down : Nat) : Bool :=
  let v := n * Nat.pow 10 up * r.den
  let low := r.low * Nat.pow 10 down
  let high := r.high * Nat.pow 10 down
  if r.closed then low ≤ v && v ≤ high else low < v && v < high

/-- The number of digits before the point; for a number below one tenth, minus the number of zeros behind it. -/
def Rounded.magnitude (r : Rounded) : Int :=
  if r.den ≤ r.num then (Nat.toDigits 10 (r.num / r.den)).length
  else - ((List.range 400).takeWhile fun j => r.num * Nat.pow 10 (j + 1) < r.den).length

/-- The decimal on the grid of `n` significant digits that reads back, nearest first, if there is one. -/
def Rounded.onGrid? (r : Rounded) (n : Nat) : Option Nat :=
  let exponent := r.magnitude - n
  let up := exponent.toNat
  let down := (-exponent).toNat
  let unit := r.den * Nat.pow 10 up
  let a := r.num * Nat.pow 10 down / unit
  let rest := r.num * Nat.pow 10 down % unit
  let lower := r.contains a up down
  let upper := r.contains (a + 1) up down
  let nearLower := 2 * rest < unit || (2 * rest = unit && a % 2 = 0)
  if lower && (nearLower || !upper) then some a
  else if upper then some (a + 1)
  else none

/-- The significant digits of a number and its magnitude: `0.d₁d₂…` times ten to that power. -/
def Rounded.digits (r : Rounded) : List Char × Int :=
  let found := (List.range 17).findSome? fun k => (r.onGrid? (k + 1)).map fun a => (k + 1, a)
  match found with
  | none => (['0'], 1)
  | some (n, a) =>
    let ds := Nat.toDigits 10 a
    let magnitude := r.magnitude + ds.length - n
    ((ds.reverse.dropWhile (· == '0')).reverse, magnitude)

/-- Digits with a point: positional for decimal exponents from -4 to 15, else with an exponent of at least two
digits. -/
def layout (ds : List Char) (magnitude : Int) : List Char :=
  let zeros (n : Int) : List Char := List.replicate n.toNat '0'
  if -4 < magnitude ∧ magnitude ≤ 16 then
    if magnitude ≤ 0 then '0' :: '.' :: zeros (-magnitude) ++ ds
    else if ds.length ≤ magnitude then ds ++ zeros (magnitude - ds.length) ++ ['.', '0']
    else ds.take magnitude.toNat ++ '.' :: ds.drop magnitude.toNat
  else
    let exponent := magnitude - 1
    let tail := Nat.toDigits 10 exponent.natAbs
    let tail := if tail.length < 2 then '0' :: tail else tail
    ds.take 1 ++ (if ds.length ≤ 1 then [] else '.' :: ds.drop 1)
      ++ 'e' :: (if exponent < 0 then '-' else '+') :: tail

/-- The shortest decimal text of a float. -/
def shortest (f : Float) : String :=
  let bits := f.toBits.toNat
  let negative := bits >>> 63 = 1
  let exponent := (bits >>> 52) % 2048
  let fraction := bits % (1 <<< 52)
  if exponent = 2047 then
    if fraction ≠ 0 then "nan" else if negative then "-inf" else "inf"
  else
    let body :=
      if exponent = 0 ∧ fraction = 0 then ['0', '.', '0']
      else
        let (ds, magnitude) := (Rounded.ofFields fraction exponent).digits
        layout ds magnitude
    String.ofList (if negative then '-' :: body else body)

end Handout.Decimal
