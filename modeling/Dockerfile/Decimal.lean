/-!
# Decimal texts of numbers

A number of 64 bits is written with the fewest decimal digits that read back as it. The reals that
round to a number form an interval around it, and `Binary.reads` tests whether a decimal lies in it,
in exact arithmetic. `shortest` tries one digit, two digits and so on, and on each decimal grid the
two neighbours of the number. `render` lays the digits out: positionally if the leading digit stands
for a power of ten from -4 to 15, with an exponent otherwise. `ofText?` and `toFloat` go the other
way.
-/

namespace Dockerfile

/-- The number `digits * 10 ^ exponent`. -/
structure Decimal where
  digits : Nat
  exponent : Int
  deriving DecidableEq, Repr

namespace Decimal

/-- The number `significand * 2 ^ exponent`. `narrow` says that the number below it is half as far
away as the number above it. -/
structure Binary where
  significand : Nat
  exponent : Int
  narrow : Bool
  deriving DecidableEq, Repr

namespace Binary

/-- The absolute value of a finite number of 64 bits. -/
def ofBits (bits : UInt64) : Binary :=
  let exponent := ((bits >>> 52) &&& 0x7FF).toNat
  let fraction := (bits &&& 0xFFFFFFFFFFFFF).toNat
  if exponent = 0 then ⟨fraction, -1074, false⟩
  else ⟨Nat.pow 2 52 + fraction, exponent - 1075, fraction = 0 && exponent > 1⟩

/-- The number as a fraction: numerator and denominator. -/
def fraction (x : Binary) : Nat × Nat :=
  (x.significand * Nat.pow 2 x.exponent.toNat, Nat.pow 2 (-x.exponent).toNat)

/-- How `d` compares with `n * 2 ^ e`. -/
def compareWith (d : Decimal) (n : Nat) (e : Int) : Ordering :=
  compare (d.digits * Nat.pow 10 d.exponent.toNat * Nat.pow 2 (-e).toNat)
    (n * Nat.pow 2 e.toNat * Nat.pow 10 (-d.exponent).toNat)

/-- Does `d` round to `x`? It does between the points halfway to the numbers below and above `x`,
and on these points if the significand of `x` is even. -/
def reads (x : Binary) (d : Decimal) : Bool :=
  let low := compareWith d (4 * x.significand - if x.narrow then 1 else 2) (x.exponent - 2)
  let high := compareWith d (4 * x.significand + 2) (x.exponent - 2)
  let even := x.significand % 2 = 0
  (low == .gt || even && low == .eq) && (high == .lt || even && high == .eq)

end Binary

/-- How many decimal digits a natural number has. -/
def width (n : Nat) : Nat := (Nat.toDigits 10 n).length

/-- The least power of ten, counted from `power` on and for at most `fuel` steps, that takes the
fraction to one or more. -/
def raise (numerator denominator : Nat) : Nat → Nat → Nat
  | 0, power => power
  | fuel + 1, power =>
    if denominator ≤ numerator * Nat.pow 10 power then power
    else raise numerator denominator fuel (power + 1)

/-- The least `k` with `x < 10 ^ k`, for a positive number. -/
def scale (x : Binary) : Int :=
  let (numerator, denominator) := x.fraction
  if denominator ≤ numerator then width (numerator / denominator)
  else 1 - (raise numerator denominator 400 1 : Nat)

/-- The closest of the two neighbours of a number among the multiples of `10 ^ e`, if it reads back
as the number. Of two that are equally close it is the even one. -/
def onGrid? (x : Binary) (e : Int) : Option Decimal :=
  let (numerator, denominator) := x.fraction
  let up := numerator * Nat.pow 10 (-e).toNat
  let down := denominator * Nat.pow 10 e.toNat
  let below : Decimal := ⟨up / down, e⟩
  let above : Decimal := ⟨up / down + 1, e⟩
  match x.reads below, x.reads above with
  | false, false => none
  | true, false => some below
  | false, true => some above
  | true, true =>
    match compare (2 * (up % down)) down with
    | .lt => some below
    | .gt => some above
    | .eq => some (if below.digits % 2 = 0 then below else above)

/-- The decimal of the fewest digits that reads back, where `count` digits are tried first and more
of them `fuel` times. -/
def search (x : Binary) (scale : Int) : Nat → Nat → Decimal
  | 0, _ =>
    if 0 ≤ x.exponent then ⟨x.significand * Nat.pow 2 x.exponent.toNat, 0⟩
    else ⟨x.significand * Nat.pow 5 (-x.exponent).toNat, x.exponent⟩
  | fuel + 1, count =>
    match onGrid? x (scale - count) with
    | some d => d
    | none => search x scale fuel (count + 1)

/-- The decimal of the fewest digits that reads back as a positive number. -/
def shortest (x : Binary) : Decimal := search x (scale x) 17 1

/-- The digits without the zeros at their end, of which the last `fuel` are looked at. -/
def trim : Nat → Decimal → Decimal
  | 0, d => d
  | fuel + 1, d => if d.digits % 10 = 0 then trim fuel ⟨d.digits / 10, d.exponent + 1⟩ else d

/-- The text of a positive decimal. -/
def layout (d : Decimal) : String :=
  let d := trim (width d.digits - 1) d
  let digits := Nat.toDigits 10 d.digits
  let count := digits.length
  let point := d.exponent + count
  let zeros (n : Nat) : List Char := List.replicate n '0'
  String.ofList <|
    if -4 < point && point ≤ 16 then
      if point ≤ 0 then '0' :: '.' :: (zeros (-point).toNat ++ digits)
      else if count ≤ point.toNat then digits ++ zeros (point.toNat - count) ++ ['.', '0']
      else digits.take point.toNat ++ '.' :: digits.drop point.toNat
    else
      let power := Nat.toDigits 10 (point - 1).natAbs
      digits.take 1 ++ (if count = 1 then [] else '.' :: digits.drop 1) ++
        ['e', if point < 1 then '-' else '+'] ++ zeros (2 - power.length) ++ power

/-- The text of a number. -/
def render (x : Float) : String :=
  let bits := x.toBits
  let sign := if bits >>> 63 = 1 then "-" else ""
  let x := Binary.ofBits bits
  if x.exponent = 972 then if x.significand = Nat.pow 2 52 then sign ++ "inf" else "nan"
  else if x.significand = 0 then sign ++ "0.0"
  else sign ++ layout (shortest x)

/-- The integer that a number is, if it is one. -/
def integer? (x : Float) : Option Int :=
  let bits := x.toBits
  let x := Binary.ofBits bits
  let (numerator, denominator) := x.fraction
  if x.exponent = 972 || numerator % denominator != 0 then none
  else
    let size : Int := (numerator / denominator : Nat)
    some (if bits >>> 63 = 1 then -size else size)

/-- The number that a decimal rounds to. -/
def toFloat (d : Decimal) : Float :=
  let size := d.exponent + width d.digits
  if d.digits = 0 || size < -400 then 0.0
  else if 400 < size then 1.0 / 0.0
  else Float.ofScientific d.digits (d.exponent < 0) d.exponent.natAbs

/-- The natural number that digits spell. -/
def natOfDigits (cs : List Char) : Nat := cs.foldl (fun n c => 10 * n + (c.toNat - '0'.toNat)) 0

/-- Reads digits, perhaps with a point in or behind them, perhaps with an exponent. -/
def ofText? (cs : List Char) : Option Decimal :=
  let whole := cs.takeWhile Char.isDigit
  let (part, rest) := match cs.dropWhile Char.isDigit with
    | '.' :: rest => (rest.takeWhile Char.isDigit, rest.dropWhile Char.isDigit)
    | rest => ([], rest)
  let d : Decimal := ⟨natOfDigits (whole ++ part), -part.length⟩
  match rest with
  | [] => some d
  | mark :: rest =>
    let (negative, power) := match rest with
      | '-' :: power => (true, power)
      | '+' :: power => (false, power)
      | power => (false, power)
    if (mark = 'e' || mark = 'E') && !power.isEmpty && power.all Char.isDigit then
      let n : Int := natOfDigits power
      some ⟨d.digits, if negative then d.exponent - n else d.exponent + n⟩
    else none

end Decimal

end Dockerfile
