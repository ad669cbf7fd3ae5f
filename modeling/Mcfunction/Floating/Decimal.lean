import Mcfunction.Floating.Basic

/-! Floating point numbers and decimal text. A decimal is read by rounding its exact value once. It is
written with the fewest digits that read back as the same number; where two decimals of that length
are equally near, the style that writes it decides. -/

namespace Mcfunction.Floating

/-! ### Reading -/

def isDecimalDigit (c : Char) : Bool := '0' ≤ c && c ≤ '9'

def digitsValue (cs : List Char) : Nat := cs.foldl (fun n c => 10 * n + (c.toNat - 48)) 0

/-- Decimals of more than this power of ten are infinite, and of less than its inverse zero, in
every format. -/
def decimalReach : Int := 400

/-- The number of the format nearest to `± digits · 10 ^ power`. -/
def ofDecimal (f : Format) (negative : Bool) (digits : Nat) (power : Int) : Floating :=
  let size : Int := (Nat.toDigits 10 digits).length
  if digits = 0 then round f negative 0 1
  else if decimalReach < size + power then .infinite negative
  else if size + power < -decimalReach then round f negative 0 1
  else match power with
    | .ofNat k => round f negative (digits * Nat.pow 10 k) 1
    | .negSucc k => round f negative digits (Nat.pow 10 (k + 1))

/-- Reads the exponent of a decimal: nothing, or `e` or `E`, a sign and digits. -/
def exponent? : List Char → Option Int
  | [] => some 0
  | e :: cs =>
    if e = 'e' ∨ e = 'E' then
      let (negative, ds) := match cs with
        | '-' :: ds => (true, ds)
        | '+' :: ds => (false, ds)
        | ds => (false, ds)
      if ds ≠ [] ∧ ds.all isDecimalDigit then
        some (if negative then -(digitsValue ds : Int) else digitsValue ds)
      else none
    else none

/-- Reads a decimal without its sign: digits with an optional point among, before or after them, and
an exponent. -/
def unsigned? (f : Format) (negative : Bool) (cs : List Char) : Option Floating :=
  let whole := cs.takeWhile isDecimalDigit
  let rest := cs.dropWhile isDecimalDigit
  let (fraction, rest) := match rest with
    | '.' :: rest => (rest.takeWhile isDecimalDigit, rest.dropWhile isDecimalDigit)
    | _ => ([], rest)
  if whole = [] ∧ fraction = [] then none
  else (exponent? rest).map fun e =>
    ofDecimal f negative (digitsValue (whole ++ fraction)) (e - fraction.length)

/-- Reads a number: a decimal with an optional sign, or the name of an infinity or of no number, in
any case. -/
def read? (f : Format) (text : String) : Option Floating :=
  let (negative, cs) := match text.toList with
    | '-' :: cs => (true, cs)
    | '+' :: cs => (false, cs)
    | cs => (false, cs)
  let word := String.ofList (cs.map Char.toLower)
  if word = "inf" ∨ word = "infinity" then some (.infinite negative)
  else if word = "nan" then some .nan
  else unsigned? f negative cs

/-! ### The fewest digits -/

inductive Tie where
  | up
  | even
  deriving DecidableEq

/-- The largest `k` with `10 ^ k · q ≤ p`, for positive `p` and `q`. -/
def decimalFloor (p q : Nat) : Int :=
  if q ≤ p then ((Nat.toDigits 10 (p / q)).length : Int) - 1
  else
    -- one more power of ten than the quotient `q / p` has digits is certainly enough
    let k := (Nat.toDigits 10 (q / p)).length
    if q ≤ p * Nat.pow 10 (k - 1) then -(k - 1 : Nat) else -(k : Nat)

/-- The numbers that round to `mantissa · 2 ^ exponent` lie between `low / den` and `high / den`,
around `value / den`; the ends belong to them if `closed`. -/
structure Interval where
  low : Nat
  value : Nat
  high : Nat
  den : Nat
  closed : Bool

/-- The interval of a positive finite number. Below a power of two the neighbours lie closer. -/
def interval (f : Format) (m : Nat) (e : Int) : Interval :=
  let narrow : Bool := m = Nat.pow 2 (f.precision - 1) && f.minExponent < e
  let (unit, den) := toQuotient 1 (e - 2)
  ⟨(4 * m - (if narrow then 1 else 2)) * unit, 4 * m * unit, (4 * m + 2) * unit, den, m % 2 = 0⟩

def Interval.contains (i : Interval) (d : Nat) (k : Int) : Bool :=
  let (p, q) : Nat × Nat := match k with
    | .ofNat k => (d * Nat.pow 10 k * i.den, 1)
    | .negSucc k => (d * i.den, Nat.pow 10 (k + 1))
  if i.closed then i.low * q ≤ p && p ≤ i.high * q else i.low * q < p && p < i.high * q

/-- The multiple of `10 ^ k` in the interval that is nearest to its value, if there is one. -/
def Interval.nearest? (i : Interval) (tie : Tie) (k : Int) : Option Nat :=
  let (p, q) : Nat × Nat := match k with
    | .ofNat k => (i.value, i.den * Nat.pow 10 k)
    | .negSucc k => (i.value * Nat.pow 10 (k + 1), i.den)
  let d := p / q
  let r := p % q
  match i.contains d k, i.contains (d + 1) k with
  | false, false => none
  | true, false => some d
  | false, true => some (d + 1)
  | true, true =>
    if 2 * r < q then some d
    else if q < 2 * r then some (d + 1)
    else match tie with
      | .up => some (d + 1)
      | .even => some (if d % 2 = 0 then d else d + 1)

/-- The first grid `10 ^ k`, `10 ^ (k - 1)`, … with a multiple in the interval. -/
def Interval.search (i : Interval) (tie : Tie) : Nat → Int → Nat × Int
  | 0, k => ((i.nearest? tie k).getD 0, k)
  | n + 1, k => match i.nearest? tie k with
    | some d => (d, k)
    | none => i.search tie n (k - 1)

/-- The fewest digits that read back as `mantissa · 2 ^ exponent`, and the power of ten of the last
one. -/
def shortest (f : Format) (tie : Tie) (m : Nat) (e : Int) : Nat × Int :=
  if m = 0 then (0, 0)
  else
    let i := interval f m e
    -- seventeen digits tell any two numbers of a format apart
    i.search tie 17 (decimalFloor i.value i.den)

/-! ### Writing -/

/-- How a finite number is laid out around its shortest digits. -/
structure Style where
  tie : Tie
  pointZero : Bool
  /-- The powers of ten of the first digit that are written with an exponent. -/
  scientific : Int → Bool
  plus : Bool

def times (n : Nat) (c : Char) : String := String.ofList (List.replicate n c)

def positional (pointZero : Bool) (digits : String) (power : Int) : String :=
  let ds := digits.toList
  match power with
  | .ofNat k => digits ++ times k '0' ++ (if pointZero then ".0" else "")
  | .negSucc k =>
    let places := k + 1
    if places < ds.length then
      String.ofList (ds.take (ds.length - places)) ++ "." ++ String.ofList (ds.drop (ds.length - places))
    else "0." ++ times (places - ds.length) '0' ++ digits

/-- Writes `digits · 10 ^ power` with one digit before the point and an exponent. -/
def scientific (plus : Bool) (digits : String) (power : Int) : String :=
  let ds := digits.toList
  let e : Int := power + ds.length - 1
  let fraction := if ds.length ≤ 1 then "" else "." ++ String.ofList (ds.drop 1)
  String.ofList (ds.take 1) ++ fraction ++ "e" ++ (if plus ∧ 0 ≤ e then "+" else "") ++ toString e

/-- Drops the zeros at the end of a positive number, counting them into the power of ten. -/
def trimZeros : Nat → Nat → Int → Nat × Int
  | 0, d, k => (d, k)
  | n + 1, d, k => if d % 10 = 0 ∧ d ≠ 0 then trimZeros n (d / 10) (k + 1) else (d, k)

def write (f : Format) (style : Style) : Floating → String
  | .nan => "NaN"
  | .infinite negative => if negative then "-inf" else "inf"
  | .finite negative m e =>
    let (d, k) := shortest f style.tie m e
    let (d, k) := trimZeros 400 d k
    let digits := toString d
    let text :=
      if m ≠ 0 ∧ style.scientific (k + digits.length - 1) then scientific style.plus digits k
      else positional style.pointZero digits k
    if negative then "-" ++ text else text

def writeWhole : Floating → String
  | .finite negative m e =>
    let (p, q) := toQuotient m e
    let text := toString (p / q) ++ ".0"
    if negative then "-" ++ text else text
  | .infinite negative => if negative then "-inf" else "inf"
  | .nan => "NaN"

/-- The plain style: no exponent, and nothing behind a whole number. -/
def Style.plain : Style := ⟨.up, false, fun _ => false, false⟩

end Mcfunction.Floating
