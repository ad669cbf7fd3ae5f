/-! Binary floating point numbers as exact data: a sign, a mantissa and a power of two, besides the
two infinities and the value that is no number. Every operation rounds an exact quotient of natural
numbers once, to the nearest number of a format and to the even one of two that are equally near, so
nothing here depends on the machine. -/

namespace Mcfunction

/-- The number `± mantissa · 2 ^ exponent`, an infinity, or no number. -/
inductive Floating where
  | finite (negative : Bool) (mantissa : Nat) (exponent : Int)
  | infinite (negative : Bool)
  | nan
  deriving DecidableEq, Inhabited

namespace Floating

/-- The numbers of a format have mantissas of at most `precision` bits and exponents from
`minExponent` to `maxExponent`; below `minExponent` bits are lost, above `maxExponent` lies infinity. -/
structure Format where
  precision : Nat
  minExponent : Int
  maxExponent : Int
  deriving DecidableEq

def Format.double : Format := ⟨53, -1074, 971⟩

def Format.single : Format := ⟨24, -149, 104⟩

/-- The natural number nearest to `num / den`, the even one of two that are equally near. -/
def roundDiv (num den : Nat) : Nat :=
  let q := num / den
  let r := num % den
  if 2 * r < den then q
  else if den < 2 * r then q + 1
  else if q % 2 = 0 then q else q + 1

/-- The quotient `num / (den · 2 ^ e)` rounded to a natural number. -/
def roundScaled (num den : Nat) (e : Int) : Nat :=
  match e with
  | .ofNat k => roundDiv num (den * Nat.pow 2 k)
  | .negSucc k => roundDiv (num * Nat.pow 2 (k + 1)) den

/-- The exponent at which `num / den` has a mantissa of exactly `precision` bits before rounding. -/
def exponentOf (f : Format) (num den : Nat) : Int :=
  let e : Int := (num.log2 : Int) - den.log2 - f.precision
  let fits : Bool := match e with
    | .ofNat k => num < den * Nat.pow 2 k * Nat.pow 2 f.precision
    | .negSucc k => num * Nat.pow 2 (k + 1) < den * Nat.pow 2 f.precision
  if fits then e else e + 1

def round (f : Format) (negative : Bool) (num den : Nat) : Floating :=
  if num = 0 then .finite negative 0 f.minExponent
  else
    let e := max (exponentOf f num den) f.minExponent
    let m := roundScaled num den e
    let (m, e) := if m = Nat.pow 2 f.precision then (Nat.pow 2 (f.precision - 1), e + 1) else (m, e)
    if f.maxExponent < e then .infinite negative else .finite negative m e

def ofInt (f : Format) (i : Int) : Floating := round f (i < 0) i.natAbs 1

def toQuotient (m : Nat) (e : Int) : Nat × Nat :=
  match e with
  | .ofNat k => (m * Nat.pow 2 k, 1)
  | .negSucc k => (m, Nat.pow 2 (k + 1))

def compareFinite (n₁ : Bool) (m₁ : Nat) (e₁ : Int) (n₂ : Bool) (m₂ : Nat) (e₂ : Int) : Ordering :=
  let (p₁, q₁) := toQuotient m₁ e₁
  let (p₂, q₂) := toQuotient m₂ e₂
  let a : Int := if n₁ then -(p₁ * q₂ : Nat) else (p₁ * q₂ : Nat)
  let b : Int := if n₂ then -(p₂ * q₁ : Nat) else (p₂ * q₁ : Nat)
  compare a b

/-- The order of two numbers. The two zeros are equal; what is no number has no order. -/
def order? : Floating → Floating → Option Ordering
  | .nan, _ => none
  | _, .nan => none
  | .infinite a, .infinite b => some (if a = b then .eq else if a then .lt else .gt)
  | .infinite a, .finite .. => some (if a then .lt else .gt)
  | .finite .., .infinite b => some (if b then .gt else .lt)
  | .finite n₁ m₁ e₁, .finite n₂ m₂ e₂ => some (compareFinite n₁ m₁ e₁ n₂ m₂ e₂)

def less (a b : Floating) : Bool := a.order? b = some .lt

def equal (a b : Floating) : Bool := a.order? b = some .eq

def isZero : Floating → Bool
  | .finite _ m _ => m = 0
  | _ => false

def isWhole : Floating → Bool
  | .finite _ _ (.ofNat _) => true
  | .finite _ m (.negSucc k) => m % Nat.pow 2 (k + 1) = 0
  | _ => false

def negate : Floating → Floating
  | .finite n m e => .finite (!n) m e
  | .infinite n => .infinite (!n)
  | .nan => .nan

/-- The product of two finite numbers, rounded; anything else is no number. -/
def multiply (f : Format) : Floating → Floating → Floating
  | .finite n₁ m₁ e₁, .finite n₂ m₂ e₂ =>
    let (p, q) := toQuotient (m₁ * m₂) (e₁ + e₂)
    round f (n₁ != n₂) p q
  | _, _ => .nan

/-- The quotient of two finite numbers, rounded; anything else, and division by zero, is no number. -/
def divide (f : Format) : Floating → Floating → Floating
  | .finite n₁ m₁ e₁, .finite n₂ m₂ e₂ =>
    if m₂ = 0 then .nan
    else
      let (p₁, q₁) := toQuotient m₁ e₁
      let (p₂, q₂) := toQuotient m₂ e₂
      round f (n₁ != n₂) (p₁ * q₂) (q₁ * p₂)
  | _, _ => .nan

end Floating

end Mcfunction
