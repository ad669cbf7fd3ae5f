import Mcfunction.Json.Fault
import Mcfunction.Reader

/-! The tokens of JSON: blanks, words, numbers and strings, read from the rest of a text with its place.
A decimal that is no integer is computed by one rounded multiplication or division of its first
digits by a power of ten; digits after the first that do not fit 64 bits are dropped. -/

namespace Mcfunction.Json

def Place.after (p : Place) (c : Char) : Place :=
  if c = '\n' then ⟨p.line + 1, 0⟩ else ⟨p.line, p.column + c.utf8Size⟩

/-- The place `n` bytes into a text that begins at `p`, inside a character if need be. -/
def Place.afterBytes : Nat → List Char → Place → Place
  | _, [], p => p
  | n, c :: cs, p =>
    if n = 0 then p
    else if c.utf8Size ≤ n then Place.afterBytes (n - c.utf8Size) cs (p.after c)
    else ⟨p.line, p.column + n⟩

structure Input where
  rest : List Char
  place : Place

namespace Input

def start (text : List Char) : Input := ⟨text, ⟨1, 0⟩⟩

def nextPlace (s : Input) : Place := s.place.afterBytes 1 s.rest

def drop : Nat → Input → Input
  | 0, s => s
  | _ + 1, ⟨[], p⟩ => ⟨[], p⟩
  | n + 1, ⟨c :: cs, p⟩ => drop n ⟨cs, p.after c⟩

@[simp] theorem length_drop (n : Nat) (s : Input) : (s.drop n).rest.length = s.rest.length - n := by
  obtain ⟨rest, p⟩ := s
  induction n generalizing rest p with
  | zero => simp [drop]
  | succ n ih => cases rest <;> simp [drop, ih]

instance : Forward Input where
  Ahead s t := t.rest.length ≤ s.rest.length
  refl _ := Nat.le_refl _
  trans h₁ h₂ := Nat.le_trans h₂ h₁
  left s := s.rest.length
  left_le h := h

theorem ahead_drop (n : Nat) (s : Input) : Forward.Ahead s (s.drop n) := by
  simp [Forward.Ahead]

def isBlank (c : Char) : Bool := c = ' ' || c = '\n' || c = '\t' || c = '\r'

def skipBlanks (s : Input) : Input := s.drop (s.rest.takeWhile isBlank).length

theorem length_skipBlanks_le (s : Input) : s.skipBlanks.rest.length ≤ s.rest.length := by
  simp [skipBlanks]

end Input

abbrev Scanner := Reader Input Fault

namespace Scanner

variable {α : Type}

def failHere (cause : Cause) : Scanner α := Reader.failHere fun s => ⟨cause, s.place⟩

def failNext (cause : Cause) : Scanner α := Reader.failHere fun s => ⟨cause, s.nextPlace⟩

/-- Fails at the place where the enclosing list or object, which `close` ends, would go on. -/
def failAfter (close : Char) (cause : Cause) : Scanner α := Reader.failHere fun s =>
  let t := s.skipBlanks
  ⟨cause, (if t.rest.head? = some close then t.drop 1 else t).place⟩

def eat (n : Nat) : Scanner Unit := fun s => .ok ⟨(), s.drop n, s.ahead_drop n⟩

def skipBlanks : Scanner Unit := fun s => .ok ⟨(), s.skipBlanks, s.length_skipBlanks_le⟩

def peek : Scanner (Option Char) := Reader.look fun s => s.rest.head?

def token : Scanner (Option Char) := do
  skipBlanks
  peek

def word : List Char → Scanner Unit
  | [] => pure ()
  | c :: cs => do
    match ← peek with
    | none => failHere .missingValue
    | some d => if d = c then do eat 1; word cs else failNext .expectedIdent

def digits : Scanner (List Char) := do
  let ds ← Reader.look fun (s : Input) => s.rest.takeWhile Floating.isDecimalDigit
  eat ds.length
  return ds

/-! ### Numbers -/

def maxNatural : Nat := Nat.pow 2 64 - 1

def maxExponent : Nat := Nat.pow 2 31 - 1

/-- Appends digits to a number as long as it stays within a bound, and counts how many were taken. -/
def accumulate (bound : Nat) : Nat → List Char → Nat × Nat
  | n, [] => (n, 0)
  | n, d :: ds =>
    let m := 10 * n + (d.toNat - 48)
    if bound < m then (n, 0)
    else
      let (r, k) := accumulate bound m ds
      (r, k + 1)

def powerOfTen (k : Nat) : Floating := .ofDecimal .double false 1 k

/-- Scales a double by a power of ten that may lie beyond the greatest double, in at most `fuel`
divisions by the greatest power of ten. -/
def scale : Nat → Floating → Int → Option Floating
  | 0, x, _ => some x
  | fuel + 1, x, e =>
    if e.natAbs ≤ 308 then
      if 0 ≤ e then
        match x.multiply .double (powerOfTen e.natAbs) with
        | .infinite _ => none
        | y => some y
      else some (x.divide .double (powerOfTen e.natAbs))
    else if x.isZero then some x
    else if 0 ≤ e then none
    else scale fuel (x.divide .double (powerOfTen 308)) (e + 308)

/-- The double of some digits and a power of ten. Three divisions bring any 64 bits to zero. -/
def ofParts (positive : Bool) (significand : Nat) (e : Int) : Scanner Number :=
  match scale 4 (.ofInt .double significand) e with
  | none => failHere .numberOutOfRange
  | some x => pure (.floating (if positive then x else x.negate))

def exponent (positive : Bool) (significand : Nat) (start : Int) : Scanner Number := do
  eat 1
  let sign ← peek
  let negative := sign = some '-'
  if sign = some '+' ∨ sign = some '-' then eat 1
  match ← peek with
  | none => failHere .missingValue
  | some d =>
    if !Floating.isDecimalDigit d then failNext .invalidNumber
    else
      let ds ← Reader.look fun (s : Input) => s.rest.takeWhile Floating.isDecimalDigit
      let (e, taken) := accumulate maxExponent 0 ds
      if taken < ds.length then
        if significand ≠ 0 ∧ !negative then do
          eat (taken + 1)
          failHere .numberOutOfRange
        else do
          eat ds.length
          return .floating (.round .double (!positive) 0 1)
      else do
        eat ds.length
        ofParts positive significand (if negative then start - e else start + e)

def fraction (positive : Bool) (significand : Nat) (start : Int) : Scanner Number := do
  eat 1
  let ds ← digits
  if ds = [] then
    match ← peek with
    | none => failNext .missingValue
    | some _ => failNext .invalidNumber
  else
    let (n, taken) := accumulate maxNatural significand ds
    let e := start - taken
    let c ← peek
    if c = some 'e' ∨ c = some 'E' then exponent positive n e else ofParts positive n e

def number (positive : Bool) : Scanner Number := do
  match ← peek with
  | none => failHere .missingValue
  | some d =>
    if !Floating.isDecimalDigit d then failNext .invalidNumber
    else
      let ds ← Reader.look fun (s : Input) => s.rest.takeWhile Floating.isDecimalDigit
      if d = '0' ∧ 1 < ds.length then do
        eat 1
        failNext .invalidNumber
      else do
        eat ds.length
        let (n, taken) := accumulate maxNatural 0 ds
        let extra : Int := ds.length - taken
        let c ← peek
        if c = some '.' then fraction positive n extra
        else if c = some 'e' ∨ c = some 'E' then exponent positive n extra
        else if taken < ds.length then ofParts positive n extra
        else if positive then return .integer n
        -- a negative zero, and what is below 64 bits with sign, is a double
        else if n = 0 ∨ Nat.pow 2 63 < n then return .floating (Floating.ofInt .double n).negate
        else return .integer (-n)

def skipExponent : Scanner Unit := do
  eat 1
  let sign ← peek
  if sign = some '+' ∨ sign = some '-' then eat 1
  let ds ← digits
  if ds = [] then failNext .invalidNumber

/-- Moves over a number after its first digit, whatever its size. -/
def skipNumberFrom (first : Char) : Scanner Unit := do
  let ds ← Reader.look fun (s : Input) => s.rest.takeWhile Floating.isDecimalDigit
  if first = '0' ∧ ds ≠ [] then failNext .invalidNumber
  else do
    eat ds.length
    let c ← peek
    if c = some '.' then do
      eat 1
      let ds ← digits
      if ds = [] then failNext .invalidNumber
      else
        let c ← peek
        if c = some 'e' ∨ c = some 'E' then skipExponent
    else if c = some 'e' ∨ c = some 'E' then skipExponent

def skipNumber : Scanner Unit := do
  match ← peek with
  | none => failNext .invalidNumber
  | some c =>
    if Floating.isDecimalDigit c then do
      eat 1
      skipNumberFrom c
    else failNext .invalidNumber

/-! ### Strings -/

def hexValue? (c : Char) : Option Nat :=
  if '0' ≤ c ∧ c ≤ '9' then some (c.toNat - 48)
  else if 'a' ≤ c ∧ c ≤ 'f' then some (c.toNat - 87)
  else if 'A' ≤ c ∧ c ≤ 'F' then some (c.toNat - 55)
  else none

def bytes (cs : List Char) : Nat := cs.foldr (fun c n => c.utf8Size + n) 0

def hexEscape : Scanner Nat := do
  let s ← Reader.position
  let four := s.rest.take 4
  if bytes four < 4 then Reader.fail ⟨.unclosedString, s.place.afterBytes (bytes four) s.rest⟩
  else
    match four.mapM hexValue? with
    | none => Reader.fail ⟨.invalidEscape, s.place.afterBytes 4 s.rest⟩
    | some ds => do
      eat 4
      return ds.foldl (fun n d => 16 * n + d) 0

def surrogateMark (c : Char) : Scanner Unit := do
  match ← peek with
  | none => failHere .unclosedString
  | some d => if d = c then eat 1 else failNext .unfinishedSurrogate

/-- Reads a `\u` escape after the letter, with a second one if the first is half of a pair. -/
def unicodeEscape : Scanner Char := do
  let n ← hexEscape
  if 0xDC00 ≤ n ∧ n ≤ 0xDFFF then failHere .loneSurrogate
  else if n < 0xD800 ∨ 0xDBFF < n then return Char.ofNat n
  else do
    surrogateMark '\\'
    surrogateMark 'u'
    let m ← hexEscape
    if m < 0xDC00 ∨ 0xDFFF < m then failHere .loneSurrogate
    else return Char.ofNat ((n - 0xD800) * 0x400 + (m - 0xDC00) + 0x10000)

def simpleEscape? (c : Char) : Option Char :=
  if c = '"' ∨ c = '\\' ∨ c = '/' then some c
  else if c = 'b' then some '\x08'
  else if c = 'f' then some '\x0c'
  else if c = 'n' then some '\n'
  else if c = 'r' then some '\r'
  else if c = 't' then some '\t'
  else none

def escape : Scanner Char := do
  match ← peek with
  | none => failHere .unclosedString
  | some c =>
    if c = 'u' then do
      eat 1
      unicodeEscape
    else
      match simpleEscape? c with
      | some d => do
        eat 1
        return d
      | none => failNext .invalidEscape

/-- Moves over an escape after its backslash, without a look at what it stands for. -/
def skipEscape : Scanner Unit := do
  match ← peek with
  | none => failHere .unclosedString
  | some c =>
    if c = 'u' then do
      eat 1
      let _ ← hexEscape
    else if (simpleEscape? c).isSome then eat 1
    else failNext .invalidEscape

/-- Reads a string after its opening quote, onto the characters read so far. -/
def stringFrom (read : List Char) : Scanner String := fun s =>
  match _h : s.rest with
  | [] => .error ⟨.unclosedString, s.place⟩
  | c :: _ =>
    if c = '"' then .ok ⟨String.ofList read.reverse, s.drop 1, s.ahead_drop 1⟩
    else if c = '\\' then
      match escape (s.drop 1) with
      | .error e => .error e
      | .ok x =>
        match stringFrom (x.value :: read) x.next with
        | .error e => .error e
        | .ok y => .ok (y.since (Forward.trans (s.ahead_drop 1) x.ahead))
    else if c.toNat < 32 then .error ⟨.controlCharacter, s.nextPlace⟩
    else
      match stringFrom (c :: read) (s.drop 1) with
      | .error e => .error e
      | .ok y => .ok (y.since (s.ahead_drop 1))
termination_by s => s.rest.length
decreasing_by
  · have := x.left_le
    simp [Forward.left, _h] at *
    omega
  · simp [_h]

def string : Scanner String := stringFrom []

def skipString : Scanner Unit := fun s =>
  match _h : s.rest with
  | [] => .error ⟨.unclosedString, s.place⟩
  | c :: _ =>
    if c = '"' then .ok ⟨(), s.drop 1, s.ahead_drop 1⟩
    else if c = '\\' then
      match skipEscape (s.drop 1) with
      | .error e => .error e
      | .ok x =>
        match skipString x.next with
        | .error e => .error e
        | .ok y => .ok (y.since (Forward.trans (s.ahead_drop 1) x.ahead))
    else if c.toNat < 32 then .error ⟨.controlCharacter, s.place⟩
    else
      match skipString (s.drop 1) with
      | .error e => .error e
      | .ok y => .ok (y.since (s.ahead_drop 1))
termination_by s => s.rest.length
decreasing_by
  · have := x.left_le
    simp [Forward.left, _h] at *
    omega
  · simp [_h]

end Scanner

end Mcfunction.Json
