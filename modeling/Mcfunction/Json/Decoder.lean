import Mcfunction.Entries
import Mcfunction.Json.Scanner

/-! Reading JSON text: as a value, or straight into the data that it describes. Lists and objects nest at
most 127 deep; a reader takes how many levels it may still open. What a field of an object does not fit
is reported where the reading stopped. -/

namespace Mcfunction.Json.Scanner

variable {α β : Type}

/-! ### Lists and objects -/

/-- Reads the items of a list up to its end, which is not read. -/
def items (item : Scanner α) (first : Bool) (read : List α) : Scanner (List α) := fun s =>
  let t := s.skipBlanks
  match _h : t.rest with
  | [] => .error ⟨.unclosedList, t.nextPlace⟩
  | c :: _ =>
    if c = ']' then .ok ⟨read.reverse, t, s.length_skipBlanks_le⟩
    else if first then
      match item t with
      | .error e => .error e
      | .ok x =>
        match items item false (x.value :: read) x.next with
        | .error e => .error e
        | .ok y => .ok (y.since (Forward.trans s.length_skipBlanks_le x.ahead))
    else if c = ',' then
      let u := (t.drop 1).skipBlanks
      match u.rest with
      | [] => .error ⟨.missingValue, u.nextPlace⟩
      | d :: _ =>
        if d = ']' then .error ⟨.trailingComma, u.nextPlace⟩
        else
          match item u with
          | .error e => .error e
          | .ok x =>
            match items item false (x.value :: read) x.next with
            | .error e => .error e
            | .ok y => .ok (y.since (Forward.trans s.length_skipBlanks_le
                (Forward.trans (t.ahead_drop 1) (Forward.trans (t.drop 1).length_skipBlanks_le x.ahead))))
    else .error ⟨.expectedListEnd, t.nextPlace⟩
termination_by s => 2 * s.rest.length + (if first then 1 else 0)
decreasing_by
  · have h₁ : x.next.rest.length ≤ t.rest.length := x.left_le
    have h₂ : t.rest.length ≤ s.rest.length := s.length_skipBlanks_le
    rw [if_neg (by decide), if_pos (by assumption)]
    omega
  · have h₁ : x.next.rest.length ≤ u.rest.length := x.left_le
    have h₂ : t.rest.length ≤ s.rest.length := s.length_skipBlanks_le
    have h₃ : u.rest.length ≤ t.rest.length - 1 := by
      simpa using (t.drop 1).length_skipBlanks_le
    have h₄ : 0 < t.rest.length := by rw [_h]; simp
    rw [if_neg (by decide)]
    omega

/-- Reads the entries of an object up to its end, which is not read. The reader of an entry is given
what the entries before it made, and the key, after which it goes on. -/
def entries (entry : α → String → Scanner α) (first : Bool) (made : α) : Scanner α := fun s =>
  let t := s.skipBlanks
  match _h : t.rest with
  | [] => .error ⟨.unclosedObject, t.nextPlace⟩
  | c :: _ =>
    if c = '}' then .ok ⟨made, t, s.length_skipBlanks_le⟩
    else if first then
      if c ≠ '"' then .error ⟨.keyNotString, t.nextPlace⟩
      else
        match (do entry made (← string) : Scanner α) (t.drop 1) with
        | .error e => .error e
        | .ok x =>
          match entries entry false x.value x.next with
          | .error e => .error e
          | .ok y => .ok (y.since (Forward.trans s.length_skipBlanks_le
              (Forward.trans (t.ahead_drop 1) x.ahead)))
    else if c = ',' then
      let u := (t.drop 1).skipBlanks
      match u.rest with
      | [] => .error ⟨.missingValue, u.nextPlace⟩
      | d :: _ =>
        if d = '}' then .error ⟨.trailingComma, u.nextPlace⟩
        else if d ≠ '"' then .error ⟨.keyNotString, u.nextPlace⟩
        else
          match (do entry made (← string) : Scanner α) (u.drop 1) with
          | .error e => .error e
          | .ok x =>
            match entries entry false x.value x.next with
            | .error e => .error e
            | .ok y => .ok (y.since (Forward.trans s.length_skipBlanks_le
                (Forward.trans (t.ahead_drop 1) (Forward.trans (t.drop 1).length_skipBlanks_le
                  (Forward.trans (u.ahead_drop 1) x.ahead)))))
    else .error ⟨.expectedObjectEnd, t.nextPlace⟩
termination_by s => 2 * s.rest.length + (if first then 1 else 0)
decreasing_by
  · have h₁ : x.next.rest.length ≤ (t.drop 1).rest.length := x.left_le
    have h₂ : t.rest.length ≤ s.rest.length := s.length_skipBlanks_le
    have h₃ : (t.drop 1).rest.length ≤ t.rest.length := t.ahead_drop 1
    rw [if_neg (by decide), if_pos (by assumption)]
    omega
  · have h₁ : x.next.rest.length ≤ (u.drop 1).rest.length := x.left_le
    have h₂ : t.rest.length ≤ s.rest.length := s.length_skipBlanks_le
    have h₃ : u.rest.length ≤ t.rest.length - 1 := by
      simpa using (t.drop 1).length_skipBlanks_le
    have h₄ : 0 < t.rest.length := by rw [_h]; simp
    have h₅ : (u.drop 1).rest.length ≤ u.rest.length := u.ahead_drop 1
    rw [if_neg (by decide)]
    omega

def colon : Scanner Unit := do
  match ← token with
  | none => failNext .unclosedObject
  | some c => if c = ':' then eat 1 else failNext .expectedColon

def enter (levels : Nat) : Scanner Unit := if levels ≤ 1 then failNext .tooDeep else eat 1

def listOf (levels : Nat) (item : Scanner α) : Scanner (List α) := do
  enter levels
  let xs ← items item true []
  eat 1
  return xs

def mapOf (levels : Nat) (value : Scanner α) : Scanner (List (String × α)) := do
  enter levels
  let xs ← entries (fun made key => do
    colon
    return Entries.insert key (← value) made) true []
  eat 1
  return xs

/-! ### Values -/

/-- Reads a value; `levels` is one more than the number of lists and objects it may nest. -/
def value : Nat → Scanner Json
  | 0 => failNext .tooDeep
  | levels + 1 => do
    match ← token with
    | none => failNext .missingValue
    | some c =>
      if c = 'n' then do
        eat 1
        word ['u', 'l', 'l']
        return .null
      else if c = 't' then do
        eat 1
        word ['r', 'u', 'e']
        return .bool true
      else if c = 'f' then do
        eat 1
        word ['a', 'l', 's', 'e']
        return .bool false
      else if c = '-' then do
        eat 1
        return .number (← number false)
      else if Floating.isDecimalDigit c then return .number (← number true)
      else if c = '"' then do
        eat 1
        return .string (← string)
      else if c = '[' then return .array (← listOf (levels + 1) (value levels))
      else if c = '{' then return .object (← mapOf (levels + 1) (value levels))
      else failNext .expectedValue

def maxLevels : Nat := 128

def finish : Scanner Unit := do
  if (← token).isSome then failNext .trailingCharacters

def endsScalar (c : Char) : Bool :=
  c = ' ' || c = '\n' || c = '\t' || c = '\r' || c = '"' || c = '[' || c = ']' || c = '{' || c = '}' ||
    c = ',' || c = ':'

/-- Reads the value at the front of a text, or nothing if the text is blank. What follows a word or a
number has to set itself apart from it. -/
def leading : Scanner (Option Json) := do
  match ← token with
  | none => return none
  | some c =>
    let v ← value maxLevels
    if c = '[' ∨ c = '"' ∨ c = '{' then return some v
    else
      match ← peek with
      | none => return some v
      | some d => if endsScalar d then return some v else failNext .trailingCharacters

/-! ### Moving over values -/

inductive Frame where
  | list
  | object
  deriving DecidableEq

def skipKey : Scanner Unit := do
  match ← token with
  | none => failNext .unclosedObject
  | some c =>
    if c ≠ '"' then failNext .keyNotString
    else do
      eat 1
      skipString
      colon

def skipScalar (c : Char) : Scanner Unit :=
  if c = 'n' then word ['u', 'l', 'l']
  else if c = 't' then word ['r', 'u', 'e']
  else if c = 'f' then word ['a', 'l', 's', 'e']
  else if c = '-' then skipNumber
  else if c = '"' then skipString
  else skipNumberFrom c

mutual

/-- Moves over a value and everything after it up to the end of the outermost open frame. -/
def skipValue (frames : List Frame) : Scanner Unit := fun s =>
  let t := s.skipBlanks
  match _h : t.rest with
  | [] => .error ⟨.missingValue, t.nextPlace⟩
  | c :: _ =>
    if c = '[' ∨ c = '{' then
      let frame := if c = '[' then Frame.list else .object
      let u := (t.drop 1).skipBlanks
      match _hu : u.rest with
      | [] => .error ⟨if frame = .list then .unclosedList else .unclosedObject, u.nextPlace⟩
      | d :: _ =>
        if (frame = .list ∧ d = ']') ∨ (frame = .object ∧ d = '}') then
          match skipRest frames (u.drop 1) with
          | .error e => .error e
          | .ok y => .ok (y.since (Forward.trans s.length_skipBlanks_le
              (Forward.trans (t.ahead_drop 1) (Forward.trans (t.drop 1).length_skipBlanks_le
                (u.ahead_drop 1)))))
        else
          match (if frame = .object then skipKey else pure ()) u with
          | .error e => .error e
          | .ok x =>
            match skipValue (frame :: frames) x.next with
            | .error e => .error e
            | .ok y => .ok (y.since (Forward.trans s.length_skipBlanks_le
                (Forward.trans (t.ahead_drop 1) (Forward.trans (t.drop 1).length_skipBlanks_le x.ahead))))
    else if c = 'n' ∨ c = 't' ∨ c = 'f' ∨ c = '-' ∨ c = '"' ∨ Floating.isDecimalDigit c then
      match skipScalar c (t.drop 1) with
      | .error e => .error e
      | .ok x =>
        match skipRest frames x.next with
        | .error e => .error e
        | .ok y => .ok (y.since (Forward.trans s.length_skipBlanks_le
            (Forward.trans (t.ahead_drop 1) x.ahead)))
    else .error ⟨.expectedValue, t.nextPlace⟩
termination_by s => s.rest.length
decreasing_by
  · have h₂ : t.rest.length ≤ s.rest.length := s.length_skipBlanks_le
    have h₃ : u.rest.length ≤ t.rest.length - 1 := by
      simpa using (t.drop 1).length_skipBlanks_le
    have h₄ : 0 < u.rest.length := by rw [_hu]; simp
    have h₅ : (u.drop 1).rest.length = u.rest.length - 1 := by simp
    show (u.drop 1).rest.length < s.rest.length
    omega
  · have h₁ : x.next.rest.length ≤ u.rest.length := x.left_le
    have h₂ : t.rest.length ≤ s.rest.length := s.length_skipBlanks_le
    have h₃ : u.rest.length ≤ t.rest.length - 1 := by
      simpa using (t.drop 1).length_skipBlanks_le
    have h₄ : 0 < t.rest.length := by rw [_h]; simp
    omega
  · have h₁ : x.next.rest.length ≤ (t.drop 1).rest.length := x.left_le
    have h₂ : t.rest.length ≤ s.rest.length := s.length_skipBlanks_le
    have h₃ : (t.drop 1).rest.length = t.rest.length - 1 := by simp
    have h₄ : 0 < t.rest.length := by rw [_h]; simp
    omega

def skipRest (frames : List Frame) : Scanner Unit := fun s =>
  match frames with
  | [] => .ok ⟨(), s, Forward.refl s⟩
  | frame :: outer =>
    let t := s.skipBlanks
    match _h : t.rest with
    | [] => .error ⟨if frame = .list then .unclosedList else .unclosedObject, t.nextPlace⟩
    | c :: _ =>
      if c = ',' then
        match (if frame = .object then skipKey else pure ()) (t.drop 1) with
        | .error e => .error e
        | .ok x =>
          match skipValue frames x.next with
          | .error e => .error e
          | .ok y => .ok (y.since (Forward.trans s.length_skipBlanks_le
              (Forward.trans (t.ahead_drop 1) x.ahead)))
      else if (frame = .list ∧ c = ']') ∨ (frame = .object ∧ c = '}') then
        match skipRest outer (t.drop 1) with
        | .error e => .error e
        | .ok y => .ok (y.since (Forward.trans s.length_skipBlanks_le (t.ahead_drop 1)))
      else .error ⟨if frame = .list then .expectedListEnd else .expectedObjectEnd, t.nextPlace⟩
termination_by s => s.rest.length
decreasing_by
  · have h₁ : x.next.rest.length ≤ (t.drop 1).rest.length := x.left_le
    have h₂ : t.rest.length ≤ s.rest.length := s.length_skipBlanks_le
    have h₃ : (t.drop 1).rest.length = t.rest.length - 1 := by simp
    have h₄ : 0 < t.rest.length := by rw [_h]; simp
    omega
  · have h₂ : t.rest.length ≤ s.rest.length := s.length_skipBlanks_le
    have h₃ : (t.drop 1).rest.length = t.rest.length - 1 := by simp
    have h₄ : 0 < t.rest.length := by rw [_h]; simp
    show (t.drop 1).rest.length < s.rest.length
    omega

end

/-! ### Data -/

def wrongType (expected : String) : Scanner α := do
  let refuse (found : Found) : Scanner α := failHere (.invalidType found expected)
  match ← peek with
  | some 'n' => do
    eat 1
    word ['u', 'l', 'l']
    refuse .null
  | some 't' => do
    eat 1
    word ['r', 'u', 'e']
    refuse (.bool true)
  | some 'f' => do
    eat 1
    word ['a', 'l', 's', 'e']
    refuse (.bool false)
  | some '"' => do
    eat 1
    refuse (.string (← string))
  | some '[' => refuse .sequence
  | some '{' => refuse .map
  | some c =>
    let wrongNumber (n : Number) : Scanner α := match n with
      | .integer i => refuse (.integer i)
      | .floating x => refuse (.floating x)
    if c = '-' then do
      eat 1
      wrongNumber (← number false)
    else if Floating.isDecimalDigit c then do wrongNumber (← number true)
    else failNext .expectedValue
  | none => failNext .expectedValue

def expecting (expected : String) (begins : Char → Bool) (read : Char → Scanner α) : Scanner α := do
  match ← token with
  | none => failNext .missingValue
  | some c => if begins c then read c else wrongType expected

def bool : Scanner Bool :=
  expecting "a boolean" (fun c => c = 't' || c = 'f') fun c => do
    eat 1
    if c = 't' then do
      word ['r', 'u', 'e']
      return true
    else do
      word ['a', 'l', 's', 'e']
      return false

def text : Scanner String :=
  expecting "a string" (· = '"') fun _ => do
    eat 1
    string

/-- Reads a natural number of 64 bits, called `name` in messages. -/
def natural (name : String) : Scanner Nat :=
  expecting name (fun c => c = '-' || Floating.isDecimalDigit c) fun c => do
    if c = '-' then eat 1
    match ← number (c ≠ '-') with
    | .integer i =>
      if 0 ≤ i then return i.toNat else failHere (.invalidValue (.integer i) name)
    | .floating x => failHere (.invalidType (.floating x) name)

def optional (read : Scanner α) : Scanner (Option α) := do
  if (← token) = some 'n' then do
    eat 1
    word ['u', 'l', 'l']
    return none
  else return some (← read)

def list (levels : Nat) (item : Scanner α) : Scanner (List α) :=
  expecting "a sequence" (· = '[') fun _ => listOf levels item

def map (levels : Nat) (value : Scanner α) : Scanner (List (String × α)) :=
  expecting "a map" (· = '{') fun _ => mapOf levels value

/-- Reads one of some names: as a text, or as an object from the name to `null`. -/
def variant (levels : Nat) (names : List (String × α)) : Scanner α := do
  let pick : Scanner α := do
    let name ← text
    match names.lookup name with
    | some a => return a
    | none => failHere (.unknownVariant name (names.map Prod.fst))
  match ← token with
  | none => failNext .missingValue
  | some '"' => pick
  | some '{' => do
    enter levels
    let a ← pick
    colon
    expecting "unit variant" (· = 'n') fun _ => do
      eat 1
      word ['u', 'l', 'l']
    match ← token with
    | none => failHere .unclosedObject
    | some '}' => do
      eat 1
      return a
    | some _ => failHere .expectedValue
  | some _ => failNext .expectedValue

/-! ### Records -/

/-- Reads the next item of a list, or nothing at its end, which is not read. -/
def element (first : Bool) (read : Scanner α) : Scanner (Option α) := do
  match ← token with
  | none => failNext .unclosedList
  | some c =>
    if c = ']' then return none
    else if first then return some (← read)
    else if c = ',' then do
      eat 1
      match ← token with
      | none => failNext .missingValue
      | some d => if d = ']' then failNext .trailingComma else return some (← read)
    else failNext .expectedListEnd

/-- Moves over the end of a list that should have no further items. -/
def endList : Scanner Unit := do
  match ← token with
  | none => failNext .unclosedList
  | some c =>
    if c = ']' then eat 1
    else if c = ',' then do
      eat 1
      failNext (if (← token) = some ']' then .trailingComma else .trailingCharacters)
    else failNext .trailingCharacters

/-- Reads a record: a list of the values of its fields in order, or an object. The entries of an object
fill in a draft of the record, which has to be complete at the end. -/
def record (levels : Nat) (name : String) (values : Scanner α) (draft : β) (field : β → String → Scanner β)
    (complete : β → Scanner α) : Scanner α :=
  expecting ("struct " ++ name) (fun c => c = '[' || c = '{') fun c => do
    enter levels
    if c = '[' then do
      let a ← values
      endList
      return a
    else do
      let a ← complete (← entries field true draft)
      eat 1
      return a

def once (name : String) (before : Option α) (read : Scanner α) : Scanner (Option α) :=
  if before.isSome then failAfter '}' (.duplicateField name)
  else do
    colon
    return some (← read)

def required (name : String) : Option α → Scanner α
  | some a => pure a
  | none => failAfter '}' (.missingField name)

def ignored : Scanner Unit := do
  colon
  skipValue []

end Mcfunction.Json.Scanner
