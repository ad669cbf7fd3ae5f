import Mcfunction.Parse.Basic
import Mcfunction.Text.Quoted

/-! Reading numbers, quoted strings, words, resource locations and ranges. -/

namespace Mcfunction.Parse

/-! ### Numbers -/

def integerValue? (text : String) : Option Int :=
  let (negative, ds) := match text.toList with
    | '-' :: ds => (true, ds)
    | '+' :: ds => (false, ds)
    | ds => (false, ds)
  if ds ≠ [] ∧ ds.all Floating.isDecimalDigit then
    some (if negative then -(Floating.digitsValue ds : Int) else Floating.digitsValue ds)
  else none

def fits (bits : Nat) (i : Int) : Bool :=
  -((Nat.pow 2 (bits - 1) : Nat) : Int) ≤ i && i < (Nat.pow 2 (bits - 1) : Nat)

/-- The integer that a text spells, if it fits `bits` bits with sign. -/
def signedValue? (bits : Nat) (text : String) : Option Int :=
  match integerValue? text with
  | some i => if fits bits i then some i else none
  | none => none

/-- The number of a token. An integer place takes integers of 64 bits only; elsewhere such an integer
stays exact, and everything else is a double. -/
def numberValue (text : String) (integral : Bool) : Except Complaint Number :=
  let decimal : Except Complaint Number := match Floating.read? .double text with
    | some x => .ok (.float x)
    | none => .error (.invalidNumber text)
  if '.' ∈ text.toList then
    if integral then .error (.expected "integer") else decimal
  else
    match signedValue? 64 text with
    | some i => .ok (.int i)
    | none => if integral then .error (.numberOutOfRange text) else decimal

def numberAt (text : String) (span : Span) (integral : Bool) : Parse Number :=
  match numberValue text integral with
  | .ok n => pure n
  | .error complaint => failAt span complaint

def number (integral : Bool) : Parse Node := do
  let (text, span) ← token Token.number "number"
  let n ← numberAt text span integral
  return ⟨.number n, span⟩

theorem number_strict (integral : Bool) : (number integral).Strict := .bind_left (token_strict _ _) _

def rangeEnd (integral : Bool) : Parse (Option Number) := do
  match ← token? (if integral then Token.rangeInteger else Token.rangeDecimal) with
  | some (text, span) => return some (← numberAt text span integral)
  | none => return none

def rangeEnds (integral : Bool) : Parse (Option Number × Option Number) := do
  let min ← rangeEnd integral
  if ← consume ".." then return (min, ← rangeEnd integral) else return (min, min)

/-- Reads a range of numbers, at least one end of which is written. -/
def range (integral : Bool) : Parse Node := do
  let ((min, max), span) ← spanned (rangeEnds integral)
  match min, max with
  | none, none => failAt span (.expected "range")
  | some a, some b =>
    if b.toFloating.less a.toFloating then failAt span .rangeBackwards else return ⟨.range min max, span⟩
  | _, _ => return ⟨.range min max, span⟩

/-! ### Texts -/

def quotedText : Parse String := fun c =>
  match c.rest with
  | [] => .error ⟨.expected "quoted string", c.spanHere⟩
  | q :: rest =>
    if q = '"' ∨ q = '\'' then
      match Text.unquote q rest with
      | .ok (text, n) => .ok ⟨String.ofList text, c.drop (n + 1), c.reaches_drop _⟩
      | .error (.unclosed n) => .error ⟨.unclosedString, ⟨c.location, (c.drop (n + 1)).location⟩⟩
      | .error (.escape n) => .error ⟨.invalidEscape, (c.drop (n + 1)).spanHere⟩
    else .error ⟨.expected "quoted string", c.spanHere⟩

def quoted : Parse (String × Span) := spanned quotedText

theorem quotedText_strict : quotedText.Strict := by
  intro c x h
  unfold quotedText at h
  split at h
  · cases h
  · rename_i q rest hrest
    have hpos : 0 < c.remaining := by simp [Cursor.remaining, hrest]
    split at h
    · split at h
      · cases h
        show (c.drop _).remaining < c.remaining
        simp only [Cursor.remaining_drop]
        omega
      · cases h
      · cases h
    · cases h

theorem quoted_strict : quoted.Strict := spanned_strict quotedText_strict

def atQuote : Parse Bool := do
  let c ← peek
  return c = some '"' || c = some '\''

def wordNode (t : Token) (what : String) : Parse Node := do
  let (text, span) ← token t what
  return ⟨.word text, span⟩

theorem wordNode_strict (t : Token) (what : String) : (wordNode t what).Strict :=
  .bind_left (token_strict _ _) _

/-! ### Resource locations -/

def anyLocation : Parse ResourceLocation := fun c =>
  match Token.resourceLocation? c.rest with
  | none => .error ⟨.expected "resource location", c.spanHere⟩
  | some (location, n) => .ok ⟨location, c.drop n, c.reaches_drop n⟩

def resourceLocation (allowTag : Bool) : Parse Node := do
  let (location, span) ← spanned anyLocation
  if location.isTag ∧ !allowTag then failAt span .tagNotAllowed
  else return ⟨.resourceLocation location, span⟩

/-! ### Strictness of ranges and resource locations -/

theorem rangeEnd_strict {integral : Bool} {c : Cursor} {x : Step c (Option Number)}
    (h : rangeEnd integral c = .ok x) (hx : x.value.isSome) : x.next.remaining < c.remaining := by
  obtain ⟨y, z, hy, hz, rfl⟩ := Reader.bind_ok h
  cases hv : y.value with
  | none =>
    rw [hv] at hz
    cases hz
    cases hx
  | some found =>
    have hlt := token?_some_strict hy (by simp [hv])
    exact Nat.lt_of_le_of_lt z.left_le hlt

theorem rangeEnds_strict {integral : Bool} {c : Cursor} {x : Step c (Option Number × Option Number)}
    (h : rangeEnds integral c = .ok x) (hx : x.value ≠ (none, none)) : x.next.remaining < c.remaining := by
  obtain ⟨y, w, hy, hw, rfl⟩ := Reader.bind_ok h
  obtain ⟨d, z, hd, hz, rfl⟩ := Reader.bind_ok hw
  have hyc : y.next.remaining ≤ c.remaining := y.left_le
  have hdy : d.next.remaining ≤ y.next.remaining := d.left_le
  have hzd : z.next.remaining ≤ d.next.remaining := z.left_le
  show z.next.remaining < c.remaining
  cases hdots : d.value with
  | true =>
    have := consume_strict (by decide) hd hdots
    omega
  | false =>
    rw [hdots] at hz
    cases hz
    have hmin : y.value.isSome := by
      cases hv : y.value
      · simp [hv] at hx
      · rfl
    have := rangeEnd_strict hy hmin
    omega

theorem range_strict (integral : Bool) : (range integral).Strict := by
  intro c x h
  obtain ⟨y, z, hy, hz, rfl⟩ := Reader.bind_ok h
  obtain ⟨first, w, hfirst, hw, rfl⟩ := Reader.bind_ok hy
  obtain ⟨ends, v, hends, hv, rfl⟩ := Reader.bind_ok hw
  cases hfirst
  cases hv
  have hle : z.next.remaining ≤ ends.next.remaining := z.left_le
  refine Nat.lt_of_le_of_lt hle (rangeEnds_strict hends ?_)
  intro hnone
  simp only [Step.since_value, hnone] at hz
  cases hz

theorem untagged?_pos {isTag : Bool} {cs : List Char} {l : ResourceLocation} {n : Nat}
    (h : Token.untagged? isTag cs = some (l, n)) : 0 < n ∧ cs ≠ [] := by
  cases cs with
  | nil => simp [Token.untagged?] at h
  | cons c cs =>
    refine ⟨?_, by simp⟩
    have bare : ∀ {l n}, (if (c :: cs).takeWhile Token.isPathChar = [] then none
        else some ((⟨isTag, none, String.ofList ((c :: cs).takeWhile Token.isPathChar)⟩ : ResourceLocation),
          ((c :: cs).takeWhile Token.isPathChar).length)) = some (l, n) → 0 < n := by
      intro l n h
      split at h
      · cases h
      · rename_i hne
        cases h
        exact List.length_pos_iff.2 hne
    unfold Token.untagged? at h
    dsimp only at h
    split at h
    · split at h
      · exact bare h
      · cases h
        omega
    · exact bare h

theorem anyLocation_strict : anyLocation.Strict := by
  intro c x h
  unfold anyLocation at h
  split at h
  · cases h
  · rename_i l n hl
    cases h
    have hn : 0 < n ∧ c.rest ≠ [] := by
      unfold Token.resourceLocation? at hl
      split at hl
      · simp only [Option.map_eq_some_iff] at hl
        obtain ⟨⟨l', n'⟩, h', he⟩ := hl
        cases he
        exact ⟨by omega, by simp [*]⟩
      · exact untagged?_pos hl
    exact advance_strict hn.1 hn.2 rfl

theorem resourceLocation_strict (allowTag : Bool) : (resourceLocation allowTag).Strict :=
  .bind_left (spanned_strict anyLocation_strict) _

end Mcfunction.Parse
