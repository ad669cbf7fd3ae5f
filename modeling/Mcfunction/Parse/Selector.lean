import Mcfunction.Snbt.Parse
import Mcfunction.Text.Alphanumeric

/-! Target selectors, and the messages that hold them. -/

namespace Mcfunction.Selector

open Parse

def invertible : List String := ["name", "tag", "team", "type", "gamemode", "predicate", "nbt"]

def repeatable : List String := ["tag", "type", "predicate", "nbt", "name", "gamemode", "team"]

def sortOrders : List String := ["nearest", "furthest", "random", "arbitrary"]

def isTarget (c : Char) : Bool := c = 'p' || c = 'a' || c = 'r' || c = 's' || c = 'e' || c = 'n'

def boolean : Parse Bool := do
  if ← consume "true" then return true
  else if ← consume "false" then return false
  else fail (.expected "boolean")

/-- Reads the sign between a key and its value, with the spaces around it. -/
def equalsSign : Parse Unit := do
  skipSpaces
  expect "="
  skipSpaces

def braced (entry : Parse Node) : Parse (List Node) := do
  expect "\x7b"
  list '}' entry

def scores : Parse Node := node do
  return .selectorScores (← braced (node do
    let (key, _) ← token Token.word "objective"
    equalsSign
    return .selectorScoreMatch key (← range true)))

def criteria : Parse Node := node do
  return .selectorCriteria (← braced (node do
    let (key, _) ← token Token.word "criterion"
    equalsSign
    return .selectorCriteriaMatch key (← boolean)))

/-- Reads advancements, each with whether it is complete or with its criteria. -/
def advancements : Parse Node := node do
  return .selectorAdvancements (← braced (node do
    let key ← resourceLocation false
    equalsSign
    let value ← if (← peek) = some '{' then criteria else node do return .bool (← boolean)
    return .selectorAdvancementMatch key value))

def limit : Parse Node := do
  let n ← number true
  match n.form with
  | .number (.int i) => if i < 1 then failAt n.span .limitTooSmall else return n
  | _ => return n

def sortOrder : Parse Node := do
  let n ← wordNode Token.word "sort order"
  match n.form with
  | .word order => if order ∈ sortOrders then return n else failAt n.span .badSortOrder
  | _ => failAt n.span .badSortOrder

def name : Parse Node := do
  if ← atQuote then do
    let (text, span) ← quoted
    return ⟨.string text, span⟩
  else wordNode Token.word "name"

def optionalWord (what : String) : Parse (Option Node) := do
  let c ← peek
  if c = some ',' ∨ c = some ']' ∨ c = some ' ' then return none
  else return some (← wordNode Token.word what)

def argumentValue (key : String) (span : Span) : Parse (Option Node) :=
  if key ∈ ["x", "y", "z", "dx", "dy", "dz"] then some <$> number false
  else if key ∈ ["distance", "x_rotation", "y_rotation"] then some <$> range false
  else if key = "level" then some <$> range true
  else if key = "limit" then some <$> limit
  else if key = "sort" then some <$> sortOrder
  else if key = "gamemode" then some <$> wordNode Token.word "game mode"
  else if key = "name" then some <$> name
  else if key = "tag" ∨ key = "team" then optionalWord key
  else if key = "type" then some <$> resourceLocation true
  else if key = "predicate" then some <$> resourceLocation false
  else if key = "nbt" then some <$> Snbt.compound
  else if key = "scores" then some <$> scores
  else if key = "advancements" then some <$> advancements
  else failAt span (.unknownSelectorArgument key)

def argument : Parse Node := node do
  let (key, span) ← token Token.word "selector argument"
  equalsSign
  let inverted ← consume "!"
  if inverted ∧ key ∉ invertible then failAt span (.notInvertible key)
  else do
    skipSpaces
    return .selectorArgument inverted key (← argumentValue key span)

def target : Parse String := fun c =>
  match c.rest with
  | '@' :: v :: _ =>
    if isTarget v then .ok ⟨String.singleton v, c.drop 2, c.reaches_drop 2⟩
    else .error ⟨.expected "selector", c.spanHere⟩
  | _ => .error ⟨.expected "selector", c.spanHere⟩

def selector : Parse Node := node do
  let v ← target
  let arguments ← if ← consume "[" then list ']' argument else pure []
  return .selector v arguments

theorem target_strict : target.Strict := by
  intro c x h
  unfold target at h
  split at h
  · rename_i hc
    split at h
    · cases h
      exact advance_strict (by decide) (by simp [hc]) rfl
    · cases h
  · cases h

theorem selector_strict : selector.Strict := node_strict (.bind_left target_strict _)

/-! ### What a selector can match -/

/-- The value of the first argument with a key that has one, and whether it is inverted. -/
def argumentOf (key : String) (arguments : List Node) : Option (Node × Bool) :=
  arguments.findSome? fun n => match n.form with
    | .selectorArgument inverted k (some value) => if k = key then some (value, inverted) else none
    | _ => none

def isSingle (n : Node) : Bool :=
  match n.form with
  | .selector v arguments =>
    let limit := match argumentOf "limit" arguments with
      | some (⟨.number (.int i), _⟩, _) => some i
      | _ => none
    if v = "p" ∨ v = "r" ∨ v = "s" ∨ v = "n" then
      match limit with
      | some i => i ≤ 1
      | none => true
    else limit = some 1
  | _ => true

def isPlayers (n : Node) : Bool :=
  match n.form with
  | .selector v arguments =>
    if v = "e" ∨ v = "n" then
      match argumentOf "type" arguments with
      | some (⟨.resourceLocation l, _⟩, inverted) => !inverted && !l.isTag && l.path = "player"
      | _ => false
    else true
  | _ => true

/-! ### Messages -/

/-- Whether a selector, and not the start of a longer word, is next. -/
def isAhead : List Char → Bool
  | '@' :: v :: rest => isTarget v && match rest with
    | c :: _ => !(Text.isAlphanumeric c || c = '_')
    | [] => true
  | _ => false

/-- The text of a message that was read from some location on, backwards, if it is not empty. -/
def pendingText (text : List Char) (first : Location) (c : Cursor) : List Node :=
  if text = [] then [] else [⟨.messageText (String.ofList text.reverse), c.spanFrom first⟩]

/-- Reads the rest of a message: its fragments, and before them the text that was read from some
location on, backwards. -/
def fragmentsFrom (text : List Char) (first : Location) (c : Cursor) :
    Except SyntaxError (Step c (List Node)) :=
  match _h : c.rest with
  | [] => .ok ⟨pendingText text first c, c, .refl c⟩
  | ch :: _ =>
    if c.atLineEnd then .ok ⟨pendingText text first c, c, .refl c⟩
    else if isAhead c.rest then
      match _hx : selector c with
      | .error e => .error e
      | .ok x =>
        match fragmentsFrom [] x.next.location x.next with
        | .error e => .error e
        | .ok y => .ok ⟨pendingText text first c ++ x.value :: y.value, y.next, x.ahead.trans y.ahead⟩
    else
      match fragmentsFrom (ch :: text) first (c.drop 1) with
      | .error e => .error e
      | .ok y => .ok (y.since (c.reaches_drop 1))
termination_by c.remaining
decreasing_by
  · exact selector_strict _ _hx
  · have : 0 < c.remaining := by simp [Cursor.remaining, _h]
    simp only [Cursor.remaining_drop]
    omega

def fragments : Parse (List Node) := fun c =>
  if c.atLineEnd then .error ⟨.expected "message", c.spanHere⟩ else fragmentsFrom [] c.location c

def message : Parse Node := node do
  return .message (← fragments)

theorem fragments_strict : fragments.Strict := by
  intro c x h
  unfold fragments at h
  split at h
  · cases h
  · rename_i hend
    rw [fragmentsFrom] at h
    split at h
    · rename_i hc
      simp [Cursor.atLineEnd, hc] at hend
    · rename_i ch rest hc
      have hpos : 0 < c.remaining := by simp [Cursor.remaining, hc]
      split at h
      · simp_all
      · split at h
        · split at h
          · cases h
          · rename_i y hy
            split at h
            · cases h
            · rename_i z hz
              cases h
              exact Nat.lt_of_le_of_lt z.left_le (selector_strict _ hy)
        · split at h
          · cases h
          · rename_i z hz
            cases h
            have hle : z.next.remaining ≤ (c.drop 1).remaining := z.left_le
            show z.next.remaining < c.remaining
            simp only [Cursor.remaining_drop] at hle
            omega

theorem message_strict : message.Strict := node_strict (.bind_left fragments_strict _)

end Mcfunction.Selector
