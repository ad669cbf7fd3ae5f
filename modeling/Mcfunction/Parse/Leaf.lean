import Mcfunction.Parse.Component
import Mcfunction.Parse.Coordinate
import Mcfunction.Parse.Item
import Mcfunction.Parse.Selector

/-! The readers of single arguments. A command tree names the reader of an argument and gives it
properties; the registry says which reader a name stands for. Every reader of a single argument is
strict. -/

namespace Mcfunction

abbrev Properties := List (String × Json)

namespace Properties

def text? (p : Properties) (key : String) : Option String := (p.lookup key).bind Json.string?

def number? (p : Properties) (key : String) : Option Floating := (p.lookup key).bind Json.floating?

end Properties

inductive Leaf where
  | bool
  | integer
  | long
  | float
  | string
  | resource
  | resourceOrTag
  | vector3
  | vector2
  | blockPosition
  | columnPosition
  | angle
  | integerRange
  | floatRange
  | entity
  | scoreHolder
  | message
  | component
  | nbtCompound
  | nbtTag
  | blockState
  | blockPredicate
  | itemStack
  | itemPredicate
  | time
  | word
  | criteria
  | value
  | operation
  | uuid
  deriving DecidableEq, Repr

/-- What reads an argument: a reader of a single argument, or that of an indented block. -/
inductive ArgumentReader where
  | leaf (l : Leaf)
  | block
  deriving DecidableEq, Repr

namespace ArgumentReader

def blockName : String := "mecha:nested_root"

def standard : List (String × ArgumentReader) := [
  ("brigadier:bool", .leaf .bool),
  ("brigadier:integer", .leaf .integer),
  ("brigadier:long", .leaf .long),
  ("brigadier:float", .leaf .float),
  ("brigadier:double", .leaf .float),
  ("brigadier:string", .leaf .string),
  ("minecraft:resource_location", .leaf .resource),
  ("minecraft:resource", .leaf .resource),
  ("minecraft:resource_key", .leaf .resource),
  ("minecraft:dimension", .leaf .resource),
  ("minecraft:entity_summon", .leaf .resource),
  ("minecraft:mob_effect", .leaf .resource),
  ("minecraft:function", .leaf .resourceOrTag),
  ("minecraft:resource_or_tag", .leaf .resourceOrTag),
  ("minecraft:resource_or_tag_key", .leaf .resourceOrTag),
  ("minecraft:vec3", .leaf .vector3),
  ("minecraft:vec2", .leaf .vector2),
  ("minecraft:block_pos", .leaf .blockPosition),
  ("minecraft:column_pos", .leaf .columnPosition),
  ("minecraft:rotation", .leaf .vector2),
  ("minecraft:angle", .leaf .angle),
  ("minecraft:int_range", .leaf .integerRange),
  ("minecraft:float_range", .leaf .floatRange),
  ("minecraft:entity", .leaf .entity),
  ("minecraft:game_profile", .leaf .entity),
  ("minecraft:score_holder", .leaf .scoreHolder),
  ("minecraft:message", .leaf .message),
  ("minecraft:component", .leaf .component),
  ("minecraft:nbt_compound_tag", .leaf .nbtCompound),
  ("minecraft:nbt_tag", .leaf .nbtTag),
  ("minecraft:nbt_path", .leaf .value),
  ("minecraft:block_state", .leaf .blockState),
  ("minecraft:block_predicate", .leaf .blockPredicate),
  ("minecraft:item_stack", .leaf .itemStack),
  ("minecraft:item_predicate", .leaf .itemPredicate),
  ("minecraft:time", .leaf .time),
  ("minecraft:objective", .leaf .word),
  ("minecraft:team", .leaf .word),
  ("minecraft:color", .leaf .word),
  ("minecraft:gamemode", .leaf .word),
  ("minecraft:swizzle", .leaf .word),
  ("minecraft:entity_anchor", .leaf .word),
  ("minecraft:scoreboard_slot", .leaf .word),
  ("minecraft:heightmap", .leaf .word),
  ("minecraft:template_mirror", .leaf .word),
  ("minecraft:template_rotation", .leaf .word),
  ("minecraft:objective_criteria", .leaf .criteria),
  ("minecraft:item_slot", .leaf .value),
  ("minecraft:operation", .leaf .operation),
  ("minecraft:uuid", .leaf .uuid),
  (blockName, .block)]

end ArgumentReader

abbrev Registry := String → Option ArgumentReader

namespace Registry

def standard : Registry := fun name => ArgumentReader.standard.lookup name

/-- Gives a reader a further name, which no longer stands for anything else. -/
def register (r : Registry) (name : String) (reader : ArgumentReader) : Registry := fun key =>
  if key = name then some reader else r key

end Registry

namespace Parse

/-! ### Arguments that depend on properties -/

def bool : Parse Node := do
  let (text, span) ← word
  if text = "true" then return ⟨.bool true, span⟩
  else if text = "false" then return ⟨.bool false, span⟩
  else failAt span (.expected "boolean")

def checkBounds (p : Properties) (n : Number) (span : Span) : Parse Unit :=
  let low := match p.number? "min" with
    | some min => if n.toFloating.less min then some (Complaint.belowMinimum min n) else none
    | none => none
  let high := match p.number? "max" with
    | some max => if max.less n.toFloating then some (Complaint.aboveMaximum max n) else none
    | none => none
  match low, high with
  | some complaint, _ => failAt span complaint
  | none, some complaint => failAt span complaint
  | none, none => pure ()

/-- Reads a number within the bounds that the properties set, and of 32 bits if it is so limited. -/
def bounded (p : Properties) (integral limited : Bool) : Parse Node := do
  let n ← number integral
  match n.form with
  | .number value =>
    if limited ∧ !(match value with
      | .int i => fits 32 i
      | .float _ => true) then failAt n.span .integerOutOfRange
    else do
      checkBounds p value n.span
      return n
  | _ => return n

def greedy : Parse Node := do
  let (text, span) ← line
  if text = "" then failAt span (.expected "string") else return ⟨.greedy text, span⟩

def phrase : Parse Node := do
  let (text, span) ← quoted
  return ⟨.string text, span⟩

def string (p : Properties) : Parse Node := do
  let phrases ← atQuote
  if p.text? "type" = some "greedy" then greedy
  else if p.text? "type" = some "phrase" ∧ phrases then phrase
  else wordNode Token.word "string"

def checkTarget (p : Properties) (players : Bool) (n : Node) : Parse Node :=
  if p.text? "amount" = some "single" ∧ !Selector.isSingle n then failAt n.span .tooManyEntities
  else if players ∧ p.text? "type" = some "players" ∧ !Selector.isPlayers n then
    failAt n.span .notOnlyPlayers
  else pure n

def namedEntity : Parse Node := do
  match ← token? Token.uuid with
  | some (text, span) => return ⟨.word text, span⟩
  | none => wordNode Token.playerName "entity"

def anyEntity : Parse Node := do
  if (← peek) = some '@' then Selector.selector else namedEntity

def entity (p : Properties) : Parse Node := do
  checkTarget p true (← anyEntity)

def scoreHolder (p : Properties) : Parse Node := do
  if (← peek) = some '@' then do
    checkTarget p false (← Selector.selector)
  else wordNode Token.value "score holder"

def timeToken : Parse (String × Option Char) := fun c =>
  let n := Token.decimal c.rest
  if c.rest = [] ∨ n = 0 then .error ⟨.expected "time", c.spanHere⟩
  else
    let unit := Token.timeUnit? (c.rest.drop n)
    .ok ⟨(String.ofList (c.rest.take n), unit), c.drop (n + unit.toList.length), c.reaches_drop _⟩

def time : Parse Node := do
  let ((text, unit), span) ← spanned timeToken
  let n ← numberAt text span false
  return ⟨.time n unit, span⟩

end Parse

def Leaf.read (p : Properties) : Leaf → Parse Node
  | .bool => Parse.bool
  | .integer => Parse.bounded p true true
  | .long => Parse.bounded p true false
  | .float => Parse.bounded p false false
  | .string => Parse.string p
  | .resource => Parse.resourceLocation false
  | .resourceOrTag => Parse.resourceLocation true
  | .vector3 => Parse.vector3 false
  | .vector2 => Parse.vector2 false
  | .blockPosition => Parse.vector3 true
  | .columnPosition => Parse.vector2 true
  | .angle => Parse.angle
  | .integerRange => Parse.range true
  | .floatRange => Parse.range false
  | .entity => Parse.entity p
  | .scoreHolder => Parse.scoreHolder p
  | .message => Selector.message
  | .component => Parse.component
  | .nbtCompound => Snbt.compound
  | .nbtTag => Snbt.tag
  | .blockState => Parse.block false
  | .blockPredicate => Parse.block true
  | .itemStack => Parse.item false
  | .itemPredicate => Parse.item true
  | .time => Parse.time
  | .word => Parse.wordNode Token.word "word"
  | .criteria => Parse.wordNode Token.criteria "criteria"
  | .value => Parse.wordNode Token.value "value"
  | .operation => Parse.wordNode Token.operation "operation"
  | .uuid => Parse.wordNode Token.uuid "uuid"

/-! ### Strictness -/

namespace Parse

theorem word_strict {c : Cursor} {x : Step c (String × Span)} (h : word c = .ok x) (hx : x.value.1 ≠ "") :
    x.next.remaining < c.remaining := by
  cases h
  have hn : Token.value c.rest ≠ 0 := by
    intro h₀
    apply hx
    show String.ofList (c.rest.take (Token.value c.rest)) = ""
    rw [h₀]
    rfl
  have hc : c.rest ≠ [] := by
    intro h₀
    rw [h₀] at hn
    exact hn rfl
  exact advance_strict (Nat.pos_of_ne_zero hn) hc rfl

theorem bool_strict : bool.Strict := by
  intro c x h
  obtain ⟨y, z, hy, hz, rfl⟩ := Reader.bind_ok h
  by_cases hw : y.value.1 = ""
  · simp only [hw] at hz
    cases hz
  · exact Nat.lt_of_le_of_lt z.left_le (word_strict hy hw)

theorem bounded_strict (p : Properties) (integral limited : Bool) : (bounded p integral limited).Strict :=
  .bind_left (number_strict integral) _

theorem line_strict {c : Cursor} {x : Step c (String × Span)} (h : line c = .ok x) (hx : x.value.1 ≠ "") :
    x.next.remaining < c.remaining := by
  cases h
  have hn : c.lineRest.length ≠ 0 := by
    intro h₀
    apply hx
    show String.ofList (c.rest.take c.lineRest.length) = ""
    rw [h₀]
    rfl
  exact advance_strict (Nat.pos_of_ne_zero hn) (lineRest_ne_nil (Nat.pos_of_ne_zero hn)) rfl

theorem greedy_strict : greedy.Strict := by
  intro c x h
  obtain ⟨y, z, hy, hz, rfl⟩ := Reader.bind_ok h
  by_cases hw : y.value.1 = ""
  · simp only [hw] at hz
    cases hz
  · exact Nat.lt_of_le_of_lt z.left_le (line_strict hy hw)

theorem phrase_strict : phrase.Strict := .bind_left quoted_strict _

theorem string_strict (p : Properties) : (string p).Strict :=
  .bind_right _ fun _ => .ite greedy_strict (.ite phrase_strict (wordNode_strict _ _))

theorem namedEntity_strict : namedEntity.Strict := by
  intro c x h
  obtain ⟨y, z, hy, hz, rfl⟩ := Reader.bind_ok h
  cases hv : y.value with
  | none =>
    rw [hv] at hz
    have hlt : z.next.remaining < y.next.remaining := wordNode_strict _ _ _ hz
    exact Nat.lt_of_lt_of_le hlt y.left_le
  | some found =>
    exact Nat.lt_of_le_of_lt z.left_le (token?_some_strict hy (by simp [hv]))

theorem anyEntity_strict : anyEntity.Strict :=
  .bind_right _ fun _ => .ite Selector.selector_strict namedEntity_strict

theorem entity_strict (p : Properties) : (entity p).Strict := .bind_left anyEntity_strict _

theorem scoreHolder_strict (p : Properties) : (scoreHolder p).Strict :=
  .bind_right _ fun _ => .ite (.bind_left Selector.selector_strict _) (wordNode_strict _ _)

theorem timeToken_strict : timeToken.Strict := by
  intro c x h
  unfold timeToken at h
  dsimp only at h
  split at h
  · cases h
  · rename_i hc
    cases h
    simp only [not_or] at hc
    exact advance_strict (by omega) hc.1 rfl

theorem time_strict : time.Strict := .bind_left (spanned_strict timeToken_strict) _

end Parse

theorem Leaf.read_strict (p : Properties) (l : Leaf) : (l.read p).Strict := by
  cases l
  case bool => exact Parse.bool_strict
  case integer => exact Parse.bounded_strict _ _ _
  case long => exact Parse.bounded_strict _ _ _
  case float => exact Parse.bounded_strict _ _ _
  case string => exact Parse.string_strict p
  case resource => exact Parse.resourceLocation_strict _
  case resourceOrTag => exact Parse.resourceLocation_strict _
  case vector3 => exact Parse.vector3_strict _
  case vector2 => exact Parse.vector2_strict _
  case blockPosition => exact Parse.vector3_strict _
  case columnPosition => exact Parse.vector2_strict _
  case angle => exact Parse.angle_strict
  case integerRange => exact Parse.range_strict _
  case floatRange => exact Parse.range_strict _
  case entity => exact Parse.entity_strict p
  case scoreHolder => exact Parse.scoreHolder_strict p
  case message => exact Selector.message_strict
  case component => exact Parse.component_strict
  case nbtCompound => exact Snbt.compound_strict
  case nbtTag => exact Snbt.tag_strict
  case blockState => exact Parse.block_strict _
  case blockPredicate => exact Parse.block_strict _
  case itemStack => exact Parse.item_strict _
  case itemPredicate => exact Parse.item_strict _
  case time => exact Parse.time_strict
  all_goals exact Parse.wordNode_strict _ _

end Mcfunction
