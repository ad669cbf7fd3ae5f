/-! Kinds of nodes. Every kind has a place in a small hierarchy: the kinds of plain values lie under
`value`, vectors under `vector`, SNBT tags under `nbt`, and everything under `node`. No node is of one of
these four, but a rule may ask for them. -/

namespace Mcfunction

inductive Kind where
  | node
  | value
  | vector
  | nbt
  | root
  | command
  | comment
  | bool
  | number
  | word
  | string
  | greedy
  | time
  | resourceLocation
  | coordinate
  | vector2
  | vector3
  | range
  | selector
  | selectorArgument
  | selectorScores
  | selectorScoreMatch
  | selectorAdvancements
  | selectorAdvancementMatch
  | selectorCriteria
  | selectorCriteriaMatch
  | message
  | messageText
  | json
  | nbtCompound
  | nbtCompoundEntry
  | nbtList
  | nbtArray
  | nbtValue
  | blockState
  | blockProperty
  | itemStack
  deriving DecidableEq

namespace Kind

def names : List (Kind × String) :=
  [(node, "Node"), (value, "Value"), (vector, "Vector"), (nbt, "Nbt"), (root, "Root"),
   (command, "Command"), (comment, "Comment"), (bool, "Bool"), (number, "Number"), (word, "Word"),
   (string, "String"), (greedy, "Greedy"), (time, "Time"), (resourceLocation, "ResourceLocation"),
   (coordinate, "Coordinate"), (vector2, "Vector2"), (vector3, "Vector3"), (range, "Range"),
   (selector, "Selector"), (selectorArgument, "SelectorArgument"), (selectorScores, "SelectorScores"),
   (selectorScoreMatch, "SelectorScoreMatch"), (selectorAdvancements, "SelectorAdvancements"),
   (selectorAdvancementMatch, "SelectorAdvancementMatch"), (selectorCriteria, "SelectorCriteria"),
   (selectorCriteriaMatch, "SelectorCriteriaMatch"), (message, "Message"), (messageText, "MessageText"),
   (json, "Json"), (nbtCompound, "NbtCompound"), (nbtCompoundEntry, "NbtCompoundEntry"),
   (nbtList, "NbtList"), (nbtArray, "NbtArray"), (nbtValue, "NbtValue"), (blockState, "BlockState"),
   (blockProperty, "BlockProperty"), (itemStack, "ItemStack")]

def name (k : Kind) : String := (names.lookup k).getD ""

def display (k : Kind) : String := "Ast" ++ k.name

def ofName? (name : String) : Option Kind := (names.find? (·.2 = name)).map Prod.fst

def parent : Kind → Option Kind
  | node => none
  | bool | number | word | string | greedy | time => some value
  | vector2 | vector3 => some vector
  | nbtCompound | nbtList | nbtArray | nbtValue => some nbt
  | _ => some node

def depth : Kind → Nat
  | node => 0
  | bool | number | word | string | greedy | time | vector2 | vector3 | nbtCompound | nbtList | nbtArray
  | nbtValue => 2
  | _ => 1

theorem depth_parent {k p : Kind} (h : k.parent = some p) : p.depth < k.depth := by
  cases k <;> simp [parent] at h <;> subst h <;> decide

/-- A kind and all that are more general, the most general last. -/
def ancestors (k : Kind) : List Kind :=
  match _h : k.parent with
  | none => [k]
  | some p => k :: p.ancestors
termination_by k.depth
decreasing_by exact depth_parent _h

end Kind

end Mcfunction
