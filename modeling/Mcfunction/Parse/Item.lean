import Mcfunction.Snbt.Parse

/-! Reading blocks and items: a resource location with properties and data behind it. -/

namespace Mcfunction.Parse

def blockProperty : Parse Node := node do
  let (key, _) ← token Token.word "block property"
  skipSpaces
  expect "="
  skipSpaces
  let (value, _) ← token Token.word "property value"
  return .blockProperty key value

def dataTags : Parse (Option Node) := do
  if (← peek) = some '{' then return some (← Snbt.compound) else return none

def block (allowTag : Bool) : Parse Node := node do
  let identifier ← resourceLocation allowTag
  let properties ← if ← consume "[" then list ']' blockProperty else pure []
  return .blockState identifier properties (← dataTags)

def item (allowTag : Bool) : Parse Node := node do
  let identifier ← resourceLocation allowTag
  return .itemStack identifier (← dataTags)

theorem block_strict (allowTag : Bool) : (block allowTag).Strict :=
  node_strict (.bind_left (resourceLocation_strict _) _)

theorem item_strict (allowTag : Bool) : (item allowTag).Strict :=
  node_strict (.bind_left (resourceLocation_strict _) _)

end Mcfunction.Parse
