import Mcfunction.Yaml.Token

/-! The document of a YAML text. An alias stands for what its anchor was given to before it. -/

namespace Mcfunction.Yaml

structure Scope where
  prefixes : List (String × String)
  anchors : List (String × Yaml) := []

/-- What has been read off some tokens: a document, the names after it, and the tokens that are left. -/
abbrev Parsed := Option (Yaml × Scope × List Token)

namespace Scope

def tag? (scope : Scope) (handle suffix : String) : Option String :=
  if handle = "" then some suffix else (scope.prefixes.lookup handle).map (· ++ suffix)

def give (scope : Scope) (anchor : Option String) (y : Yaml) : Scope :=
  match anchor with
  | some name => { scope with anchors := (name, y) :: scope.anchors }
  | none => scope

end Scope

structure Properties where
  anchor : Option String := none
  tag : Option String := none

def properties (scope : Scope) : List Token → Option (Properties × List Token)
  | .anchor name :: .tag handle suffix :: rest =>
    (scope.tag? handle suffix).map fun tag => ({ anchor := some name, tag := some tag }, rest)
  | .tag handle suffix :: .anchor name :: rest =>
    (scope.tag? handle suffix).map fun tag => ({ anchor := some name, tag := some tag }, rest)
  | .anchor name :: rest => some ({ anchor := some name }, rest)
  | .tag handle suffix :: rest => (scope.tag? handle suffix).map fun tag => ({ tag := some tag }, rest)
  | rest => some ({}, rest)

def left : Yaml := .scalar .empty

mutual

/-- Reads a node. In a block it may be a block; as a value of a map, it may be a list that is not further in
than its key. -/
def node : (fuel : Nat) → (inBlock asValue : Bool) → Scope → List Token → Parsed
  | 0, _, _, _, _ => none
  | _ + 1, _, _, scope, .alias name :: rest => (scope.anchors.lookup name).map fun y => (y, scope, rest)
  | fuel + 1, inBlock, asValue, scope, ts => do
    let (p, ts) ← properties scope ts
    let (y, scope, ts) ← match ts with
      | .scalar text style :: rest => some (.scalar { text, style, tag := p.tag }, scope, rest)
      | .flowListStart :: rest => flowList fuel true [] scope rest
      | .flowMapStart :: rest => flowMap fuel true [] scope rest
      | .listStart :: rest => if inBlock then blockList fuel [] scope rest else bare p scope ts
      | .mapStart :: rest => if inBlock then blockMap fuel [] scope rest else bare p scope ts
      | .entry :: _ => if asValue then plainList fuel [] scope ts else bare p scope ts
      | _ => bare p scope ts
    return (y, scope.give p.anchor y, ts)
where
  bare (p : Properties) (scope : Scope) (ts : List Token) : Parsed :=
    if p.anchor.isSome || p.tag.isSome then some (.scalar { text := "", tag := p.tag }, scope, ts) else none

/-- Reads a node, unless one of some tokens shows that it is left out. -/
def nodeUnless (fuel : Nat) (inBlock asValue : Bool) (signs : List Token) (scope : Scope) (ts : List Token) : Parsed :=
  match fuel, ts with
  | 0, _ => none
  | _ + 1, [] => none
  | fuel + 1, t :: rest =>
    if signs.contains t then some (left, scope, t :: rest) else node fuel inBlock asValue scope (t :: rest)

def blockList (fuel : Nat) (read : List Yaml) (scope : Scope) (ts : List Token) : Parsed :=
  match fuel, ts with
  | fuel + 1, .entry :: rest => do
    let (y, scope, ts) ← nodeUnless fuel true false [.entry, .blockEnd] scope rest
    blockList fuel (read ++ [y]) scope ts
  | _ + 1, .blockEnd :: rest => some (.list read, scope, rest)
  | _, _ => none

/-- Reads the items of a list that is not further in than the key before it. -/
def plainList (fuel : Nat) (read : List Yaml) (scope : Scope) (ts : List Token) : Parsed :=
  match fuel, ts with
  | fuel + 1, .entry :: rest => do
    let (y, scope, ts) ← nodeUnless fuel true false [.entry, .key, .value, .blockEnd] scope rest
    plainList fuel (read ++ [y]) scope ts
  | _ + 1, ts => some (.list read, scope, ts)
  | 0, _ => none

def blockMap (fuel : Nat) (read : List (Yaml × Yaml)) (scope : Scope) (ts : List Token) : Parsed :=
  match fuel, ts with
  | fuel + 1, .key :: rest => do
    let (k, scope, ts) ← nodeUnless fuel true true [.key, .value, .blockEnd] scope rest
    let (v, scope, ts) ← match ts with
      | .value :: rest => nodeUnless fuel true true [.key, .value, .blockEnd] scope rest
      | ts => some (left, scope, ts)
    blockMap fuel (read ++ [(k, v)]) scope ts
  | _ + 1, .blockEnd :: rest => some (.map read, scope, rest)
  | _, _ => none

/-- Reads the entries of a list in brackets. An entry with a colon is a map of its own. -/
def flowList (fuel : Nat) (first : Bool) (read : List Yaml) (scope : Scope) (ts : List Token) : Parsed :=
  match fuel with
  | 0 => none
  | fuel + 1 =>
    match (if first then ts else match ts with
      | .comma :: rest => rest
      | .flowListEnd :: _ => ts
      | _ => []) with
    | .flowListEnd :: rest => some (.list read, scope, rest)
    | .key :: rest => do
      let (k, scope, ts) ← nodeUnless fuel false false [.value, .comma, .flowListEnd] scope rest
      let (v, scope, ts) ← match ts with
        | .value :: rest => nodeUnless fuel false false [.comma, .flowListEnd] scope rest
        | ts => some (left, scope, ts)
      flowList fuel false (read ++ [.map [(k, v)]]) scope ts
    | ts => do
      let (y, scope, ts) ← node fuel false false scope ts
      flowList fuel false (read ++ [y]) scope ts

def flowMap (fuel : Nat) (first : Bool) (read : List (Yaml × Yaml)) (scope : Scope) (ts : List Token) : Parsed :=
  match fuel with
  | 0 => none
  | fuel + 1 =>
    match (if first then ts else match ts with
      | .comma :: rest => rest
      | .flowMapEnd :: _ => ts
      | _ => []) with
    | .flowMapEnd :: rest => some (.map read, scope, rest)
    | .key :: rest => do
      let (k, scope, ts) ← nodeUnless fuel false false [.value, .comma, .flowMapEnd] scope rest
      let (v, scope, ts) ← match ts with
        | .value :: rest => nodeUnless fuel false false [.comma, .flowMapEnd] scope rest
        | ts => some (left, scope, ts)
      flowMap fuel false (read ++ [(k, v)]) scope ts
    | ts => do
      let (k, scope, ts) ← node fuel false false scope ts
      flowMap fuel false (read ++ [(k, left)]) scope ts

end

/-! ### Documents -/

/-- Reads the directives of a document: the handles of tags, and whether there are any. -/
def directives (version : Bool) (prefixes : List (String × String)) :
    List Token → Option (List (String × String) × List Token)
  | .version major minor :: rest =>
    if version || major ≠ 1 || !(minor = 1 || minor = 2) then none else directives true prefixes rest
  | .tagPrefix handle text :: rest =>
    if (prefixes.lookup handle).isSome then none else directives version (prefixes ++ [(handle, text)]) rest
  | ts => some (prefixes, ts)

/-- What handles of tags stand for unless a document says otherwise. -/
def usualPrefixes : List (String × String) := [("!", "!"), ("!!", "tag:yaml.org,2002:")]

def isEnd : List Token → Bool
  | [.streamEnd] => true
  | .documentEnd :: rest => isEnd rest
  | _ => false

/-- Reads a document, after which the text ends. One with directives has a sign at its start. -/
def document (ts : List Token) : Option Yaml := do
  let (prefixes, rest) ← directives false [] ts
  let scope : Scope := { prefixes := prefixes ++ usualPrefixes }
  match rest with
  | .documentStart :: rest => if isEnd rest then some left else content scope rest
  | rest => if rest.length = ts.length then content scope rest else none
where
  content (scope : Scope) (ts : List Token) : Option Yaml := do
    let (y, _, rest) ← node (3 * ts.length + 3) true false scope ts
    if isEnd rest then some y else none

def ofText? (text : String) : Option (Option Yaml) := do
  let ts ← Token.ofText? text
  if ts = [.streamEnd] then return none
  return some (← document ts)

end Mcfunction.Yaml
