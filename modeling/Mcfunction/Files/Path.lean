import Mcfunction.Text.Split

/-! Paths of files, as texts with slashes between their components, and the resource names of the functions
that they hold: `data/<namespace>/function/<path>.mcfunction` holds `<namespace>:<path>`. -/

namespace Mcfunction

inductive Component where
  | root
  | current
  | parent
  | normal (name : String)
  deriving DecidableEq

namespace Component

def name? : Component → Option String
  | .normal name => some name
  | _ => none

def rank : Component → Nat
  | .root => 0
  | .current => 1
  | .parent => 2
  | .normal _ => 3

def before (a b : Component) : Bool :=
  match a, b with
  | .normal x, .normal y => x < y
  | a, b => a.rank < b.rank

/-- The components of a name between slashes, of which an empty one and `.` have none. -/
def ofName (name : String) : List Component :=
  if name = "" ∨ name = "." then []
  else if name = ".." then [.parent]
  else [.normal name]

end Component

namespace FilePath

def isAbsolute (path : String) : Bool := path.toList.head? = some '/'

/-- The components of a path. A `.` counts only at its start. -/
def components (path : String) : List Component :=
  let names := (Text.split '/' path.toList).map String.ofList
  (if isAbsolute path then [.root] else if names.head? = some "." then [.current] else []) ++
    names.flatMap Component.ofName

def inOrder : List Component → List Component → Bool
  | [], _ => true
  | _ :: _, [] => false
  | a :: as, b :: bs => a.before b || (a = b && inOrder as bs)

def join (path rest : String) : String :=
  if isAbsolute rest ∨ path = "" then rest
  else if path.toList.getLast? = some '/' then path ++ rest
  else path ++ "/" ++ rest

/-- The end of a path without the slashes and dots that have no component, given backwards. -/
def trimBack : List Char → List Char
  | '/' :: cs => if cs = [] then ['/'] else trimBack cs
  | '.' :: '/' :: cs => if cs = [] then ['/'] else trimBack cs
  | cs => cs

/-- The path of the folder around what a path leads to, if there is one. -/
def parent? (path : String) : Option String :=
  match (components path).getLast? with
  | none | some .root => none
  | some _ => some (String.ofList (trimBack ((trimBack path.toList.reverse).dropWhile (· ≠ '/'))).reverse)

def fileName? (path : String) : Option String := (components path).getLast?.bind Component.name?

/-- A name without what follows its last dot, and what follows it. A dot at the start of a name does not
count. -/
def splitExtension (name : String) : String × Option String :=
  let cs := name.toList
  let after := cs.reverse.takeWhile (· ≠ '.')
  let before := (cs.reverse.drop after.length).drop 1
  if after.length = cs.length ∨ before = [] then (name, none)
  else (String.ofList before.reverse, some (String.ofList after.reverse))

def functionExtension : String := "mcfunction"

def isFunction (path : String) : Bool :=
  ((fileName? path).bind fun name => (splitExtension name).2) = some functionExtension

def parts (path : String) : List String :=
  let cs := components path
  (match cs.getLast? with
    | some (.normal name) => cs.dropLast ++ Component.ofName (splitExtension name).1
    | _ => cs).filterMap Component.name?

def afterData? : List String → Option (List String)
  | [] => none
  | name :: rest =>
    match afterData? rest with
    | some found => some found
    | none => if name = "data" then some rest else none

def resourceName? (path : String) : Option String :=
  match afterData? (parts path) with
  | some (ns :: folder :: first :: rest) =>
    if folder = "function" ∨ folder = "functions" then
      some (ns ++ ":" ++ "/".intercalate (first :: rest))
    else none
  | _ => none

end FilePath

end Mcfunction
