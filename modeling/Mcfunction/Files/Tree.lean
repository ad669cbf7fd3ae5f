import Mcfunction.Files.System

/-! Files that are held in memory, in folders within folders. -/

namespace Mcfunction

inductive FileTree where
  | file (text : String)
  | folder (entries : List (String × FileTree))

namespace FileTree

/-- What has a place, given by the names on the way to it. -/
def get? : FileTree → List String → Option FileTree
  | t, [] => some t
  | .file _, _ :: _ => none
  | .folder entries, name :: names => (entries.lookup name).bind fun t => t.get? names

def set (new : FileTree) : List String → FileTree → FileTree
  | [], _ => new
  | _ :: _, .file text => .file text
  | [name], .folder entries =>
    .folder (if (entries.lookup name).isSome
      then entries.map fun (k, t) => if k = name then (k, new) else (k, t)
      else entries ++ [(name, new)])
  | name :: names, .folder entries =>
    .folder (entries.map fun (k, t) => if k = name then (k, set new names t) else (k, t))

mutual

def files (path : String) : FileTree → List (String × String)
  | .file text => [(path, text)]
  | .folder entries => filesOf path entries

def filesOf (path : String) : List (String × FileTree) → List (String × String)
  | [] => []
  | (name, t) :: rest => t.files (FilePath.join path name) ++ filesOf path rest

end

def follow (root : FileTree) : List String → List String → Except FileError (List String)
  | place, [] => .ok place
  | place, name :: names =>
    match root.get? place with
    | some (.folder entries) =>
      if name = "" ∨ name = "." then root.follow place names
      else if name = ".." then root.follow place.dropLast names
      else if (entries.lookup name).isSome then root.follow (place ++ [name]) names
      else .error .missing
    | some (.file _) => .error .notFolder
    | none => .error .missing

/-- Follows the names of a path from a place, and makes the folders that are missing. -/
def makeFolders : List String → List String → FileTree → Except FileError FileTree
  | _, [], root => .ok root
  | place, name :: names, root =>
    match root.get? place with
    | some (.folder entries) =>
      if name = "" ∨ name = "." then makeFolders place names root
      else if name = ".." then makeFolders place.dropLast names root
      else
        match entries.lookup name with
        | some (.folder _) => makeFolders (place ++ [name]) names root
        | some (.file _) => .error (if names = [] then .occupied else .notFolder)
        | none => makeFolders (place ++ [name]) names (set (.folder []) (place ++ [name]) root)
    | some (.file _) => .error .notFolder
    | none => .error .missing

end FileTree

structure Disk where
  root : FileTree
  here : List String

namespace Disk

def route (d : Disk) (path : String) : List String × List String :=
  (if FilePath.isAbsolute path then [] else d.here, (Text.split '/' path.toList).map String.ofList)

def place (d : Disk) (path : String) : Except FileError (List String) :=
  if path = "" then .error .missing
  else
    let (start, names) := d.route path
    d.root.follow start names

def find (d : Disk) (path : String) : Except FileError FileTree := do
  match d.root.get? (← d.place path) with
  | some t => .ok t
  | none => .error .missing

def read (d : Disk) (path : String) : Except FileError String := do
  match ← d.find path with
  | .file text => .ok text
  | .folder _ => .error .isFolder

def makeFolders (d : Disk) (path : String) : Except FileError Disk := do
  let (start, names) := d.route path
  return { d with root := ← FileTree.makeFolders start names d.root }

def put (d : Disk) (path text : String) : Except FileError Disk := do
  let (start, names) := d.route path
  let folder ← d.root.follow start names.dropLast
  match d.root.get? (folder ++ names.getLast?.toList) with
  | some (.folder _) => .error .isFolder
  | _ => return { d with root := .set (.file text) (folder ++ names.getLast?.toList) d.root }

def write (d : Disk) (path text : String) : Except FileError Disk := do
  match FilePath.parent? path with
  | some folder => (← if folder = "" then .ok d else d.makeFolders folder).put path text
  | none => d.put path text

def files (d : Disk) : List (String × String) :=
  match d.root.get? d.here with
  | some t => t.files ""
  | none => []

def ofFiles (here : List String) (files : List (String × String)) : Disk :=
  let start : Disk := { root := here.foldr (fun name t => .folder [(name, t)]) (.folder []), here }
  files.foldl (fun d (path, text) => match d.write path text with
    | .ok d => d
    | .error _ => d) start

def system : FileSystem (StateM Disk) where
  isFile path := do
    match (← get).find path with
    | .ok (.file _) => return true
    | _ => return false
  read path := do return (← get).read path
  walk path := do return ((← get).find path).map fun t => (t.files path).map Prod.fst
  write path text := do
    match (← get).write path text with
    | .ok d => do
      set d
      return .ok ()
    | .error e => return .error e

end Disk

end Mcfunction
