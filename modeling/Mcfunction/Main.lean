import Mcfunction.Cli.Run

/-! The program: the command line on the files of the computer. -/

namespace Mcfunction

namespace Computer

def fileError : IO.Error → FileError
  | .noFileOrDirectory .. => .missing
  | .alreadyExists .. => .occupied
  | e => .other e.toString

def attempt {α : Type} (action : IO α) : IO (Except FileError α) := do
  try return .ok (← action)
  catch e => return .error (fileError e)

def isFolder (path : String) : IO Bool := do
  try (← IO.FS.realPath path).isDir
  catch _ => return false

def leads (path : String) : IO Bool := do
  try (← IO.FS.realPath path).pathExists
  catch _ => return false

partial def walk (path : String) : IO (List String) := do
  if ← isFolder path then
    let entries ← (← IO.FS.realPath path).readDir
    return (← entries.toList.mapM fun e => walk (FilePath.join path e.fileName)).flatten
  else return [path]

def write (path text : String) : IO Unit := do
  match FilePath.parent? path with
  | some "" | none => pure ()
  | some folder => IO.FS.createDirAll folder
  IO.FS.writeFile path text

def system : FileSystem IO where
  isFile path := return (← leads path) && !(← isFolder path)
  read path := attempt (IO.FS.readFile path)
  walk path := do
    if ← leads path then attempt (walk path) else return .error .missing
  write path text := attempt (write path text)

end Computer

def usage : String :=
  "Usage: mcfunction compile [--config FILE] [--grammar FILE] [--out-dir DIR] [--check] [--diff] [--multiline] PATH...\n" ++
  "       mcfunction prototypes [--grammar FILE] [--filter START]\n" ++
  "       mcfunction ast [--grammar FILE] [--multiline] [--keep-comments] FILE\n"

end Mcfunction

open Mcfunction in
def main (args : List String) : IO UInt32 := do
  match Cli.Command.ofArguments? args with
  | none => do
    IO.eprint usage
    return 2
  | some command => do
    let (code, printed) ← command.run Computer.system
    IO.print printed.out
    IO.eprint printed.err
    return UInt32.ofNat code
