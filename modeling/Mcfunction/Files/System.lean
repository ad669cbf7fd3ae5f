import Mcfunction.Files.Path

/-! What a program can do with files. -/

namespace Mcfunction

inductive FileError where
  | missing
  | occupied
  | notFolder
  | isFolder
  | other (reason : String)

def FileError.message : FileError → String
  | .missing => "No such file or directory (os error 2)"
  | .occupied => "File exists (os error 17)"
  | .notFolder => "Not a directory (os error 20)"
  | .isFolder => "Is a directory (os error 21)"
  | .other reason => reason

structure FileSystem (m : Type → Type) where
  isFile : String → m Bool
  read : String → m (Except FileError String)
  /-- The paths of all files in a folder and the folders in it. -/
  walk : String → m (Except FileError (List String))
  /-- Gives a file a text. The folders on its path are made if need be. -/
  write : String → String → m (Except FileError Unit)

end Mcfunction
