import Mcfunction.Diagnostic.Basic
import Mcfunction.Node.Basic

/-! What a build works on: function files, and units, which hold all that is known about one function while
it is compiled. -/

namespace Mcfunction

structure SourceFile where
  text : String
  filename : Option String := none
  resourceName : Option String := none
  deriving DecidableEq

structure CompilationUnit where
  tree : Option Node := none
  /-- The text that the function was read from, if it came from a file. -/
  source : Option String := none
  output : Option String := none
  filename : Option String := none
  resourceName : Option String := none
  diagnostics : Diagnostics := {}

namespace CompilationUnit

def ofSource (f : SourceFile) : CompilationUnit :=
  { source := some f.text
    filename := f.filename
    resourceName := f.resourceName
    diagnostics := { filename := f.filename, hint := f.resourceName } }

def ofTree (tree : Node) (name : String) : CompilationUnit :=
  { tree := some tree, resourceName := some name, diagnostics := { hint := some name } }

def names (u : CompilationUnit) : List String := u.filename.toList ++ u.resourceName.toList

/-- The text of a unit as it stands: what was printed for it, or else its source. -/
def text (u : CompilationUnit) : String := (u.output <|> u.source).getD ""

def file (u : CompilationUnit) : SourceFile :=
  { text := u.text, filename := u.filename, resourceName := u.resourceName }

def size (u : CompilationUnit) : Nat := (u.tree.map Node.size).getD 0

end CompilationUnit

end Mcfunction
