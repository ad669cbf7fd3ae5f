import Mcfunction.Build.Compiler
import Mcfunction.Cli.Arguments
import Mcfunction.Diagnostic.Render
import Mcfunction.Files.System
import Mcfunction.Node.Dump
import Mcfunction.Options.Document
import Mcfunction.Options.Yaml
import Mcfunction.Text.Blank
import Mcfunction.Text.Diff
import Mcfunction.Text.Lines

/-! The commands of the command line. Diagnostics and errors are printed apart from all else. -/

namespace Mcfunction.Cli

inductive Failure where
  | read (path : String) (e : FileError)
  | write (path : String) (e : FileError)
  | walk (path : String) (e : FileError)
  | options (e : OptionsError)
  | grammar (e : GrammarError)

def Failure.message : Failure → String
  | .read path e => "failed to read " ++ path ++ ": " ++ e.message
  | .write path e => "failed to write " ++ path ++ ": " ++ e.message
  | .walk path e => "failed to walk directory: IO error for operation on " ++ path ++ ": " ++ e.message
  | .options e => e.message
  | .grammar e => e.message

structure Printed where
  out : String := ""
  err : String := ""

abbrev Action (m : Type → Type) := ExceptT Failure (StateT Printed m)

/-- Where the file of a unit goes: units with a resource name have a place of their own, others keep the name
of their file. -/
def outputPath (outDir : String) (f : SourceFile) : String :=
  match f.resourceName.bind fun name => Text.splitOnce? ':' name.toList with
  | some (ns, path) =>
    FilePath.join (FilePath.join (FilePath.join (FilePath.join outDir "data") (String.ofList ns)) "function")
      (String.ofList path ++ "." ++ FilePath.functionExtension)
  | none =>
    FilePath.join outDir ((f.filename.bind FilePath.fileName?).getD ("output." ++ FilePath.functionExtension))

def sortPaths (paths : List String) : List String :=
  once (paths.mergeSort fun a b => FilePath.inOrder (FilePath.components a) (FilePath.components b))
where
  /-- Paths without those that lead to the same place as the one before. -/
  once : List String → List String
    | [] => []
    | path :: rest =>
      match once rest with
      | [] => [path]
      | other :: others =>
        if FilePath.components path = FilePath.components other then path :: others else path :: other :: others

/-! ### Texts -/

def diagnosticText (c : Option String) (d : Diagnostic) : String :=
  match Text.splitOnce? '\n' (d.render c).toList with
  | some (header, rest) =>
    String.ofList header ++ "\n" ++ (if rest.isEmpty then "" else String.ofList rest ++ "\n") ++ "\n"
  | none => d.render c ++ "\n\n"

def summary (files : Nat) (ds : Diagnostics) : String :=
  toString files ++ " file(s), " ++ toString ds.errorCount ++ " error(s), " ++
    toString (ds.entries.countP fun d => d.level = .warn) ++ " warning(s)\n"

/-- The lines of a text without the white space at its end. -/
def linesOf (text : String) : List (List Char) :=
  match (text.toList.reverse.dropWhile Text.isBlank).reverse with
  | [] => []
  | cs => Text.split '\n' cs

/-- Lines with a sign before each. Several empty ones are one less. -/
def signed (sign : Char) (ls : List (List Char)) : String :=
  String.join ((Text.lines (['\n'].intercalate ls)).map fun l => String.ofList (sign :: l ++ ['\n']))

/-- The differences between a source and what was made of it. An empty line alone is nothing in common. -/
def diffText (name source output : String) : String :=
  let before := linesOf source
  let after := linesOf output
  let shared := Text.common before after
  "--- " ++ name ++ "\n+++ " ++ name ++ "\n" ++
    String.join ((Text.changes before after (if shared = [[]] then [] else shared)).map fun
      | .same ls => signed ' ' ls
      | .removed ls => signed '-' ls
      | .added ls => signed '+' ls)

/-! ### Actions -/

variable {m : Type → Type} [Monad m]

def print (text : String) : Action m Unit := modify fun p => { p with out := p.out ++ text }

def complain (text : String) : Action m Unit := modify fun p => { p with err := p.err ++ text }

def attempt {ε α : Type} (failure : ε → Failure) : Except ε α → Action m α
  | .ok a => return a
  | .error e => throw (failure e)

def read (fs : FileSystem m) (path : String) : Action m String := do
  attempt (.read path) (← fs.read path)

/-- The options in a file. Paths in it start from its folder. -/
def loadOptions (fs : FileSystem m) (path : String) : Action m Options := do
  let text ← attempt (fun e => .options (.unreadable path e.message)) (← fs.read path)
  let options ←
    if ((FilePath.fileName? path).bind fun name => (FilePath.splitExtension name).2) = some "json" then
      attempt (fun fault => .options (.json path fault)) (Options.ofDocument text)
    else
      match Options.ofYamlText? text with
      | some o => pure o
      | none => throw (.options (.yaml path))
  return match FilePath.parent? path with
    | some folder => { options with grammars := options.grammars.map (FilePath.join folder) }
    | none => options

def loadSpec (fs : FileSystem m) (paths : List String) (legacy : Bool) : Action m Spec := do
  let trees ← paths.mapM fun path => do
    let text ← attempt (fun e => .grammar (.unreadable path e.message)) (← fs.read path)
    attempt (fun fault => .grammar (.document fault)) (CommandTree.ofDocument text)
  attempt .grammar (Spec.withTrees trees legacy)

/-- The files to compile: those that are named, and the function files in folders that are. -/
def discover (fs : FileSystem m) (paths : List String) : Action m (List String) := do
  let found ← paths.mapM fun path => do
    if ← fs.isFile path then return [path]
    else return (← attempt (.walk path) (← fs.walk path)).filter FilePath.isFunction
  return sortPaths found.flatten

def printDiagnostics {σ : Type} (c : Compiler σ) : Action m Unit :=
  complain (String.join (c.diagnostics.sorted.map fun d => diagnosticText (c.sourceOf? d) d))

/-- Prints, writes or compares the file of a unit. Says whether it differs from its source. -/
def deliver (fs : FileSystem m) (a : Compilation) (single : Bool) (name : String) (source : Option String)
    (f : SourceFile) : Action m Bool := do
  let changed := match source with
    | some text => decide (text ≠ f.text)
    | none => false
  if changed && a.diff then print (diffText name (source.getD "") f.text)
  if changed && a.check then print ("would change: " ++ name ++ "\n")
  if !a.check && !a.diff then
    match a.outDir? with
    | some dir => attempt (.write (outputPath dir f)) (← fs.write (outputPath dir f) f.text)
    | none => print (if single then f.text else "==> " ++ name ++ " <==\n" ++ f.text)
  return changed

def compileFiles (fs : FileSystem m) (a : Compilation) : Action m Bool := do
  let given ← match a.config? with
    | some path => loadOptions fs path
    | none => pure {}
  let options :=
    { given with multiline := given.multiline || a.multiline, grammars := given.grammars ++ a.grammars }
  let spec ← loadSpec fs options.grammars options.legacyRootRedirect
  let empty ← attempt .options (Compiler.ofSpec spec options ())
  let paths ← discover fs a.paths
  let files ← paths.mapM fun path => do
    return { text := ← read fs path, filename := some path, resourceName := FilePath.resourceName? path }
  let (outcome, c) := (files.foldl (fun c f => (c.add f).2) empty).run 0
  printDiagnostics c
  if outcome = .finished then do
    let outputs := c.report.outputs
    let changed ← outputs.mapM fun (h, f) =>
      deliver fs a (outputs.length = 1) ((f.filename <|> f.resourceName).getD h.write)
        ((c.database.get? h).bind CompilationUnit.source) f
    return !a.check || !changed.any id
  else do
    complain (summary paths.length c.diagnostics)
    return false

def listPrototypes (fs : FileSystem m) (grammars : List String) (start? : Option String) : Action m Bool := do
  print ((← loadSpec fs grammars true).listing start?)
  return true

def showTree (fs : FileSystem m) (path : String) (grammars : List String) (options : ParseOptions) :
    Action m Bool := do
  let spec ← loadSpec fs grammars true
  let text ← read fs path
  match Parser.parse { tree := spec.tree, options } text with
  | .ok tree => do
    print tree.dump
    return true
  | .error e => do
    complain (diagnosticText (some text) { e.diagnostic with filename := some path })
    return false

def Command.perform (fs : FileSystem m) : Command → Action m Bool
  | .compile a => compileFiles fs a
  | .prototypes grammars start? => listPrototypes fs grammars start?
  | .ast file grammars multiline keepComments => showTree fs file grammars { multiline, keepComments }

def Command.run (fs : FileSystem m) (c : Command) : m (Nat × Printed) := do
  match ← (c.perform fs).run.run {} with
  | (.ok true, p) => return (0, p)
  | (.ok false, p) => return (1, p)
  | (.error e, p) => return (2, { p with err := p.err ++ "Error: " ++ e.message ++ "\n" })

end Mcfunction.Cli
