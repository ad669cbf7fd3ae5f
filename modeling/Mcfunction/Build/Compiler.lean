import Mcfunction.Build.Pass
import Mcfunction.Options.Basic
import Mcfunction.Options.Error
import Mcfunction.Parse.Command
import Mcfunction.Print
import Mcfunction.Rules.Standard

/-! Compilers. A build takes the units through the steps: they are parsed, transformed, linted and printed. All
jobs of a step are done before the next step begins, and the build stops after a step in which a job reported
an error. A job may let its unit wait for a later step, and rules may add jobs, also to the step that is being
done; a build therefore counts its jobs. -/

namespace Mcfunction

structure Compiler (σ : Type) where
  parser : Parser
  printer : Printer
  transforms : Dispatcher (Handler (Pass σ))
  lints : Dispatcher (Handler (Pass σ))
  database : Database := {}
  diagnostics : Diagnostics := {}
  memory : σ

structure Report where
  outputs : List (Handle × SourceFile)
  diagnostics : Diagnostics

namespace Report

def output? (r : Report) (h : Handle) : Option SourceFile := r.outputs.lookup h

def named? (r : Report) (name : String) : Option SourceFile :=
  (r.outputs.map Prod.snd).find? fun f => f.resourceName = some name

end Report

inductive Outcome where
  | finished
  | failed
  | unfinished
  deriving DecidableEq

namespace Compiler

variable {σ : Type}

def ofSpec (spec : Spec) (o : Options) (memory : σ) : Except OptionsError (Compiler σ) :=
  match o.unknownRule? with
  | some name => .error (.unknownRule name)
  | none => .ok
    { parser := { tree := spec.tree, options := { multiline := o.multiline, keepComments := o.keepComments } }
      printer := { spec, indent := o.indent }
      transforms := o.transforms σ
      lints := o.lints σ
      memory }

def add (c : Compiler σ) (f : SourceFile) : Handle × Compiler σ :=
  let (h, db) := c.database.add (.ofSource f)
  (h, { c with database := db.enqueue h Stage.parse 0 })

def modify (c : Compiler σ) (h : Handle) (f : CompilationUnit → CompilationUnit) : Compiler σ :=
  { c with database := c.database.modify h f }

/-! ### Jobs -/

structure Done (σ : Type) where
  compiler : Compiler σ
  diagnostics : Diagnostics
  next : Option Nat

/-- Parses a unit. A unit without a source keeps its tree. -/
def parse (c : Compiler σ) (h : Handle) (u : CompilationUnit) : Done σ :=
  match u.source with
  | none => ⟨c, u.diagnostics, if u.tree.isSome then some Stage.transform else none⟩
  | some text =>
    match c.parser.parse text with
    | .ok tree => ⟨c.modify h fun u => { u with tree := some tree }, u.diagnostics, some Stage.transform⟩
    | .error e => ⟨c, u.diagnostics.add e.diagnostic, none⟩

def reduce (c : Compiler σ) (rules : Dispatcher (Handler (Pass σ))) (h : Handle) (u : CompilationUnit)
    (step : Nat) : Done σ :=
  match u.tree with
  | none => ⟨c, u.diagnostics, none⟩
  | some tree =>
    let (reduced, pass) :=
      rules.reduce tree { database := c.database, diagnostics := u.diagnostics, step, memory := c.memory }
    let c := { c with database := pass.database, memory := pass.memory }
    ⟨if reduced.same then c else c.modify h fun u => { u with tree := some reduced.node },
      pass.diagnostics, some (step + 1)⟩

def print (c : Compiler σ) (h : Handle) (u : CompilationUnit) : Done σ :=
  match u.tree with
  | none => ⟨c, u.diagnostics, none⟩
  | some tree =>
    match c.printer.render tree with
    | .ok text => ⟨c.modify h fun u => { u with output := some text }, u.diagnostics, none⟩
    | .error fault => ⟨c, u.diagnostics.add fault.diagnostic, none⟩

def perform (c : Compiler σ) (h : Handle) (u : CompilationUnit) (step : Nat) : Done σ :=
  if step = Stage.parse then c.parse h u
  else if step = Stage.transform then c.reduce c.transforms h u step
  else if step = Stage.lint then c.reduce c.lints h u step
  else if step = Stage.print then c.print h u
  else ⟨c, u.diagnostics, none⟩

/-- Takes the diagnostics out of a unit, which is processed now. -/
def start (c : Compiler σ) (h : Handle) : Compiler σ :=
  let c := c.modify h fun u => { u with diagnostics := {} }
  { c with database := { c.database with current := some h } }

/-- Puts the diagnostics back into the unit, adds to the diagnostics of the build those that are new, and
lets the unit wait for its next step. -/
def close (h : Handle) (new : List Diagnostic) (d : Done σ) : Compiler σ :=
  let c := d.compiler.modify h fun u => { u with diagnostics := d.diagnostics }
  let c := { c with diagnostics := new.foldl Diagnostics.add c.diagnostics }
  match d.next with
  | some step => { c with database := c.database.enqueue h step 0 }
  | none => c

/-- Does a job, and says whether it reported an error. There is nothing to do for a unit that was removed. -/
def process (c : Compiler σ) (h : Handle) (step : Nat) : Bool × Compiler σ :=
  match c.database.get? h with
  | none => (false, c)
  | some u =>
    let d := (c.start h).perform h u step
    let new := d.diagnostics.entries.drop u.diagnostics.entries.length
    (new.any Diagnostic.isError, close h new d)

/-! ### Builds -/

/-- Does at most `limit` jobs of a step. Says whether one of them reported an error, or nothing if the step is
not done. -/
def drain (step : Nat) : Nat → Compiler σ → Option Bool × Compiler σ
  | 0, c => (none, c)
  | limit + 1, c =>
    match c.database.popStep? step with
    | none => (some false, c)
    | some (h, db) =>
      let (failed, c) := { c with database := db }.process h step
      let (others, c) := drain step limit c
      (others.map (failed || ·), c)

/-- How many jobs a step may have. Each nested function adds one to those that wait, and there are no more of
them than nodes. -/
def jobLimit (c : Compiler σ) (extra : Nat) : Nat := c.database.pending + c.database.size + 1 + extra

def steps (extra : Nat) : Nat → Compiler σ → Outcome × Compiler σ
  | 0, c => (.unfinished, c)
  | limit + 1, c =>
    match c.database.nextStep? with
    | none => (.finished, c)
    | some step =>
      let (result, c) := c.drain step (c.jobLimit extra)
      let c := { c with database := { c.database with current := none } }
      match result with
      | none => (.unfinished, c)
      | some true => (.failed, c)
      | some false => steps extra limit c

/-- How many steps a build may have: those that wait, those that follow from them, and the end. -/
def stepLimit (c : Compiler σ) (extra : Nat) : Nat := c.database.pending + 5 + extra

/-- Does all jobs that wait. Rules of one's own may add `extra` jobs to those that the standard rules add. -/
def run (c : Compiler σ) (extra : Nat) : Outcome × Compiler σ := c.steps extra (c.stepLimit extra)

def output? (c : Compiler σ) (h : Handle) : Option SourceFile := (c.database.get? h).map CompilationUnit.file

def report (c : Compiler σ) : Report :=
  { outputs := c.database.handles.filterMap fun h => (c.output? h).map fun f => (h, f)
    diagnostics := c.diagnostics }

/-- What is reported if the unit of a file was removed while it was compiled. -/
def removed (h : Handle) : Diagnostic :=
  { level := .error, message := "Unit " ++ h.write ++ " was removed during the build." }

def compile (c : Compiler σ) (f : SourceFile) (extra : Nat) : Except Diagnostics SourceFile × Compiler σ :=
  let (h, c) := c.add f
  match c.run extra with
  | (.finished, c) =>
    (match c.output? h with
      | some f => .ok f
      | none => .error { entries := [removed h] }, c)
  | (_, c) => (.error c.diagnostics, c)

def sourceOf? (c : Compiler σ) (d : Diagnostic) : Option String :=
  (d.file.bind c.database.get?).bind CompilationUnit.source

end Compiler

end Mcfunction
