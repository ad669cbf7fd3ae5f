import Mcfunction.Build.Unit
import Mcfunction.Entries

/-! The units of a build, the index of their names, and the jobs that wait. Jobs wait in the order in which
they are taken: by step, then by priority, and among equals in the order in which they came. -/

namespace Mcfunction

structure Job where
  step : Nat
  priority : Int
  handle : Handle
  deriving DecidableEq

namespace Job

/-- Whether a job that came earlier is taken before another. -/
def precedes (a b : Job) : Bool := a.step < b.step || (a.step = b.step && a.priority ≤ b.priority)

def insert (j : Job) : List Job → List Job
  | [] => [j]
  | k :: ks => if k.precedes j then k :: insert j ks else j :: k :: ks

end Job

structure Database where
  /-- The units with their handles, in the order in which the handles came in. -/
  units : List (Handle × CompilationUnit) := []
  index : Entries Handle := []
  jobs : List Job := []
  nextHandle : Nat := 0
  current : Option Handle := none

namespace Database

/-! ### Units -/

def get? (db : Database) (h : Handle) : Option CompilationUnit := db.units.lookup h

def contains (db : Database) (h : Handle) : Bool := (db.get? h).isSome

def handles (db : Database) : List Handle := db.units.map Prod.fst

def lookup (db : Database) (name : String) : Option Handle := db.index.lookup name

def currentUnit? (db : Database) : Option CompilationUnit := db.current.bind db.get?

/-- An index without the names of a unit, except where they stand for another one. -/
def unindex (h : Handle) (u : CompilationUnit) (index : Entries Handle) : Entries Handle :=
  index.filter fun (name, other) => !(u.names.contains name && other = h)

def enter (h : Handle) (u : CompilationUnit) (index : Entries Handle) : Entries Handle :=
  u.names.foldl (fun index name => index.insert name h) index

/-- Changes the unit with a handle, if there is one, but not its names. -/
def modify (db : Database) (h : Handle) (f : CompilationUnit → CompilationUnit) : Database :=
  { db with units := db.units.map fun (k, u) => if k = h then (k, f u) else (k, u) }

/-- Puts a unit under a handle, in the place of the one that has it, or else at the end. -/
def insert (db : Database) (h : Handle) (u : CompilationUnit) : Database :=
  let u := { u with diagnostics := { u.diagnostics with file := some h } }
  let db := { db with nextHandle := max db.nextHandle (h.index + 1) }
  match db.get? h with
  | some old => { db.modify h (fun _ => u) with index := enter h u (unindex h old db.index) }
  | none => { db with units := db.units ++ [(h, u)], index := enter h u db.index }

def add (db : Database) (u : CompilationUnit) : Handle × Database :=
  (⟨db.nextHandle⟩, db.insert ⟨db.nextHandle⟩ u)

/-- Takes out the unit with a handle. Jobs for it keep waiting. -/
def remove (db : Database) (h : Handle) : Option CompilationUnit × Database :=
  match db.get? h with
  | none => (none, db)
  | some u =>
    (some u, { db with
      units := db.units.filter fun (k, _) => k ≠ h
      index := unindex h u db.index
      current := if db.current = some h then none else db.current })

def size (db : Database) : Nat := db.units.foldr (fun (_, u) n => u.size + n) 0

/-! ### Jobs -/

def enqueue (db : Database) (h : Handle) (step : Nat) (priority : Int) : Database :=
  { db with jobs := Job.insert ⟨step, priority, h⟩ db.jobs }

def nextStep? (db : Database) : Option Nat := db.jobs.head?.map Job.step

def popStep? (db : Database) (step : Nat) : Option (Handle × Database) :=
  match db.jobs with
  | [] => none
  | j :: rest => if j.step = step then some (j.handle, { db with jobs := rest }) else none

def pending (db : Database) : Nat := db.jobs.length

end Database

end Mcfunction
