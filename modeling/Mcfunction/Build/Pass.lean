import Mcfunction.Build.Database
import Mcfunction.Dispatch.Reduce

/-! What rules see while a unit is reduced. -/

namespace Mcfunction

/-! ### The steps of a build -/

namespace Stage

def parse : Nat := 0

def transform : Nat := 1

def lint : Nat := 2

def print : Nat := 3

def name (step : Nat) : String :=
  if step = parse then "parse"
  else if step = transform then "transform"
  else if step = lint then "lint"
  else if step = print then "serialize"
  else "unknown"

end Stage

structure Pass (σ : Type) where
  database : Database
  diagnostics : Diagnostics
  step : Nat
  memory : σ

namespace Pass

variable {σ : Type}

instance : Reports (Pass σ) := ⟨fun p d => { p with diagnostics := p.diagnostics.add d }⟩

def resourceName? (p : Pass σ) : Option String := p.database.currentUnit?.bind CompilationUnit.resourceName

def addUnit (p : Pass σ) (u : CompilationUnit) (step : Nat) : Pass σ :=
  let (h, db) := p.database.add u
  { p with database := db.enqueue h step 0 }

end Pass

end Mcfunction
