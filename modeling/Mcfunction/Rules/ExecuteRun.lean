import Mcfunction.Build.Pass
import Mcfunction.Options.Basic

/-! Commands that run another command and do nothing else. `execute run kill` is the same as `kill`: one rule
writes it so, another one only reports it. -/

namespace Mcfunction.ExecuteRun

def identifier : String := "execute:run:subcommand"

def target? (n : Node) : Option Node :=
  match n.form with
  | .command name arguments => if name = identifier then arguments.head? else none
  | _ => none

theorem target?_mem {n m : Node} (h : target? n = some m) : m ∈ n.children := by
  obtain ⟨form, _⟩ := n
  cases form with
  | command name arguments =>
    simp only [target?] at h
    split at h
    · exact List.mem_of_head? h
    · cases h
  | _ => cases h

theorem size_target? {n m : Node} (h : target? n = some m) : m.size < n.size :=
  Node.size_lt_of_mem_children (target?_mem h)

def unwrap (n : Node) : Node :=
  match _h : target? n with
  | some m => unwrap m
  | none => n
termination_by n.size
decreasing_by exact size_target? _h

/-- Puts in the place of each command of a function the one that it runs in the end. -/
def transform {σ : Type} : Handler (Pass σ) := fun n p =>
  match n.form with
  | .root commands =>
    if commands.any fun c => (target? c).isSome then
      (.ok (.replace ⟨.root (commands.map unwrap), n.span⟩ (commands.map fun c => (target? c).isNone)), p)
    else (.ok .keep, p)
  | _ => (.ok .keep, p)

def warning (n : Node) : Diagnostic :=
  { level := .warn, message := "Redundant \"execute run\" clause.", rule := some StandardRule.redundantExecuteRun.name : Diagnostic }.withSpan
    n.span

def lint {σ : Type} : Handler (Pass σ) := fun n p =>
  match n.form with
  | .root commands =>
    (.ok .keep, (commands.filter fun c => (target? c).isSome).foldl (fun p c => Reports.report p (warning c)) p)
  | _ => (.ok .keep, p)

end Mcfunction.ExecuteRun
