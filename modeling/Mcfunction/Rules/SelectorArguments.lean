import Mcfunction.Build.Pass
import Mcfunction.Options.Basic
import Mcfunction.Parse.Selector

/-! Selectors that give an argument twice. -/

namespace Mcfunction.SelectorArguments

def key? (n : Node) : Option String :=
  match n.form with
  | .selectorArgument _ key _ => some key
  | _ => none

def warning (key : String) (n : Node) : Diagnostic :=
  { level := .warn, message := "Duplicate selector argument \"" ++ key ++ "\".",
    rule := some StandardRule.duplicateSelectorArgument.name : Diagnostic }.withSpan n.span

/-- The reports about arguments after some keys. A key that may be repeated is not reported. -/
def warnings (seen : List String) : List Node → List Diagnostic
  | [] => []
  | n :: ns =>
    match key? n with
    | none => warnings seen ns
    | some key =>
      (if key ∈ seen ∧ key ∉ Selector.repeatable then [warning key n] else []) ++ warnings (key :: seen) ns

def lint {σ : Type} : Handler (Pass σ) := fun n p =>
  match n.form with
  | .selector _ arguments => (.ok .keep, (warnings [] arguments).foldl Reports.report p)
  | _ => (.ok .keep, p)

end Mcfunction.SelectorArguments
