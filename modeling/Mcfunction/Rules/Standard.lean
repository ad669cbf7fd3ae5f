import Mcfunction.Options.Basic
import Mcfunction.Rules.ExecuteRun
import Mcfunction.Rules.NestedFunction
import Mcfunction.Rules.SelectorArguments

/-! The standard rules of a compiler. -/

namespace Mcfunction

def Options.register {σ : Type} (o : Options) (r : StandardRule) (kind : Kind)
    (predicates : List (String × String)) (handler : Handler (Pass σ)) (d : Dispatcher (Handler (Pass σ))) :
    Dispatcher (Handler (Pass σ)) :=
  if o.enables r then d.register r.name [kind] predicates handler else d

def Options.transforms (σ : Type) (o : Options) : Dispatcher (Handler (Pass σ)) :=
  o.register .nestedFunction .command [("identifier", NestedFunction.definition)] NestedFunction.transform
    (o.register .executeRun .root [] ExecuteRun.transform .empty)

def Options.lints (σ : Type) (o : Options) : Dispatcher (Handler (Pass σ)) :=
  o.register .duplicateSelectorArgument .selector [] SelectorArguments.lint
    (o.register .redundantExecuteRun .root [] ExecuteRun.lint .empty)

end Mcfunction
