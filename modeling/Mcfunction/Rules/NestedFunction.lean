import Mcfunction.Build.Pass

/-! Functions that are defined inside of others. A command `function <name>:` with a block of commands defines
a function: the block becomes a unit of its own, and the command a call of the function. -/

namespace Mcfunction.NestedFunction

def definition : String := "function:name:body"

def call : String := "function:name"

inductive Problem where
  | tag
  | notName
  | defined (name : String)

def Problem.message : Problem → String
  | .tag => "Cannot define a function tag with a nested block."
  | .notName => "Expected a function name."
  | .defined name => "Function \"" ++ name ++ "\" is already defined."

/-- The name of the function that is defined, unless there is something wrong with it. -/
def functionName (db : Database) (name : Node) : Except Problem String :=
  match name.form with
  | .resourceLocation l =>
    if l.isTag then .error .tag
    else if (db.lookup l.fullName).isSome then .error (.defined l.fullName)
    else .ok l.fullName
  | _ => .error .notName

def transform {σ : Type} : Handler (Pass σ) := fun n p =>
  match n.form with
  | .command _ [name, body] =>
    match functionName p.database name with
    | .error problem =>
      (.error ({ level := .error, message := problem.message : Diagnostic }.withSpan name.span), p)
    | .ok resourceName =>
      (.ok (.replace ⟨.command call [name], n.span⟩ [true]),
        p.addUnit (.ofTree body resourceName) Stage.transform)
  | _ => (.ok .keep, p)

end Mcfunction.NestedFunction
