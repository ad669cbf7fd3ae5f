import Mcfunction.Grammar.Tree
import Mcfunction.Json.Fault

/-! What can be wrong with a command tree. -/

namespace Mcfunction

inductive GrammarError where
  | document (fault : Json.Fault)
  | unreadable (file : String) (reason : String)
  | missingRedirect (path target : Path)
  | deadEnd (path : Path)
  | redirectCycle (path : Path)

def GrammarError.message : GrammarError → String
  | .document fault => "invalid command tree document: " ++ fault.message
  | .unreadable file reason => "could not read command tree " ++ file ++ ": " ++ reason
  | .missingRedirect path target =>
    "redirect of \"" ++ path.write ++ "\" points to missing node \"" ++ target.write ++ "\""
  | .deadEnd path =>
    "node \"" ++ path.write ++ "\" has no children, is not executable and does not redirect"
  | .redirectCycle path => "redirect cycle through \"" ++ path.write ++ "\""

end Mcfunction
