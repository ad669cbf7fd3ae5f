import Mcfunction.Json.Fault

/-! What can be wrong with the options of a compiler. -/

namespace Mcfunction

inductive OptionsError where
  | unreadable (file reason : String)
  | yaml (file : String)
  | json (file : String) (fault : Json.Fault)
  | unknownRule (name : String)

def OptionsError.message : OptionsError → String
  | .unreadable file reason => "failed to read config " ++ file ++ ": " ++ reason
  | .yaml file => "invalid YAML config " ++ file ++ ": these are no options"
  | .json file fault => "invalid JSON config " ++ file ++ ": " ++ fault.message
  | .unknownRule name => "unknown rule \"" ++ name ++ "\""

end Mcfunction
