/-! YAML documents as data. -/

namespace Mcfunction

namespace Yaml

inductive Style where
  | plain
  | quoted
  | literal
  | folded
  deriving DecidableEq

/-- A scalar: its text, how it is written, and its tag if it has one. -/
structure Scalar where
  text : String
  style : Style := .plain
  tag : Option String := none
  deriving DecidableEq

def Scalar.empty : Scalar := { text := "" }

end Yaml

inductive Yaml where
  | scalar (s : Yaml.Scalar)
  | list (items : List Yaml)
  | map (entries : List (Yaml × Yaml))

instance : Inhabited Yaml := ⟨.scalar .empty⟩

end Mcfunction
