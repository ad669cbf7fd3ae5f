import Mcfunction.Json.Printer
import Mcfunction.Node.Basic
import Mcfunction.Text.Escaped

/-! A line for each node of a tree, indented by its depth: its kind, what it holds besides its children,
and the place it was read from. -/

namespace Mcfunction

/-- Floating point numbers in dumps keep their `.0`, and have an exponent from 1e16 on and below
1e-4. -/
def Floating.Style.dumped : Floating.Style := ⟨.up, true, fun e => 16 ≤ e || e < -4, false⟩

def CoordinateKind.title : CoordinateKind → String
  | .absolute => "Absolute"
  | .relative => "Relative"
  | .local => "Local"

def Snbt.Scalar.dump : Snbt.Scalar → String
  | .bool b => "Bool(" ++ toString b ++ ")"
  | .byte i => "Byte(" ++ toString i ++ ")"
  | .short i => "Short(" ++ toString i ++ ")"
  | .int i => "Int(" ++ toString i ++ ")"
  | .long i => "Long(" ++ toString i ++ ")"
  | .float x => "Float(" ++ x.write .single .dumped ++ ")"
  | .double x => "Double(" ++ x.write .double .dumped ++ ")"
  | .string s => "String(" ++ Text.escaped s ++ ")"

def Number.write? (n : Option Number) : String := (n.map Number.write).getD ""

def Form.summary {ν : Type} : Form ν → String
  | .command identifier _ => identifier
  | .comment text => Text.escaped text
  | .word text => Text.escaped text
  | .greedy text => Text.escaped text
  | .messageText text => Text.escaped text
  | .string text => Text.escaped text
  | .bool value => toString value
  | .number value => value.write
  | .time value unit => value.write ++ (unit.map String.singleton).getD ""
  | .resourceLocation location => location.write
  | .coordinate kind value => kind.title ++ " " ++ value.write
  | .range min max => Number.write? min ++ ".." ++ Number.write? max
  | .selector target _ => "@" ++ target
  | .selectorArgument inverted key _ => if inverted then key ++ " inverted" else key
  | .selectorScoreMatch key _ => key
  | .nbtCompoundEntry key _ => key
  | .selectorCriteriaMatch key value => key ++ "=" ++ toString value
  | .json value => value.write
  | .nbtArray kind _ => String.singleton kind.letter
  | .nbtValue scalar => scalar.dump
  | .blockProperty key value => key ++ "=" ++ value
  | _ => ""

namespace Node

def dumpLine (depth : Nat) (n : Node) : String :=
  String.ofList (List.replicate (2 * depth) ' ') ++ n.kind.name ++
    (if n.form.summary = "" then "" else " " ++ n.form.summary) ++
    (if n.span.start.isKnown then
      " @" ++ toString n.span.start.line ++ ":" ++ toString n.span.start.column
    else "") ++ "\n"

mutual

def dumpAt (depth : Nat) (n : Node) : String := n.dumpLine depth ++ dumpAll (depth + 1) n.children
termination_by 2 * n.size
decreasing_by
  rw [n.size_eq]
  omega

def dumpAll (depth : Nat) (ns : List Node) : String :=
  match ns with
  | [] => ""
  | n :: ns => dumpAt depth n ++ dumpAll depth ns
termination_by 2 * sizes ns + 1
decreasing_by
  all_goals
    simp only [sizes_cons]
    have := n.size_pos
    omega

end

def dump (n : Node) : String := dumpAt 0 n

end Node

end Mcfunction
