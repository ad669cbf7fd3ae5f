import Mcfunction.Diagnostic.Basic
import Mcfunction.Dispatch.Basic

/-! Changing trees by rules, from the leaves to the root. Each rule sees what the rules before it made of a
node. A node that nothing changed is kept as it is, and the result says which nodes were kept. -/

namespace Mcfunction

inductive Reply where
  | keep
  /-- Another node takes its place; `kept` says which of the children of the new node are, place by
  place, the very children of the old one. -/
  | replace (n : Node) (kept : List Bool)

abbrev Handler (C : Type) := Node → C → Except Diagnostic Reply × C

class Reports (C : Type) where
  report : C → Diagnostic → C

instance : Reports Diagnostics := ⟨Diagnostics.add⟩

structure Reduced where
  node : Node
  same : Bool
  /-- Which of its children are, place by place, the very children of the node that was given. -/
  kept : List Bool

namespace Reduced

def unchanged (n : Node) : Reduced := ⟨n, true, n.children.map fun _ => true⟩

/-- A node with its children reduced. It is made anew only if one of them has changed. -/
def rebuild (n : Node) (children : List Reduced) : Reduced :=
  if children.all Reduced.same then unchanged n
  else ⟨⟨(n.form.withChildren (children.map Reduced.node)).getD n.form, n.span⟩, false,
    children.map Reduced.same⟩

def replace (r : Reduced) (n : Node) (kept : List Bool) : Reduced :=
  ⟨n, false, List.zipWith (· && ·) kept r.kept⟩

end Reduced

namespace Rule

variable {C : Type} [Reports C]

/-- A diagnostic that a rule reports about a node, with what it lacks filled in. -/
def complete {η : Type} (r : Rule η) (n : Node) (d : Diagnostic) : Diagnostic :=
  let d := { d with rule := d.rule <|> some r.name }
  if d.start.isNone then d.withSpan n.span else d

/-- Applies a rule to a reduced node, if it still applies to it. A rule that fails reports why and leaves
the node. -/
def reduce (r : Rule (Handler C)) (current : Reduced) (context : C) : Reduced × C :=
  if r.applies current.node then
    match r.handler current.node context with
    | (.ok .keep, context) => (current, context)
    | (.ok (.replace n kept), context) => (current.replace n kept, context)
    | (.error d, context) => (current, Reports.report context (r.complete current.node d))
  else (current, context)

end Rule

namespace Dispatcher

variable {C : Type} [Reports C]

def reduceBy (rules : List (Rule (Handler C))) (current : Reduced) (context : C) : Reduced × C :=
  rules.foldl (fun (current, context) r => r.reduce current context) (current, context)

mutual

/-- Reduces a tree: first its children from left to right, then the node itself. -/
def reduce (d : Dispatcher (Handler C)) (n : Node) (context : C) : Reduced × C :=
  let (children, context) := d.reduceAll n.children context
  let current := Reduced.rebuild n children
  reduceBy (d.dispatch current.node) current context
termination_by 2 * n.size
decreasing_by
  rw [n.size_eq]
  omega

def reduceAll (d : Dispatcher (Handler C)) (ns : List Node) (context : C) : List Reduced × C :=
  match ns with
  | [] => ([], context)
  | n :: ns =>
    let (first, context) := d.reduce n context
    let (others, context) := d.reduceAll ns context
    (first :: others, context)
termination_by 2 * Node.sizes ns + 1
decreasing_by
  all_goals
    simp only [Node.sizes_cons]
    have := n.size_pos
    omega

end

end Dispatcher

end Mcfunction
