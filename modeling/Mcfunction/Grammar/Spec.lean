import Mcfunction.Grammar.Bundled
import Mcfunction.Grammar.Document
import Mcfunction.Grammar.Prototype
import Mcfunction.Grammar.Resolve

/-! Grammars: a resolved command tree and its prototypes. -/

namespace Mcfunction

structure Spec where
  tree : CommandTree
  prototypes : Entries Prototype

namespace Spec

def ofTree (t : CommandTree) (legacy : Bool) : Except GrammarError Spec := do
  let tree ← t.resolve legacy
  return { tree, prototypes := ← tree.prototypes }

/-- The grammar of the bundled commands with further trees laid over them. -/
def withTrees (trees : List CommandTree) (legacy : Bool) : Except GrammarError Spec :=
  ofTree (trees.foldl CommandTree.merge .bundled) legacy

def prototype? (s : Spec) (identifier : String) : Option Prototype := s.prototypes.lookup identifier

/-- The number of entries that a command in a slot shares with the command around it: those on the path
of the redirect's target. -/
def sharedEntries (s : Spec) (slot : Slot) : Nat :=
  match s.tree.get? slot.owner with
  | some node => (node.redirect?.map List.length).getD 0
  | none => 0

def listing (s : Spec) (start? : Option String) : String :=
  String.join ((s.prototypes.filter fun (_, p) => match start? with
    | some start => start.toList.isPrefixOf p.identifier.toList
    | none => true).map fun (_, p) => p.identifier ++ ": " ++ p.usage ++ "\n")

end Spec

end Mcfunction
