import Mcfunction.Grammar.Error

/-! Prototypes: the signature of each way through a command tree that makes a command. Commands are named
after their prototypes, and printed along them. -/

namespace Mcfunction

structure Slot where
  scope : Path
  reader? : Option String
  deriving DecidableEq

namespace Slot

def subcommandName : String := "subcommand"

def name (s : Slot) : String := s.scope.getLastD ""

def isSubcommand (s : Slot) : Bool := s.reader?.isNone && s.name = subcommandName

def owner (s : Slot) : Path := s.scope.dropLast

end Slot

inductive Entry where
  | literal (name : String)
  | argument (slot : Slot)
  deriving DecidableEq

namespace Entry

def slot? : Entry → Option Slot
  | .literal _ => none
  | .argument slot => some slot

def write : Entry → String
  | .literal name => name
  | .argument slot => "<" ++ slot.name ++ ">"

end Entry

structure Prototype where
  identifier : String
  signature : List Entry
  offsets : List Nat
  deriving DecidableEq

namespace Prototype

def argumentCount (p : Prototype) : Nat := p.offsets.length

def slots (p : Prototype) : List Slot := p.signature.filterMap Entry.slot?

def isSubcommand (p : Prototype) : Bool := match p.slots.getLast? with
  | some slot => slot.isSubcommand
  | none => false

/-- The prototype of a command that stands where the first `n` entries were already written. -/
def relativeTo (p : Prototype) (n : Nat) : Prototype :=
  let n := min n p.signature.length
  { p with
    signature := p.signature.drop n
    offsets := (p.offsets.filter (n ≤ ·)).map (· - n) }

def usage (p : Prototype) : String := " ".intercalate (p.signature.map Entry.write)

end Prototype

namespace CommandTree

structure Way where
  scope : Path := []
  signature : List Entry := []
  offsets : List Nat := []

namespace Way

def step (w : Way) (name : String) (child : CommandTree) : Way :=
  let scope := w.scope ++ [name]
  if child.role = .literal then ⟨scope, w.signature ++ [.literal name], w.offsets⟩
  else ⟨scope, w.signature ++ [.argument ⟨scope, child.reader?⟩], w.offsets ++ [w.signature.length]⟩

def subcommand (w : Way) : Way :=
  let scope := w.scope ++ [Slot.subcommandName]
  ⟨scope, w.signature ++ [.argument ⟨scope, none⟩], w.offsets ++ [w.signature.length]⟩

def prototype (w : Way) : Prototype := ⟨":".intercalate w.scope, w.signature, w.offsets⟩

end Way

mutual

/-- The prototypes of the ways through a node of the tree `root`, in order; `taken` holds the targets of
the aliases that are open. -/
def prototypesFrom (root : CommandTree) (taken : List Path) (way : Way) (node : CommandTree) :
    Except GrammarError (List Prototype) :=
  let own := if node.executable then [way.prototype] else []
  match node.redirect? with
  | none =>
    match prototypesBelow root taken way node.children with
    | .error e => .error e
    | .ok below => .ok (own ++ below)
  | some target =>
    match _h : root.at? target with
    | none => .error (.missingRedirect way.scope target)
    | some t =>
      if t.subcommand then .ok (own ++ [way.subcommand.prototype])
      else if _ht : target ∈ taken then .error (.redirectCycle target)
      else
        match prototypesBelow root (target :: taken) way t.children with
        | .error e => .error e
        | .ok below => .ok (own ++ below)
termination_by (root.countFree taken, sizeOf node)
decreasing_by
  · exact Prod.Lex.right _ node.sizeOf_children_lt
  · exact Prod.Lex.left _ _ (countFree_cons_lt _h _ht)

def prototypesBelow (root : CommandTree) (taken : List Path) (way : Way)
    (children : List (String × CommandTree)) : Except GrammarError (List Prototype) :=
  match children with
  | [] => .ok []
  | (name, child) :: rest =>
    match prototypesFrom root taken (way.step name child) child with
    | .error e => .error e
    | .ok first =>
      match prototypesBelow root taken way rest with
      | .error e => .error e
      | .ok others => .ok (first ++ others)
termination_by (root.countFree taken, sizeOf children)
decreasing_by
  · exact Prod.Lex.right _ (by simp only [List.cons.sizeOf_spec, Prod.mk.sizeOf_spec]; omega)
  · exact Prod.Lex.right _ (by simp only [List.cons.sizeOf_spec, Prod.mk.sizeOf_spec]; omega)

end

/-- The prototypes of a tree by their identifiers. Of two with one identifier the later one stays, in the
place of the first. -/
def prototypes (t : CommandTree) : Except GrammarError (Entries Prototype) :=
  match prototypesBelow t [] {} t.children with
  | .error e => .error e
  | .ok ps => .ok (ps.foldl (fun made p => Entries.insert p.identifier p made) [])

end CommandTree

end Mcfunction
