import Mcfunction.Grammar.Error

/-! Resolving redirects. A walk over all the ways through the tree finds the dead ends and the nodes that
a node below them redirects to. A redirect to an ancestor leads to a whole command; any other is an
alias, below which the walk goes on with the children of the target. No alias may be entered again
inside itself, so the walk ends: the targets that are open are paths of the tree, and each alias opens
one more. -/

namespace Mcfunction.CommandTree

/-- What a walk has found: the dead ends, and the targets that whole commands follow. -/
structure Plan where
  deadEnds : List Path := []
  subcommands : List Path := []

namespace Plan

def append (p q : Plan) : Plan := ⟨p.deadEnds ++ q.deadEnds, p.subcommands ++ q.subcommands⟩

instance : Append Plan := ⟨append⟩

end Plan

/-- Where the redirect of a node leads. A dead end leads to the root if that is allowed. -/
def resolvedRedirect (legacy : Bool) (scope : Path) (node : CommandTree) : Except GrammarError (Option Path) :=
  if node.isDeadEnd then
    if legacy then .ok (some []) else .error (.deadEnd scope)
  else .ok node.redirect?

mutual

/-- Walks over a node of the tree `root`. The words before it are `scope`, and it stands at `place` in
the tree; `taken` holds the targets of the aliases that are open. -/
def plan (root : CommandTree) (legacy : Bool) (taken : List Path) (scope place : Path) (node : CommandTree) :
    Except GrammarError Plan :=
  match resolvedRedirect legacy scope node with
  | .error e => .error e
  | .ok none => planAll root legacy taken scope place node.children
  | .ok (some target) =>
    let found : Plan := { deadEnds := if node.isDeadEnd then [place] else [] }
    match _h : root.at? target with
    | none => .error (.missingRedirect scope target)
    | some t =>
      if target.isPrefixOf scope then .ok (found ++ { subcommands := [target] })
      else if _ht : target ∈ taken then .error (.redirectCycle target)
      else if t.redirect?.isSome then .error (.redirectCycle target)
      else
        match planAll root legacy (target :: taken) scope target t.children with
        | .error e => .error e
        | .ok below => .ok (found ++ below)
termination_by (root.countFree taken, sizeOf node)
decreasing_by
  · exact Prod.Lex.right _ node.sizeOf_children_lt
  · exact Prod.Lex.left _ _ (countFree_cons_lt _h _ht)

def planAll (root : CommandTree) (legacy : Bool) (taken : List Path) (scope place : Path)
    (children : List (String × CommandTree)) : Except GrammarError Plan :=
  match children with
  | [] => .ok {}
  | (name, child) :: rest =>
    match plan root legacy taken (scope ++ [name]) (place ++ [name]) child with
    | .error e => .error e
    | .ok first =>
      match planAll root legacy taken scope place rest with
      | .error e => .error e
      | .ok others => .ok (first ++ others)
termination_by (root.countFree taken, sizeOf children)
decreasing_by
  · exact Prod.Lex.right _ (by simp only [List.cons.sizeOf_spec, Prod.mk.sizeOf_spec]; omega)
  · exact Prod.Lex.right _ (by simp only [List.cons.sizeOf_spec, Prod.mk.sizeOf_spec]; omega)

end

/-- Carries out a plan: dead ends redirect to the root, and the targets of whole commands are marked. -/
def carryOut (t : CommandTree) (p : Plan) : CommandTree :=
  let t := p.deadEnds.foldl (fun t path => t.update (fun n => { n with redirect? := some [] }) path) t
  p.subcommands.foldl (fun t path => t.update (fun n => { n with subcommand := true }) path) t

/-- The tree with its redirects resolved. Dead ends redirect to the root if `legacy` is set, and are
refused otherwise. -/
def resolve (t : CommandTree) (legacy : Bool) : Except GrammarError CommandTree :=
  match planAll t legacy [] [] [] t.children with
  | .error e => .error e
  | .ok p => .ok (t.carryOut p)

end Mcfunction.CommandTree
