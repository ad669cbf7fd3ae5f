import Mcfunction.Entries
import Mcfunction.Parse.Leaf

/-! Command trees. A node is the root, a literal word or an argument; its children may follow it. A node
may end a command, and it may redirect to another node, given by its path from the root: what follows is
then read as if it followed that node. -/

namespace Mcfunction

abbrev Path := List String

namespace Path

def write (p : Path) : String := if p = [] then "<root>" else ":".intercalate p

end Path

inductive Role where
  | root
  | literal
  | argument
  deriving DecidableEq

def Role.name : Role → String
  | .root => "root"
  | .literal => "literal"
  | .argument => "argument"

structure CommandTree where
  role : Role
  reader? : Option String := none
  properties? : Option Properties := none
  executable? : Option Bool := none
  redirect? : Option Path := none
  children : List (String × CommandTree) := []
  /-- Whether some node below redirects here, so that a whole command follows it. -/
  subcommand : Bool := false

namespace CommandTree

instance : Inhabited CommandTree := ⟨{ role := .root }⟩

def executable (t : CommandTree) : Bool := t.executable?.getD false

def properties (t : CommandTree) : Properties := t.properties?.getD []

/-- Whether nothing can follow the node and no command ends at it. -/
def isDeadEnd (t : CommandTree) : Bool :=
  t.role ≠ .root && t.children.isEmpty && !t.executable && t.redirect?.isNone

mutual

/-- A tree with another laid over it: what the second tree says wins, and the children of both are
kept. -/
def merge (a : CommandTree) : CommandTree → CommandTree
  | ⟨role, reader?, properties?, executable?, redirect?, children, _⟩ =>
    { role
      reader? := reader? <|> a.reader?
      properties? := properties? <|> a.properties?
      executable? := executable? <|> a.executable?
      redirect? := redirect? <|> a.redirect?
      children := mergeAll a.children children
      subcommand := a.subcommand }

/-- Children with others laid over them, name by name; new names come last. -/
def mergeAll (as : List (String × CommandTree)) : List (String × CommandTree) → List (String × CommandTree)
  | [] => as
  | (name, b) :: bs =>
    mergeAll (Entries.insert name (match as.lookup name with
      | some a => merge a b
      | none => b) as) bs

end

/-! ### Looking up nodes -/

def at? (t : CommandTree) : Path → Option CommandTree
  | [] => some t
  | name :: path =>
    match t.children.lookup name with
    | some child => child.at? path
    | none => none

/-- The number of redirects that a lookup follows before it gives up. -/
def maxHops : Nat := 32

/-- The children that follow a node of the tree `root` when at most `hops` redirects are followed. -/
def followers? (root : CommandTree) : Nat → CommandTree → Option (List (String × CommandTree))
  | hops, t =>
    match t.redirect?, hops with
    | none, _ => some t.children
    | some _, 0 => none
    | some target, hops + 1 => (root.at? target).bind (followers? root hops)

/-- The node at a path of the words of a command, which leads through redirects. -/
def get? (root : CommandTree) (path : Path) : Option CommandTree :=
  path.foldlM (fun t name => (followers? root maxHops t).bind (·.lookup name)) root

def update (f : CommandTree → CommandTree) : Path → CommandTree → CommandTree
  | [], t => f t
  | name :: path, t => { t with children := Entries.modify name (update f path) t.children }

/-! ### Paths -/

mutual

def paths : CommandTree → List Path
  | ⟨_, _, _, _, _, children, _⟩ => [] :: pathsBelow children

def pathsBelow : List (String × CommandTree) → List Path
  | [] => []
  | (name, child) :: rest => (paths child).map (name :: ·) ++ pathsBelow rest

end

theorem mem_pathsBelow {cs : List (String × CommandTree)} {name : String} {c : CommandTree} {p : Path}
    (hc : (name, c) ∈ cs) (hp : p ∈ c.paths) : name :: p ∈ pathsBelow cs := by
  induction cs with
  | nil => cases hc
  | cons e es ih =>
    obtain ⟨k, d⟩ := e
    simp only [pathsBelow, List.mem_append, List.mem_map]
    cases hc with
    | head => exact .inl ⟨p, hp, rfl⟩
    | tail _ hc => exact .inr (ih hc)

theorem mem_paths_of_at? {t n : CommandTree} {p : Path} (h : t.at? p = some n) : p ∈ t.paths := by
  induction p generalizing t with
  | nil => cases t; simp [paths]
  | cons name p ih =>
    rw [at?] at h
    split at h
    · rename_i child hchild
      obtain ⟨_, _, _, _, _, children, _⟩ := t
      exact List.mem_cons_of_mem _ (mem_pathsBelow (Entries.mem_of_lookup hchild) (ih h))
    · cases h

/-- The number of nodes of the tree whose paths are not among the `taken`. -/
def countFree (t : CommandTree) (taken : List Path) : Nat := (t.paths.filter (· ∉ taken)).length

theorem countFree_cons_lt {t n : CommandTree} {p : Path} {taken : List Path} (h : t.at? p = some n)
    (hp : p ∉ taken) : t.countFree (p :: taken) < t.countFree taken := by
  have hfilter : t.paths.filter (· ∉ p :: taken) = (t.paths.filter (· ∉ taken)).filter (· ≠ p) := by
    rw [List.filter_filter]
    congr 1
    funext q
    simp [not_or]
  rw [countFree, hfilter, countFree, List.length_filter_lt_length_iff_exists]
  exact ⟨p, by simp [mem_paths_of_at? h, hp], by simp⟩

theorem sizeOf_children_lt (t : CommandTree) : sizeOf t.children < sizeOf t := by
  cases t
  simp only [mk.sizeOf_spec]
  omega

end CommandTree

end Mcfunction
