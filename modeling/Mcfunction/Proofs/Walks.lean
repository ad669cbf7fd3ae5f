import Mcfunction.Grammar.Prototype
import Mcfunction.Grammar.Resolve
import Mcfunction.Proofs.Entries

/-! How the walks over a command tree go down. From a node a walk goes on to the children, or it opens an alias and goes
on to the children of its target, which may stand anywhere in the tree. Main statement: no walk goes down for ever,
whatever the redirects are, since either the subtree gets smaller or another target is open. -/

namespace Mcfunction.CommandTree

open List Option Except

/-- Where a walk is: the targets of the aliases that are open, and a node. -/
structure Stay where
  taken : List Path
  node : CommandTree

/-- A walk goes on to a child, or through an alias that is not open yet to a child of its target. -/
inductive Descends (root : CommandTree) : Stay → Stay → Prop where
  | child {taken node name child} (hred : node.redirect? = none) (hchild : (name, child) ∈ node.children) :
      Descends root ⟨taken, node⟩ ⟨taken, child⟩
  | through {taken node target t name child} (hred : node.redirect? = some target) (ht : root.at? target = some t)
      (htaken : target ∉ taken) (hchild : (name, child) ∈ t.children) :
      Descends root ⟨taken, node⟩ ⟨target :: taken, child⟩

/-! ### The number of nodes -/

def size (t : CommandTree) : Nat := t.paths.length

variable {children : List (String × CommandTree)}

theorem length_pathsBelow_of_mem {name : String} {child : CommandTree}
    (h : (name, child) ∈ children) : child.size ≤ (pathsBelow children).length := by
  induction children with
  | nil => cases h
  | cons e children ih =>
    rw [pathsBelow, length_append, length_map]
    rcases mem_cons.1 h with heq | h
    · cases heq
      exact Nat.le_add_right _ _
    · exact Nat.le_add_left_of_le (ih h)

variable {root node child : CommandTree} {name : String} {legacy : Bool}

theorem size_child_lt (h : (name, child) ∈ node.children) : child.size < node.size := by
  have hle := length_pathsBelow_of_mem h
  cases node
  exact Nat.lt_succ_of_le hle

theorem size_le_of_at? {path : Path} (h : root.at? path = some node) : node.size ≤ root.size := by
  induction path generalizing root with
  | nil =>
    cases h
    exact Nat.le_refl _
  | cons name path ih =>
    rw [at?] at h
    split at h
    · rename_i hchild
      exact Nat.le_trans (ih h) (Nat.le_of_lt (size_child_lt (Entries.mem_of_lookup hchild)))
    · cases h

/-! ### Going down -/

/-- How deep the calls below a place may be nested: each target that is free can open the tree once more. -/
def rank (root : CommandTree) (s : Stay) : Nat := root.countFree s.taken * root.size + s.node.size

theorem Descends.rank_lt {s s' : Stay} (h : root.Descends s s') : root.rank s' < root.rank s := by
  cases h with
  | child _ hchild => exact Nat.add_lt_add_left (size_child_lt hchild) _
  | @through taken node target t name child _ ht htaken hchild =>
    have hfree : root.countFree (target :: taken) + 1 ≤ root.countFree taken := countFree_cons_lt ht htaken
    have hsize : child.size < root.size := Nat.lt_of_lt_of_le (size_child_lt hchild) (size_le_of_at? ht)
    calc root.countFree (target :: taken) * root.size + child.size
        < root.countFree (target :: taken) * root.size + root.size := Nat.add_lt_add_left hsize _
      _ = (root.countFree (target :: taken) + 1) * root.size := (Nat.succ_mul _ _).symm
      _ ≤ root.countFree taken * root.size := Nat.mul_le_mul_right _ hfree
      _ ≤ root.countFree taken * root.size + node.size := Nat.le_add_right _ _

theorem descends_wellFounded (root : CommandTree) : WellFounded fun s' s => root.Descends s s' :=
  Subrelation.wf Descends.rank_lt (measure root.rank).wf

/-! ### Gathering what is found below children -/

section

variable {α : Type} [Append α] {empty whole : α} {f g : String × CommandTree → Except GrammarError α}
  {e : String × CommandTree}

/-- What is found in children, one after the other, up to the first error. -/
def gather (empty : α) (f : String × CommandTree → Except GrammarError α) :
    List (String × CommandTree) → Except GrammarError α
  | [] => .ok empty
  | e :: rest => do
    let first ← f e
    let others ← gather empty f rest
    return first ++ others

theorem gather_congr (h : ∀ e ∈ children, f e = g e) : gather empty f children = gather empty g children := by
  induction children with
  | nil => rfl
  | cons e rest ih =>
    rw [forall_mem_cons] at h
    rw [gather, gather, h.1, ih h.2]

theorem gather_cons_ok (h : gather empty f (e :: children) = .ok whole) :
    ∃ first others, f e = .ok first ∧ gather empty f children = .ok others ∧ first ++ others = whole := by
  obtain ⟨first, hfirst, h⟩ := bind_eq_ok h
  obtain ⟨others, hothers, h⟩ := bind_eq_ok h
  exact ⟨first, others, hfirst, hothers, ok.inj h⟩

theorem gather_part {R : α → α → Prop} (hleft : ∀ a b, R a (a ++ b)) (hright : ∀ {a} b {c}, R a c → R a (b ++ c))
    (h : gather empty f children = .ok whole) (he : e ∈ children) : ∃ part, f e = .ok part ∧ R part whole := by
  induction children generalizing whole with
  | nil => cases he
  | cons e' rest ih =>
    obtain ⟨first, others, hfirst, hothers, rfl⟩ := gather_cons_ok h
    rcases mem_cons.1 he with rfl | he
    · exact ⟨first, hfirst, hleft first others⟩
    · obtain ⟨part, hpart, hwithin⟩ := ih hothers he
      exact ⟨part, hpart, hright first hwithin⟩

theorem gather_all {P : α → Prop} (hempty : P empty) (happend : ∀ {a b}, P a → P b → P (a ++ b))
    (h : gather empty f children = .ok whole) (hparts : ∀ e ∈ children, ∀ part, f e = .ok part → P part) : P whole := by
  induction children generalizing whole with
  | nil =>
    cases h
    exact hempty
  | cons e rest ih =>
    rw [forall_mem_cons] at hparts
    obtain ⟨first, others, hfirst, hothers, rfl⟩ := gather_cons_ok h
    exact happend (hparts.1 first hfirst) (ih hothers hparts.2)

theorem gather_error {x : GrammarError} (h : gather empty f children = .error x) : ∃ e ∈ children, f e = .error x := by
  induction children with
  | nil => cases h
  | cons e rest ih =>
    rw [gather] at h
    cases hfirst : f e with
    | error y =>
      rw [hfirst] at h
      cases h
      exact ⟨e, mem_cons_self, hfirst⟩
    | ok first =>
      rw [hfirst] at h
      cases hothers : gather empty f rest with
      | error y =>
        rw [hothers] at h
        cases h
        obtain ⟨e', he', herror⟩ := ih hothers
        exact ⟨e', mem_cons_of_mem _ he', herror⟩
      | ok others =>
        rw [hothers] at h
        cases h

theorem exists_gather (h : ∀ e ∈ children, ∃ part, f e = .ok part) : ∃ whole, gather empty f children = .ok whole := by
  cases hgather : gather empty f children with
  | ok whole => exact ⟨whole, rfl⟩
  | error x =>
    obtain ⟨e, he, herror⟩ := gather_error hgather
    obtain ⟨part, hpart⟩ := h e he
    cases herror.symm.trans hpart

end

theorem planAll_eq_gather (root : CommandTree) (legacy : Bool) (taken : List Path) (scope place : Path)
    (children : List (String × CommandTree)) : planAll root legacy taken scope place children =
      gather {} (fun e => plan root legacy taken (scope ++ [e.1]) (place ++ [e.1]) e.2) children := by
  induction children with
  | nil => rw [planAll, gather]
  | cons e rest ih =>
    rw [planAll, gather, ih]
    cases plan root legacy taken (scope ++ [e.1]) (place ++ [e.1]) e.2 with
    | error x => rfl
    | ok first => cases gather ({} : Plan) _ rest <;> rfl

theorem prototypesBelow_eq_gather (root : CommandTree) (taken : List Path) (way : Way)
    (children : List (String × CommandTree)) : prototypesBelow root taken way children =
      gather [] (fun e => prototypesFrom root taken (way.step e.1 e.2) e.2) children := by
  induction children with
  | nil => rw [prototypesBelow, gather]
  | cons e rest ih =>
    rw [prototypesBelow, gather, ih]
    cases prototypesFrom root taken (way.step e.1 e.2) e.2 with
    | error x => rfl
    | ok first => cases gather [] _ rest <;> rfl

theorem redirect?_of_resolvedRedirect {scope : Path} {target? : Option Path}
    (h : resolvedRedirect legacy scope node = .ok target?) (hne : target? ≠ some []) : node.redirect? = target? := by
  rw [resolvedRedirect] at h
  split at h
  · split at h
    · cases h
      exact absurd rfl hne
    · cases h
  · exact ok.inj h

theorem redirect?_of_not_isPrefixOf {scope target : Path}
    (h : resolvedRedirect legacy scope node = .ok (some target)) (hle : ¬ target.isPrefixOf scope = true) :
    node.redirect? = some target := by
  refine redirect?_of_resolvedRedirect h fun heq => hle ?_
  cases heq
  rfl

/-! ### The walk for redirects -/

/-- A call of the walk for redirects. -/
structure PlanCall extends Stay where
  scope : Path
  place : Path

def planned (root : CommandTree) (legacy : Bool) (k : PlanCall) : Except GrammarError Plan :=
  plan root legacy k.taken k.scope k.place k.node

/-- A call of the walk for redirects, with the answers to the calls that it makes. -/
def planStep (root : CommandTree) (legacy : Bool) (answer : PlanCall → Except GrammarError Plan) (k : PlanCall) :
    Except GrammarError Plan :=
  (resolvedRedirect legacy k.scope k.node).bind fun target? => target?.elim
    (gather {} (fun e => answer ⟨⟨k.taken, e.2⟩, k.scope ++ [e.1], k.place ++ [e.1]⟩) k.node.children) fun target =>
      (root.at? target).elim (.error (.missingRedirect k.scope target)) fun t =>
        let found : Plan := { deadEnds := if k.node.isDeadEnd then [k.place] else [] }
        if target.isPrefixOf k.scope then .ok (found ++ { subcommands := [target] })
        else if k.taken.contains target then .error (.redirectCycle target)
        else if t.redirect?.isSome then .error (.redirectCycle target)
        else
          (gather {} (fun e => answer ⟨⟨target :: k.taken, e.2⟩, k.scope ++ [e.1], target ++ [e.1]⟩) t.children).map
            (found ++ ·)

theorem planStep_eq {answer : PlanCall → Except GrammarError Plan} {k : PlanCall}
    (h : ∀ k' : PlanCall, root.Descends k.toStay k'.toStay → answer k' = root.planned legacy k') :
    root.planStep legacy answer k = root.planned legacy k := by
  rw [planStep, planned, plan]
  cases hr : resolvedRedirect legacy k.scope k.node with
  | error e => rfl
  | ok target? =>
    cases target? with
    | none =>
      have hred := redirect?_of_resolvedRedirect hr (some_ne_none _).symm
      rw [planAll_eq_gather]
      exact gather_congr fun e he => h _ (.child hred he)
    | some target =>
      rw [Except.bind, elim_some]
      symm
      dsimp only
      split
      · rename_i ht
        rw [ht, elim_none]
      · rename_i t ht
        rw [ht, elim_some]
        by_cases hle : target.isPrefixOf k.scope = true
        · rw [if_pos hle, if_pos hle]
        · have hred := redirect?_of_not_isPrefixOf hr hle
          by_cases htaken : target ∈ k.taken
          · rw [if_pos (contains_iff_mem.2 htaken), dif_pos htaken]
          · rw [if_neg (mt contains_iff_mem.1 htaken), planAll_eq_gather,
              gather_congr fun e he => h _ (.through hred ht htaken he)]
            split
            · rfl
            · simp only [planned]
              cases gather ({} : Plan) _ t.children <;> rfl

end Mcfunction.CommandTree
