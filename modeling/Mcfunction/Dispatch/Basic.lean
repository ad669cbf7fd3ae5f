import Mcfunction.Node.Basic

/-! Rules for nodes. A rule asks for kinds of nodes, and for the texts of some of their fields; what it
does then is its handler. A dispatcher finds the rules for a node: those that ask for its own kind come
before those that ask for a more general one. -/

namespace Mcfunction

structure Rule (η : Type) where
  name : String
  kinds : List Kind
  predicates : List (String × String)
  handler : η

namespace Rule

variable {η : Type}

def holds (r : Rule η) (n : Node) : Bool :=
  r.predicates.all fun (field, expected) => n.form.field field = some expected

def applies (r : Rule η) (n : Node) : Bool := n.kind.ancestors.any (· ∈ r.kinds) && r.holds n

end Rule

structure Dispatcher (η : Type) where
  rules : List (Rule η)

namespace Dispatcher

variable {η : Type}

def empty : Dispatcher η := ⟨[]⟩

/-- Registers a rule. One that asks for no kind asks for all nodes. -/
def register (d : Dispatcher η) (name : String) (kinds : List Kind) (predicates : List (String × String))
    (handler : η) : Dispatcher η :=
  ⟨d.rules ++ [⟨name, if kinds = [] then [.node] else kinds, predicates, handler⟩]⟩

/-- The places of the rules that ask for a kind, in the order of their registration. A rule that names the kind
several times stands here as many times. -/
def places (d : Dispatcher η) (kind : Kind) : List Nat :=
  d.rules.zipIdx.flatMap fun x => List.replicate (x.1.kinds.count kind) x.2

/-- The rules in some places that hold for the node, without those that were looked at before; and the
places of all rules that have now been looked at. -/
def lookAt (d : Dispatcher η) (n : Node) : List Nat → List Nat → List (Rule η) × List Nat
  | seen, [] => ([], seen)
  | seen, i :: places =>
    if i ∈ seen then d.lookAt n seen places
    else
      let (found, after) := d.lookAt n (seen ++ [i]) places
      (d.rules[i]?.toList.filter (·.holds n) ++ found, after)

/-- The rules that ask for a kind and hold for the node, without those that were looked at before; and the
places of all rules that have now been looked at. -/
def ofKind (d : Dispatcher η) (n : Node) (seen : List Nat) (kind : Kind) : List (Rule η) × List Nat :=
  d.lookAt n seen (d.places kind)

theorem lookAt_replicate_of_mem (d : Dispatcher η) (n : Node) {seen : List Nat} {i : Nat} (h : i ∈ seen) (k : Nat)
    (places : List Nat) : d.lookAt n seen (List.replicate k i ++ places) = d.lookAt n seen places := by
  induction k with
  | zero => rfl
  | succ k ih => rw [List.replicate_succ, List.cons_append, lookAt, if_pos h, ih]

theorem lookAt_flatMap {d : Dispatcher η} (n : Node) (kind : Kind) {xs : List (Rule η × Nat)}
    (hrules : ∀ x ∈ xs, d.rules[x.2]? = some x.1) (hplaces : (xs.map Prod.snd).Nodup) (seen : List Nat) :
    d.lookAt n seen (xs.flatMap fun x => List.replicate (x.1.kinds.count kind) x.2) =
      (((xs.filter fun x => kind ∈ x.1.kinds ∧ x.2 ∉ seen).filter fun x => x.1.holds n).map Prod.fst,
        seen ++ (xs.filter fun x => kind ∈ x.1.kinds ∧ x.2 ∉ seen).map Prod.snd) := by
  induction xs generalizing seen with
  | nil => simp [lookAt]
  | cons x xs ih =>
    obtain ⟨r, i⟩ := x
    rw [List.map_cons, List.nodup_cons] at hplaces
    have ih := ih (fun x hx => hrules x (List.mem_cons_of_mem _ hx)) hplaces.2
    rw [List.flatMap_cons]
    dsimp only at hplaces ⊢
    by_cases hkind : kind ∈ r.kinds
    · by_cases hseen : i ∈ seen
      · rw [lookAt_replicate_of_mem d n hseen, ih]
        simp [hseen]
      · -- the first mention puts the rule among those looked at, and the others are passed over
        obtain ⟨k, hk⟩ : ∃ k, r.kinds.count kind = k + 1 :=
          Nat.exists_eq_succ_of_ne_zero (Nat.ne_of_gt (List.count_pos_iff.2 hkind))
        have hfresh : (xs.filter fun x => kind ∈ x.1.kinds ∧ x.2 ∉ seen ++ [i]) =
            xs.filter fun x => kind ∈ x.1.kinds ∧ x.2 ∉ seen := by
          apply List.filter_congr
          intro x hx
          have hne : x.2 ≠ i := fun heq => hplaces.1 (List.mem_map.2 ⟨x, hx, heq⟩)
          simp [hne]
        have hr : d.rules[i]? = some r := hrules (r, i) List.mem_cons_self
        rw [hk, List.replicate_succ, List.cons_append, lookAt, if_neg hseen,
          lookAt_replicate_of_mem d n (by simp), ih, hfresh, hr, List.filter_cons_of_pos (by simp [hkind, hseen])]
        by_cases hholds : r.holds n = true <;> simp [hholds]
    · rw [List.count_eq_zero_of_not_mem hkind, List.replicate_zero, List.nil_append, ih]
      simp [hkind]

/-- Each rule is looked at once, however often it names a kind. -/
theorem ofKind_eq (d : Dispatcher η) (n : Node) (seen : List Nat) (kind : Kind) :
    d.ofKind n seen kind =
      (((d.rules.zipIdx.filter fun x => kind ∈ x.1.kinds ∧ x.2 ∉ seen).filter fun x => x.1.holds n).map Prod.fst,
        seen ++ (d.rules.zipIdx.filter fun x => kind ∈ x.1.kinds ∧ x.2 ∉ seen).map Prod.snd) := by
  apply lookAt_flatMap
  · intro x hx
    exact List.mem_zipIdx_iff_getElem?.1 hx
  · rw [List.zipIdx_map_snd]
    exact List.nodup_range'

def groups (d : Dispatcher η) (n : Node) : List Nat → List Kind → List (List (Rule η))
  | _, [] => []
  | seen, kind :: kinds =>
    let (found, seen) := d.ofKind n seen kind
    found :: d.groups n seen kinds

def dispatch (d : Dispatcher η) (n : Node) : List (Rule η) := (d.groups n [] n.kind.ancestors).flatten

/-- The rules for a node by the most special kind that has any. -/
def mostSpecific (d : Dispatcher η) (n : Node) : List (Rule η) :=
  ((d.groups n [] n.kind.ancestors).find? (!·.isEmpty)).getD []

end Dispatcher

inductive VisitFault where
  | noRule (kind : Kind)
  | conflict (kind : Kind) (rules : List String)
  deriving DecidableEq

def VisitFault.message : VisitFault → String
  | .noRule kind => "no matching rule for " ++ kind.display
  | .conflict kind rules => "conflicting rules for " ++ kind.display ++ ": " ++ ", ".intercalate rules

namespace Dispatcher

variable {η : Type}

def only (d : Dispatcher η) (n : Node) : Except VisitFault (Rule η) :=
  match d.mostSpecific n with
  | [rule] => .ok rule
  | [] => .error (.noRule n.kind)
  | rules => .error (.conflict n.kind (rules.map Rule.name))

mutual

/-- Visits a tree: the rules that visit its nodes, each with the kind of its node, up to the first node
that cannot be visited. Below a node the visit goes on if the handler of its rule says so. -/
def visit (d : Dispatcher η) (descends : η → Bool) (n : Node) :
    List (Rule η × Kind) × Option VisitFault :=
  match d.only n with
  | .error fault => ([], some fault)
  | .ok rule =>
    if descends rule.handler then
      let (below, fault) := d.visitAll descends n.children
      ((rule, n.kind) :: below, fault)
    else ([(rule, n.kind)], none)
termination_by 2 * n.size
decreasing_by
  rw [n.size_eq]
  omega

def visitAll (d : Dispatcher η) (descends : η → Bool) (ns : List Node) :
    List (Rule η × Kind) × Option VisitFault :=
  match ns with
  | [] => ([], none)
  | n :: ns =>
    match d.visit descends n with
    | (first, some fault) => (first, some fault)
    | (first, none) =>
      let (others, fault) := d.visitAll descends ns
      (first ++ others, fault)
termination_by 2 * Node.sizes ns + 1
decreasing_by
  all_goals
    simp only [Node.sizes_cons]
    have := n.size_pos
    omega

end

end Dispatcher

end Mcfunction
