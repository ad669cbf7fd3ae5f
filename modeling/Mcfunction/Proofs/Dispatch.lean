import Mathlib.Data.List.Perm.Basic
import Mcfunction.Dispatch.Basic

/-! The order in which rules are found. A rule lies as far from a node as the nearest kind that it asks for lies above
the kind of the node. Main statement: whatever was registered, the rules for a node are those that apply to it, each
once, the nearest first and those of one distance in the order of their registration; and the most special ones are
those of the smallest distance. -/

namespace Mcfunction

open List

variable {η θ : Type} {f : Rule η → Rule θ} {x : Rule η × Nat}

/-! ### Rules with their places -/

namespace Dispatcher

variable {d : Dispatcher η} {n : Node} {seen : List Nat} {kind : Kind} {kinds : List Kind}

/-- The rules that ask for a kind and were not looked at before, with their places. -/
def fresh (d : Dispatcher η) (seen : List Nat) (kind : Kind) : List (Rule η × Nat) :=
  d.rules.zipIdx.filter fun x => kind ∈ x.1.kinds ∧ x.2 ∉ seen

def placedGroups (d : Dispatcher η) (n : Node) : List Nat → List Kind → List (List (Rule η × Nat))
  | _, [] => []
  | seen, kind :: kinds =>
    (d.fresh seen kind).filter (·.1.holds n) :: d.placedGroups n (seen ++ (d.fresh seen kind).map Prod.snd) kinds

theorem groups_eq (d : Dispatcher η) (n : Node) (seen : List Nat) (kinds : List Kind) :
    d.groups n seen kinds = (d.placedGroups n seen kinds).map (List.map Prod.fst) := by
  induction kinds generalizing seen with
  | nil => rfl
  | cons kind kinds ih =>
    rw [groups, ofKind_eq, placedGroups, map_cons, ← ih]
    rfl

theorem mem_fresh : x ∈ d.fresh seen kind ↔ x ∈ d.rules.zipIdx ∧ kind ∈ x.1.kinds ∧ x.2 ∉ seen := by
  simp [fresh]

theorem not_mem_seen_iff (hx : x ∈ d.rules.zipIdx) :
    x.2 ∉ seen ++ (d.fresh seen kind).map Prod.snd ↔ x.2 ∉ seen ∧ kind ∉ x.1.kinds := by
  have hplaced : x.2 ∈ (d.fresh seen kind).map Prod.snd ↔ kind ∈ x.1.kinds ∧ x.2 ∉ seen := by
    constructor
    · intro h
      obtain ⟨y, hy, heq⟩ := mem_map.1 h
      obtain ⟨hmem, hkind, hseen⟩ := mem_fresh.1 hy
      have hrule : y.1 = x.1 := by
        rw [mem_zipIdx_iff_getElem?] at hx hmem
        rw [heq, hx] at hmem
        exact (Option.some.inj hmem).symm
      rw [← hrule, ← heq]
      exact ⟨hkind, hseen⟩
    · intro h
      exact mem_map_of_mem (mem_fresh.2 ⟨hx, h⟩)
  rw [mem_append]
  tauto

theorem mem_placedGroups : x ∈ (d.placedGroups n seen kinds).flatten ↔
    x ∈ d.rules.zipIdx ∧ x.2 ∉ seen ∧ (∃ kind ∈ kinds, kind ∈ x.1.kinds) ∧ x.1.holds n = true := by
  induction kinds generalizing seen with
  | nil => simp [placedGroups]
  | cons kind kinds ih =>
    rw [placedGroups, flatten_cons, mem_append, mem_filter, mem_fresh, ih]
    by_cases hx : x ∈ d.rules.zipIdx
    · rw [not_mem_seen_iff hx, exists_mem_cons_iff]
      tauto
    · simp [hx]

/-! ### Order -/

/-- One rule comes before another: the first of some kinds that it asks for comes earlier, or else its own place. -/
def Precedes (kinds : List Kind) (a b : Rule η × Nat) : Prop :=
  kinds.findIdx (· ∈ a.1.kinds) < kinds.findIdx (· ∈ b.1.kinds) ∨
    kinds.findIdx (· ∈ a.1.kinds) = kinds.findIdx (· ∈ b.1.kinds) ∧ a.2 < b.2

theorem findIdx_of_fresh (h : x ∈ d.fresh seen kind) (kinds : List Kind) :
    (kind :: kinds).findIdx (· ∈ x.1.kinds) = 0 := by
  simp [findIdx_cons, (mem_fresh.1 h).2.1]

theorem findIdx_of_later (h : x ∈ (d.placedGroups n (seen ++ (d.fresh seen kind).map Prod.snd) kinds).flatten) :
    (kind :: kinds).findIdx (· ∈ x.1.kinds) = kinds.findIdx (· ∈ x.1.kinds) + 1 := by
  obtain ⟨hx, hseen, -⟩ := mem_placedGroups.1 h
  have hkind : kind ∉ x.1.kinds := ((not_mem_seen_iff hx).1 hseen).2
  simp [findIdx_cons, hkind]

theorem pairwise_zipIdx (rules : List (Rule η)) : rules.zipIdx.Pairwise fun a b => a.2 < b.2 := by
  have h : (rules.zipIdx.map Prod.snd).Pairwise (· < ·) := by
    rw [zipIdx_map_snd]
    exact pairwise_lt_range'
  exact pairwise_map.1 h

theorem placedGroups_pairwise (d : Dispatcher η) (n : Node) (seen : List Nat) (kinds : List Kind) :
    (d.placedGroups n seen kinds).flatten.Pairwise (Precedes kinds) := by
  induction kinds generalizing seen with
  | nil => exact .nil
  | cons kind kinds ih =>
    rw [placedGroups, flatten_cons, pairwise_append]
    refine ⟨?_, ?_, ?_⟩
    · have hplaces := ((pairwise_zipIdx d.rules).filter fun x => kind ∈ x.1.kinds ∧ x.2 ∉ seen).filter
        fun x => x.1.holds n
      refine hplaces.imp_of_mem ?_
      intro a b ha hb hlt
      refine .inr ⟨?_, hlt⟩
      rw [findIdx_of_fresh (mem_filter.1 ha).1, findIdx_of_fresh (mem_filter.1 hb).1]
    · refine (ih _).imp_of_mem ?_
      intro a b ha hb h
      rw [Precedes, findIdx_of_later ha, findIdx_of_later hb]
      exact h.imp Nat.succ_lt_succ fun h => ⟨congrArg Nat.succ h.1, h.2⟩
    · intro a ha b hb
      refine .inl ?_
      rw [findIdx_of_fresh (mem_filter.1 ha).1, findIdx_of_later hb]
      exact Nat.succ_pos _

/-- The first group that is not empty comes first, and its rules ask for an earlier kind than all behind it. -/
theorem placedGroups_leading (d : Dispatcher η) (n : Node) (seen : List Nat) (kinds : List Kind) :
    ∃ leading rest, ((d.placedGroups n seen kinds).find? (!·.isEmpty)).getD [] = leading ∧
      (d.placedGroups n seen kinds).flatten = leading ++ rest ∧
      (∀ a ∈ leading, ∀ b ∈ leading, kinds.findIdx (· ∈ a.1.kinds) = kinds.findIdx (· ∈ b.1.kinds)) ∧
      ∀ b ∈ rest, ∃ a ∈ leading, kinds.findIdx (· ∈ a.1.kinds) < kinds.findIdx (· ∈ b.1.kinds) := by
  induction kinds generalizing seen with
  | nil => exact ⟨[], [], by simp [placedGroups]⟩
  | cons kind kinds ih =>
    rw [placedGroups]
    cases hfound : (d.fresh seen kind).filter (·.1.holds n) with
    | nil =>
      obtain ⟨leading, rest, hleading, hflatten, hequal, hless⟩ := ih (seen ++ (d.fresh seen kind).map Prod.snd)
      have hlater : ∀ x ∈ leading ++ rest,
          (kind :: kinds).findIdx (· ∈ x.1.kinds) = kinds.findIdx (· ∈ x.1.kinds) + 1 := by
        intro x hx
        exact findIdx_of_later (hflatten ▸ hx)
      refine ⟨leading, rest, hleading, hflatten, ?_, ?_⟩
      · intro a ha b hb
        rw [hlater a (mem_append_left _ ha), hlater b (mem_append_left _ hb), hequal a ha b hb]
      · intro b hb
        obtain ⟨a, ha, hlt⟩ := hless b hb
        refine ⟨a, ha, ?_⟩
        rw [hlater a (mem_append_left _ ha), hlater b (mem_append_right _ hb)]
        exact Nat.succ_lt_succ hlt
    | cons first others =>
      have hhere : ∀ x ∈ first :: others, (kind :: kinds).findIdx (· ∈ x.1.kinds) = 0 := by
        intro x hx
        rw [← hfound] at hx
        exact findIdx_of_fresh (mem_filter.1 hx).1 kinds
      refine ⟨first :: others, _, rfl, rfl, ?_, ?_⟩
      · intro a ha b hb
        rw [hhere a ha, hhere b hb]
      · intro b hb
        refine ⟨first, mem_cons_self, ?_⟩
        rw [hhere first mem_cons_self, findIdx_of_later hb]
        exact Nat.succ_pos _

end Dispatcher

/-! ### Rules for a node -/

namespace Rule

/-- How many steps the nearest kind that a rule asks for lies above the kind of a node. -/
def distance (r : Rule η) (n : Node) : Nat := n.kind.ancestors.findIdx (· ∈ r.kinds)

theorem applies_iff_exists (r : Rule η) (n : Node) :
    r.applies n = true ↔ (∃ kind ∈ n.kind.ancestors, kind ∈ r.kinds) ∧ r.holds n = true := by
  simp [applies]

end Rule

namespace Dispatcher

variable {d : Dispatcher η} {n : Node}

/-- The rules for a node, the most special first, with their places. -/
def placed (d : Dispatcher η) (n : Node) : List (Rule η × Nat) := (d.placedGroups n [] n.kind.ancestors).flatten

theorem mem_placed : x ∈ d.placed n ↔ x ∈ d.rules.zipIdx ∧ x.1.applies n = true := by
  rw [placed, mem_placedGroups, Rule.applies_iff_exists]
  simp

variable (d n)

theorem dispatch_eq : d.dispatch n = (d.placed n).map Prod.fst := by
  rw [dispatch, groups_eq, placed, map_flatten]

theorem placed_pairwise : (d.placed n).Pairwise (Precedes n.kind.ancestors) :=
  d.placedGroups_pairwise n [] n.kind.ancestors

theorem placed_perm : (d.placed n).Perm (d.rules.zipIdx.filter (·.1.applies n)) := by
  have hplaced : (d.placed n).Nodup := by
    refine (d.placed_pairwise n).imp ?_
    rintro a b (hlt | ⟨-, hlt⟩) rfl
    · exact Nat.lt_irrefl _ hlt
    · exact Nat.lt_irrefl _ hlt
  have hrules : (d.rules.zipIdx.filter (·.1.applies n)).Nodup := by
    refine ((pairwise_zipIdx d.rules).filter _).imp ?_
    rintro a b hlt rfl
    exact Nat.lt_irrefl _ hlt
  rw [perm_ext_iff_of_nodup hplaced hrules]
  intro x
  rw [mem_placed, mem_filter]

/-- The rules that are found for a node are those that apply to it, each once. -/
theorem dispatch_perm : (d.dispatch n).Perm (d.rules.filter (·.applies n)) := by
  rw [dispatch_eq]
  refine ((d.placed_perm n).map Prod.fst).trans (.of_eq ?_)
  conv_rhs => rw [← zipIdx_map_fst 0 d.rules, filter_map]
  rfl

variable {d n}

theorem dispatch_eq_filter (h : (d.rules.filter (·.applies n)).length ≤ 1) :
    d.dispatch n = d.rules.filter (·.applies n) := by
  have hperm := d.dispatch_perm n
  generalize d.rules.filter (·.applies n) = rules at h hperm
  match rules, h with
  | [], _ => exact hperm.eq_nil
  | [rule], _ => exact hperm.eq_singleton

theorem placedGroups_map (hkinds : ∀ r, (f r).kinds = r.kinds)
    (hholds : ∀ r, (f r).holds n = r.holds n) (seen : List Nat) (kinds : List Kind) :
    (⟨d.rules.map f⟩ : Dispatcher θ).placedGroups n seen kinds =
      (d.placedGroups n seen kinds).map (List.map (Prod.map f id)) := by
  induction kinds generalizing seen with
  | nil => rfl
  | cons kind kinds ih =>
    have hfresh : (⟨d.rules.map f⟩ : Dispatcher θ).fresh seen kind = (d.fresh seen kind).map (Prod.map f id) := by
      simp only [fresh, zipIdx_map, filter_map]
      congr 1
      apply filter_congr
      intro x _
      simp [hkinds]
    have hfound : ((d.fresh seen kind).map (Prod.map f id)).filter (·.1.holds n) =
        ((d.fresh seen kind).filter (·.1.holds n)).map (Prod.map f id) := by
      rw [filter_map]
      congr 1
      apply filter_congr
      intro x _
      exact hholds x.1
    rw [placedGroups, hfresh, hfound, ih, map_map]
    rfl

theorem dispatch_map (hkinds : ∀ r, (f r).kinds = r.kinds)
    (hholds : ∀ r, (f r).holds n = r.holds n) : (⟨d.rules.map f⟩ : Dispatcher θ).dispatch n = (d.dispatch n).map f := by
  rw [dispatch_eq, dispatch_eq, placed, placedGroups_map hkinds hholds, ← map_flatten, map_map, map_map]
  rfl

theorem mostSpecific_leading (d : Dispatcher η) (n : Node) : ∃ rest, d.dispatch n = d.mostSpecific n ++ rest ∧
      (∀ a ∈ d.mostSpecific n, ∀ b ∈ d.mostSpecific n, a.distance n = b.distance n) ∧
      ∀ b ∈ rest, ∃ a ∈ d.mostSpecific n, a.distance n < b.distance n := by
  obtain ⟨leading, rest, hleading, hflatten, hequal, hless⟩ := d.placedGroups_leading n [] n.kind.ancestors
  have hspecific : d.mostSpecific n = leading.map Prod.fst := by
    have hempty : ((!·.isEmpty) ∘ map Prod.fst : List (Rule η × Nat) → Bool) = (!·.isEmpty) := by
      funext group
      simp
    rw [mostSpecific, groups_eq, find?_map, hempty, ← hleading]
    cases (d.placedGroups n [] n.kind.ancestors).find? (!·.isEmpty) <;> rfl
  refine ⟨rest.map Prod.fst, ?_, ?_, ?_⟩
  · rw [dispatch_eq, placed, hflatten, map_append, hspecific]
  · rw [hspecific]
    simp only [forall_mem_map]
    exact hequal
  · rw [hspecific, forall_mem_map]
    intro b hb
    obtain ⟨a, ha, hlt⟩ := hless b hb
    exact ⟨a.1, mem_map_of_mem ha, hlt⟩

end Dispatcher

/-! ### Registration -/

/-- What a rule is registered with. -/
structure Registration (η : Type) where
  name : String
  kinds : List Kind
  predicates : List (String × String)
  handler : η

def Registration.rule (r : Registration η) : Rule η :=
  ⟨r.name, if r.kinds = [] then [.node] else r.kinds, r.predicates, r.handler⟩

namespace Dispatcher

def registerAll (d : Dispatcher η) (rs : List (Registration η)) : Dispatcher η :=
  rs.foldl (fun d r => d.register r.name r.kinds r.predicates r.handler) d

theorem rules_registerAll (d : Dispatcher η) (rs : List (Registration η)) :
    (d.registerAll rs).rules = d.rules ++ rs.map Registration.rule := by
  induction rs generalizing d with
  | nil => rw [map_nil, append_nil]; rfl
  | cons r rs ih =>
    calc ((d.register r.name r.kinds r.predicates r.handler).registerAll rs).rules
      _ = d.rules ++ [r.rule] ++ rs.map Registration.rule := ih _
      _ = d.rules ++ (r :: rs).map Registration.rule := by rw [append_assoc]; rfl

/-- Dispatch after any registrations. The rules for a node are the registered ones that apply to it, each of them once;
a rule that asks for a nearer kind comes first, and of two at one distance the one that was registered first. The most
special rules are the first of them, up to the last one of the smallest distance. -/
theorem dispatch_registered (rs : List (Registration η)) (n : Node) :
    let d : Dispatcher η := registerAll .empty rs
    (∃ found : List (Rule η × Nat), d.dispatch n = found.map Prod.fst ∧
      found.Perm ((rs.map Registration.rule).zipIdx.filter (·.1.applies n)) ∧
      found.Pairwise fun a b => a.1.distance n < b.1.distance n ∨ a.1.distance n = b.1.distance n ∧ a.2 < b.2) ∧
    ∃ rest, d.dispatch n = d.mostSpecific n ++ rest ∧
      (∀ a ∈ d.mostSpecific n, ∀ b ∈ d.dispatch n, a.distance n ≤ b.distance n) ∧
      ∀ b ∈ rest, ∃ a ∈ d.mostSpecific n, a.distance n < b.distance n := by
  intro d
  have hrules : d.rules = rs.map Registration.rule := rules_registerAll .empty rs
  constructor
  · exact ⟨d.placed n, d.dispatch_eq n, hrules ▸ d.placed_perm n, d.placed_pairwise n⟩
  · obtain ⟨rest, hdispatch, hequal, hless⟩ := d.mostSpecific_leading n
    refine ⟨rest, hdispatch, ?_, hless⟩
    intro a ha b hb
    rw [hdispatch] at hb
    rcases mem_append.1 hb with hb | hb
    · exact Nat.le_of_eq (hequal a ha b hb)
    · obtain ⟨c, hc, hlt⟩ := hless b hb
      rw [hequal a ha c hc]
      exact Nat.le_of_lt hlt

end Dispatcher

end Mcfunction
