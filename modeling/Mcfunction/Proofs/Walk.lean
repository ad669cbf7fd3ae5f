import Mcfunction.Node.Basic

/-! The nodes of a tree. Walking over a tree meets each of the nodes within it and nothing else, so what
holds of a node and passes on to children holds of every node of the walk. -/

namespace Mcfunction.Node

open List

/-- A node of a tree: the tree itself, or a node of one of its children. -/
inductive Within : Node → Node → Prop where
  | self (n : Node) : Within n n
  | child {n c m : Node} (hc : c ∈ n.children) (h : Within c m) : Within n m

theorem Within.trans {n m k : Node} (h : Within n m) (h' : Within m k) : Within n k := by
  induction h with
  | self => exact h'
  | child hc _ ih => exact .child hc (ih h')

theorem mem_walkFrom {waiting : List Node} {m : Node} : m ∈ walkFrom waiting ↔ ∃ n ∈ waiting, Within n m := by
  fun_induction walkFrom waiting with
  | case1 => simp
  | case2 n rest ih =>
    rw [mem_cons, ih]
    constructor
    · rintro (rfl | ⟨c, hc, hcm⟩)
      · exact ⟨m, mem_cons_self, .self m⟩
      · rcases mem_append.1 hc with hc | hc
        · exact ⟨c, mem_cons_of_mem n hc, hcm⟩
        · exact ⟨n, mem_cons_self, .child hc hcm⟩
    · rintro ⟨c, hc, hcm⟩
      rcases mem_cons.1 hc with rfl | hc
      · cases hcm with
        | self => exact .inl rfl
        | child hd hdm => exact .inr ⟨_, mem_append_right rest hd, hdm⟩
      · exact .inr ⟨c, mem_append_left _ hc, hcm⟩

theorem mem_walk {n m : Node} : m ∈ n.walk ↔ Within n m := by
  rw [walk, mem_walkFrom]
  constructor
  · rintro ⟨c, hc, h⟩
    rwa [mem_singleton.1 hc] at h
  · exact fun h => ⟨n, mem_singleton_self n, h⟩

variable {P : Node → Prop}

theorem Within.induct (hstep : ∀ n, P n → ∀ c ∈ n.children, P c) {n m : Node} (hn : P n) (h : Within n m) : P m := by
  induction h with
  | self => exact hn
  | child hc _ ih => exact ih (hstep _ hn _ hc)

theorem induct (hstep : ∀ n, (∀ c ∈ n.children, P c) → P n) (n : Node) : P n := by
  induction hsize : n.size using Nat.strongRecOn generalizing n with
  | ind size ih =>
    subst hsize
    exact hstep n fun c hc => ih c.size (size_lt_of_mem_children hc) c rfl

end Mcfunction.Node
