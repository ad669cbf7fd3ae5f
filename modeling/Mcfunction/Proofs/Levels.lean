import Mathlib.Data.List.Nodup
import Mathlib.Data.Nat.Find
import Mcfunction.Proofs.Walk

/-! Trees by levels. A level holds the children of all nodes of the one above, from left to right, and an address says
which child to go to from the root on. Main statement: a walk over a tree is its levels one after the other, and meets
what stands at each address once, after what it is a child of. -/

namespace Mcfunction.Node

open List

/-- The nodes of a tree at a depth, from left to right. -/
def level (n : Node) : Nat → List Node
  | 0 => [n]
  | depth + 1 => (n.level depth).flatMap children

/-- The node at an address. -/
def at? : Node → List Nat → Option Node
  | n, [] => some n
  | n, i :: address => n.children[i]?.bind (at? · address)

/-! ### Levels -/

/-- The queue of a walk: when some nodes at its front are done, their children wait behind all others. -/
theorem walkFrom_append (done waiting : List Node) :
    walkFrom (done ++ waiting) = done ++ walkFrom (waiting ++ done.flatMap children) := by
  induction done generalizing waiting with
  | nil => simp
  | cons n done ih => rw [cons_append, walkFrom, append_assoc, ih, flatMap_cons, append_assoc, cons_append]

theorem walk_eq_levels (n : Node) (depth : Nat) :
    n.walk = (range depth).flatMap n.level ++ walkFrom (n.level depth) := by
  induction depth with
  | zero => rfl
  | succ depth ih =>
    have hlevel := walkFrom_append (n.level depth) []
    rw [append_nil, nil_append] at hlevel
    rw [ih, hlevel, range_succ, flatMap_append, flatMap_singleton, append_assoc]
    rfl

theorem length_walkFrom (waiting : List Node) : (walkFrom waiting).length = sizes waiting := by
  fun_induction walkFrom waiting with
  | case1 => rfl
  | case2 n rest ih =>
    rw [length_cons, ih, sizes_append, sizes_cons, size_eq]
    omega

theorem sizes_flatMap_children (ns : List Node) : sizes (ns.flatMap children) + ns.length = sizes ns := by
  induction ns with
  | nil => rfl
  | cons n ns ih =>
    rw [flatMap_cons, sizes_append, sizes_cons, size_eq, length_cons, ← ih]
    omega

theorem exists_level_eq_nil (n : Node) : ∃ depth, n.level depth = [] := by
  by_contra! hne
  have hbound : ∀ depth, sizes (n.level depth) + depth ≤ n.size := by
    intro depth
    induction depth with
    | zero => exact le_refl _
    | succ depth ih =>
      have hlevel := sizes_flatMap_children (n.level depth)
      have hpos := length_pos_iff.2 (hne depth)
      rw [level]
      omega
  have hdeep := hbound (n.size + 1)
  omega

variable {n : Node} {address : List Nat} {depth k : Nat}

theorem level_eq_nil_of_le (h : n.level depth = []) (hle : depth ≤ k) : n.level k = [] := by
  induction hle with
  | refl => exact h
  | step _ ih =>
    rw [level, ih]
    rfl

/-! ### Addresses -/

theorem at?_append (n : Node) (address : List Nat) (i : Nat) :
    n.at? (address ++ [i]) = (n.at? address).bind (·.children[i]?) := by
  induction address generalizing n with
  | nil =>
    change n.children[i]?.bind some = _
    rw [Option.bind_fun_some]
    rfl
  | cons k address ih =>
    rw [cons_append, at?, at?, Option.bind_assoc]
    exact congrArg _ (funext fun c => ih c)

/-- The addresses of a level. -/
def addresses (n : Node) : Nat → List (List Nat)
  | 0 => [[]]
  | depth + 1 => (n.addresses depth).flatMap fun address =>
    (range ((n.at? address).elim 0 (·.children.length))).map (address ++ [·])

theorem mem_addresses : address ∈ n.addresses depth ↔ address.length = depth ∧ (n.at? address).isSome := by
  induction depth generalizing address with
  | zero =>
    rw [addresses, mem_singleton, length_eq_zero_iff]
    exact ⟨fun h => ⟨h, by rw [h]; rfl⟩, And.left⟩
  | succ depth ih =>
    simp only [addresses, mem_flatMap, mem_map, mem_range, ih]
    constructor
    · rintro ⟨above, ⟨rfl, -⟩, i, hi, rfl⟩
      rw [at?_append, length_append]
      cases hat : n.at? above <;> simp_all
    · rintro ⟨hlen, hat⟩
      obtain ⟨above, i, rfl⟩ := (eq_nil_or_concat' address).resolve_left (by rintro rfl; cases hlen)
      rw [at?_append] at hat
      refine ⟨above, ?_, i, ?_, rfl⟩ <;> cases habove : n.at? above <;> simp_all

theorem nodup_addresses (n : Node) (depth : Nat) : (n.addresses depth).Nodup := by
  induction depth with
  | zero => exact nodup_singleton _
  | succ depth ih =>
    refine nodup_flatMap.2 ⟨fun address _ => nodup_range.map fun i k h => ?_, ih.imp fun hne => ?_⟩
    · exact singleton_inj.1 (append_cancel_left h)
    · intro address h h'
      obtain ⟨i, -, rfl⟩ := mem_map.1 h
      obtain ⟨k, -, hk⟩ := mem_map.1 h'
      exact hne (append_inj_left' hk.symm rfl)

theorem map_at?_addresses (n : Node) (depth : Nat) : (n.addresses depth).map n.at? = (n.level depth).map some := by
  have hbelow : ∀ m : Option Node, (range (m.elim 0 (·.children.length))).map (fun i => m.bind (·.children[i]?)) =
      (m.elim [] children).map some := by
    intro m
    cases m with
    | none => rfl
    | some m => exact ext_getElem (by simp) (by simp)
  induction depth with
  | zero => rfl
  | succ depth ih =>
    calc (n.addresses (depth + 1)).map n.at?
        = (n.addresses depth).flatMap fun address => ((n.at? address).elim [] children).map some := by
          rw [addresses, map_flatMap]
          refine congrArg (flatMap · _) (funext fun address => ?_)
          rw [map_map, ← hbelow]
          exact map_congr_left fun i _ => n.at?_append address i
      _ = ((n.addresses depth).map n.at?).flatMap fun m => (m.elim [] children).map some := by rw [flatMap_map]
      _ = (n.level (depth + 1)).map some := by rw [ih, flatMap_map, level, map_flatMap]; rfl

theorem mem_flatMap_addresses (hnil : n.level depth = []) :
    address ∈ (range depth).flatMap n.addresses ↔ (n.at? address).isSome := by
  rw [mem_flatMap]
  constructor
  · rintro ⟨k, -, h⟩
    exact (mem_addresses.1 h).2
  · intro h
    have hmem : address ∈ n.addresses address.length := mem_addresses.2 ⟨rfl, h⟩
    refine ⟨_, mem_range.2 (Nat.lt_of_not_le fun hle => ?_), hmem⟩
    have hmap := n.map_at?_addresses address.length
    rw [level_eq_nil_of_le hnil hle, map_nil, map_eq_nil_iff] at hmap
    rw [hmap] at hmem
    cases hmem

theorem pairwise_addresses (n : Node) (depth : Nat) :
    ((range depth).flatMap n.addresses).Pairwise fun a b => a ≠ b ∧ a.length ≤ b.length := by
  refine pairwise_flatMap.2 ⟨fun k _ => ?_, pairwise_lt_range.imp fun hlt a ha b hb => ?_⟩
  · refine (n.nodup_addresses k).imp_of_mem fun ha hb hne => ⟨hne, ?_⟩
    exact le_of_eq ((mem_addresses.1 ha).1.trans (mem_addresses.1 hb).1.symm)
  · rw [← (mem_addresses.1 ha).1, ← (mem_addresses.1 hb).1] at hlt
    exact ⟨fun heq => ne_of_lt hlt (congrArg _ heq), le_of_lt hlt⟩

/-- Walks go level by level. A tree has some number of levels, and a walk over it is the levels one after the other. It
can be written as a list of addresses that holds each address in the tree once, and the one of each node after the one
of the node above. So it is as long as the tree has nodes. -/
theorem walk_by_levels (n : Node) :
    (∃ depth, (∀ k, n.level k = [] ↔ depth ≤ k) ∧ n.walk = (range depth).flatMap n.level) ∧
      (∃ order : List (List Nat), n.walk.map some = order.map n.at? ∧ order.Nodup ∧
        (∀ address, address ∈ order ↔ (n.at? address).isSome) ∧
        ∀ (k : Nat) address i, order[k]? = some (address ++ [i]) → ∃ j < k, order[j]? = some address) ∧
      n.walk.length = n.size := by
  classical
  have hexists := n.exists_level_eq_nil
  obtain ⟨depth, hnil, hmin⟩ : ∃ depth, n.level depth = [] ∧ ∀ k < depth, n.level k ≠ [] :=
    ⟨Nat.find hexists, Nat.find_spec hexists, fun _ => Nat.find_min hexists⟩
  have hlevels := n.walk_eq_levels depth
  rw [hnil, walkFrom, append_nil] at hlevels
  have hlevel : ∀ k, n.level k = [] ↔ depth ≤ k :=
    fun k => ⟨fun h => Nat.le_of_not_lt fun hlt => hmin k hlt h, level_eq_nil_of_le hnil⟩
  have hpairs := n.pairwise_addresses depth
  refine ⟨⟨depth, hlevel, hlevels⟩, ⟨_, ?_, hpairs.imp And.left, fun _ => mem_flatMap_addresses hnil, ?_⟩, ?_⟩
  · rw [hlevels, map_flatMap, map_flatMap]
    exact congrArg (flatMap · _) (funext fun k => (n.map_at?_addresses k).symm)
  · intro k address i hk
    obtain ⟨hlt, hget⟩ := List.getElem?_eq_some_iff.1 hk
    have habove : (n.at? address).isSome := by
      have hat := (mem_flatMap_addresses hnil).1 (mem_of_getElem? hk)
      rw [at?_append] at hat
      cases h : n.at? address <;> simp_all
    obtain ⟨j, hj, hjget⟩ := mem_iff_getElem.1 ((mem_flatMap_addresses hnil).2 habove)
    refine ⟨j, Nat.lt_of_not_le fun hle => ?_, List.getElem?_eq_some_iff.2 ⟨hj, hjget⟩⟩
    -- an address is shorter than those below it, so it does not come after them
    have hlen : (address ++ [i]).length ≤ address.length := by
      rcases Nat.eq_or_lt_of_le hle with rfl | hkj
      · exact le_of_eq (congrArg _ (hget.symm.trans hjget))
      · have hle := (pairwise_iff_getElem.1 hpairs k j hlt hj hkj).2
        rwa [hget, hjget] at hle
    rw [length_append] at hlen
    exact Nat.not_succ_le_self _ hlen
  · rw [walk, length_walkFrom, sizes_cons, sizes_nil, Nat.add_zero]

end Mcfunction.Node
