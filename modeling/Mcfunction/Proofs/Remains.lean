import Mathlib.Data.List.Count
import Mathlib.Data.List.Perm.Subperm
import Mcfunction.Proofs.Transforms

/-! What remains of the definitions in trees. The rules take a definition out or refuse it, and one that is refused stays
where it is: in the tree, or in the block of a definition around it that is taken out. Main statements: the names of the
definitions in trees are those of the definitions that are taken out and of those that are refused, and the latter are
the ones found in the trees and in the blocks afterwards; and what is found there lies where something was before. -/

namespace Mcfunction

open List Option Node NestedFunction

namespace NestedFunction

variable {n m : Node} {cs : List Node}

/-- The names of the definitions in a tree, in the order in which the definitions end. -/
def marks (n : Node) : List Mark := (n.postorder.filterMap defined?).map Definition.mark

theorem marks_eq (n : Node) : marks n = n.children.flatMap marks ++ (defined? n).toList.map Definition.mark := by
  rw [marks, postorder_eq, filterMap_append, map_append, filterMap_flatMap, map_flatMap]
  refine congrArg _ ?_
  cases hdefined : defined? n <;> simp [hdefined]

theorem mem_marks {x : Mark} : x ∈ marks n ↔ ∃ m d, n.Within m ∧ defined? m = some d ∧ d.mark = x := by
  simp only [marks, List.mem_map, mem_filterMap, mem_postorder]
  constructor
  · rintro ⟨d, ⟨m, hm, hd⟩, hmark⟩
    exact ⟨m, d, hm, hd, hmark⟩
  · rintro ⟨m, d, hm, hd, hmark⟩
    exact ⟨d, ⟨m, hm, hd⟩, hmark⟩

theorem marks_sublist (h : n.Within m) : (marks m).Sublist (marks n) := by
  induction h with
  | self n => exact List.Sublist.refl _
  | @child n c m hc _ ih =>
    rw [marks_eq n]
    exact (ih.trans (sublist_flatten_of_mem (mem_map_of_mem hc))).trans (sublist_append_left _ _)

theorem defined?_withChildren_eq_none (hlen : cs.length = n.children.length) (h : defined? n = none) :
    defined? (n.withChildren cs) = none := by
  refine eq_none_iff_forall_ne_some.2 fun d hd => ?_
  -- the node comes back when its own children are put in their place again
  have hform := defined?_eq_some.1 hd
  have hchildren := children_withChildren hlen
  rw [children, hform] at hchildren
  have hcount := hlen.symm.trans (congrArg length hchildren.symm)
  obtain ⟨name, body, htwo⟩ := length_eq_two.1 hcount
  have hback := form_withChildren_command hform hcount
  rw [withChildren_back hlen, htwo] at hback
  exact some_ne_none _ ((defined?_eq_some (d := ⟨name, body⟩).2 hback).symm.trans h)

theorem Mark.ofNode_of_kind_ne (h : n.kind ≠ .resourceLocation) : Mark.ofNode n = ⟨n.span, none⟩ := by
  obtain ⟨form, span⟩ := n
  cases form with
  | resourceLocation l => exact absurd rfl h
  | _ => rfl

theorem Mark.ofNode_withChildren (h : cs.length = n.children.length) : Mark.ofNode (n.withChildren cs) = .ofNode n := by
  by_cases hkind : n.kind = .resourceLocation
  · obtain ⟨form, span⟩ := n
    cases form with
    | resourceLocation l =>
      exact congrArg ofNode (withChildren_children ⟨.resourceLocation l, span⟩)
    | _ => cases hkind
  · rw [ofNode_of_kind_ne hkind, ofNode_of_kind_ne (by rwa [kind_withChildren h])]
    rfl

end NestedFunction

namespace Options

open NestedFunction (Definition Mark defined? marks marks_eq)

variable {o : Options} {ns ms : List Node} {ds ls : List Definition} {n m : Node}

theorem ofNode_settleAt (o : Options) (n : Node) : Mark.ofNode (o.settleAt n) = .ofNode n := by
  cases hdef : o.definitionAt? n with
  | some d =>
    obtain ⟨hform, hsettled⟩ := settleAt_of_definitionAt? hdef
    rw [hsettled, Mark.ofNode_of_kind_ne (n := n) (by rw [kind_of_command hform]; decide)]
    rfl
  | none =>
    by_cases hroot : n.kind = .root
    · rw [settleAt_of_root hroot]
      split
      · obtain ⟨form, span⟩ := n
        cases form <;> rfl
      · rfl
    · rw [settleAt_of_not_root hroot hdef]

theorem Reworked.length_eq (h : o.Reworked ns ds ls ms) : ms.length = ns.length := by
  induction h with
  | nil | settled | left => rfl
  | cons _ _ _ ih => rw [length_cons, length_cons, ih]

theorem Reworked.ofNode_eq (h : o.Reworked ns ds ls ms) : ms.map Mark.ofNode = ns.map Mark.ofNode := by
  induction h with
  | nil => rfl
  | cons _ _ ih ih' => rw [map_cons, map_cons, ih', (cons.inj ih).1]
  | settled hbelow => rw [map_singleton, ofNode_settleAt, Mark.ofNode_withChildren hbelow.length_eq, map_singleton]
  | left hbelow => rw [map_singleton, Mark.ofNode_withChildren hbelow.length_eq, map_singleton]

theorem Reworked.mark_withChildren (h : o.Reworked n.children ds ls ms) :
    (defined? (n.withChildren ms)).map Definition.mark = (defined? n).map Definition.mark := by
  cases hdefined : defined? n with
  | some d =>
    have hform := defined?_eq_some.1 hdefined
    have hmarks := h.ofNode_eq
    have hlen := h.length_eq
    rw [children, hform] at hmarks hlen
    obtain ⟨name, body, rfl⟩ := length_eq_two.1 hlen
    rw [(defined?_eq_some (d := ⟨name, body⟩)).2 (form_withChildren_command hform rfl)]
    exact congrArg some (cons.inj hmarks).1
  | none => rw [defined?_withChildren_eq_none h.length_eq hdefined]

/-! ### Counts -/

def uses (x : Mark) (ns : List Node) : Nat := (ns.flatMap marks).count x

def named (x : Mark) (ds : List Definition) : Nat := (ds.map Definition.mark).count x

theorem uses_append (x : Mark) (ns ms : List Node) : uses x (ns ++ ms) = uses x ns + uses x ms := by
  rw [uses, flatMap_append, count_append]
  rfl

theorem named_append (x : Mark) (ds ls : List Definition) : named x (ds ++ ls) = named x ds + named x ls := by
  rw [named, map_append, count_append]
  rfl

theorem named_toList (x : Mark) (d : Option Definition) : named x d.toList = (d.map Definition.mark).toList.count x := by
  cases d <;> rfl

theorem uses_singleton (x : Mark) (n : Node) : uses x [n] = uses x n.children + named x (defined? n).toList := by
  rw [uses, flatMap_singleton, marks_eq, count_append]
  rfl

theorem uses_cons (x : Mark) (n : Node) (ns : List Node) : uses x (n :: ns) = uses x [n] + uses x ns :=
  uses_append x [n] ns

theorem uses_map_unwrap_le (x : Mark) (commands : List Node) :
    uses x (commands.map ExecuteRun.unwrap) ≤ uses x commands := by
  induction commands with
  | nil => exact Nat.le_refl _
  | cons c commands ih =>
    rw [map_cons, uses_cons, uses_cons x c]
    refine Nat.add_le_add ?_ ih
    rw [uses, uses, flatMap_singleton, flatMap_singleton]
    exact (marks_sublist (ExecuteRun.within_unwrap c)).count_le x

section

variable (hnested : o.enables .nestedFunction = true)

include hnested

/-- What is made of a node, and the block that is taken out of it, have the definitions that were below the node. -/
theorem uses_settleAt (x : Mark) (n : Node) :
    uses x [o.settleAt n] + uses x ((o.definitionAt? n).toList.map Definition.body) ≤ uses x n.children ∧
      (o.enables .executeRun = false →
        uses x [o.settleAt n] + uses x ((o.definitionAt? n).toList.map Definition.body) = uses x n.children) := by
  cases hdef : o.definitionAt? n with
  | some d =>
    obtain ⟨hform, hsettled⟩ := settleAt_of_definitionAt? hdef
    have hsplit : uses x [o.settleAt n] + uses x [d.body] = uses x n.children := by
      rw [hsettled, uses_singleton, children, children, hform]
      exact (uses_cons x d.name [d.body]).symm
    exact ⟨Nat.le_of_eq hsplit, fun _ => hsplit⟩
  | none =>
    have hdefined : defined? n = none := by rwa [definitionAt?, if_pos hnested] at hdef
    by_cases hroot : n.kind = .root
    · rw [settleAt_of_root hroot]
      split
      · rename_i hrun
        refine ⟨?_, fun hno => absurd (hrun.symm.trans hno) Bool.noConfusion⟩
        obtain ⟨form, span⟩ := n
        cases form with
        | root commands =>
          rw [uses_singleton]
          exact uses_map_unwrap_le x commands
        | _ => cases hroot
      · rw [uses_singleton, hdefined]
        exact ⟨Nat.le_refl _, fun _ => rfl⟩
    · rw [settleAt_of_not_root hroot hdef, uses_singleton, hdefined]
      exact ⟨Nat.le_refl _, fun _ => rfl⟩

/-- The definitions that are found in the trees and in the blocks afterwards were refused, and all of those are found if
no command is put in the place of another. -/
theorem Reworked.uses_left (h : o.Reworked ns ds ls ms) (x : Mark) :
    uses x ms + uses x (ds.map Definition.body) ≤ named x ls ∧
      (o.enables .executeRun = false → uses x ms + uses x (ds.map Definition.body) = named x ls) := by
  induction h with
  | nil => exact ⟨Nat.le_refl _, fun _ => rfl⟩
  | @cons n m ns ms ds ds' ls ls' _ _ ih ih' =>
    rw [uses_cons, map_append, uses_append, named_append]
    exact ⟨by omega, fun hrun => by have := ih.2 hrun; have := ih'.2 hrun; omega⟩
  | @settled n ms ds ls hbelow ih =>
    have hat := uses_settleAt hnested x (n.withChildren ms)
    rw [children_withChildren hbelow.length_eq] at hat
    rw [map_append, uses_append]
    exact ⟨by omega, fun hrun => by have := ih.2 hrun; have := hat.2 hrun; omega⟩
  | @left n ms ds ls d hbelow hd ih =>
    rw [uses_singleton, children_withChildren hbelow.length_eq, (definitionAt?_eq_some.1 hd).2, named_append,
      toList_some]
    exact ⟨by omega, fun hrun => by have := ih.2 hrun; omega⟩

theorem Reworked.uses_eq (h : o.Reworked ns ds ls ms) (x : Mark) : uses x ns = named x ds + named x ls := by
  induction h with
  | nil => rfl
  | @cons n m ns ms ds ds' ls ls' _ _ ih ih' =>
    rw [uses_cons, named_append, named_append]
    omega
  | @settled n ms ds ls hbelow ih =>
    rw [uses_singleton, named_append, named_toList, ← hbelow.mark_withChildren, ← named_toList, definitionAt?,
      if_pos hnested]
    omega
  | @left n ms ds ls d hbelow hd ih =>
    rw [uses_singleton, ih, named_append, named_toList, ← hbelow.mark_withChildren, (definitionAt?_eq_some.1 hd).2]
    exact Nat.add_assoc _ _ _

theorem Reworked.marks_subperm (h : o.Reworked [n] ds ls [m]) : (marks m).Subperm (ls.map Definition.mark) ∧
    (∀ d ∈ ds, d.mark ∈ marks n ∧ (marks d.body).Subperm (ls.map Definition.mark)) ∧
    (ls.map Definition.mark).Subperm (marks n) := by
  have hall : ∀ x, (marks n).count x = named x ds + named x ls := by
    rw [← flatMap_singleton marks n]
    exact h.uses_eq hnested
  have hleft : ∀ x, (marks m).count x + uses x (ds.map Definition.body) ≤ named x ls := by
    rw [← flatMap_singleton marks m]
    exact fun x => (h.uses_left hnested x).1
  refine ⟨subperm_ext_iff.2 fun x _ => Nat.le_of_add_right_le (hleft x),
    fun d hd => ⟨count_pos_iff.1 ?_, subperm_ext_iff.2 fun x _ => ?_⟩, subperm_ext_iff.2 fun x _ => ?_⟩
  · rw [hall]
    exact Nat.add_pos_left (count_pos_iff.2 (mem_map_of_mem hd)) _
  · have hbody : (marks d.body).count x ≤ uses x (ds.map Definition.body) :=
      (sublist_flatten_of_mem (mem_map_of_mem (mem_map_of_mem hd))).count_le x
    exact Nat.le_trans hbody (Nat.le_of_add_left_le (hleft x))
  · rw [hall]
    exact Nat.le_add_left _ _

end

/-! ### Places -/

def Lies (P : Span → Prop) (n : Node) : Prop := ∀ m, n.Within m → P m.span

variable {P : Span → Prop}

theorem lies_iff : Lies P n ↔ P n.span ∧ ∀ c ∈ n.children, Lies P c := by
  constructor
  · exact fun h => ⟨h n (.self n), fun c hc m hm => h m (.child hc hm)⟩
  · rintro ⟨hself, hchildren⟩ m hm
    cases hm with
    | self => exact hself
    | child hc hm => exact hchildren _ hc m hm

theorem Lies.withChildren (h : Lies P n) (hlen : ms.length = n.children.length) (hms : ∀ m ∈ ms, Lies P m) :
    Lies P (n.withChildren ms) := by
  rw [lies_iff, children_withChildren hlen]
  exact ⟨(lies_iff.1 h).1, hms⟩

theorem Lies.definition {d : Definition} (h : Lies P n) (hd : o.definitionAt? n = some d) :
    Lies P d.name ∧ Lies P d.body := by
  have hchildren := (lies_iff.1 h).2
  rw [children, (settleAt_of_definitionAt? hd).1] at hchildren
  exact ⟨hchildren _ mem_cons_self, hchildren _ (mem_cons_of_mem _ mem_cons_self)⟩

theorem Lies.settleAt (h : Lies P n) : Lies P (o.settleAt n) := by
  cases hdef : o.definitionAt? n with
  | some d =>
    rw [(settleAt_of_definitionAt? hdef).2, lies_iff]
    exact ⟨(lies_iff.1 h).1, forall_mem_singleton.2 (h.definition hdef).1⟩
  | none =>
    by_cases hroot : n.kind = .root
    · rw [settleAt_of_root hroot]
      split
      · obtain ⟨form, span⟩ := n
        cases form with
        | root commands =>
          rw [lies_iff] at h ⊢
          refine ⟨h.1, forall_mem_map.2 fun c hc m hm => ?_⟩
          exact h.2 c hc m ((ExecuteRun.within_unwrap c).trans hm)
        | _ => cases hroot
      · exact h
    · rwa [settleAt_of_not_root hroot hdef]

theorem Reworked.lies (h : o.Reworked ns ds ls ms) (hns : ∀ n ∈ ns, Lies P n) :
    (∀ m ∈ ms, Lies P m) ∧ (∀ d ∈ ds, Lies P d.body) ∧ ∀ d ∈ ls, P d.mark.span := by
  induction h with
  | nil => exact ⟨hns, forall_mem_nil _, forall_mem_nil _⟩
  | cons _ _ ih ih' =>
    rw [forall_mem_cons] at hns
    obtain ⟨hms, hds, hls⟩ := ih (forall_mem_singleton.2 hns.1)
    obtain ⟨hms', hds', hls'⟩ := ih' hns.2
    exact ⟨forall_mem_cons.2 ⟨hms _ mem_cons_self, hms'⟩, forall_mem_append.2 ⟨hds, hds'⟩,
      forall_mem_append.2 ⟨hls, hls'⟩⟩
  | settled hbelow ih =>
    rw [forall_mem_singleton] at hns
    obtain ⟨hms, hds, hls⟩ := ih (lies_iff.1 hns).2
    have hnode := hns.withChildren hbelow.length_eq hms
    refine ⟨forall_mem_singleton.2 hnode.settleAt, forall_mem_append.2 ⟨hds, fun d hd => ?_⟩, hls⟩
    exact (hnode.definition (mem_toList.1 hd)).2
  | left hbelow hd ih =>
    rw [forall_mem_singleton] at hns
    obtain ⟨hms, hds, hls⟩ := ih (lies_iff.1 hns).2
    have hnode := hns.withChildren hbelow.length_eq hms
    refine ⟨forall_mem_singleton.2 hnode, hds, forall_mem_append.2 ⟨hls, ?_⟩⟩
    exact forall_mem_singleton.2 ((hnode.definition hd).1 _ (.self _))

end Options

end Mcfunction
