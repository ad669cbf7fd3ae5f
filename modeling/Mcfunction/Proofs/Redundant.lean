import Mcfunction.Proofs.Transforms

/-! Commands that only run others, as two rules see them: one puts the commands that are run in their place, the other
one reports them. Main statement: a tree is changed by the one rule just if the other one reports something about it;
nothing is reported about the tree that results, and it is not changed again. -/

namespace Mcfunction

open List Node Reduced Dispatcher

namespace Dispatcher

variable {C : Type} [Reports C]

theorem reduceBy_of_singleton {d : Dispatcher (Handler C)} {rule : Rule (Handler C)} (h : d.rules = [rule]) (r : Reduced)
    (context : C) : reduceBy (d.dispatch r.node) r context = rule.reduce r context := by
  have hperm := d.dispatch_perm r.node
  rw [h] at hperm
  by_cases happlies : rule.applies r.node = true
  · simp only [filter_cons, happlies, if_true, filter_nil, perm_singleton] at hperm
    rw [hperm]
    rfl
  · simp only [filter_cons, happlies, filter_nil, Bool.false_eq_true, if_false, perm_nil] at hperm
    rw [hperm, Rule.reduce, if_neg happlies]
    rfl

end Dispatcher

def Options.only (r : StandardRule) : Options := { rules := some [r.name] }

namespace ExecuteRun

variable {σ : Type} {n : Node}

/-- The commands of all functions in a tree that only run others, in the order in which nodes are reduced. -/
def redundant (n : Node) : List Node := n.postorder.flatMap redundantAt

def transforms (σ : Type) : Dispatcher (Handler (Pass σ)) := (Options.only .executeRun).transforms σ

def lints (σ : Type) : Dispatcher (Handler (Pass σ)) := (Options.only .redundantExecuteRun).lints σ

theorem redundant_eq (n : Node) : redundant n = n.children.flatMap redundant ++ redundantAt n := by
  rw [redundant, postorder_eq, flatMap_append, flatMap_singleton, flatMap_assoc]
  rfl

theorem redundant_eq_nil_iff : redundant n = [] ↔ (∀ c ∈ n.children, redundant c = []) ∧ redundantAt n = [] := by
  rw [redundant_eq, append_eq_nil_iff, flatMap_eq_nil_iff]

/-! ### Changing trees -/

theorem target?_of_kind_ne (h : n.kind ≠ .command) : target? n = none := by
  obtain ⟨form, span⟩ := n
  cases form with
  | command identifier arguments => exact absurd rfl h
  | _ => rfl

theorem kind_rewrite_inline (n : Node) : (n.rewrite inline).kind = n.kind := by
  rw [rewrite_eq, kind_inline, kind_withChildren (length_map _)]

theorem rewrite_inline_of_kind_ne (h : n.kind ≠ .root) :
    n.rewrite inline = n.withChildren (n.children.map (rewrite inline)) := by
  rw [rewrite_eq, inline_of_kind_ne]
  rwa [kind_withChildren (length_map _)]

theorem form_rewrite_inline_of_command {identifier : String} {arguments : List Node}
    (h : n.form = .command identifier arguments) :
    (n.rewrite inline).form = .command identifier (arguments.map (rewrite inline)) := by
  have hchildren : n.children = arguments := by
    rw [children, h]
    rfl
  have hkind : n.kind ≠ .root := by
    rw [kind_of_command h]
    decide
  rw [rewrite_inline_of_kind_ne hkind, hchildren, form_withChildren_command h (length_map _)]

theorem form_rewrite_inline_of_root {commands : List Node} (h : n.form = .root commands) :
    (n.rewrite inline).form = .root (commands.map fun c => unwrap (c.rewrite inline)) := by
  have hchildren : n.children = commands := by
    rw [children, h]
    rfl
  have hlen : (commands.map (rewrite inline)).length = commands.length := length_map _
  have hform := form_withChildren_root h hlen
  rw [rewrite_eq, hchildren, inline, hform]
  dsimp only
  rw [map_map]
  rfl

theorem target?_rewrite_inline (n : Node) : target? (n.rewrite inline) = (target? n).map (rewrite inline) := by
  by_cases hkind : n.kind = .command
  · obtain ⟨form, span⟩ := n
    cases form with
    | command identifier arguments =>
      have hform := form_rewrite_inline_of_command (n := ⟨.command identifier arguments, span⟩) rfl
      simp only [target?, hform, head?_map]
      split <;> rfl
    | _ => cases hkind
  · rw [target?_of_kind_ne hkind, target?_of_kind_ne (by rwa [kind_rewrite_inline])]
    rfl

theorem redundant_rewrite_inline (n : Node) : redundant (n.rewrite inline) = [] := by
  induction n using induct with
  | hstep n ih =>
    rw [redundant_eq_nil_iff]
    by_cases hkind : n.kind = .root
    · obtain ⟨form, span⟩ := n
      cases form with
      | root commands =>
        have hform := form_rewrite_inline_of_root (n := ⟨.root commands, span⟩) rfl
        constructor
        · intro c hc
          rw [children, hform] at hc
          obtain ⟨c, hmem, rfl⟩ := mem_map.1 hc
          exact Within.induct (fun m hm => (redundant_eq_nil_iff.1 hm).1)
            (ih c hmem) (within_unwrap _)
        · rw [redundantAt_root hform, forall_mem_map]
          intro c hc
          exact target?_unwrap _
      | _ => cases hkind
    · constructor
      · rw [rewrite_inline_of_kind_ne hkind, children_withChildren (length_map _), forall_mem_map]
        exact ih
      · exact redundantAt_of_kind_ne (by rwa [kind_rewrite_inline])

/-- A tree after the rule had its turn at all nodes: each function has the commands that are run in the end, and the
tree is the very one that was given just if there were no others. -/
def Inlined (n : Node) (r : Reduced) : Prop := r.node = n.rewrite inline ∧ (r.same = true ↔ redundant n = [])

theorem rewrite_inline_of_redundant_eq_nil (h : redundant n = []) : n.rewrite inline = n := by
  rw [redundant, flatMap_eq_nil_iff] at h
  exact rewrite_of_fixed fun m hm => inline_of_redundantAt_eq_nil (h m (mem_postorder.2 hm))

theorem Inlined.honest {r : Reduced} (h : Inlined n r) : Honest n r := by
  intro hsame
  rw [h.1, rewrite_inline_of_redundant_eq_nil (h.2.1 hsame)]

theorem Inlined.all {ns : List Node} {rs : List Reduced} (h : Forall₂ Inlined ns rs) :
    rs.map node = ns.map (rewrite inline) ∧ ((∀ r ∈ rs, r.same = true) ↔ ∀ n ∈ ns, redundant n = []) := by
  induction h with
  | nil => simp
  | cons hr _ ih => simp [hr.1, hr.2, ih.1, ih.2]

theorem redundantAt_withChildren (n : Node) :
    redundantAt (n.withChildren (n.children.map (rewrite inline))) = [] ↔ redundantAt n = [] := by
  by_cases hkind : n.kind = .root
  · obtain ⟨form, span⟩ := n
    cases form with
    | root commands =>
      rw [redundantAt_root (form_withChildren_root rfl (length_map _)), redundantAt_root rfl]
      change (∀ c ∈ commands.map (rewrite inline), target? c = none) ↔ _
      simp only [forall_mem_map, target?_rewrite_inline, Option.map_eq_none_iff]
    | _ => cases hkind
  · rw [redundantAt_of_kind_ne hkind, redundantAt_of_kind_ne (by rwa [kind_withChildren (length_map _)])]

theorem rules_transforms (σ : Type) : (transforms σ).rules = [rule σ] := rfl

theorem reduce_transforms (n : Node) (p : Pass σ) :
    Inlined n ((transforms σ).reduce n p).1 ∧ ((transforms σ).reduce n p).2 = p := by
  have hall := reduce_induct (d := transforms σ)
    (P := fun ns p rs p' => Forall₂ Inlined ns rs ∧ p' = p) ?_ ?_ ?_ n p
  · exact ⟨(forall₂_cons.1 hall.1).1, hall.2⟩
  · exact fun p => ⟨.nil, rfl⟩
  · rintro n ns p r p' rs p'' ⟨hr, rfl⟩ ⟨hrs, rfl⟩
    exact ⟨.cons (forall₂_cons.1 hr).1 hrs, rfl⟩
  · rintro n p rs p' ⟨hrs, rfl⟩
    obtain ⟨hnodes, hsame⟩ := Inlined.all hrs
    have hnode := (rebuild_node (hrs.imp fun _ _ => Inlined.honest)).1
    rw [hnodes] at hnode
    obtain ⟨r', heq, hnode', hsame'⟩ := reduce_rule (rebuild n rs) p'
    rw [reduceBy_of_singleton (rules_transforms σ), heq]
    refine ⟨.cons ⟨?_, ?_⟩ .nil, rfl⟩
    · rw [hnode', hnode, rewrite_eq]
    · rw [hsame', same_rebuild, hsame, hnode, redundantAt_withChildren, redundant_eq_nil_iff]

/-! ### Looking at trees -/

def lintRule (σ : Type) : Rule (Handler (Pass σ)) := ⟨StandardRule.redundantExecuteRun.name, [.root], [], lint⟩

theorem rules_lints (σ : Type) : (lints σ).rules = [lintRule σ] := rfl

theorem lint_eq (n : Node) (p : Pass σ) :
    lint n p = (.ok .keep, ((redundantAt n).map warning).foldl Reports.report p) := by
  obtain ⟨form, span⟩ := n
  rw [foldl_map]
  cases form <;> rfl

theorem reduce_lintRule (r : Reduced) (p : Pass σ) :
    (lintRule σ).reduce r p = (r, ((redundantAt r.node).map warning).foldl Reports.report p) := by
  by_cases happlies : (lintRule σ).applies r.node = true
  · exact Rule.reduce_of_keep happlies (lint_eq r.node p)
  · have hkind : r.node.kind ≠ .root := by
      intro hkind
      apply happlies
      rw [Rule.applies_iff (lintRule σ) rfl, Kind.root_mem_ancestors]
      exact ⟨hkind, rfl⟩
    rw [Rule.reduce, if_neg happlies, redundantAt_of_kind_ne hkind]
    rfl

theorem reduce_lints (n : Node) (p : Pass σ) :
    (lints σ).reduce n p = (.unchanged n, ((redundant n).map warning).foldl Reports.report p) := by
  have hall := reduce_induct (d := lints σ) (P := fun ns p rs p' => rs = ns.map unchanged ∧
    p' = ((ns.flatMap redundant).map warning).foldl Reports.report p) ?_ ?_ ?_ n p
  · rw [flatMap_singleton] at hall
    exact Prod.ext (cons.inj hall.1).1 hall.2
  · exact fun p => ⟨rfl, rfl⟩
  · rintro n ns p r p' rs p'' ⟨hr, rfl⟩ ⟨rfl, rfl⟩
    rw [flatMap_singleton, (cons.inj hr).1, flatMap_cons, map_append, foldl_append]
    exact ⟨rfl, rfl⟩
  · rintro n p rs p' ⟨rfl, rfl⟩
    have hsame : rebuild n (n.children.map unchanged) = .unchanged n := by
      apply if_pos
      rw [all_eq_true, forall_mem_map]
      exact fun c _ => rfl
    rw [hsame, reduceBy_of_singleton (rules_lints σ), reduce_lintRule, flatMap_singleton, redundant_eq n,
      map_append, foldl_append]
    exact ⟨rfl, rfl⟩

theorem level_warning (n : Node) : (warning n).level = .warn := Diagnostic.level_withSpan _ _

/-- The two rules agree. The one that looks at a tree leaves it and reports warnings, and there is one just if the other
rule makes another tree of it, in identity as well as in content. Nothing is reported about that tree, and the rule
that made it leaves it as the very tree that it is. -/
theorem transforms_ne_iff_lints (n : Node) (p q : Pass σ) : ∃ (n' : Node) (warnings : List Diagnostic),
    (lints σ).reduce n p = (.unchanged n, warnings.foldl Reports.report p) ∧ (∀ x ∈ warnings, x.level = .warn) ∧
    ((transforms σ).reduce n q).1.node = n' ∧ ((transforms σ).reduce n q).2 = q ∧
    (((transforms σ).reduce n q).1.same = false ↔ warnings ≠ []) ∧ (n' ≠ n ↔ warnings ≠ []) ∧
    (lints σ).reduce n' p = (.unchanged n', p) ∧
    ((transforms σ).reduce n' q).1.same = true ∧ ((transforms σ).reduce n' q).1.node = n' ∧
      ((transforms σ).reduce n' q).2 = q := by
  obtain ⟨⟨hnode, hsame⟩, hq⟩ := reduce_transforms n q
  have hclean : redundant (n.rewrite inline) = [] := redundant_rewrite_inline n
  obtain ⟨hagain, hq'⟩ := reduce_transforms (n.rewrite inline) q
  have hsame' := hagain.2.2 hclean
  refine ⟨n.rewrite inline, (redundant n).map warning, reduce_lints n p, ?_, hnode, hq, ?_, ?_, ?_, hsame',
    hagain.honest hsame', hq'⟩
  · rw [forall_mem_map]
    exact fun c _ => level_warning c
  · rw [Ne, map_eq_nil_iff, ← hsame, Bool.not_eq_true]
  · rw [Ne, Ne, map_eq_nil_iff, not_iff_not]
    constructor
    · intro heq
      rwa [heq] at hclean
    · exact rewrite_inline_of_redundant_eq_nil
  · rw [reduce_lints, hclean]
    rfl

end ExecuteRun

end Mcfunction
