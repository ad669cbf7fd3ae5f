import Mathlib.Data.List.Forall2
import Mcfunction.Dispatch.Reduce
import Mcfunction.Proofs.Dispatch
import Mcfunction.Proofs.Rewriting

/-! Reduction. A reduction meets the nodes of a tree from the leaves to the root; what it does to a list of trees is
put together from what rules do at single nodes. Rules that only report leave every tree as it is. -/

namespace Mcfunction

open List Reports Reduced Diagnostic

/-! ### Reducing trees -/

namespace Diagnostic

@[simp] theorem level_withSpan (x : Diagnostic) (s : Span) : (x.withSpan s).level = x.level := by
  rw [withSpan]
  split <;> rfl

@[simp] theorem file_withSpan (x : Diagnostic) (s : Span) : (x.withSpan s).file = x.file := by
  rw [withSpan]
  split <;> rfl

@[simp] theorem message_withSpan (x : Diagnostic) (s : Span) : (x.withSpan s).message = x.message := by
  rw [withSpan]
  split <;> rfl

@[simp] theorem rule_withSpan (x : Diagnostic) (s : Span) : (x.withSpan s).rule = x.rule := by
  rw [withSpan]
  split <;> rfl

/-- A diagnostic is about a span, if it is the span of something that was read. -/
def LiesOn (x : Diagnostic) (s : Span) : Prop := s.start.isKnown = true → x.start = some s.start ∧ x.stop = some s.stop

theorem liesOn_withSpan (x : Diagnostic) (s : Span) : (x.withSpan s).LiesOn s := by
  intro hknown
  rw [withSpan, if_pos hknown]
  exact ⟨rfl, rfl⟩

end Diagnostic

variable {n : Node} {x : Diagnostic} {r : Reduced} {rs : List Reduced} {Q : Node → Diagnostic → Prop} {η : Type}

namespace Reduced

/-- A node that is said to be the very one that was given is that one. -/
def Honest (n : Node) (r : Reduced) : Prop := r.same = true → r.node = n

theorem same_rebuild : (rebuild n rs).same = true ↔ ∀ r ∈ rs, r.same = true := by
  rw [rebuild, ← all_eq_true]
  split
  · rename_i hall
    exact ⟨fun _ => hall, fun _ => rfl⟩
  · rename_i hall
    exact ⟨nofun, fun h => absurd h hall⟩

theorem map_node_eq {ns : List Node} (h : Forall₂ Honest ns rs)
    (hall : ∀ r ∈ rs, r.same = true) : rs.map node = ns := by
  induction h with
  | nil => rfl
  | @cons n r ns rs hr _ ih =>
    rw [map_cons, hr (hall r mem_cons_self), ih fun s hs => hall s (mem_cons_of_mem r hs)]

theorem rebuild_node (h : Forall₂ Honest n.children rs) :
    (rebuild n rs).node = n.withChildren (rs.map node) ∧ Honest n (rebuild n rs) := by
  rw [rebuild]
  split
  · rename_i hall
    rw [map_node_eq h (all_eq_true.1 hall), Node.withChildren_children]
    exact ⟨rfl, fun _ => rfl⟩
  · exact ⟨rfl, nofun⟩

end Reduced

namespace Rule

theorem applies_iff (rule : Rule η) {kind : Kind} (hkinds : rule.kinds = [kind]) :
    rule.applies n = true ↔ kind ∈ n.kind.ancestors ∧ rule.holds n = true := by
  simp [applies, hkinds]

@[simp] theorem level_complete (rule : Rule η) (n : Node) (x : Diagnostic) : (rule.complete n x).level = x.level := by
  rw [complete]
  split
  · rw [level_withSpan]
  · rfl

@[simp] theorem file_complete (rule : Rule η) (n : Node) (x : Diagnostic) : (rule.complete n x).file = x.file := by
  rw [complete]
  split
  · rw [file_withSpan]
  · rfl

@[simp] theorem message_complete (rule : Rule η) (n : Node) (x : Diagnostic) :
    (rule.complete n x).message = x.message := by
  rw [complete]
  split
  · rw [message_withSpan]
  · rfl

theorem rule_complete (rule : Rule η) (n : Node) (x : Diagnostic) :
    (rule.complete n x).rule = (x.rule <|> some rule.name) := by
  rw [complete]
  split
  · rw [rule_withSpan]
  · rfl

theorem liesOn_complete (rule : Rule η) (n : Node) {s : Span} (h : x.LiesOn s) : (rule.complete n x).LiesOn s := by
  intro hknown
  obtain ⟨hstart, hstop⟩ := h hknown
  rw [complete]
  rw [if_neg (by rw [hstart]; exact Bool.false_ne_true)]
  exact ⟨hstart, hstop⟩

variable {C : Type} [Reports C] {rule : Rule (Handler C)} {context context' : C}

theorem reduce_of_keep (happlies : rule.applies r.node = true)
    (h : rule.handler r.node context = (.ok .keep, context')) : rule.reduce r context = (r, context') := by
  rw [reduce, if_pos happlies, h]

theorem reduce_of_replace {kept : List Bool} (happlies : rule.applies r.node = true)
    (h : rule.handler r.node context = (.ok (.replace n kept), context')) :
    rule.reduce r context = (r.replace n kept, context') := by
  rw [reduce, if_pos happlies, h]

theorem reduce_of_error (happlies : rule.applies r.node = true)
    (h : rule.handler r.node context = (.error x, context')) :
    rule.reduce r context = (r, report context' (rule.complete r.node x)) := by
  rw [reduce, if_pos happlies, h]

theorem reduce_honest (h : Honest n r) : Honest n (rule.reduce r context).1 := by
  rw [reduce]
  split
  · split
    · exact h
    · exact nofun
    · exact h
  · exact h

end Rule

namespace Dispatcher

variable {C : Type} [Reports C] {d : Dispatcher (Handler C)} {context : C} {rules : List (Rule (Handler C))}

theorem reduce_eq (d : Dispatcher (Handler C)) (n : Node) (context : C) : d.reduce n context =
    reduceBy (d.dispatch (rebuild n (d.reduceAll n.children context).1).node)
      (rebuild n (d.reduceAll n.children context).1) (d.reduceAll n.children context).2 := by
  rw [reduce]

theorem reduceAll_nil (d : Dispatcher (Handler C)) (context : C) : d.reduceAll [] context = ([], context) := by
  rw [reduceAll]

theorem reduceAll_cons (d : Dispatcher (Handler C)) (n : Node) (ns : List Node) (context : C) :
    d.reduceAll (n :: ns) context = ((d.reduce n context).1 :: (d.reduceAll ns (d.reduce n context).2).1,
        (d.reduceAll ns (d.reduce n context).2).2) := by
  rw [reduceAll]

theorem reduceAll_singleton (d : Dispatcher (Handler C)) (n : Node) (context : C) :
    d.reduceAll [n] context = ([(d.reduce n context).1], (d.reduce n context).2) := by
  rw [reduceAll_cons, reduceAll_nil]

theorem reduceBy_cons (rule : Rule (Handler C)) (rules : List (Rule (Handler C))) (r : Reduced) (context : C) :
    reduceBy (rule :: rules) r context = reduceBy rules (rule.reduce r context).1 (rule.reduce r context).2 := rfl

/-- What holds of nothing, passes from trees to the tree after them, and passes from the children of a node to the
node, holds of every tree that is reduced. -/
theorem reduce_induct {P : List Node → C → List Reduced → C → Prop} (hnil : ∀ context, P [] context [] context)
    (hcons : ∀ n ns context r context' rs context'', P [n] context [r] context' →
      P ns context' rs context'' → P (n :: ns) context (r :: rs) context'')
    (hnode : ∀ n context rs context', P n.children context rs context' →
      P [n] context [(reduceBy (d.dispatch (rebuild n rs).node) (rebuild n rs) context').1]
        (reduceBy (d.dispatch (rebuild n rs).node) (rebuild n rs) context').2)
    (n : Node) (context : C) : P [n] context [(d.reduce n context).1] (d.reduce n context).2 := by
  have hall : ∀ ns : List Node, (∀ n ∈ ns, ∀ context, P [n] context [(d.reduce n context).1] (d.reduce n context).2) →
      ∀ context, P ns context (d.reduceAll ns context).1 (d.reduceAll ns context).2 := by
    intro ns hns
    induction ns with
    | nil =>
      intro context
      rw [reduceAll_nil]
      exact hnil context
    | cons n ns ih =>
      intro context
      rw [reduceAll_cons]
      exact hcons _ _ _ _ _ _ _ (hns n mem_cons_self context) (ih (fun m hm => hns m (mem_cons_of_mem n hm)) _)
  induction n using Node.induct generalizing context with
  | hstep n ih =>
    rw [reduce_eq]
    exact hnode n context _ _ (hall n.children ih context)

theorem reduceBy_honest (h : Honest n r) : Honest n (reduceBy rules r context).1 := by
  induction rules generalizing r context with
  | nil => exact h
  | cons rule rules ih => exact ih (Rule.reduce_honest h)

theorem reduce_honest (d : Dispatcher (Handler C)) (n : Node) (context : C) : Honest n (d.reduce n context).1 := by
  have h := reduce_induct (d := d) (P := fun ns _ rs _ => Forall₂ Honest ns rs) (fun _ => .nil)
    (fun _ _ _ _ _ _ _ hn hns => .cons (forall₂_cons.1 hn).1 hns)
    (fun _ _ _ _ hrs => .cons (reduceBy_honest (rebuild_node hrs).2) .nil) n context
  exact (forall₂_cons.1 h).1

/-! ### Rules that only report -/

/-- A rule that keeps every node and only reports, and only what `Q` allows at the node. -/
def OnlyReports (Q : Node → Diagnostic → Prop) (handler : Handler C) : Prop :=
  ∀ n context, ∃ reports : List Diagnostic, (∀ x ∈ reports, Q n x) ∧
    handler n context = (.ok .keep, reports.foldl report context)

theorem reduceBy_of_onlyReports (h : ∀ rule ∈ rules, OnlyReports Q rule.handler) (r : Reduced) (context : C) :
    ∃ reports : List Diagnostic, (∀ x ∈ reports, Q r.node x) ∧
      reduceBy rules r context = (r, reports.foldl report context) := by
  induction rules generalizing context with
  | nil => exact ⟨[], forall_mem_nil _, rfl⟩
  | cons rule rules ih =>
    have hrule : ∃ reports : List Diagnostic, (∀ x ∈ reports, Q r.node x) ∧
        rule.reduce r context = (r, reports.foldl report context) := by
      obtain ⟨reports, hreports, hhandler⟩ := h rule mem_cons_self r.node context
      rw [Rule.reduce]
      split
      · exact ⟨reports, hreports, by rw [hhandler]⟩
      · exact ⟨[], forall_mem_nil _, rfl⟩
    obtain ⟨reports, hreports, heq⟩ := hrule
    obtain ⟨others, hothers, hrest⟩ := ih (fun rule hmem => h rule (mem_cons_of_mem _ hmem))
      (reports.foldl report context)
    refine ⟨reports ++ others, forall_mem_append.2 ⟨hreports, hothers⟩, ?_⟩
    rw [reduceBy_cons, heq, foldl_append]
    exact hrest

theorem reduce_of_onlyReports (h : ∀ rule ∈ d.rules, OnlyReports Q rule.handler) (n : Node)
    (context : C) : (d.reduce n context).1.same = true ∧
      ∃ reports : List Diagnostic, (∀ x ∈ reports, ∃ m, n.Within m ∧ Q m x) ∧
        (d.reduce n context).2 = reports.foldl report context := by
  have hall := reduce_induct (d := d) (P := fun ns context rs context' => (∀ r ∈ rs, r.same = true) ∧
    ∃ reports : List Diagnostic, (∀ x ∈ reports, ∃ n ∈ ns, ∃ m, n.Within m ∧ Q m x) ∧
      context' = reports.foldl report context) ?_ ?_ ?_ n context
  · obtain ⟨hsame, reports, hreports, heq⟩ := hall
    refine ⟨hsame _ mem_cons_self, reports, fun x hx => ?_, heq⟩
    obtain ⟨m, hm, hx⟩ := hreports x hx
    rwa [mem_singleton.1 hm] at hx
  · exact fun context => ⟨forall_mem_nil _, [], forall_mem_nil _, rfl⟩
  · rintro n ns context r context' rs context'' ⟨hr, reports, hreports, rfl⟩ ⟨hrs, others, hothers, rfl⟩
    refine ⟨forall_mem_cons.2 ⟨hr r mem_cons_self, hrs⟩, reports ++ others,
      forall_mem_append.2 ⟨fun x hx => ?_, fun x hx => ?_⟩, foldl_append.symm⟩
    · obtain ⟨m, hm, hx⟩ := hreports x hx
      exact ⟨m, mem_cons.2 (.inl (mem_singleton.1 hm)), hx⟩
    · obtain ⟨m, hm, hx⟩ := hothers x hx
      exact ⟨m, mem_cons_of_mem _ hm, hx⟩
  · rintro n context rs context' ⟨hrs, reports, hreports, rfl⟩
    have hrebuild : rebuild n rs = .unchanged n := if_pos (all_eq_true.2 hrs)
    rw [hrebuild]
    have hfound : ∀ rule ∈ d.dispatch n, OnlyReports Q rule.handler :=
      fun rule hrule => h rule (mem_filter.1 ((d.dispatch_perm _).mem_iff.1 hrule)).1
    obtain ⟨others, hothers, heq⟩ := reduceBy_of_onlyReports hfound (.unchanged n) (reports.foldl report context)
    rw [show (unchanged n).node = n from rfl, heq]
    refine ⟨forall_mem_singleton.2 rfl, reports ++ others,
      forall_mem_append.2 ⟨fun x hx => ?_, fun x hx => ?_⟩, foldl_append.symm⟩
    · obtain ⟨child, hchild, m, hm, hx⟩ := hreports x hx
      exact ⟨n, mem_cons_self, m, .child hchild hm, hx⟩
    · exact ⟨n, mem_cons_self, n, .self n, hothers x hx⟩

end Dispatcher

end Mcfunction
