import Mathlib.Data.List.Infix
import Mcfunction.Proofs.Reduction

/-! What the handlers of rules see while a tree is reduced. The result of a reduction does not tell how they were
called; so each gives way to one that does the same and also writes down its calls. Main statement: these are the calls
of an account, which lists the nodes of the tree in the order in which they are reduced, with the calls made at each. -/

namespace Mcfunction

open List Dispatcher Reduced Prod Node

variable {C : Type} {d : Dispatcher (Handler C)} {context context' : C} {r r' : Reduced}
  {rules : List (Rule (Handler C))} {rule : Rule (Handler C)} {rs : List Reduced} {n : Node} {ns : List Node}

/-! ### Calls -/

/-- A call of the handler of a rule, with the node and the context that it is given. -/
structure Call (C : Type) where
  rule : Rule (Handler C)
  node : Node
  context : C

namespace Call

def answer (call : Call C) : Except Diagnostic Reply × C := call.rule.handler call.node call.context

/-- The handler lets the node be: it answers with nothing or with the very node, or it fails. -/
def Keeps (call : Call C) : Prop := ∀ n kept, call.answer.1 ≠ .ok (.replace n kept)

/-- What the call makes of a node: another one, or the node as it was. -/
def outcome (call : Call C) (r : Reduced) : Reduced :=
  match call.answer.1 with
  | .ok (.replace n kept) => r.replace n kept
  | _ => r

/-- A diagnostic with which the handler fails, as it is reported: with the name of the rule if it names none, and with
the span of the node if it has no place and the span is known. -/
def complete (call : Call C) (x : Diagnostic) : Diagnostic :=
  { x with
    rule := some (x.rule.getD call.rule.name)
    start := if x.start = none ∧ call.node.span.start.isKnown then some call.node.span.start else x.start
    stop := if x.start = none ∧ call.node.span.start.isKnown then some call.node.span.stop else x.stop }

/-- What is reported after the call: one diagnostic if the handler fails, and nothing otherwise. -/
def reports (call : Call C) : List Diagnostic :=
  match call.answer.1 with
  | .ok _ => []
  | .error x => [call.complete x]

theorem rule_complete_eq (call : Call C) (x : Diagnostic) : call.rule.complete call.node x = call.complete x := by
  obtain ⟨level, message, rule, hint, filename, file, start, stop, notes⟩ := x
  cases start with
  | none =>
    by_cases hknown : call.node.span.start.isKnown = true <;>
      cases rule <;> simp [Rule.complete, Diagnostic.withSpan, complete, hknown]
  | some start => cases rule <;> simp [Rule.complete, complete]

variable [Reports C]

def after (call : Call C) : C := call.reports.foldl Reports.report call.answer.2

theorem reduce_of_applies (h : rule.applies r.node = true) :
    rule.reduce r context = ((⟨rule, r.node, context⟩ : Call C).outcome r, (⟨rule, r.node,
      context⟩ : Call C).after) := by
  rw [Rule.reduce, if_pos h, outcome, after, reports, answer]
  split
  · rename_i hanswer
    rw [hanswer]
    rfl
  · rename_i hanswer
    rw [hanswer]
    rfl
  · rename_i hanswer
    rw [hanswer, rule_complete_eq (⟨rule, r.node, context⟩ : Call C)]
    rfl

end Call

section

variable [Reports C] {calls : List (Call C)}

/-- Rules have their turn at a node, one after the other. One that does not apply to what the others before it have
left is passed over, and any other one is called. -/
inductive InTurn : List (Rule (Handler C)) → Reduced → C → List (Call C) → Reduced → C → Prop where
  | done (r : Reduced) (context : C) : InTurn [] r context [] r context
  | pass {rule : Rule (Handler C)} {rules : List (Rule (Handler C))} {r r' : Reduced} {context context' : C}
      {calls : List (Call C)} (happlies : rule.applies r.node = false) (h : InTurn rules r context calls r' context') :
      InTurn (rule :: rules) r context calls r' context'
  | call (call : Call C) {rules : List (Rule (Handler C))} {r r' : Reduced} {context' : C} {calls : List (Call C)}
      (happlies : call.rule.applies call.node = true) (hnode : call.node = r.node)
      (h : InTurn rules (call.outcome r) call.after calls r' context') :
      InTurn (call.rule :: rules) r call.context (call :: calls) r' context'

namespace InTurn

theorem reduceBy_eq (h : InTurn rules r context calls r' context') : reduceBy rules r context = (r', context') := by
  induction h with
  | done r context => rfl
  | pass happlies _ ih => rw [reduceBy_cons, Rule.reduce, happlies]; exact ih
  | call call happlies hnode _ ih =>
    obtain ⟨rule, node, context⟩ := call
    subst hnode
    rw [reduceBy_cons, Call.reduce_of_applies happlies]
    exact ih

theorem applies (h : InTurn rules r context calls r' context') : ∀ call ∈ calls, call.rule.applies call.node = true := by
  induction h with
  | done => exact forall_mem_nil _
  | pass _ _ ih => exact ih
  | call _ happlies _ _ ih => exact forall_mem_cons.2 ⟨happlies, ih⟩

theorem sublist (h : InTurn rules r context calls r' context') : (calls.map Call.rule).Sublist rules := by
  induction h with
  | done => exact List.Sublist.slnil
  | pass _ _ ih => exact ih.cons _
  | call _ _ _ _ ih => exact ih.cons_cons _

end InTurn

end

/-! ### Accounts -/

/-- What happens at a node while a tree is reduced. -/
structure NodeVisit (C : Type) where
  given : Node
  /-- The context in which the reduction of the node begins with its first child. -/
  before : C
  children : List Reduced
  between : C
  calls : List (Call C)
  result : Reduced
  after : C

/-- The node with what became of its children, before rules have their turn. -/
def NodeVisit.start (v : NodeVisit C) : Reduced := .rebuild v.given v.children

section

variable [Reports C] {vs : List (NodeVisit C)}

/-- The account of the reduction of some trees: one tree after the other, and of each first its children and then its
root, where the rules for what has become of it have their turn. -/
inductive Account (d : Dispatcher (Handler C)) : List Node → C → List (NodeVisit C) → List Reduced → C → Prop where
  | nil (context : C) : Account d [] context [] [] context
  | cons {n : Node} {ns : List Node} {context context' context'' : C} {vs ws : List (NodeVisit C)} {r : Reduced}
      {rs : List Reduced} (hfirst : Account d [n] context vs [r] context') (hrest : Account d ns context' ws rs context'') :
      Account d (n :: ns) context (vs ++ ws) (r :: rs) context''
  | node (v : NodeVisit C) {vs : List (NodeVisit C)} (hbelow : Account d v.given.children v.before vs v.children v.between)
      (hturn : InTurn (d.dispatch v.start.node) v.start v.between v.calls v.result v.after) :
      Account d [v.given] v.before (vs ++ [v]) [v.result] v.after

namespace Account

theorem reduceAll_eq (h : Account d ns context vs rs context') : d.reduceAll ns context = (rs, context') := by
  induction h with
  | nil context => rw [reduceAll_nil]
  | cons _ _ ihfirst ihrest =>
    rw [reduceAll_singleton] at ihfirst
    obtain ⟨hr, hcontext⟩ := mk.inj ihfirst
    rw [reduceAll_cons, hcontext, ihrest, (cons.inj hr).1]
  | node v _ hturn ih =>
    rw [reduceAll_singleton, reduce_eq, ih]
    rw [← NodeVisit.start, hturn.reduceBy_eq]

theorem reduce_eq (h : Account d [n] context vs [r] context') : d.reduce n context = (r, context') := by
  have hall := h.reduceAll_eq
  rw [reduceAll_singleton] at hall
  obtain ⟨hr, hcontext⟩ := mk.inj hall
  exact Prod.ext (cons.inj hr).1 hcontext

theorem honest (h : Account d ns context vs rs context') : Forall₂ Honest ns rs := by
  induction h with
  | nil => exact .nil
  | cons _ _ ihfirst ihrest => exact .cons (forall₂_cons.1 ihfirst).1 ihrest
  | node v _ hturn ih =>
    have hresult : Honest v.given (reduceBy (d.dispatch v.start.node) v.start v.between).1 :=
      reduceBy_honest (rebuild_node ih).2
    rw [hturn.reduceBy_eq] at hresult
    exact .cons hresult .nil

end Account

end

/-! ### Observed reductions -/

/-- What can be observed of a reduction: that a handler is called, and that its failure is reported. -/
inductive Event (C : Type) where
  | called (call : Call C)
  | reported (x : Diagnostic)

def Event.call? : Event C → Option (Call C)
  | .called call => some call
  | .reported _ => none

def Call.events (call : Call C) : List (Event C) := .called call :: call.reports.map .reported

def NodeVisit.events (v : NodeVisit C) : List (Event C) := v.calls.flatMap Call.events

/-- A context with what was observed so far. -/
structure Observed (C : Type) where
  context : C
  events : List (Event C)

instance [Reports C] : Reports (Observed C) :=
  ⟨fun o x => ⟨Reports.report o.context x, o.events ++ [.reported x]⟩⟩

/-- The rule with a handler that does the same, and also writes down that it is called. -/
def Rule.observed (r : Rule (Handler C)) : Rule (Handler (Observed C)) where
  name := r.name
  kinds := r.kinds
  predicates := r.predicates
  handler := fun n o =>
    let (reply, context) := r.handler n o.context
    (reply, ⟨context, o.events ++ [.called ⟨r, n, o.context⟩]⟩)

namespace Dispatcher

def observed (d : Dispatcher (Handler C)) : Dispatcher (Handler (Observed C)) := ⟨d.rules.map Rule.observed⟩

theorem dispatch_observed (d : Dispatcher (Handler C)) (n : Node) :
    d.observed.dispatch n = (d.dispatch n).map Rule.observed :=
  dispatch_map (fun _ => rfl) fun _ => rfl

end Dispatcher

section

variable [Reports C] {vs : List (NodeVisit C)}

theorem foldl_report_observed (reports : List Diagnostic) (context : C) (events : List (Event C)) :
    reports.foldl Reports.report (⟨context, events⟩ : Observed C) =
      ⟨reports.foldl Reports.report context, events ++ reports.map .reported⟩ := by
  induction reports generalizing context events with
  | nil => rw [map_nil, append_nil]; rfl
  | cons x reports ih =>
    rw [map_cons, append_cons]
    exact ih _ _

theorem Rule.observed_reduce (events : List (Event C))
    (h : rule.applies r.node = true) : rule.observed.reduce r ⟨context, events⟩ =
      ((⟨rule, r.node, context⟩ : Call C).outcome r,
        ⟨(⟨rule, r.node, context⟩ : Call C).after, events ++ (⟨rule, r.node, context⟩ : Call C).events⟩) := by
  have happlies : rule.observed.applies r.node = true := h
  rw [Call.reduce_of_applies happlies, Call.events, append_cons]
  exact congrArg _ (foldl_report_observed _ _ _)

theorem InTurn.observed {calls : List (Call C)}
    (h : InTurn rules r context calls r' context') (events : List (Event C)) :
    reduceBy (rules.map Rule.observed) r ⟨context, events⟩ = (r', ⟨context', events ++ calls.flatMap Call.events⟩) := by
  induction h generalizing events with
  | done r context => rw [flatMap_nil, append_nil]; rfl
  | @pass rule _ r _ context _ _ happlies _ ih =>
    have hreduce : rule.observed.reduce r ⟨context, events⟩ = (r, ⟨context, events⟩) :=
      if_neg (Bool.eq_false_iff.1 happlies)
    rw [map_cons, reduceBy_cons, hreduce]
    exact ih events
  | call call happlies hnode _ ih =>
    obtain ⟨rule, node, context⟩ := call
    subst hnode
    rw [map_cons, reduceBy_cons, Rule.observed_reduce events happlies, flatMap_cons, ← append_assoc]
    exact ih _

namespace Dispatcher

def calls (d : Dispatcher (Handler C)) (n : Node) (context : C) : List (Call C) :=
  (d.observed.reduce n ⟨context, []⟩).2.events.filterMap Event.call?

end Dispatcher

namespace Account

theorem observed_reduceAll (h : Account d ns context vs rs context') (events : List (Event C)) :
    d.observed.reduceAll ns ⟨context, events⟩ = (rs, ⟨context', events ++ vs.flatMap NodeVisit.events⟩) := by
  induction h generalizing events with
  | nil context => rw [reduceAll_nil, flatMap_nil, append_nil]
  | cons _ _ ihfirst ihrest =>
    have hfirst := ihfirst events
    rw [reduceAll_singleton] at hfirst
    obtain ⟨hr, hcontext⟩ := mk.inj hfirst
    rw [reduceAll_cons, hcontext, ihrest, (cons.inj hr).1, flatMap_append, append_assoc]
  | node v _ hturn ih =>
    rw [Dispatcher.reduceAll_singleton, Dispatcher.reduce_eq, ih]
    rw [← NodeVisit.start, dispatch_observed, hturn.observed, flatMap_append, flatMap_singleton,
      append_assoc]
    rfl

theorem observed_reduce (h : Account d [n] context vs [r] context') :
    d.observed.reduce n ⟨context, []⟩ = (r, ⟨context', vs.flatMap NodeVisit.events⟩) := by
  have hall := h.observed_reduceAll []
  rw [reduceAll_singleton] at hall
  obtain ⟨hr, hcontext⟩ := mk.inj hall
  exact Prod.ext (cons.inj hr).1 hcontext

end Account

end

/-! ### Contract -/

variable [Reports C]

theorem InTurn.subperm {calls : List (Call C)}
    (h : InTurn (d.dispatch r.node) r context calls r' context') : (calls.map Call.rule).Subperm d.rules := by
  have hfound : (calls.map Call.rule).Subperm (d.rules.filter (·.applies r.node)) :=
    h.sublist.subperm.trans (d.dispatch_perm r.node).subperm
  exact hfound.trans filter_sublist.subperm

end Mcfunction
