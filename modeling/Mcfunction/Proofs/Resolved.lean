import Mathlib
import Mcfunction.Proofs.Way

/-! The walk for prototypes over a resolved tree. It comes to the nodes that the walk for redirects has come to before,
with the same words behind it and the same aliases open. Main statement: it never fails, and the nodes that it comes to
can be left, except for roots that stand inside the tree. -/

namespace Mcfunction.CommandTree

open List Way

/-! ### The walk for prototypes -/

/-- The walk for prototypes comes to a node on a way, when the aliases with the targets `taken` are open. -/
inductive Visits (root : CommandTree) : List Path → Way → CommandTree → Prop where
  | top {name child} (hchild : (name, child) ∈ root.children) : Visits root [] (step {} name child) child
  | child {taken way node name child} (h : Visits root taken way node) (hred : node.redirect? = none)
      (hchild : (name, child) ∈ node.children) : Visits root taken (way.step name child) child
  | through {taken way node target t name child} (h : Visits root taken way node)
      (hred : node.redirect? = some target) (ht : root.at? target = some t) (hsub : t.subcommand = false)
      (htaken : target ∉ taken) (hchild : (name, child) ∈ t.children) :
      Visits root (target :: taken) (way.step name child) child

/-- The redirect of the node, if it has one, leads to a whole command or to an alias that is not yet open. -/
def Passable (root : CommandTree) (taken : List Path) (node : CommandTree) : Prop :=
  ∀ target, node.redirect? = some target →
    ∃ t, root.at? target = some t ∧ (t.subcommand = true ∨ target ∉ taken)

theorem prototypesFrom_of_passable {root : CommandTree}
    (hpass : ∀ taken way node, Visits root taken way node → root.Passable taken node) {taken : List Path} {way : Way}
    {node : CommandTree} (h : Visits root taken way node) : ∃ ps, prototypesFrom root taken way node = .ok ps := by
  generalize hstay : (⟨taken, node⟩ : Stay) = stay
  induction stay using root.descends_wellFounded.induction generalizing taken way node with
  | _ stay ih =>
    subst hstay
    have below : ∀ {taken' children}, (∀ e ∈ children, Visits root taken' (way.step e.1 e.2) e.2 ∧
        root.Descends ⟨taken, node⟩ ⟨taken', e.2⟩) → ∃ ps, prototypesBelow root taken' way children = .ok ps := by
      intro taken' children hchildren
      rw [prototypesBelow_eq_gather]
      exact exists_gather fun e he => ih _ (hchildren e he).2 (hchildren e he).1 rfl
    cases hred : node.redirect? with
    | none =>
      obtain ⟨ps, hps⟩ := below fun e he => ⟨h.child hred he, .child hred he⟩
      exact ⟨_, by rw [prototypesFrom_none hred, hps]; rfl⟩
    | some target =>
      obtain ⟨t, ht, hopen⟩ := hpass taken way node h target hred
      rw [prototypesFrom_some hred, ht, Option.elim_some]
      by_cases hsub : t.subcommand = true
      · exact ⟨_, if_pos hsub⟩
      · have htaken : target ∉ taken := hopen.resolve_left hsub
        obtain ⟨ps, hps⟩ := below fun e he =>
          ⟨h.through hred ht (Bool.eq_false_iff.2 hsub) htaken he, .through hred ht htaken he⟩
        exact ⟨_, by rw [if_neg hsub, if_neg htaken, hps]; rfl⟩

/-! ### The walk for redirects -/

variable {root t t' node child m n : CommandTree} {legacy : Bool} {taken : List Path} {way : Way} {name : String}
  {scope place path target : Path} {children : List (String × CommandTree)} {p q r : Plan}

/-- What one walk has found is part of what another has found. -/
structure Plan.Within (q p : Plan) : Prop where
  deadEnds : q.deadEnds ⊆ p.deadEnds
  subcommands : q.subcommands ⊆ p.subcommands

namespace Plan.Within

theorem refl (p : Plan) : p.Within p := ⟨Subset.refl _, Subset.refl _⟩

theorem trans (h : r.Within q) (h' : q.Within p) : r.Within p :=
  ⟨Subset.trans h.deadEnds h'.deadEnds, Subset.trans h.subcommands h'.subcommands⟩

theorem left (p q : Plan) : p.Within (p ++ q) :=
  ⟨subset_append_left _ _, subset_append_left _ _⟩

theorem right (p q : Plan) : q.Within (p ++ q) :=
  ⟨subset_append_right _ _, subset_append_right _ _⟩

end Plan.Within

theorem plan_of_planAll (h : planAll root legacy taken scope place children = .ok p)
    (hchild : (name, child) ∈ children) :
    ∃ q, plan root legacy taken (scope ++ [name]) (place ++ [name]) child = .ok q ∧ q.Within p := by
  rw [planAll_eq_gather] at h
  exact gather_part Plan.Within.left (fun b _ h => h.trans (.right b _)) h hchild

theorem planAll_of_plan (hr : resolvedRedirect legacy scope node = .ok none)
    (h : plan root legacy taken scope place node = .ok q) :
    planAll root legacy taken scope place node.children = .ok q := by
  rw [plan, hr] at h
  exact h

/-- A redirect that the walk has come past leads to a whole command, or to a node that does not redirect, and the walk has
gone on there. -/
theorem plan_redirect_ok (hr : resolvedRedirect legacy scope node = .ok (some target))
    (h : plan root legacy taken scope place node = .ok q) :
    (node.isDeadEnd = true → place ∈ q.deadEnds) ∧ ∃ t, root.at? target = some t ∧
      (target ∈ q.subcommands ∨ target ∉ taken ∧ t.redirect? = none ∧
        ∃ below, planAll root legacy (target :: taken) scope target t.children = .ok below ∧ below.Within q) := by
  rcases plan_ok h with ⟨hr', -⟩ | ⟨_, t, hr', ht, rest, rfl, hrest⟩ <;> cases hr.symm.trans hr'
  refine ⟨fun hdead => Plan.mem_deadEnds_append.2 (.inl (by rw [if_pos hdead]; exact mem_cons_self)), t, ht, ?_⟩
  rcases hrest with rfl | ⟨-, htaken, hend, hbelow⟩
  · exact .inl (Plan.mem_subcommands_append.2 (.inr mem_cons_self))
  · exact .inr ⟨htaken, hend, rest, hbelow, .right _ rest⟩

/-! ### Both walks -/

/-- The walk for redirects has come to the node of the tree `t` that the plan made into `m`. -/
def Planned (t t' : CommandTree) (legacy : Bool) (p : Plan) (taken : List Path) (scope : Path) (m : CommandTree) :
    Prop :=
  ∃ place n q, t.at? place = some n ∧ t'.at? place = some m ∧ Kept p place n m ∧
    plan t legacy taken scope place n = .ok q ∧ q.Within p

section

variable (hkeyed : t.Keyed) (hresolves : Resolves p t t') (hdead : t.DeadEnds p)

include hkeyed hresolves

theorem planned_below {owner owner' : CommandTree} (howner : t.at? place = some owner)
    (howner' : t'.at? place = some owner') (hbelow : planAll t legacy taken scope place owner.children = .ok q)
    (hwithin : q.Within p) (hm : (name, m) ∈ owner'.children) : Planned t t' legacy p taken (scope ++ [name]) m := by
  have hat' : t'.at? (place ++ [name]) = some m := (hkeyed.of_resolves hresolves).at?_child howner' hm
  obtain ⟨n, hat, hkept⟩ := (hresolves (place ++ [name])).2 m hat'
  have hn : (name, n) ∈ owner.children := by
    rw [at?_snoc howner] at hat
    exact Entries.mem_of_lookup hat
  obtain ⟨r, hr, hrq⟩ := plan_of_planAll hbelow hn
  exact ⟨_, n, r, hat, hat', hkept, hr, hrq.trans hwithin⟩

omit hkeyed hresolves

include hdead

theorem resolvedRedirect_eq {target? : Option Path} (hn : t.at? place = some n)
    (hkept : Kept p place n m) (hplan : plan t legacy taken scope place n = .ok q) (hwithin : q.Within p)
    (hred : m.redirect? = target?) : resolvedRedirect legacy scope n = .ok target? := by
  subst hred
  by_cases hend : n.isDeadEnd = true
  · cases legacy with
    | false =>
      have hr : resolvedRedirect false scope n = .error (.deadEnd scope) := by simp [resolvedRedirect, hend]
      rw [plan, hr] at hplan
      cases hplan
    | true =>
      have hr : resolvedRedirect true scope n = .ok (some []) := by simp [resolvedRedirect, hend]
      have hmem : place ∈ p.deadEnds := hwithin.deadEnds ((plan_redirect_ok hr hplan).1 hend)
      rw [hr, hkept.redirect, if_pos hmem]
  · have hmem : place ∉ p.deadEnds := fun hmem => hend ((hdead place hmem).2 n hn)
    rw [resolvedRedirect, if_neg hend, hkept.redirect, if_neg hmem]

include hkeyed hresolves

/-- The nodes on the walk for prototypes were on the walk for redirects. -/
theorem Visits.planned (hplan : planAll t legacy [] [] [] t.children = .ok p)
    (h : Visits t' taken way m) : Planned t t' legacy p taken way.scope m := by
  induction h with
  | top hchild =>
    rw [step_scope]
    have hroot : t.at? [] = some t := rfl
    have hroot' : t'.at? [] = some t' := rfl
    exact planned_below hkeyed hresolves hroot hroot' hplan (.refl p) hchild
  | child h hred hchild ih =>
    obtain ⟨place, n, q, hn, hm, hkept, hq, hwithin⟩ := ih
    have hr := resolvedRedirect_eq hdead hn hkept hq hwithin hred
    rw [step_scope]
    exact planned_below hkeyed hresolves hn hm (planAll_of_plan hr hq) hwithin hchild
  | through h hred ht hsub htaken hchild ih =>
    obtain ⟨place, n, q, hn, hm, hkept, hq, hwithin⟩ := ih
    have hr := resolvedRedirect_eq hdead hn hkept hq hwithin hred
    obtain ⟨-, target, htarget, hcases⟩ := plan_redirect_ok hr hq
    rcases hcases with hmark | ⟨-, -, below, hbelow, hle⟩
    · -- the target of a whole command is marked
      obtain ⟨n', hn', hkept'⟩ := (hresolves _).2 _ ht
      have hmarked := hkept'.subcommand
      rw [decide_eq_true (hwithin.subcommands hmark), hsub, Bool.or_true] at hmarked
      cases hmarked
    · rw [step_scope]
      exact planned_below hkeyed hresolves htarget ht hbelow (hle.trans hwithin) hchild

omit hkeyed

theorem Planned.passable (h : Planned t t' legacy p taken scope m) : t'.Passable taken m := by
  obtain ⟨place, n, q, hn, hm, hkept, hq, hwithin⟩ := h
  intro target hred
  have hr := resolvedRedirect_eq hdead hn hkept hq hwithin hred
  obtain ⟨-, owner, howner, hcases⟩ := plan_redirect_ok hr hq
  obtain ⟨owner', howner', hkept'⟩ := (hresolves target).1 owner howner
  refine ⟨owner', howner', hcases.imp ?_ fun h => h.1⟩
  intro hmark
  rw [hkept'.subcommand, decide_eq_true (hwithin.subcommands hmark), Bool.or_true]

omit hresolves

theorem Planned.not_deadEnd (h : Planned t t' legacy p taken scope m) (hrole : m.role ≠ .root)
    (hred : m.redirect? = none) : m.executable = true ∨ m.children ≠ [] := by
  obtain ⟨place, n, q, hn, hm, hkept, hq, hwithin⟩ := h
  have hr := resolvedRedirect_eq hdead hn hkept hq hwithin hred
  have hend : ¬n.isDeadEnd = true := by
    intro hend
    rw [resolvedRedirect, if_pos hend] at hr
    split at hr <;> cases hr
  rw [resolvedRedirect, if_neg hend] at hr
  have hnone : n.redirect? = none := by injection hr
  by_cases hchildren : n.children = []
  · left
    rw [executable, hkept.executable, ← executable]
    rw [hkept.role] at hrole
    simpa [isDeadEnd, hrole, hchildren, hnone] using hend
  · right
    intro hnil
    exact hchildren (children_eq_nil_of_keys hkept.keys.symm hnil)

end

theorem Keyed.passable (ht : t.Keyed) (h : t.resolve legacy = .ok t')
    (hvisits : Visits t' taken way node) : t'.Passable taken node := by
  obtain ⟨p, hplan, hresolves, hdead⟩ := ht.resolve_ok h
  exact (hvisits.planned ht hresolves hdead hplan).passable hresolves hdead

theorem Keyed.exists_prototypes (ht : t.Keyed) (h : t.resolve legacy = .ok t') : ∃ ps, t'.prototypes = .ok ps := by
  obtain ⟨ps, hps⟩ : ∃ ps, prototypesBelow t' [] {} t'.children = .ok ps := by
    rw [prototypesBelow_eq_gather]
    exact exists_gather fun e he => prototypesFrom_of_passable (fun _ _ _ hvisits => ht.passable h hvisits) (.top he)
  exact ⟨_, by rw [prototypes, hps]⟩

def Leavable (root node : CommandTree) : Prop :=
  node.executable = true ∨ node.children ≠ [] ∨ ∃ target t, node.redirect? = some target ∧ root.at? target = some t

/-- A resolved tree has its prototypes, and each node on the walk for them that is not a root can be left. -/
theorem resolved_prototypes (ht : t.Keyed) (h : t.resolve legacy = .ok t') :
    (∃ ps, t'.prototypes = .ok ps) ∧
      ∀ taken way node, Visits t' taken way node → node.role ≠ .root → t'.Leavable node := by
  refine ⟨ht.exists_prototypes h, fun taken way node hvisits hrole => ?_⟩
  cases hredirect : node.redirect? with
  | none =>
      obtain ⟨p, hplan, hresolves, hdead⟩ := ht.resolve_ok h
      have hplanned := hvisits.planned ht hresolves hdead hplan
      rcases hplanned.not_deadEnd hdead hrole hredirect with hx | hchildren
      · exact .inl hx
      · exact .inr (.inl hchildren)
  | some target =>
      obtain ⟨owner, howner, -⟩ := ht.passable h hvisits target hredirect
      exact .inr (.inr ⟨target, owner, hredirect, howner⟩)

/-- An alias of a node with a dead end below it, which the walks come to on two ways. -/
theorem resolved_prototypes_alias :
    let t : CommandTree := { role := .root, children := [
      ("tell", { role := .literal, children := [("run", { role := .literal })] }),
      ("t", { role := .literal, redirect? := some ["tell"] })] }
    t.Keyed ∧ ∃ t', t.resolve true = .ok t' ∧ (∃ ps, t'.prototypes = .ok ps) ∧
      ∀ taken way node, Visits t' taken way node → node.role ≠ .root → t'.Leavable node := by
  intro t
  have hkeyed : t.Keyed := (show t.Regular by decide +kernel).keyed
  obtain ⟨t', hresolve⟩ : ∃ t', t.resolve true = .ok t' := exists_ok_of (by cbv)
  exact ⟨hkeyed, t', hresolve, resolved_prototypes hkeyed hresolve⟩

/-- A root inside a tree is no dead end, so that it need not be possible to leave it. -/
theorem not_leavable_of_nested_root :
    ¬∀ (t t' : CommandTree) (legacy : Bool), t.Keyed → t.resolve legacy = .ok t' →
      (∃ ps, t'.prototypes = .ok ps) ∧ ∀ taken way node, Visits t' taken way node → t'.Leavable node := by
  intro h
  let t : CommandTree := { role := .root, children := [("x", { role := .root })] }
  have hkeyed : t.Keyed := (show t.Regular by decide +kernel).keyed
  have hresolve : t.resolve false = .ok t := by
    simp [t, resolve, planAll, plan, resolvedRedirect, isDeadEnd]
    rfl
  have hvisits : Visits t [] (step {} "x" { role := .root }) { role := .root } := .top mem_cons_self
  rcases (h t t false hkeyed hresolve).2 _ _ _ hvisits with hx | hchildren | ⟨_, _, hredirect, -⟩
  · cases hx
  · exact hchildren rfl
  · cases hredirect

end Mcfunction.CommandTree
