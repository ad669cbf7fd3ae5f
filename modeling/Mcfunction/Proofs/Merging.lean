import Mathlib.Data.Option.Basic
import Mcfunction.Proofs.Regular

/-! Command trees laid over each other. The children of the merged tree stand in the order in which the two trees
name them, and under each name stands what the second tree has there, laid over what the first one has. Main
statement: laying a tree over another one twice is the same as doing it once, and of three trees it does not matter
which two are merged first. -/

namespace Mcfunction.CommandTree

open List Entries Entries

variable {a b c t child : CommandTree} {as bs : List (String × CommandTree)} {name : String}

/-! ### Children -/

theorem distinct_mergeAll (h : Distinct as) (bs : List (String × CommandTree)) : Distinct (mergeAll as bs) := by
  induction bs generalizing as with
  | nil => exact h
  | cons e bs ih =>
    exact ih (distinct_insert h _ _)

theorem keys_mergeAll (hbs : Distinct bs) : keys (mergeAll as bs) = keys as ++ (keys bs).filter (· ∉ keys as) := by
  induction bs generalizing as with
  | nil => exact (append_nil _).symm
  | cons e bs ih =>
    obtain ⟨name, b⟩ := e
    obtain ⟨hnot, hrest⟩ := nodup_cons.1 hbs
    have hcons : keys ((name, b) :: bs) = name :: keys bs := rfl
    rw [mergeAll, ih hrest, hcons]
    by_cases hname : name ∈ keys as
    · rw [keys_insert_of_mem hname, filter_cons_of_neg (by simpa using hname)]
    · have hinsert : ∀ v, keys (insert name v as) = keys as ++ [name] := by
        intro v
        rw [insert_eq_append hname, Entries.keys, map_append]
        rfl
      have hfresh : (keys bs).filter (· ∉ keys as ++ [name]) =
          (keys bs).filter (· ∉ keys as) := by
        refine filter_congr fun key hkey => ?_
        have hne : key ≠ name := fun heq => hnot (heq ▸ hkey)
        simp [hne]
      rw [hinsert, hfresh, filter_cons_of_pos (by simpa using hname), append_assoc]
      rfl

theorem lookup_mergeAll (hbs : Distinct bs) (name : String) :
    (mergeAll as bs).lookup name = (as.lookup name).merge merge (bs.lookup name) := by
  induction bs generalizing as with
  | nil =>
    rw [mergeAll]
    cases as.lookup name <;> rfl
  | cons e bs ih =>
    obtain ⟨key, b⟩ := e
    obtain ⟨hnot, hrest⟩ := nodup_cons.1 hbs
    rw [mergeAll, ih hrest, lookup_insert, lookup_cons]
    by_cases hname : name = key
    · subst hname
      rw [if_pos rfl, lookup_eq_none_iff.2 hnot, beq_self_eq_true]
      cases as.lookup name <;> rfl
    · rw [if_neg hname, beq_false_of_ne hname]

theorem filter_not_mem_eq_nil {names others : List String} (h : others ⊆ names) : others.filter (· ∉ names) = [] :=
  filter_eq_nil_iff.2 fun name hname => by simpa using h hname

/-! ### Trees -/

theorem merge_eq (a b : CommandTree) : merge a b =
    { role := b.role
      reader? := b.reader?.or a.reader?
      properties? := b.properties?.or a.properties?
      executable? := b.executable?.or a.executable?
      redirect? := b.redirect?.or a.redirect?
      children := mergeAll a.children b.children
      subcommand := a.subcommand } := by
  obtain ⟨role, reader?, properties?, executable?, redirect?, children, subcommand⟩ := b
  simp only [merge, Option.orElse_eq_orElse, Option.orElse_eq_or]

theorem Keyed.distinct (h : t.Keyed) : Distinct t.children := h [] t rfl

theorem Keyed.of_lookup (h : t.Keyed) (hchild : t.children.lookup name = some child) : child.Keyed := by
  intro path node hnode
  refine h (name :: path) node ?_
  rw [at?, hchild]
  exact hnode

theorem sizeOf_lt_of_lookup (h : t.children.lookup name = some child) : sizeOf child < sizeOf t := by
  have hmem := sizeOf_lt_of_mem (mem_of_lookup h)
  have hchildren := t.sizeOf_children_lt
  rw [Prod.mk.sizeOf_spec] at hmem
  omega

theorem induction_children {motive : CommandTree → Prop}
    (node : ∀ t : CommandTree, (∀ name child, t.children.lookup name = some child → motive child) → motive t)
    (t : CommandTree) : motive t :=
  node t fun _ child _ => induction_children node child
termination_by sizeOf t
decreasing_by exact sizeOf_lt_of_lookup ‹_›

theorem Keyed.merge (ha : a.Keyed) (hb : b.Keyed) : (a.merge b).Keyed := by
  intro path node hnode
  induction path generalizing a b with
  | nil =>
    cases hnode
    rw [merge_eq]
    exact distinct_mergeAll ha.distinct _
  | cons name path ih =>
    rw [merge_eq, at?, lookup_mergeAll hb.distinct] at hnode
    cases hx : a.children.lookup name with
    | none =>
      cases hy : b.children.lookup name with
      | none =>
        rw [hx, hy] at hnode
        cases hnode
      | some y =>
        rw [hx, hy] at hnode
        exact hb.of_lookup hy path node hnode
    | some x =>
      cases hy : b.children.lookup name with
      | none =>
        rw [hx, hy] at hnode
        exact ha.of_lookup hx path node hnode
      | some y =>
        rw [hx, hy] at hnode
        exact ih (ha.of_lookup hx) (hb.of_lookup hy) hnode

/-! ### The laws -/

theorem merge_self (h : t.Keyed) : merge t t = t := by
  induction t using induction_children with
  | node t ih =>
    have hchildren : mergeAll t.children t.children = t.children := by
      refine ext (distinct_mergeAll h.distinct _) ?_ fun name => ?_
      · rw [keys_mergeAll h.distinct, filter_not_mem_eq_nil (List.Subset.refl _), append_nil]
      · rw [lookup_mergeAll h.distinct]
        cases hx : t.children.lookup name with
        | none => rfl
        | some x => exact congrArg some (ih name x hx (h.of_lookup hx))
    rw [merge_eq, hchildren]
    simp only [Option.or_self]
    cases t
    rfl

theorem merge_merge_self (ha : a.Keyed) (hb : b.Keyed) : merge (merge a b) b = merge a b := by
  induction b using induction_children generalizing a with
  | node b ih =>
    have hchildren : mergeAll (mergeAll a.children b.children) b.children = mergeAll a.children b.children := by
      refine ext (distinct_mergeAll (distinct_mergeAll ha.distinct _) _) ?_ fun name => ?_
      · have hnames : keys b.children ⊆ keys (mergeAll a.children b.children) := by
          intro name hname
          rw [keys_mergeAll hb.distinct, mem_append, mem_filter]
          by_cases hmem : name ∈ keys a.children
          · exact .inl hmem
          · exact .inr ⟨hname, decide_eq_true hmem⟩
        rw [keys_mergeAll hb.distinct, filter_not_mem_eq_nil hnames, append_nil]
      · -- a child that only the second tree has is there after the first time, and then laid over itself
        rw [lookup_mergeAll hb.distinct, lookup_mergeAll hb.distinct]
        cases hy : b.children.lookup name with
        | none => cases a.children.lookup name <;> rfl
        | some y =>
          cases hx : a.children.lookup name with
          | none => exact congrArg some (merge_self (hb.of_lookup hy))
          | some x => exact congrArg some (ih name y hy (ha.of_lookup hx) (hb.of_lookup hy))
    rw [merge_eq, merge_eq, hchildren]
    simp only [← Option.or_assoc, Option.or_self]

theorem merge_assoc (ha : a.Keyed) (hb : b.Keyed) (hc : c.Keyed) : merge (merge a b) c = merge a (merge b c) := by
  induction b using induction_children generalizing a c with
  | node b ih =>
    have hchildren : mergeAll (mergeAll a.children b.children) c.children =
        mergeAll a.children (mergeAll b.children c.children) := by
      have hbc := distinct_mergeAll hb.distinct c.children
      refine ext (distinct_mergeAll (distinct_mergeAll ha.distinct _) _) ?_ fun name => ?_
      · rw [keys_mergeAll hc.distinct, keys_mergeAll hb.distinct, keys_mergeAll hbc, keys_mergeAll hc.distinct,
          filter_append, append_assoc, filter_filter]
        congr 2
        refine filter_congr fun name _ => ?_
        by_cases hname : name ∈ keys a.children <;> simp [hname]
      · rw [lookup_mergeAll hc.distinct, lookup_mergeAll hb.distinct, lookup_mergeAll hbc,
          lookup_mergeAll hc.distinct]
        cases hx : a.children.lookup name with
        | none => cases b.children.lookup name <;> cases c.children.lookup name <;> rfl
        | some x =>
          cases hy : b.children.lookup name with
          | none => cases c.children.lookup name <;> rfl
          | some y =>
            cases hz : c.children.lookup name with
            | none => rfl
            | some z =>
              exact congrArg some (ih name y hy (ha.of_lookup hx) (hb.of_lookup hy) (hc.of_lookup hz))
    rw [merge_eq, merge_eq a, merge_eq a, merge_eq b, hchildren]
    simp only [Option.or_assoc]

/-- Merging grammars is idempotent and associative, the order of the children included. Trees are merged to trees,
in which different children of one node have different names. -/
theorem merge_twice_and_grouped (ha : a.Keyed) (hb : b.Keyed) (hc : c.Keyed) :
    (a.merge b).Keyed ∧ (a.merge b).merge b = a.merge b ∧ (a.merge b).merge c = a.merge (b.merge c) :=
  ⟨ha.merge hb, merge_merge_self ha hb, merge_assoc ha hb hc⟩

/-- A tree that marks a node and two that add to it: the mark stays, and the children come in the order of the
trees. -/
theorem merge_twice_and_grouped_marked :
    let word : CommandTree := { role := .literal }
    let a : CommandTree := { role := .root, children := [
      ("execute", { word with subcommand := true, children := [("run", { word with redirect? := some [] })] })] }
    let b : CommandTree := { role := .root, children := [
      ("say", { word with executable? := some false }),
      ("execute", { word with children := [("as", word)] })] }
    let c : CommandTree := { role := .root, children := [
      ("execute", { word with children := [("as", { word with executable? := some true }), ("run", word)] }),
      ("say", { word with executable? := some true })] }
    a.Keyed ∧ b.Keyed ∧ c.Keyed ∧
      (a.merge b).Keyed ∧ (a.merge b).merge b = a.merge b ∧ (a.merge b).merge c = a.merge (b.merge c) := by
  intro word a b c
  have ha : a.Regular := by decide +kernel
  have hb : b.Regular := by decide +kernel
  have hc : c.Regular := by decide +kernel
  exact ⟨ha.keyed, hb.keyed, hc.keyed, merge_twice_and_grouped ha.keyed hb.keyed hc.keyed⟩

end Mcfunction.CommandTree
