import Mcfunction.Proofs.Database

/-! Finding units by their names. A name stands for the unit that was put in last under it, as long as that unit
is there and has the name. Units that were put in before it under the same name are found neither then nor when
it is gone. -/

namespace Mcfunction.Database

open List Entries Option

variable {db : Database} {h k : Handle} {u : CompilationUnit} {index : Entries Handle} {name : String}

/-! ### The index -/

theorem lookup_enter :
    (enter h u index).lookup name = if name ∈ u.names then some h else index.lookup name := by
  rw [enter]
  generalize u.names = names
  induction names generalizing index with
  | nil => rw [foldl_nil, if_neg not_mem_nil]
  | cons first names ih =>
    rw [foldl_cons, ih, lookup_insert]
    by_cases hname : name ∈ names
    · rw [if_pos hname, if_pos (mem_cons_of_mem first hname)]
    · by_cases hfirst : name = first
      · rw [if_neg hname, if_pos hfirst, if_pos (hfirst ▸ mem_cons_self)]
      · rw [if_neg hname, if_neg hfirst, if_neg (not_mem_cons_of_ne_of_not_mem hfirst hname)]

theorem distinct_enter (hindex : index.Distinct) : (enter h u index).Distinct := by
  rw [enter]
  generalize u.names = names
  induction names generalizing index with
  | nil => exact hindex
  | cons first names ih => exact ih (distinct_insert hindex first h)

theorem distinct_unindex (hindex : index.Distinct) : (unindex h u index).Distinct :=
  List.Nodup.sublist (filter_sublist.map Prod.fst) hindex

theorem lookup_unindex (hindex : index.Distinct) : (unindex h u index).lookup name =
    (index.lookup name).filter fun k => !(u.names.contains name && k = h) := by
  cases hlookup : (unindex h u index).lookup name with
  | some k =>
    obtain ⟨hmem, hnot⟩ := mem_unindex.1 (mem_of_lookup hlookup)
    rw [lookup_of_mem hindex hmem, filter_some, if_pos (by simpa [Decidable.imp_iff_not_or] using hnot)]
  | none =>
    symm
    rw [filter_eq_none_iff]
    intro k hk hkept
    have hmem : (name, k) ∈ unindex h u index :=
      mem_unindex.2 ⟨mem_of_lookup hk, by simpa [Decidable.imp_iff_not_or] using hkept⟩
    rw [lookup_of_mem (distinct_unindex hindex) hmem] at hlookup
    cases hlookup

/-! ### The last unit under a name -/

def holds (db : Database) (name : String) (h : Handle) : Bool := (db.get? h).any fun u => u.names.contains name

theorem holds_iff : db.holds name h = true ↔
    ∃ u, db.get? h = some u ∧ (u.filename = some name ∨ u.resourceName = some name) := by
  simp [holds, Option.any_eq_true, CompilationUnit.mem_names]

/-- The handle under which an operation puts in a unit with a name. -/
def putBy (db : Database) (name : String) : Operation → Option Handle
  | .add u => if name ∈ u.names then some (db.add u).1 else none
  | .insert h u => if name ∈ u.names then some h else none
  | _ => none

/-- The handle of the last unit with a name that some operations put in, whether it is taken out again or not. -/
def lastPut (db : Database) (name : String) : List Operation → Option Handle
  | [] => none
  | op :: ops => ((db.perform op).lastPut name ops).or (db.putBy name op)

/-- No name is twice in the index, and a name stands for the last unit that was put in under it, if that is there
and has the name. -/
structure Owned (db : Database) (name : String) (last : Option Handle) : Prop where
  distinct : db.index.Distinct
  lookup : db.lookup name = last.filter (db.holds name)

theorem owned_empty (name : String) : Owned {} name none := ⟨nodup_nil, rfl⟩

variable {last : Option Handle}

/-- What becomes of a name if the unit under a handle no longer has it, and nothing else changes. -/
theorem Owned.lookup_unindex (hdb : db.Owned name last) (hu : db.get? h = some u) :
    (unindex h u db.index).lookup name = last.filter fun k => k ≠ h && db.holds name k := by
  rw [Database.lookup_unindex hdb.distinct]
  change (db.lookup name).filter _ = _
  rw [hdb.lookup, Option.filter_filter]
  congr 1
  funext k
  by_cases hk : k = h
  · subst hk
    simp [holds, hu]
  · simp [hk]

theorem Owned.lookup_of_absent (hdb : db.Owned name last) (hnone : db.get? h = none) :
    db.lookup name = last.filter fun k => k ≠ h && db.holds name k := by
  rw [hdb.lookup]
  congr 1
  funext k
  by_cases hk : k = h
  · subst hk
    simp [holds, hnone]
  · simp [hk]

theorem holds_insert :
    (db.insert h u).holds name k = if k = h then u.names.contains name else db.holds name k := by
  rw [holds, get?_insert, holds]
  by_cases hk : k = h
  · rw [if_pos hk, if_pos hk]
    rfl
  · rw [if_neg hk, if_neg hk]

theorem Owned.insert (hdb : db.Owned name last) (h : Handle) (u : CompilationUnit) :
    (db.insert h u).Owned name ((if name ∈ u.names then some h else none).or last) := by
  have hdist : (db.insert h u).index.Distinct := by
    cases hold : db.get? h with
    | some old =>
      rw [insert_of_some hold]
      exact distinct_enter (distinct_unindex hdb.distinct)
    | none =>
      rw [insert_of_none hold]
      exact distinct_enter hdb.distinct
  have hlookup : (db.insert h u).lookup name =
      if name ∈ u.names then some h else last.filter fun k => k ≠ h && db.holds name k := by
    cases hold : db.get? h with
    | some old =>
      rw [insert_of_some hold, Database.lookup, lookup_enter, names_stamped, hdb.lookup_unindex hold]
    | none =>
      rw [insert_of_none hold, Database.lookup, lookup_enter]
      exact congrArg (fun found => if name ∈ u.names then some h else found) (hdb.lookup_of_absent hold)
  refine ⟨hdist, hlookup.trans ?_⟩
  by_cases hname : name ∈ u.names
  · simp [filter_some, holds_insert, hname]
  · rw [if_neg hname, if_neg hname]
    congr 1
    funext k
    by_cases hk : k = h
    · simp [holds_insert, hname]
    · simp [holds_insert, hk]

theorem Owned.remove (hdb : db.Owned name last) (h : Handle) : (db.remove h).2.Owned name last := by
  have hholds : (db.remove h).2.holds name = fun k => k ≠ h && db.holds name k := by
    funext k
    rw [holds, get?_remove]
    by_cases hk : k = h
    · simp [hk]
    · simp [hk, holds]
  cases hu : db.get? h with
  | none =>
    refine ⟨by rw [remove_of_none hu]; exact hdb.distinct, ?_⟩
    rw [hholds, remove_of_none hu]
    exact hdb.lookup_of_absent hu
  | some u =>
    refine ⟨by rw [remove_of_some hu]; exact distinct_unindex hdb.distinct, ?_⟩
    rw [hholds, remove_of_some hu]
    exact hdb.lookup_unindex hu

theorem Owned.perform (hdb : db.Owned name last) (op : Operation) :
    (db.perform op).Owned name ((db.putBy name op).or last) := by
  cases op with
  | add u => exact hdb.insert _ u
  | insert h u => exact hdb.insert h u
  | remove h => exact hdb.remove h
  | enqueue h step priority | process h => exact ⟨hdb.distinct, hdb.lookup⟩
  | popStep step =>
    rw [Database.perform]
    cases hpop : db.popStep? step with
    | none => exact hdb
    | some found =>
      obtain ⟨jobs, hjobs⟩ := popStep?_eq hpop
      rw [map_some, hjobs]
      exact ⟨hdb.distinct, hdb.lookup⟩

theorem Owned.performAll (hdb : db.Owned name last) (ops : List Operation) :
    (db.performAll ops).Owned name ((db.lastPut name ops).or last) := by
  induction ops generalizing db last with
  | nil => exact hdb
  | cons op ops ih =>
    rw [lastPut, Option.or_assoc]
    exact ih (hdb.perform op)

/-- After any operations on an empty database, a name stands for a unit just if that is the last one that was put in
under the name, is still there and still has the name. -/
theorem lookup_eq_some_iff_last_put (ops : List Operation) (name : String) (h : Handle) :
    (performAll {} ops).lookup name = some h ↔
      lastPut {} name ops = some h ∧
        ∃ u, (performAll {} ops).get? h = some u ∧ (u.filename = some name ∨ u.resourceName = some name) := by
  rw [((owned_empty name).performAll ops).lookup, or_none, filter_eq_some_iff, holds_iff]

/-- Two units have the same name, and the one that was put in last is taken out: the other is not found. -/
theorem not_found_after_namesake_removed :
    let first : CompilationUnit := .ofSource
      { text := "say one\n", filename := some "a.mcfunction", resourceName := some "demo:a" }
    let second : CompilationUnit := .ofSource
      { text := "say two\n", filename := some "b.mcfunction", resourceName := some "demo:a" }
    let db := performAll {} [.add first, .add second, .remove ⟨1⟩]
    db.lookup "demo:a" = none ∧ ∃ u, db.get? ⟨0⟩ = some u ∧ u.resourceName = some "demo:a" :=
  ⟨by decide, _, rfl, rfl⟩

end Mcfunction.Database
