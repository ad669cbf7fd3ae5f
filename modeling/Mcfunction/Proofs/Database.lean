import Mcfunction.Build.Database
import Mcfunction.Proofs.Entries

/-! What holds of every database that comes from an empty one. Main statement: after every sequence of operations the
handles are those of the units, none of them twice, each unit is stamped with its handle, a name in the index stands for
a unit that has it, and the handle that comes next was not used before. -/

namespace Mcfunction

open List Option

variable {u : CompilationUnit}

theorem CompilationUnit.mem_names {name : String} :
    name ∈ u.names ↔ u.filename = some name ∨ u.resourceName = some name := by
  rw [names, mem_append, mem_toList, mem_toList]

namespace Database

variable {db db' : Database} {h k : Handle} {index : Entries Handle} {e : String × Handle}

/-! ### Finding units -/

theorem mem_handles : h ∈ db.handles ↔ db.contains h = true := by
  rw [handles, contains, get?]
  induction db.units with
  | nil => simp
  | cons entry units ih =>
    obtain ⟨k, u⟩ := entry
    by_cases hk : h = k
    · simp [hk]
    · rw [map_cons, mem_cons, ih, lookup_cons, beq_false_of_ne hk]
      exact or_iff_right hk

theorem contains_of_get? (hu : db.get? h = some u) : db.contains h = true := by
  rw [contains, hu]
  rfl

theorem not_mem_handles (hnone : db.get? h = none) : h ∉ db.handles := by
  rw [mem_handles, contains, hnone]
  exact Bool.false_ne_true

theorem handles_modify (f : CompilationUnit → CompilationUnit) : (db.modify h f).handles = db.handles := by
  rw [handles, modify, List.map_map]
  refine map_congr_left fun ⟨k, u⟩ _ => ?_
  rw [Function.comp_apply]
  dsimp only
  split <;> rfl

theorem get?_modify (f : CompilationUnit → CompilationUnit) :
    (db.modify h f).get? k = if k = h then (db.get? k).map f else db.get? k := by
  rw [get?, get?, modify]
  induction db.units with
  | nil => simp
  | cons entry units ih =>
    obtain ⟨j, u⟩ := entry
    rw [map_cons, lookup_cons]
    by_cases hj : j = h
    · rw [if_pos hj, lookup_cons]
      by_cases hk : k = j
      · simp [hk, hj]
      · rw [beq_false_of_ne hk]
        exact ih
    · rw [if_neg hj, lookup_cons]
      by_cases hk : k = j
      · simp [hk, hj]
      · rw [beq_false_of_ne hk]
        exact ih

/-! ### The index -/

theorem mem_unindex : e ∈ unindex h u index ↔ e ∈ index ∧ ¬(e.1 ∈ u.names ∧ e.2 = h) := by
  simp [unindex, Decidable.imp_iff_not_or]

theorem mem_enter (he : e ∈ enter h u index) : e.1 ∈ u.names ∧ e.2 = h ∨ e ∈ index := by
  rw [enter] at he
  generalize u.names = names at he ⊢
  induction names generalizing index with
  | nil => exact .inr he
  | cons name names ih =>
    rcases ih he with ⟨hname, hh⟩ | hmem
    · exact .inl ⟨mem_cons_of_mem name hname, hh⟩
    · rcases Entries.mem_insert hmem with rfl | hmem
      · exact .inl ⟨mem_cons_self, rfl⟩
      · exact .inr hmem

/-! ### Putting in and taking out -/

def stamped (h : Handle) (u : CompilationUnit) : CompilationUnit :=
  { u with diagnostics := { u.diagnostics with file := some h } }

@[simp] theorem names_stamped : (stamped h u).names = u.names := rfl

theorem insert_of_some {old : CompilationUnit} (hold : db.get? h = some old) : db.insert h u =
    { db.modify h (fun _ => stamped h u) with
      nextHandle := max db.nextHandle (h.index + 1)
      index := enter h (stamped h u) (unindex h old db.index) } := by
  rw [insert]
  rw [show get? { db with nextHandle := max db.nextHandle (h.index + 1) } h = some old from hold]
  rfl

theorem insert_of_none (hnone : db.get? h = none) : db.insert h u =
    { db with
      units := db.units ++ [(h, stamped h u)]
      nextHandle := max db.nextHandle (h.index + 1)
      index := enter h (stamped h u) db.index } := by
  rw [insert]
  rw [show get? { db with nextHandle := max db.nextHandle (h.index + 1) } h = none from hnone]
  rfl

theorem nextHandle_insert : (db.insert h u).nextHandle = max db.nextHandle (h.index + 1) := by
  cases hold : db.get? h with
  | some old => rw [insert_of_some hold]
  | none => rw [insert_of_none hold]

theorem handles_insert : (db.insert h u).handles = if h ∈ db.handles then db.handles else db.handles ++ [h] := by
  cases hold : db.get? h with
  | some old =>
    rw [if_pos (mem_handles.2 (contains_of_get? hold)), insert_of_some hold]
    exact handles_modify fun _ => stamped h u
  | none =>
    rw [if_neg (not_mem_handles hold), insert_of_none hold, handles, map_append]
    rfl

theorem get?_insert : (db.insert h u).get? k = if k = h then some (stamped h u) else db.get? k := by
  cases hold : db.get? h with
  | some old =>
    rw [insert_of_some hold]
    change (db.modify h fun _ => stamped h u).get? k = _
    rw [get?_modify]
    by_cases hk : k = h
    · rw [if_pos hk, if_pos hk, hk, hold]
      rfl
    · rw [if_neg hk, if_neg hk]
  | none =>
    rw [insert_of_none hold, get?]
    rw [lookup_append, lookup_cons, lookup_nil]
    by_cases hk : k = h
    · rw [if_pos hk, hk, show db.units.lookup h = none from hold, beq_self_eq_true]
      rfl
    · rw [if_neg hk, beq_false_of_ne hk, or_none]
      rfl

theorem remove_of_some (hu : db.get? h = some u) : db.remove h = (some u, { db with
    units := db.units.filter fun (k, _) => k ≠ h
    index := unindex h u db.index
    current := if db.current = some h then none else db.current }) := by
  rw [remove, hu]

theorem remove_of_none (hnone : db.get? h = none) : db.remove h = (none, db) := by
  rw [remove, hnone]

theorem handles_remove (hu : db.get? h = some u) : (db.remove h).2.handles = db.handles.filter (· ≠ h) := by
  rw [remove_of_some hu, handles, handles, List.filter_map]
  rfl

theorem get?_remove : (db.remove h).2.get? k = if k = h then none else db.get? k := by
  cases hu : db.get? h with
  | none =>
    rw [remove_of_none hu]
    by_cases hk : k = h
    · rw [if_pos hk, hk, hu]
    · rw [if_neg hk]
  | some u =>
    rw [remove_of_some hu, get?, get?]
    induction db.units with
    | nil => simp
    | cons entry units ih =>
      obtain ⟨j, v⟩ := entry
      rw [filter_cons, lookup_cons]
      by_cases hj : j = h
      · rw [if_neg (by simpa using hj), ih]
        by_cases hk : k = h
        · rw [if_pos hk, if_pos hk]
        · rw [if_neg hk, if_neg hk, beq_false_of_ne (hj ▸ hk)]
      · rw [if_pos (by simpa using hj), lookup_cons]
        by_cases hk : k = j
        · rw [hk, beq_self_eq_true, if_neg hj]
        · rw [beq_false_of_ne hk]
          exact ih

/-! ### Consistency -/

/-- No two units have the same handle, and none has the next one or one behind it. -/
structure Counted (db : Database) : Prop where
  distinct : db.handles.Nodup
  below : ∀ h ∈ db.handles, h.index < db.nextHandle

theorem Counted.of_eq (hdb : db'.Counted) (hhandles : db.handles = db'.handles)
    (hnext : db.nextHandle = db'.nextHandle) : db.Counted := by
  refine ⟨hhandles ▸ hdb.distinct, fun h hh => ?_⟩
  rw [hnext]
  exact hdb.below h (hhandles ▸ hh)

theorem Counted.insert (hdb : db.Counted) (h : Handle) (u : CompilationUnit) : (db.insert h u).Counted where
  distinct := by
    rw [handles_insert]
    split
    · exact hdb.distinct
    · rename_i hnew
      rw [nodup_append]
      refine ⟨hdb.distinct, nodup_cons.2 ⟨not_mem_nil, nodup_nil⟩, ?_⟩
      rintro k hk j hj rfl
      exact hnew (mem_singleton.1 hj ▸ hk)
  below := by
    intro k hk
    rw [nextHandle_insert]
    by_cases hkh : k = h
    · subst hkh
      omega
    · have hold : k ∈ db.handles := by
        rw [mem_handles, contains, get?_insert, if_neg hkh] at hk
        exact mem_handles.2 hk
      have := hdb.below k hold
      omega

theorem Counted.remove (hdb : db.Counted) (h : Handle) : (db.remove h).2.Counted := by
  cases hu : db.get? h with
  | none =>
    rw [remove_of_none hu]
    exact hdb
  | some u =>
    refine ⟨?_, fun k hk => ?_⟩
    · rw [handles_remove hu]
      exact hdb.distinct.filter _
    · rw [handles_remove hu] at hk
      rw [remove_of_some hu]
      exact hdb.below k (mem_filter.1 hk).1

/-- The units, their handles and the index of their names fit together. -/
structure Consistent (db : Database) : Prop where
  distinct : db.handles.Nodup
  below : ∀ h ∈ db.handles, h.index < db.nextHandle
  stamps : ∀ h u, db.get? h = some u → u.diagnostics.file = some h
  indexed : ∀ e ∈ db.index, ∃ u, db.get? e.2 = some u ∧ e.1 ∈ u.names

theorem Consistent.counted (hdb : db.Consistent) : db.Counted := ⟨hdb.distinct, hdb.below⟩

theorem consistent_empty : Consistent {} where
  distinct := nodup_nil
  below := fun _ hmem => by cases hmem
  stamps := fun _ _ hu => by cases hu
  indexed := fun _ hmem => by cases hmem

theorem Consistent.ne_of_mem_unindex (hdb : db.Consistent) (hu : db.get? h = some u)
    (he : e ∈ unindex h u db.index) : e.2 ≠ h := by
  obtain ⟨hmem, hnot⟩ := mem_unindex.1 he
  obtain ⟨v, hv, hname⟩ := hdb.indexed e hmem
  intro heq
  rw [heq, hu] at hv
  cases hv
  exact hnot ⟨hname, heq⟩

/-- The names that were in the index before a unit is put in, and stay there, stand for other units. -/
theorem Consistent.mem_index_insert (hdb : db.Consistent) (he : e ∈ (db.insert h u).index) :
    e.1 ∈ u.names ∧ e.2 = h ∨ e ∈ db.index ∧ e.2 ≠ h := by
  cases hold : db.get? h with
  | some old =>
    rw [insert_of_some hold] at he
    refine (mem_enter he).imp_right fun hmem => ⟨(mem_unindex.1 hmem).1, ?_⟩
    exact hdb.ne_of_mem_unindex hold hmem
  | none =>
    rw [insert_of_none hold] at he
    refine (mem_enter he).imp_right fun hmem => ⟨hmem, ?_⟩
    obtain ⟨v, hv, -⟩ := hdb.indexed e hmem
    intro heq
    rw [heq, hold] at hv
    cases hv

theorem Consistent.insert (hdb : db.Consistent) (h : Handle) (u : CompilationUnit) : (db.insert h u).Consistent where
  distinct := (hdb.counted.insert h u).distinct
  below := (hdb.counted.insert h u).below
  stamps := by
    intro k v hv
    rw [get?_insert] at hv
    split at hv
    · rename_i hk
      cases hv
      rw [hk]
      rfl
    · exact hdb.stamps k v hv
  indexed := by
    intro e he
    rw [get?_insert]
    rcases hdb.mem_index_insert he with ⟨hname, heq⟩ | ⟨hmem, hne⟩
    · rw [if_pos heq]
      exact ⟨_, rfl, hname⟩
    · rw [if_neg hne]
      exact hdb.indexed e hmem

theorem Consistent.remove (hdb : db.Consistent) (h : Handle) : (db.remove h).2.Consistent := by
  cases hu : db.get? h with
  | none =>
    rw [remove_of_none hu]
    exact hdb
  | some u =>
    refine ⟨(hdb.counted.remove h).distinct, (hdb.counted.remove h).below, ?_, ?_⟩
    · intro k v hv
      rw [get?_remove] at hv
      split at hv
      · cases hv
      · exact hdb.stamps k v hv
    · intro e he
      rw [remove_of_some hu] at he
      rw [get?_remove, if_neg (hdb.ne_of_mem_unindex hu he)]
      exact hdb.indexed e (mem_unindex.1 he).1

/-! ### Sequences of operations -/

/-- What can be done with a database from outside. -/
inductive Operation where
  | add (u : CompilationUnit)
  | insert (h : Handle) (u : CompilationUnit)
  | remove (h : Handle)
  | enqueue (h : Handle) (step : Nat) (priority : Int)
  | popStep (step : Nat)
  | process (h : Option Handle)

def perform (db : Database) : Operation → Database
  | .add u => (db.add u).2
  | .insert h u => db.insert h u
  | .remove h => (db.remove h).2
  | .enqueue h step priority => db.enqueue h step priority
  | .popStep step => ((db.popStep? step).map Prod.snd).getD db
  | .process h => { db with current := h }

def performAll (db : Database) (ops : List Operation) : Database := ops.foldl perform db

def usedBy (db : Database) : Operation → List Handle
  | .add u => [(db.add u).1]
  | .insert h _ => [h]
  | _ => []

theorem popStep?_eq {step : Nat} (hpop : db.popStep? step = some (h, db')) : ∃ jobs, db' = { db with jobs } := by
  rw [popStep?] at hpop
  split at hpop
  · cases hpop
  · split at hpop
    · cases hpop
      exact ⟨_, rfl⟩
    · cases hpop

/-- What an operation does other than putting a unit in or taking one out does not touch the units. -/
theorem perform_cases (db : Database) (op : Operation) :
    (∃ h u, db.perform op = db.insert h u ∧ db.usedBy op = [h]) ∨
      db.usedBy op = [] ∧ ((∃ h, db.perform op = (db.remove h).2) ∨
        ∃ jobs current, db.perform op = { db with jobs, current }) := by
  cases op with
  | add u => exact .inl ⟨_, u, rfl, rfl⟩
  | insert h u => exact .inl ⟨h, u, rfl, rfl⟩
  | remove h => exact .inr ⟨rfl, .inl ⟨h, rfl⟩⟩
  | enqueue h step priority => exact .inr ⟨rfl, .inr ⟨_, db.current, rfl⟩⟩
  | process h => exact .inr ⟨rfl, .inr ⟨db.jobs, h, rfl⟩⟩
  | popStep step =>
    refine .inr ⟨rfl, .inr ?_⟩
    rw [perform]
    cases hpop : db.popStep? step with
    | none => exact ⟨db.jobs, db.current, rfl⟩
    | some found =>
      obtain ⟨jobs, hjobs⟩ := popStep?_eq hpop
      exact ⟨jobs, db.current, hjobs⟩

/-- What insertions and removals keep, and what does not depend on the jobs, every operation keeps. -/
theorem perform_of {P : Database → Prop} (hinsert : ∀ h u, P (db.insert h u)) (hremove : ∀ h, P (db.remove h).2)
    (hjobs : ∀ jobs current, P { db with jobs, current }) (op : Operation) : P (db.perform op) := by
  rcases db.perform_cases op with ⟨h, u, heq, -⟩ | ⟨-, ⟨h, heq⟩ | ⟨jobs, current, heq⟩⟩
  · exact heq ▸ hinsert h u
  · exact heq ▸ hremove h
  · exact heq ▸ hjobs jobs current

theorem Consistent.perform (hdb : db.Consistent) (op : Operation) : (db.perform op).Consistent :=
  perform_of hdb.insert hdb.remove (fun _ _ => ⟨hdb.distinct, hdb.below, hdb.stamps, hdb.indexed⟩) op

theorem Consistent.performAll (hdb : db.Consistent) (ops : List Operation) : (db.performAll ops).Consistent := by
  induction ops generalizing db with
  | nil => exact hdb
  | cons op ops ih => exact ih (hdb.perform op)

end Database

end Mcfunction
