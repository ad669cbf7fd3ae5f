import Mathlib.Data.List.Perm.Basic
import Mcfunction.Build.Pass
import Mcfunction.Proofs.Lookup

/-! Jobs that wait, and units that are taken in while others are processed. Jobs stay in the order in which they
are taken, so all jobs of a step are done when none of it is next. A unit that is taken in gets the next handle, and
nothing else changes. -/

namespace Mcfunction

open List Option Job Stage

namespace Job

variable {j k : Job} {jobs : List Job}

def Ordered (jobs : List Job) : Prop := jobs.Pairwise fun a b => a.precedes b = true

theorem precedes_iff {a b : Job} :
    a.precedes b = true ↔ a.step < b.step ∨ a.step = b.step ∧ a.priority ≤ b.priority := by
  simp [precedes]

theorem step_le_of_precedes {a b : Job} (h : a.precedes b = true) : a.step ≤ b.step := by
  rw [precedes_iff] at h
  omega

theorem precedes_trans {a b c : Job} (hab : a.precedes b = true) (hbc : b.precedes c = true) :
    a.precedes c = true := by
  rw [precedes_iff] at hab hbc ⊢
  omega

theorem precedes_of_not {a b : Job} (h : ¬a.precedes b = true) : b.precedes a = true := by
  rw [precedes_iff] at h ⊢
  omega

theorem insert_perm (j : Job) (jobs : List Job) : (insert j jobs).Perm (j :: jobs) := by
  induction jobs with
  | nil => exact .refl _
  | cons k jobs ih =>
    rw [insert]
    split
    · exact (ih.cons k).trans (.swap j k jobs)
    · exact .refl _

theorem Ordered.insert (h : Ordered jobs) (j : Job) : Ordered (insert j jobs) := by
  induction jobs with
  | nil => exact pairwise_singleton _ _
  | cons k jobs ih =>
    obtain ⟨hk, hjobs⟩ := pairwise_cons.1 h
    rw [Job.insert]
    split
    · rename_i hkj
      refine pairwise_cons.2 ⟨fun a ha => ?_, ih hjobs⟩
      rcases mem_cons.1 ((insert_perm j jobs).mem_iff.1 ha) with rfl | ha
      · exact hkj
      · exact hk a ha
    · rename_i hkj
      have hjk := precedes_of_not hkj
      refine pairwise_cons.2 ⟨fun a ha => ?_, h⟩
      rcases mem_cons.1 ha with rfl | ha
      · exact hjk
      · exact precedes_trans hjk (hk a ha)

theorem Ordered.step_le (h : Ordered (j :: jobs)) (hk : k ∈ jobs) : j.step ≤ k.step :=
  step_le_of_precedes ((pairwise_cons.1 h).1 k hk)

end Job

namespace Database

variable {db db' : Database} {h k : Handle} {u : CompilationUnit} {units : List CompilationUnit} {step i : Nat}

/-! ### Taking jobs -/

theorem lt_of_popStep?_eq_none (hordered : Ordered db.jobs) (hmin : ∀ j ∈ db.jobs, step ≤ j.step)
    (hpop : db.popStep? step = none) : ∀ j ∈ db.jobs, step < j.step := by
  rw [popStep?] at hpop
  split at hpop
  · rename_i hjobs
    rw [hjobs]
    exact forall_mem_nil _
  · rename_i first rest hjobs
    rw [hjobs] at hordered hmin ⊢
    split at hpop
    · cases hpop
    · have hfirst : step < first.step := by
        have := hmin first mem_cons_self
        omega
      intro j hj
      rcases mem_cons.1 hj with rfl | hj
      · exact hfirst
      · exact Nat.lt_of_lt_of_le hfirst (hordered.step_le hj)

theorem popStep?_eq_some {found : Handle × Database} (hpop : db.popStep? step = some found) :
    ∃ j rest, db.jobs = j :: rest ∧ j.step = step ∧ found = (j.handle, { db with jobs := rest }) := by
  rw [popStep?] at hpop
  split at hpop
  · cases hpop
  · rename_i j rest hjobs
    split at hpop
    · rename_i hstep
      exact ⟨j, rest, hjobs, hstep, (some.inj hpop).symm⟩
    · cases hpop

theorem jobs_insert (db : Database) (h : Handle) (u : CompilationUnit) : (db.insert h u).jobs = db.jobs := by
  cases hold : db.get? h with
  | some old => rw [insert_of_some hold]; rfl
  | none => rw [insert_of_none hold]

/-! ### Changing a unit -/

theorem modify_modify (f g : CompilationUnit → CompilationUnit) :
    (db.modify h f).modify h g = db.modify h fun u => g (f u) := by
  simp only [modify, List.map_map]
  refine congrArg (fun units => { db with units }) (map_congr_left ?_)
  rintro ⟨k, u⟩ -
  by_cases hk : k = h <;> simp [hk]

theorem modify_eq (hdist : db.handles.Nodup) (hu : db.get? h = some u) (f : CompilationUnit → CompilationUnit) :
    db.modify h f = db.modify h fun _ => f u := by
  have hunits : ∀ x ∈ db.units, x.1 = h → x.2 = u := by
    rintro ⟨k, v⟩ hx rfl
    rw [get?] at hu
    rw [handles] at hdist
    generalize db.units = units at hx hu hdist
    induction units with
    | nil => cases hx
    | cons y units ih =>
      obtain ⟨hnot, hrest⟩ := nodup_cons.1 hdist
      rcases mem_cons.1 hx with rfl | hx
      · rw [lookup_cons_self] at hu
        exact some.inj hu
      · have hne : k ≠ y.1 := fun heq => hnot (mem_map.2 ⟨(k, v), hx, heq⟩)
        rw [lookup_cons, beq_false_of_ne hne] at hu
        exact ih hx hu hrest
  simp only [modify]
  refine congrArg (fun units => { db with units }) (map_congr_left fun x hx => ?_)
  obtain ⟨k, v⟩ := x
  by_cases hk : k = h
  · rw [if_pos hk, if_pos hk, hunits _ hx hk]
  · rw [if_neg hk, if_neg hk]

/-! ### Taking units in -/

def Fresh (db : Database) : Prop := ∀ h ∈ db.handles, h.index < db.nextHandle

theorem Fresh.lt_of_get? (hfresh : db.Fresh) (hu : db.get? k = some u) : k.index < db.nextHandle :=
  hfresh k (mem_handles.2 (contains_of_get? hu))

def takeIn (db : Database) (u : CompilationUnit) : Database :=
  (db.add u).2.enqueue (db.add u).1 transform 0

def takeInAll (db : Database) (units : List CompilationUnit) : Database := units.foldl takeIn db

theorem Fresh.get?_eq_none (hfresh : db.Fresh) (hk : db.nextHandle ≤ k.index) : db.get? k = none := by
  cases hget : db.get? k with
  | none => rfl
  | some u => exact absurd hk (Nat.not_le.2 (hfresh.lt_of_get? hget))

theorem Fresh.takeIn_eq (hfresh : db.Fresh) (u : CompilationUnit) : db.takeIn u =
    { db with
      units := db.units ++ [(⟨db.nextHandle⟩, stamped ⟨db.nextHandle⟩ u)]
      index := enter ⟨db.nextHandle⟩ u db.index
      jobs := Job.insert ⟨transform, 0, ⟨db.nextHandle⟩⟩ db.jobs
      nextHandle := db.nextHandle + 1 } := by
  rw [takeIn, add, insert_of_none (hfresh.get?_eq_none (Nat.le_refl _))]
  simp only [Nat.max_eq_right (Nat.le_succ db.nextHandle)]
  rfl

theorem Fresh.modify (hfresh : db.Fresh) (f : CompilationUnit → CompilationUnit) : (db.modify h f).Fresh := by
  intro k hk
  rw [handles_modify] at hk
  exact hfresh k hk

theorem Fresh.takeIn (hfresh : db.Fresh) (u : CompilationUnit) : (db.takeIn u).Fresh := by
  rw [hfresh.takeIn_eq]
  rw [Fresh, handles, map_append, forall_mem_append]
  exact ⟨fun k hk => Nat.lt_succ_of_lt (hfresh k hk), forall_mem_singleton.2 (Nat.lt_succ_self _)⟩

theorem Fresh.takeIn_modify (hfresh : db.Fresh) (hh : h.index < db.nextHandle) (u : CompilationUnit)
    (f : CompilationUnit → CompilationUnit) : (db.modify h f).takeIn u = (db.takeIn u).modify h f := by
  have hne : (⟨db.nextHandle⟩ : Handle) ≠ h := by
    rintro rfl
    exact Nat.lt_irrefl _ hh
  rw [hfresh.takeIn_eq, (hfresh.modify f).takeIn_eq]
  simp only [Database.modify, map_append, map_cons, map_nil, if_neg hne]

theorem Fresh.takeInAll_modify (hfresh : db.Fresh) (hh : h.index < db.nextHandle) (units : List CompilationUnit)
    (f : CompilationUnit → CompilationUnit) : (db.modify h f).takeInAll units = (db.takeInAll units).modify h f := by
  induction units generalizing db with
  | nil => rfl
  | cons u units ih =>
    rw [takeInAll, foldl_cons, hfresh.takeIn_modify hh]
    refine ih (hfresh.takeIn u) (Nat.lt_of_lt_of_le hh ?_)
    rw [hfresh.takeIn_eq]
    exact Nat.le_succ _

theorem takeInAll_cons (u : CompilationUnit) (units : List CompilationUnit) :
    db.takeInAll (u :: units) = (db.takeIn u).takeInAll units := rfl

theorem takeInAll_append (units others : List CompilationUnit) :
    db.takeInAll (units ++ others) = (db.takeInAll units).takeInAll others := foldl_append

theorem Fresh.takeInAll (hfresh : db.Fresh) (units : List CompilationUnit) : (db.takeInAll units).Fresh := by
  induction units generalizing db with
  | nil => exact hfresh
  | cons u units ih => exact ih (hfresh.takeIn u)

theorem Fresh.nextHandle_takeInAll (hfresh : db.Fresh) (units : List CompilationUnit) :
    (db.takeInAll units).nextHandle = db.nextHandle + units.length := by
  induction units generalizing db with
  | nil => rfl
  | cons u units ih =>
    rw [takeInAll_cons, ih (hfresh.takeIn u), hfresh.takeIn_eq, length_cons, Nat.add_right_comm, Nat.add_assoc]

def nextHandles (db : Database) (count : Nat) : List Handle := (List.range' db.nextHandle count).map Handle.mk

theorem Fresh.handles_takeInAll (hfresh : db.Fresh) (units : List CompilationUnit) :
    (db.takeInAll units).handles = db.handles ++ db.nextHandles units.length := by
  induction units generalizing db with
  | nil => exact (append_nil _).symm
  | cons u units ih =>
    rw [takeInAll_cons, ih (hfresh.takeIn u), hfresh.takeIn_eq, handles, map_append, append_assoc]
    rfl

theorem Fresh.get?_takeInAll_old (hfresh : db.Fresh) (units : List CompilationUnit) (hk : k.index < db.nextHandle) :
    (db.takeInAll units).get? k = db.get? k := by
  induction units generalizing db with
  | nil => rfl
  | cons u units ih =>
    have hne : k ≠ ⟨db.nextHandle⟩ := by
      rintro rfl
      exact Nat.lt_irrefl _ hk
    rw [takeInAll_cons, ih (hfresh.takeIn u) (by rw [hfresh.takeIn_eq]; exact Nat.lt_succ_of_lt hk)]
    change (db.insert _ u).get? k = _
    rw [get?_insert, if_neg hne]

theorem Fresh.get?_takeInAll_of_get? (hfresh : db.Fresh) (units : List CompilationUnit) (hu : db.get? k = some u) :
    (db.takeInAll units).get? k = some u :=
  (hfresh.get?_takeInAll_old units (hfresh.lt_of_get? hu)).trans hu

theorem Fresh.get?_takeInAll_new (hfresh : db.Fresh) (hu : units[i]? = some u) :
    (db.takeInAll units).get? ⟨db.nextHandle + i⟩ = some (stamped ⟨db.nextHandle + i⟩ u) := by
  induction units generalizing db i with
  | nil => cases hu
  | cons first units ih =>
    have hnext : (db.takeIn first).nextHandle = db.nextHandle + 1 := by rw [hfresh.takeIn_eq]
    cases i with
    | zero =>
      obtain rfl : first = u := some.inj hu
      rw [takeInAll_cons, (hfresh.takeIn first).get?_takeInAll_old _ (by rw [hnext]; exact Nat.lt_succ_self _)]
      change (db.insert _ first).get? _ = _
      rw [get?_insert]
      exact if_pos rfl
    | succ i =>
      have hrest := ih (hfresh.takeIn first) hu
      rwa [hnext, Nat.add_assoc, Nat.add_comm 1 i] at hrest

/-- The units that were there keep their handles, and those that are taken in get the next ones. -/
theorem Fresh.get?_takeInAll (hfresh : db.Fresh) (units : List CompilationUnit) (k : Handle) :
    (db.takeInAll units).get? k =
      if k.index < db.nextHandle then db.get? k else units[k.index - db.nextHandle]?.map (stamped k) := by
  split
  · rename_i hk
    exact hfresh.get?_takeInAll_old units hk
  · rename_i hk
    obtain ⟨i, hi⟩ := Nat.exists_eq_add_of_le (Nat.le_of_not_lt hk)
    obtain rfl : k = ⟨db.nextHandle + i⟩ := congrArg Handle.mk hi
    rw [Nat.add_sub_cancel_left]
    cases hu : units[i]? with
    | some u => exact hfresh.get?_takeInAll_new hu
    | none =>
      refine (hfresh.takeInAll units).get?_eq_none ?_
      rw [hfresh.nextHandle_takeInAll]
      exact Nat.add_le_add_left (getElem?_eq_none_iff.1 hu) _

theorem Fresh.jobs_takeInAll_perm (hfresh : db.Fresh) (units : List CompilationUnit) :
    (db.takeInAll units).jobs.Perm (db.jobs ++ (db.nextHandles units.length).map (Job.mk transform 0)) := by
  induction units generalizing db with
  | nil => exact .of_eq (append_nil _).symm
  | cons u units ih =>
    refine (ih (hfresh.takeIn u)).trans ?_
    rw [hfresh.takeIn_eq]
    refine ((insert_perm _ _).append_right _).trans ?_
    exact perm_middle.symm

theorem ordered_takeInAll (h : Ordered db.jobs) (units : List CompilationUnit) :
    Ordered (db.takeInAll units).jobs := by
  induction units generalizing db with
  | nil => exact h
  | cons u units ih =>
    refine ih (Ordered.insert ?_ _)
    change Ordered (db.insert _ u).jobs
    rwa [jobs_insert]

theorem Counted.fresh (hdb : db.Counted) : db.Fresh := hdb.below

theorem Counted.modify (hdb : db.Counted) (h : Handle) (f : CompilationUnit → CompilationUnit) :
    (db.modify h f).Counted := hdb.of_eq (handles_modify f) rfl

theorem Counted.takeInAll (hdb : db.Counted) (units : List CompilationUnit) : (db.takeInAll units).Counted := by
  induction units generalizing db with
  | nil => exact hdb
  | cons u units ih => exact ih ((hdb.insert ⟨db.nextHandle⟩ u).of_eq rfl rfl)

/-! ### Handles and stamps -/

/-- No two units have the same handle, none has the next one or one behind it, and each is stamped with its own. -/
structure Numbered (db : Database) : Prop where
  distinct : db.handles.Nodup
  fresh : db.Fresh
  stamps : ∀ h u, db.get? h = some u → u.diagnostics.file = some h

theorem Numbered.counted (hdb : db.Numbered) : db.Counted := ⟨hdb.distinct, hdb.fresh⟩

theorem numbered_empty : Numbered {} := ⟨consistent_empty.distinct, consistent_empty.below, consistent_empty.stamps⟩

theorem Numbered.consistent (hdb : db.Numbered) : ({ db with index := [] } : Database).Consistent :=
  ⟨hdb.distinct, hdb.fresh, hdb.stamps, forall_mem_nil _⟩

theorem Numbered.of_eq (hdb : db'.Numbered) (hunits : db.units = db'.units)
    (hnext : db.nextHandle = db'.nextHandle) : db.Numbered := by
  have hget : ∀ h, db.get? h = db'.get? h := fun h => by rw [get?, hunits, get?]
  have hhandles : db.handles = db'.handles := by rw [handles, hunits, handles]
  refine ⟨hhandles ▸ hdb.distinct, fun h hh => ?_, fun h u hu => hdb.stamps h u (by rwa [← hget])⟩
  rw [hnext]
  exact hdb.fresh h (hhandles ▸ hh)

theorem Numbered.insert (hdb : db.Numbered) (h : Handle) (u : CompilationUnit) : (db.insert h u).Numbered := by
  have hinsert := hdb.consistent.insert h u
  refine of_eq ⟨hinsert.distinct, hinsert.below, hinsert.stamps⟩ ?_ ?_
  · cases hold : db.get? h with
    | some old => rw [insert_of_some hold, insert_of_some (show get? { db with index := [] } h = some old from hold)]; rfl
    | none => rw [insert_of_none hold, insert_of_none (show get? { db with index := [] } h = none from hold)]
  · rw [nextHandle_insert, nextHandle_insert]

theorem Numbered.remove (hdb : db.Numbered) (h : Handle) : (db.remove h).2.Numbered := by
  have hremove := hdb.consistent.remove h
  refine of_eq ⟨hremove.distinct, hremove.below, hremove.stamps⟩ ?_ ?_ <;>
  · cases hold : db.get? h with
    | some old => rw [remove_of_some hold, remove_of_some (show get? { db with index := [] } h = some old from hold)]
    | none => rw [remove_of_none hold, remove_of_none (show get? { db with index := [] } h = none from hold)]

theorem Numbered.perform (hdb : db.Numbered) (op : Operation) : (db.perform op).Numbered :=
  perform_of hdb.insert hdb.remove (fun _ _ => hdb.of_eq rfl rfl) op

theorem Counted.perform (hdb : db.Counted) (op : Operation) : (db.perform op).Counted :=
  perform_of hdb.insert hdb.remove (fun _ _ => hdb.of_eq rfl rfl) op

theorem Numbered.modify {f : CompilationUnit → CompilationUnit} (hdb : db.Numbered)
    (hf : ∀ u, db.get? h = some u → (f u).diagnostics.file = some h) : (db.modify h f).Numbered where
  distinct := by
    rw [handles_modify]
    exact hdb.distinct
  fresh := hdb.fresh.modify f
  stamps := by
    intro k v hv
    rw [get?_modify] at hv
    split at hv
    · rename_i hk
      obtain ⟨u, hu, rfl⟩ := map_eq_some_iff.1 hv
      rw [hk] at hu ⊢
      exact hf u hu
    · exact hdb.stamps k v hv

theorem Numbered.takeInAll (hdb : db.Numbered) (units : List CompilationUnit) : (db.takeInAll units).Numbered := by
  induction units generalizing db with
  | nil => exact hdb
  | cons u units ih => exact ih ((hdb.insert ⟨db.nextHandle⟩ u).of_eq rfl rfl)

end Database

end Mcfunction
