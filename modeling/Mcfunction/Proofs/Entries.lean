import Mcfunction.Entries

/-! Entries with keys: what is found under a key after one was entered or changed, and that this and the order of
the keys determine the entries. -/

namespace Mcfunction.Entries

open List

variable {α : Type} {es : Entries α}

variable {key : String} {made fs : Entries α}

theorem lookup_of_mem {value : α} (hdist : es.Distinct) (h : (key, value) ∈ es) : es.lookup key = some value := by
  induction es with
  | nil => cases h
  | cons e es ih =>
    obtain ⟨hnot, hrest⟩ := nodup_cons.1 hdist
    rcases mem_cons.1 h with rfl | hmem
    · rw [lookup_cons_self]
    · have hne : key ≠ e.1 := by
        intro hkey
        rw [← hkey] at hnot
        exact hnot (mem_map.2 ⟨_, hmem, rfl⟩)
      rw [lookup_cons, beq_false_of_ne hne]
      exact ih hrest hmem

theorem lookup_eq_none_iff : es.lookup key = none ↔ key ∉ es.keys := by
  rw [List.lookup_eq_none_iff, keys, mem_map]
  constructor
  · rintro h ⟨e, he, rfl⟩
    simpa using h e he
  · intro h e he
    exact bne_iff_ne.2 fun heq => h ⟨e, he, heq.symm⟩

theorem ext (hes : es.Distinct) (hkeys : es.keys = fs.keys) (h : ∀ key, es.lookup key = fs.lookup key) : es = fs := by
  induction es generalizing fs with
  | nil => exact (map_eq_nil_iff.1 hkeys.symm).symm
  | cons e es ih =>
    obtain ⟨k, v⟩ := e
    obtain ⟨hnot, hrest⟩ := nodup_cons.1 hes
    cases fs with
    | nil => cases hkeys
    | cons f fs =>
      obtain ⟨l, w⟩ := f
      have htail : keys es = keys fs := (cons.inj hkeys).2
      obtain rfl : k = l := (cons.inj hkeys).1
      have hvalue := h k
      rw [lookup_cons_self, lookup_cons_self] at hvalue
      cases hvalue
      refine congrArg _ (ih hrest htail fun key => ?_)
      by_cases hkey : key = k
      · subst hkey
        have hnot' : key ∉ keys fs := htail ▸ hnot
        rw [lookup_eq_none_iff.2 hnot, lookup_eq_none_iff.2 hnot']
      · have hothers := h key
        rwa [lookup_cons, lookup_cons, beq_false_of_ne hkey] at hothers

@[simp] theorem keys_modify (key : String) (f : α → α) : keys (modify key f es) = keys es := by
  induction es with
  | nil => rfl
  | cons e es ih =>
    rw [modify]
    split
    · rfl
    · rw [keys, map_cons, keys, map_cons]
      exact congrArg _ ih

theorem lookup_modify (key name : String) (f : α → α) :
    (modify key f es).lookup name = if name = key then (es.lookup name).map f else es.lookup name := by
  induction es with
  | nil => simp [modify]
  | cons e es ih =>
    obtain ⟨k, v⟩ := e
    rw [modify]
    by_cases hk : k = key
    · rw [if_pos hk, hk, lookup_cons, lookup_cons]
      by_cases hname : name = key
      · simp [hname]
      · simp [hname, beq_false_of_ne hname]
    · rw [if_neg hk, lookup_cons, lookup_cons]
      by_cases hname : name = k
      · subst hname
        simp [hk]
      · rw [beq_false_of_ne hname]
        exact ih

theorem lookup_insert (key name : String) (value : α) :
    (insert key value es).lookup name = if name = key then some value else es.lookup name := by
  induction es with
  | nil =>
    by_cases hname : name = key <;> simp [insert, hname]
  | cons e es ih =>
    obtain ⟨k, v⟩ := e
    rw [insert]
    by_cases hk : k = key
    · rw [if_pos hk, hk, lookup_cons, lookup_cons]
      by_cases hname : name = key
      · simp [hname]
      · simp [hname, beq_false_of_ne hname]
    · rw [if_neg hk, lookup_cons, lookup_cons, ih]
      by_cases hname : name = k
      · subst hname
        simp [hk]
      · rw [beq_false_of_ne hname]

theorem insert_eq_append (h : key ∉ made.keys) (v : α) : made.insert key v = made ++ [(key, v)] := by
  induction made with
  | nil => rfl
  | cons e made ih =>
    obtain ⟨k, w⟩ := e
    simp only [keys, map_cons, mem_cons, not_or] at h
    rw [insert, if_neg (Ne.symm h.1), ih h.2, cons_append]

theorem foldl_insert (es made : Entries α) (h : Distinct (made ++ es)) :
    es.foldl (fun made e => insert e.1 e.2 made) made = made ++ es := by
  induction es generalizing made with
  | nil => rw [foldl_nil, append_nil]
  | cons e es ih =>
    have hkey : e.1 ∉ keys made := by
      intro hmem
      rw [Distinct, keys, map_append, map_cons] at h
      exact (nodup_append.1 h).2.2 e.1 hmem e.1 mem_cons_self rfl
    rw [foldl_cons, insert_eq_append hkey, ih _ (by simpa using h), append_assoc]
    rfl

theorem keys_insert_of_mem (h : key ∈ made.keys) (v : α) : keys (made.insert key v) = made.keys := by
  induction made with
  | nil => cases h
  | cons e made ih =>
    obtain ⟨k, w⟩ := e
    rw [insert]
    split
    · rfl
    · rename_i hne
      have hmem := (mem_cons.1 h).resolve_left (Ne.symm hne)
      exact congrArg (k :: ·) (ih hmem)

theorem distinct_insert (h : made.Distinct) (key : String) (v : α) : Distinct (made.insert key v) := by
  by_cases hkey : key ∈ made.keys
  · rwa [Distinct, keys_insert_of_mem hkey]
  · rw [insert_eq_append hkey, Distinct, keys, map_append]
    refine nodup_append.2 ⟨h, nodup_cons.2 ⟨not_mem_nil, nodup_nil⟩, fun a ha b hb hab => ?_⟩
    obtain rfl : b = key := mem_singleton.1 hb
    exact hkey (hab ▸ ha)

theorem mem_insert {v : α} {e : String × α} (h : e ∈ made.insert key v) : e = (key, v) ∨ e ∈ made := by
  induction made with
  | nil => exact .inl (mem_singleton.1 h)
  | cons first made ih =>
    obtain ⟨k, w⟩ := first
    rw [insert] at h
    split at h
    · rename_i hk
      rcases mem_cons.1 h with rfl | h
      · exact .inl (by rw [hk])
      · exact .inr (mem_cons_of_mem _ h)
    · rcases mem_cons.1 h with rfl | h
      · exact .inr mem_cons_self
      · exact (ih h).imp_right (mem_cons_of_mem _)

end Mcfunction.Entries
