/-! Lists of entries with keys, in the order in which the keys first appeared. -/

namespace Mcfunction

abbrev Entries (α : Type) := List (String × α)

namespace Entries

variable {α : Type}

/-- Gives `key` the value `value`: in its old place if it has one, and at the end otherwise. -/
def insert (key : String) (value : α) : Entries α → Entries α
  | [] => [(key, value)]
  | (k, v) :: rest => if k = key then (k, value) :: rest else (k, v) :: insert key value rest

def modify (key : String) (f : α → α) : Entries α → Entries α
  | [] => []
  | (k, v) :: rest => if k = key then (k, f v) :: rest else (k, v) :: modify key f rest

def keys (es : Entries α) : List String := es.map Prod.fst

def Distinct (es : Entries α) : Prop := es.keys.Nodup

theorem mem_of_lookup {es : Entries α} {key : String} {value : α} (h : es.lookup key = some value) :
    (key, value) ∈ es := by
  induction es with
  | nil => cases h
  | cons e es ih =>
    obtain ⟨k, v⟩ := e
    by_cases hk : key = k
    · subst hk
      simp only [List.lookup_cons_self, Option.some.injEq] at h
      simp [h]
    · have hb : (key == k) = false := by simpa using hk
      simp only [List.lookup_cons, hb] at h
      exact List.mem_cons_of_mem _ (ih h)

end Entries

end Mcfunction
