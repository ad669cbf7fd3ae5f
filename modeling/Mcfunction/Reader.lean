/-! Readers that only move forward. A type of positions says which positions lie ahead of which, and
a reader started at a position either fails or gives a value and a position ahead of its start. Since
the type carries that fact, every reader composed of others keeps it, and a loop that reads at least one
character in each round ends. A reader that always does is called strict. -/

namespace Mcfunction

theorem map_ok {ε α β : Type} {f : α → β} {r : Except ε α} {b : β} (h : r.map f = .ok b) :
    ∃ a, r = .ok a ∧ f a = b := by
  cases r with
  | error e => cases h
  | ok a => exact ⟨a, rfl, Except.ok.inj h⟩

theorem bind_eq_ok {ε α β : Type} {f : α → Except ε β} {r : Except ε α} {b : β} (h : r.bind f = .ok b) :
    ∃ a, r = .ok a ∧ f a = .ok b := by
  cases r with
  | error e => cases h
  | ok a => exact ⟨a, rfl, h⟩

theorem map_error {ε α β : Type} {f : α → β} {r : Except ε α} {e : ε} (h : r.map f = .error e) : r = .error e := by
  cases r with
  | error e' => exact congrArg Except.error (Except.error.inj h)
  | ok a => cases h

/-- Positions in an input. `Ahead s t` holds if reading can get from `s` to `t`, and the number of
characters left never grows on the way. -/
class Forward (σ : Type) where
  Ahead : σ → σ → Prop
  refl : ∀ s, Ahead s s
  trans : ∀ {s t u}, Ahead s t → Ahead t u → Ahead s u
  left : σ → Nat
  left_le : ∀ {s t}, Ahead s t → left t ≤ left s

structure Step {σ : Type} [Forward σ] (s : σ) (α : Type) where
  value : α
  next : σ
  ahead : Forward.Ahead s next

def Reader (σ ε : Type) [Forward σ] (α : Type) : Type := (s : σ) → Except ε (Step s α)

namespace Step

variable {σ α β : Type} [Forward σ]

def since {s t : σ} (h : Forward.Ahead s t) (x : Step t α) : Step s α :=
  ⟨x.value, x.next, Forward.trans h x.ahead⟩

@[simp] theorem since_value {s t : σ} (h : Forward.Ahead s t) (x : Step t α) :
    (x.since h).value = x.value := rfl

@[simp] theorem since_next {s t : σ} (h : Forward.Ahead s t) (x : Step t α) :
    (x.since h).next = x.next := rfl

theorem left_le {s : σ} (x : Step s α) : Forward.left x.next ≤ Forward.left s := Forward.left_le x.ahead

end Step

namespace Reader

variable {σ ε α β : Type} [Forward σ]

protected def pure (a : α) : Reader σ ε α := fun s => .ok ⟨a, s, Forward.refl s⟩

protected def bind (r : Reader σ ε α) (f : α → Reader σ ε β) : Reader σ ε β := fun s =>
  match r s with
  | .error e => .error e
  | .ok x =>
    match f x.value x.next with
    | .error e => .error e
    | .ok y => .ok (y.since x.ahead)

instance : Monad (Reader σ ε) where
  pure := Reader.pure
  bind := Reader.bind

def failHere (e : σ → ε) : Reader σ ε α := fun s => .error (e s)

def fail (e : ε) : Reader σ ε α := fun _ => .error e

def position : Reader σ ε σ := fun s => .ok ⟨s, s, Forward.refl s⟩

def look (f : σ → α) : Reader σ ε α := fun s => .ok ⟨f s, s, Forward.refl s⟩

theorem bind_ok {r : Reader σ ε α} {f : α → Reader σ ε β} {s : σ} {y : Step s β} (h : (r >>= f) s = .ok y) :
    ∃ x z, r s = .ok x ∧ f x.value x.next = .ok z ∧ y = z.since x.ahead := by
  simp only [bind, Reader.bind] at h
  split at h
  · cases h
  · rename_i x hx
    split at h
    · cases h
    · rename_i z hz
      cases h
      exact ⟨x, z, hx, hz, rfl⟩

/-! ### Strictness -/

def StrictAt (r : Reader σ ε α) (s : σ) : Prop :=
  ∀ ⦃x : Step s α⦄, r s = .ok x → Forward.left x.next < Forward.left s

/-- The reader, whenever it succeeds, has read something. -/
def Strict (r : Reader σ ε α) : Prop := ∀ s, r.StrictAt s

theorem StrictAt.bind_left {r : Reader σ ε α} {s : σ} (h : r.StrictAt s) (f : α → Reader σ ε β) :
    StrictAt (r >>= f) s := by
  intro y hy
  obtain ⟨x, z, hx, hz, rfl⟩ := bind_ok hy
  exact Nat.lt_of_le_of_lt z.left_le (h hx)

theorem StrictAt.bind_right {r : Reader σ ε α} {s : σ} {f : α → Reader σ ε β}
    (h : ∀ x, r s = .ok x → (f x.value).StrictAt x.next) : StrictAt (r >>= f) s := by
  intro y hy
  obtain ⟨x, z, hx, hz, rfl⟩ := bind_ok hy
  have hlt : Forward.left z.next < Forward.left x.next := h x hx hz
  exact Nat.lt_of_lt_of_le hlt x.left_le

theorem Strict.bind_left {r : Reader σ ε α} (h : r.Strict) (f : α → Reader σ ε β) : Strict (r >>= f) :=
  fun s => (h s).bind_left f

theorem Strict.bind_right (r : Reader σ ε α) {f : α → Reader σ ε β} (h : ∀ a, (f a).Strict) :
    Strict (r >>= f) :=
  fun _ => StrictAt.bind_right fun x _ => h x.value x.next

theorem Strict.ite {p : Prop} [Decidable p] {r t : Reader σ ε α} (hr : r.Strict) (ht : t.Strict) :
    Strict (if p then r else t) := by
  split
  · exact hr
  · exact ht

end Reader

end Mcfunction
