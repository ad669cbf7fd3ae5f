/-! Differences between two texts, line by line. What the texts have in common is one of their longest common
subsequences. -/

namespace Mcfunction.Text

variable {α : Type} [DecidableEq α]

/-- The longer of two lists, of which the lengths are known; the first if they are equally long. -/
def longer (a b : Nat × List α) : Nat × List α := if a.1 < b.1 then b else a

/-- Longest common subsequences, with their lengths, of `x :: xs` and each suffix of `ys`, from those of `xs`
and each suffix of `ys`. -/
def commonRow (x : α) : List α → List (Nat × List α) → List (Nat × List α)
  | y :: ys, below :: row =>
    match commonRow x ys row, row with
    | right :: more, diagonal :: _ =>
      (if x = y then (diagonal.1 + 1, x :: diagonal.2) else longer below right) :: right :: more
    | _, _ => [below]
  | _, _ => [(0, [])]

def commonTable (ys : List α) : List α → List (Nat × List α)
  | [] => (0, []) :: ys.map fun _ => (0, [])
  | x :: xs => commonRow x ys (commonTable ys xs)

def common (xs ys : List α) : List α :=
  match commonTable ys xs with
  | (_, best) :: _ => best
  | [] => []

/-- A run of lines that two texts share, or that only one of them has. -/
inductive Change (α : Type) where
  | same (lines : List α)
  | removed (lines : List α)
  | added (lines : List α)

def alike : List α → List α → List α → Nat
  | x :: xs, y :: ys, z :: zs => if x = y ∧ y = z then alike xs ys zs + 1 else 0
  | _, _, _ => 0

theorem alike_le (xs ys zs : List α) : alike xs ys zs ≤ xs.length ∧ alike xs ys zs ≤ ys.length := by
  induction xs generalizing ys zs with
  | nil => simp [alike]
  | cons x xs ih =>
    cases ys with
    | nil => simp [alike]
    | cons y ys =>
      cases zs with
      | nil => simp [alike]
      | cons z zs =>
        have := ih ys zs
        simp only [alike, List.length_cons]
        split <;> omega

def upTo (next : Option α) (xs : List α) : List α := xs.takeWhile fun x => next ≠ some x

theorem length_upTo_le (next : Option α) (xs : List α) : (upTo next xs).length ≤ xs.length :=
  (List.takeWhile_sublist _).length_le

/-- The changes that lead from `xs` to `ys`, of which `zs` is a common subsequence. -/
def changes (xs ys zs : List α) : List (Change α) :=
  let n := alike xs ys zs
  let next := (zs.drop n).head?
  let gone := upTo next (xs.drop n)
  let new := upTo next (ys.drop n)
  if h : n + gone.length + new.length = 0 then []
  else
    (if n = 0 then [] else [.same (xs.take n)]) ++
      (if gone.isEmpty then [] else [.removed gone]) ++
      (if new.isEmpty then [] else [.added new]) ++
      changes (xs.drop (n + gone.length)) (ys.drop (n + new.length)) (zs.drop n)
termination_by xs.length + ys.length
decreasing_by
  have h₁ : n ≤ xs.length ∧ n ≤ ys.length := alike_le xs ys zs
  have h₂ : gone.length ≤ (xs.drop n).length := length_upTo_le next (xs.drop n)
  have h₃ : new.length ≤ (ys.drop n).length := length_upTo_le next (ys.drop n)
  simp +zetaDelta only [List.length_drop] at h h₁ h₂ h₃ ⊢
  omega

end Mcfunction.Text
