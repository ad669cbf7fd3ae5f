import Mcfunction.Proofs.Numerals
import Mcfunction.Proofs.Way

/-! Limits of integers. Two integers are compared as the doubles nearest to them, and these are integers again: up to
`2 ^ 53` the integers themselves, beyond it the nearest multiples of a power of two. Rounding keeps the order of
integers but does not tell all of them apart. So the limits of a range or of a number are kept, except where a number
and its limit are rounded to the same double. -/

namespace Mcfunction

open Floating Reader Leaf

namespace Floating

variable {m n v den : Nat} {i j e : Int} {x y : Floating}

/-! ### Rounding keeps the order -/

theorem div_le_roundDiv (num den : Nat) : num / den ≤ roundDiv num den ∧ roundDiv num den ≤ num / den + 1 := by
  unfold roundDiv
  extract_lets q r
  split
  · omega
  · split
    · omega
    · split <;> omega

theorem roundDiv_mono {a b : Nat} (h : a ≤ b) (den : Nat) : roundDiv a den ≤ roundDiv b den := by
  rcases Nat.lt_or_eq_of_le (Nat.div_le_div_right h) with hlt | heq
  · calc roundDiv a den
        ≤ a / den + 1 := (div_le_roundDiv a den).2
      _ ≤ b / den := hlt
      _ ≤ roundDiv b den := (div_le_roundDiv b den).1
  · -- With the same quotient, the larger remainder is rounded up if the smaller one is.
    have hrest : a % den ≤ b % den := by
      have ha := Nat.div_add_mod a den
      have hb := Nat.div_add_mod b den
      rw [heq] at ha
      omega
    unfold roundDiv
    grind

theorem roundDiv_mul (m : Nat) (hden : 0 < den) : roundDiv (m * den) den = m := by
  unfold roundDiv
  rw [Nat.mul_mod_left, Nat.mul_div_cancel m hden]
  exact if_pos hden

/-- The double nearest to a natural number: the multiple of a power of two that leaves 53 bits. -/
def nearestNat (n : Nat) : Nat := roundDiv n (2 ^ (n.log2 - 52)) * 2 ^ (n.log2 - 52)

def nearest (i : Int) : Int := if i < 0 then -(nearestNat i.natAbs : Int) else nearestNat i.natAbs

theorem nearestNat_eq (h : 2 ^ (n.log2 - 52) ∣ n) : nearestNat n = n := by
  obtain ⟨m, hm⟩ := h
  rw [nearestNat]
  generalize n.log2 - 52 = k at hm
  rw [hm, mul_comm (2 ^ k) m, roundDiv_mul m (Nat.two_pow_pos k)]

theorem nearestNat_mul (hm : m ≤ 2 ^ 53) (k : Nat) : nearestNat (m * 2 ^ k) = m * 2 ^ k := by
  refine nearestNat_eq ?_
  rcases lt_or_eq_of_le hm with hlt | rfl
  · refine Nat.dvd_trans (Nat.pow_dvd_pow 2 ?_) (Nat.dvd_mul_left _ m)
    by_cases hzero : m * 2 ^ k = 0
    · rw [hzero]
      exact Nat.zero_le k
    · have hlog : (m * 2 ^ k).log2 < 53 + k := by
        rw [Nat.log2_lt hzero, Nat.pow_add]
        exact Nat.mul_lt_mul_of_pos_right hlt (Nat.two_pow_pos k)
      omega
  · rw [← Nat.pow_add, Nat.log2_two_pow]
    exact Nat.pow_dvd_pow 2 (by omega)

theorem nearestNat_bounds (hn : n ≠ 0) : 2 ^ n.log2 ≤ nearestNat n ∧ nearestNat n ≤ 2 ^ (n.log2 + 1) := by
  have hpos := Nat.two_pow_pos (n.log2 - 52)
  have hmultiple : ∀ k, n.log2 ≤ k → 2 ^ k = 2 ^ (k - (n.log2 - 52)) * 2 ^ (n.log2 - 52) := by
    intro k hk
    rw [← pow_add]
    congr 1
    omega
  have hlow := hmultiple n.log2 (le_refl _)
  have hhigh := hmultiple (n.log2 + 1) (Nat.le_succ _)
  constructor
  · have hround := roundDiv_mono (hlow ▸ Nat.log2_self_le hn) (2 ^ (n.log2 - 52))
    rw [roundDiv_mul _ hpos] at hround
    rw [hlow]
    exact Nat.mul_le_mul_right _ hround
  · have hround := roundDiv_mono (hhigh ▸ le_of_lt Nat.lt_log2_self) (2 ^ (n.log2 - 52))
    rw [roundDiv_mul _ hpos] at hround
    rw [hhigh]
    exact Nat.mul_le_mul_right _ hround

theorem nearestNat_mono {a b : Nat} (h : a ≤ b) : nearestNat a ≤ nearestNat b := by
  by_cases ha : a = 0
  · rw [ha]
    exact Nat.zero_le _
  · have hb : b ≠ 0 := by omega
    have hlog : a.log2 ≤ b.log2 := (Nat.le_log2 hb).2 (Nat.le_trans (Nat.log2_self_le ha) h)
    rcases lt_or_eq_of_le hlog with hlt | heq
    · calc nearestNat a
          ≤ 2 ^ (a.log2 + 1) := (nearestNat_bounds ha).2
        _ ≤ 2 ^ b.log2 := Nat.pow_le_pow_right (by decide) hlt
        _ ≤ nearestNat b := (nearestNat_bounds hb).1
    · rw [nearestNat, heq]
      exact Nat.mul_le_mul_right _ (roundDiv_mono h _)

theorem nearest_mono (h : i ≤ j) : nearest i ≤ nearest j := by
  unfold nearest
  split
  · split
    · have := nearestNat_mono (a := j.natAbs) (b := i.natAbs) (by omega)
      omega
    · omega
  · have := nearestNat_mono (a := i.natAbs) (b := j.natAbs) (by omega)
    omega

theorem nearest_le_iff : nearest i ≤ nearest j ↔ i ≤ j ∨ nearest i = nearest j := by
  constructor
  · intro h
    by_cases hij : i ≤ j
    · exact .inl hij
    · exact .inr (Int.le_antisymm h (nearest_mono (by omega)))
  · rintro (h | h)
    · exact nearest_mono h
    · exact Int.le_of_eq h

theorem nearest_eq_of_natAbs (h : nearestNat i.natAbs = i.natAbs) : nearest i = i := by
  rw [nearest]
  split <;> omega

theorem nearest_of_le (h : i.natAbs ≤ 2 ^ 53) : nearest i = i :=
  nearest_eq_of_natAbs (by simpa using nearestNat_mul h 0)

/-! ### Numbers whose value is an integer -/

def HasValue (x : Floating) (i : Int) : Prop :=
  ∃ negative m e, x = .finite negative m e ∧
    (if negative then -((toQuotient m e).1 : Int) else (toQuotient m e).1) = i * (toQuotient m e).2

theorem toQuotient_pos (m : Nat) (e : Int) : 0 < (toQuotient m e).2 := by
  unfold toQuotient
  split
  · exact Nat.one_pos
  · exact Nat.two_pow_pos _

theorem HasValue.less_iff (hx : x.HasValue i) (hy : y.HasValue j) : x.less y = true ↔ i < j := by
  obtain ⟨n₁, m₁, e₁, rfl, hi⟩ := hx
  obtain ⟨n₂, m₂, e₂, rfl, hj⟩ := hy
  have hq₁ : (0 : Int) < (toQuotient m₁ e₁).2 := Int.natCast_pos.2 (toQuotient_pos m₁ e₁)
  have hq₂ : (0 : Int) < (toQuotient m₂ e₂).2 := Int.natCast_pos.2 (toQuotient_pos m₂ e₂)
  have hscale (n : Bool) (p q : Nat) : (if n then -((p * q : Nat) : Int) else (p * q : Nat)) =
      (if n then -(p : Int) else p) * q := by
    cases n with
    | true => exact (congrArg Neg.neg (Int.natCast_mul p q)).trans (Int.neg_mul _ _).symm
    | false => exact Int.natCast_mul p q
  rw [less, decide_eq_true_eq, order?, compareFinite]
  rw [Option.some_inj, Int.compare_eq_lt, hscale, hscale, hi, hj, Int.mul_right_comm j]
  exact (Int.mul_lt_mul_right hq₂).trans (Int.mul_lt_mul_right hq₁)

theorem hasValue_finite {negative : Bool} (h : (toQuotient m e).1 = v * (toQuotient m e).2) :
    HasValue (.finite negative m e) (if negative then -(v : Int) else v) := by
  refine ⟨negative, m, e, rfl, ?_⟩
  rw [h]
  cases negative with
  | true => exact (congrArg Neg.neg (Int.natCast_mul v _)).trans (Int.neg_mul _ _).symm
  | false => exact Int.natCast_mul v _

theorem toQuotient_succ (h : (toQuotient (2 * m) e).1 = v * (toQuotient (2 * m) e).2) :
    (toQuotient m (e + 1)).1 = v * (toQuotient m (e + 1)).2 := by
  match e, h with
  | .ofNat k, h =>
    calc m * 2 ^ (k + 1)
        = 2 * m * 2 ^ k := by rw [pow_succ, mul_comm (2 ^ k), ← mul_assoc, mul_comm m]
      _ = v * 1 := h
  | .negSucc 0, h =>
    change 2 * m = v * 2 at h
    change m * 1 = v * 1
    omega
  | .negSucc (k + 1), h =>
    refine Nat.eq_of_mul_eq_mul_left Nat.two_pos ?_
    calc 2 * m
        = v * 2 ^ (k + 2) := h
      _ = 2 * (v * 2 ^ (k + 1)) := by rw [pow_succ, ← mul_assoc, mul_comm]

theorem exponentOf_nat (hn : n ≠ 0) : exponentOf .double n 1 = (n.log2 : Int) - 52 := by
  have hle := exponentOf_le .double n 1
  have hbelow : Below n 1 (exponentOf .double n 1) 53 := below_exponentOf .double Nat.one_ne_zero
  generalize exponentOf .double n 1 = e at hle hbelow
  have hprecision : Format.precision .double = 53 := rfl
  have hpow : 2 ^ (n.log2 + (-e).toNat) < 2 ^ (e.toNat + 53) := by
    calc 2 ^ (n.log2 + (-e).toNat)
        = 2 ^ n.log2 * 2 ^ (-e).toNat := pow_add 2 _ _
      _ ≤ n * 2 ^ (-e).toNat := Nat.mul_le_mul_right _ (Nat.log2_self_le hn)
      _ < 1 * 2 ^ e.toNat * 2 ^ 53 := hbelow
      _ = 2 ^ (e.toNat + 53) := by rw [one_mul, ← pow_add]
  have hlt := (Nat.pow_lt_pow_iff_right (by decide)).1 hpow
  omega

theorem roundScaled_nat (n : Nat) : (toQuotient (roundScaled n 1 (n.log2 - 52)) (n.log2 - 52)).1 =
    nearestNat n * (toQuotient (roundScaled n 1 (n.log2 - 52)) (n.log2 - 52)).2 := by
  rcases lt_or_ge n.log2 52 with hlt | hge
  · obtain ⟨k, hk⟩ : ∃ k, (n.log2 : Int) - 52 = .negSucc k := ⟨51 - n.log2, by omega⟩
    have hsmall : nearestNat n = n := nearestNat_eq (by rw [Nat.sub_eq_zero_of_le (le_of_lt hlt)]; exact Nat.one_dvd n)
    rw [hk, hsmall]
    have hexact := roundDiv_mul (n * 2 ^ (k + 1)) Nat.one_pos
    rwa [mul_one] at hexact
  · obtain ⟨k, hk⟩ : ∃ k : Nat, n.log2 = k + 52 := ⟨n.log2 - 52, by omega⟩
    have hexponent : (n.log2 : Int) - 52 = .ofNat k := by
      rw [Int.ofNat_eq_natCast]
      omega
    rw [hexponent]
    change roundDiv n (1 * 2 ^ k) * 2 ^ k = nearestNat n * 1
    rw [one_mul, mul_one, nearestNat, hk, Nat.add_sub_cancel]

theorem hasValue_ofInt (h : i.natAbs < 2 ^ 64) : (ofInt .double i).HasValue (nearest i) := by
  have hsign (v : Nat) : (if i < 0 then -(v : Int) else v) = if decide (i < 0) then -(v : Int) else v := by simp
  rw [nearest, hsign]
  by_cases hzero : i.natAbs = 0
  · rw [ofInt, hzero]
    refine hasValue_finite ?_
    rw [show nearestNat 0 = 0 by decide, Nat.zero_mul]
    rfl
  · obtain ⟨m, e, hcases, hround⟩ := round_eq .double (decide (i < 0)) 1 hzero
    have hfinite : ¬Format.maxExponent .double < e := by
      intro hlt
      obtain ⟨_, _, _, hdouble, -⟩ := isDouble_ofInt h
      rw [ofInt, hround, if_pos hlt] at hdouble
      cases hdouble
    have hfirst : firstExponent .double i.natAbs 1 = i.natAbs.log2 - 52 := by
      have hmin : Format.minExponent .double = -1074 := rfl
      rw [firstExponent, exponentOf_nat hzero]
      omega
    rw [hfirst] at hcases
    rw [ofInt, hround, if_neg hfinite]
    refine hasValue_finite ?_
    have hvalue := roundScaled_nat i.natAbs
    rcases hcases with ⟨rfl, rfl⟩ | ⟨rfl, rfl, hoverflow⟩
    · exact hvalue
    · rw [hoverflow] at hvalue
      exact toQuotient_succ hvalue

theorem HasValue.not_less_iff (hx : x.HasValue (nearest i)) (hy : y.HasValue (nearest j)) :
    x.less y = false ↔ j ≤ i ∨ nearest j = nearest i := by
  rw [← nearest_le_iff, ← Bool.not_eq_true, hx.less_iff hy, Int.not_lt]

theorem IsDouble.nearest_eq (h : x.IsDouble) (hx : x.HasValue i) : nearest i = i := by
  obtain ⟨n, m, e, rfl, hm, -⟩ := h
  obtain ⟨_, _, _, heq, hvalue⟩ := hx
  cases heq
  have hsize : (toQuotient m e).1 = i.natAbs * (toQuotient m e).2 := by
    have habs := congrArg Int.natAbs hvalue
    rw [Int.natAbs_mul, Int.natAbs_natCast] at habs
    rw [← habs]
    cases n <;> simp
  refine nearest_eq_of_natAbs ?_
  cases e with
  | ofNat k =>
    replace hsize : m * 2 ^ k = i.natAbs * 1 := hsize
    rw [← mul_one i.natAbs, ← hsize]
    exact nearestNat_mul hm k
  | negSucc k =>
    replace hsize : m = i.natAbs * 2 ^ (k + 1) := hsize
    have hle : i.natAbs ≤ 2 ^ 53 := le_trans (hsize ▸ Nat.le_mul_of_pos_right _ (Nat.two_pow_pos _)) hm
    simpa using nearestNat_mul hle 0

end Floating

/-! ### What readers let pass -/

namespace Properties

/-- The property sets an integer as a limit, or no limit. The integer is written as one, of 64 bits, or it is the value of
a double. -/
inductive Limits (p : Properties) (key : String) : Option Int → Prop
  | absent (h : p.number? key = none) : Limits p key none
  | integer {i : Int} (h : p.lookup key = some (.number (.integer i))) (hi : i.natAbs < 2 ^ 64) : Limits p key (some i)
  | double {x : Floating} {i : Int} (h : p.lookup key = some (.number (.floating x))) (hdouble : x.IsDouble)
      (hx : x.HasValue i) : Limits p key (some i)

theorem Limits.forall_iff {p : Properties} {key : String} {o : Option Int} (h : p.Limits key o) {P : Floating → Prop}
    {Q : Int → Prop} (hPQ : ∀ x i, x.HasValue (nearest i) → (P x ↔ Q i)) :
    (∀ x ∈ p.number? key, P x) ↔ ∀ i ∈ o, Q i := by
  cases h with
  | absent h => simp [h]
  | @integer i h hi =>
    have hnumber : p.number? key = some (.ofInt .double i) := by
      rw [number?, h]
      rfl
    simpa [hnumber] using hPQ _ i (hasValue_ofInt hi)
  | @double x i h hdouble hx =>
    have hnumber : p.number? key = some x := by
      rw [number?, h]
      rfl
    have hnearest := hdouble.nearest_eq hx
    simpa [hnumber] using hPQ x i (hnearest.symm ▸ hx)

end Properties

namespace Parse

open Floating (nearest)
open Reader (Gives)

def IsLong (v : Number) : Prop := ∃ i, v = .int i ∧ fits 64 i = true

theorem numberAt_integral (text : String) (span : Span) (c : Cursor) : Gives (numberAt text span true) c IsLong := by
  rw [numberAt]
  split
  · rename_i hv
    refine .pure ?_
    unfold numberValue at hv
    dsimp only at hv
    split at hv
    · cases hv
    · split at hv
      · rename_i i hi
        cases hv
        exact ⟨i, rfl, (signedValue?_eq_some hi).2⟩
      · cases hv
  · exact .fail

theorem number_integral (c : Cursor) : Gives (number true) c fun n => ∀ v, n.form = .number v → IsLong v := by
  refine (Reader.Gives.trivial _ c).bind fun x d _ _ => ?_
  refine (numberAt_integral x.1 x.2 d).bind fun v _ _ hv => Reader.Gives.pure ?_
  rintro w ⟨⟩
  exact hv

theorem hasValue_of_fits {i : Int} (h : fits 64 i = true) : (Number.int i).toFloating.HasValue (nearest i) := by
  have hpow : Nat.pow 2 (64 - 1) = 9223372036854775808 := by decide
  rw [fits, Bool.and_eq_true, decide_eq_true_eq, decide_eq_true_eq] at h
  exact hasValue_ofInt (by omega)

theorem range_iff (integral : Bool) (c : Cursor) (a b : Number) :
    (∃ x, range integral c = .ok x ∧ x.value.form = .range (some a) (some b)) ↔
      (∃ y, rangeEnds integral c = .ok y ∧ y.value = (some a, some b)) ∧ b.toFloating.less a.toFloating = false := by
  constructor
  · rintro ⟨x, hx, hform⟩
    obtain ⟨ends, z, hends, hz, rfl⟩ := bind_ok hx
    rw [spanned_apply] at hends
    obtain ⟨⟨⟨min, max⟩, next, hnext⟩, hy, rfl⟩ := map_ok hends
    obtain ⟨rfl, rfl, hless⟩ : min = some a ∧ max = some b ∧ b.toFloating.less a.toFloating = false := by
      cases min with
      | none =>
        cases max with
        | none => cases hz
        | some b' =>
          cases hz
          cases hform
      | some a' =>
        cases max with
        | none =>
          cases hz
          cases hform
        | some b' =>
          dsimp only at hz
          split at hz
          · cases hz
          · rename_i hless
            cases hz
            cases hform
            exact ⟨rfl, rfl, by simpa using hless⟩
    exact ⟨⟨_, hy, rfl⟩, hless⟩
  · rintro ⟨⟨⟨_, next, hnext⟩, hy, rfl⟩, hless⟩
    refine ⟨⟨⟨.range (some a) (some b), next.spanFrom c.location⟩, next, hnext⟩, ?_, rfl⟩
    rw [range, bind_apply, spanned_apply, hy]
    dsimp only [Except.map]
    rw [hless]
    rfl

theorem checkBounds_iff (p : Properties) (n : Number) (span : Span) (c : Cursor) :
    (∃ x, checkBounds p n span c = .ok x) ↔ (∀ m ∈ p.number? "min", n.toFloating.less m = false) ∧
      ∀ m ∈ p.number? "max", m.less n.toFloating = false := by
  have hpass : ∃ x, (pure () : Parse Unit) c = .ok x := ⟨_, rfl⟩
  have hfail (complaint : Complaint) : ¬∃ x, (failAt span complaint : Parse Unit) c = .ok x := by
    rintro ⟨x, hx⟩
    cases hx
  unfold checkBounds
  cases p.number? "min" with
  | none =>
    cases p.number? "max" with
    | none => simpa using hpass
    | some high => cases hhigh : high.less n.toFloating <;> simp [hhigh, hpass, hfail]
  | some low =>
    cases hlow : n.toFloating.less low with
    | true => simp [hlow, hfail]
    | false =>
      cases p.number? "max" with
      | none => simp [hlow, hpass]
      | some high => cases hhigh : high.less n.toFloating <;> simp [hlow, hhigh, hpass, hfail]

theorem bounded_iff (p : Properties) (c : Cursor) (v : Number) :
    (∃ x, bounded p true false c = .ok x ∧ x.value.form = .number v) ↔
      (∃ y, number true c = .ok y ∧ y.value.form = .number v) ∧
      (∀ m ∈ p.number? "min", v.toFloating.less m = false) ∧ ∀ m ∈ p.number? "max", m.less v.toFloating = false := by
  constructor
  · rintro ⟨x, hx, hform⟩
    obtain ⟨y, z, hy, hz, rfl⟩ := bind_ok hx
    obtain ⟨w, hw, -⟩ := number_gives true c y hy
    rw [hw] at hz
    obtain ⟨u, last, hu, hlast, rfl⟩ := bind_ok hz
    cases hlast
    cases hw.symm.trans hform
    exact ⟨⟨y, hy, hw⟩, (checkBounds_iff p v y.value.span y.next).1 ⟨u, hu⟩⟩
  · rintro ⟨⟨y, hy, hform⟩, hbounds⟩
    obtain ⟨u, hu⟩ := (checkBounds_iff p v y.value.span y.next).2 hbounds
    refine ⟨⟨y.value, u.next, y.ahead.trans u.ahead⟩, ?_, hform⟩
    rw [bounded, bind_apply, hy]
    dsimp only
    rw [hform]
    dsimp only
    rw [if_neg (by simp), bind_apply, hu]
    rfl

/-- How integers are held against their limits. A range of integers is read, and an integer within the limits of some
properties, exactly if the order is right or what is in the wrong order has the same nearest double. Up to `2 ^ 53` that
is the integer itself, and limits are exact. -/
theorem integer_limits {p : Properties} {low high : Option Int} (hlow : p.Limits "min" low)
    (hhigh : p.Limits "max" high) :
    (∀ c a b, (∃ x, read p .integerRange c = .ok x ∧ x.value.form = .range (some a) (some b)) ↔
      (∃ y, rangeEnds true c = .ok y ∧ y.value = (some a, some b)) ∧
        ∃ i j, a = .int i ∧ b = .int j ∧ (i ≤ j ∨ nearest i = nearest j)) ∧
    (∀ c v, (∃ x, read p .long c = .ok x ∧ x.value.form = .number v) ↔
      (∃ y, number true c = .ok y ∧ y.value.form = .number v) ∧
        ∃ i, v = .int i ∧ (∀ l ∈ low, l ≤ i ∨ nearest l = nearest i) ∧ ∀ h ∈ high, i ≤ h ∨ nearest i = nearest h) ∧
    ∀ i : Int, i.natAbs ≤ 2 ^ 53 → nearest i = i := by
  refine ⟨fun c a b => (range_iff true c a b).trans (and_congr_right ?_),
    fun c v => (bounded_iff p c v).trans (and_congr_right ?_), fun i => Floating.nearest_of_le⟩
  · rintro ⟨y, hy, hends⟩
    obtain ⟨ha, hb⟩ := rangeEnds_gives numberAt_integral c y hy
    rw [hends] at ha hb
    obtain ⟨i, rfl, hi⟩ := ha a rfl
    obtain ⟨j, rfl, hj⟩ := hb b rfl
    rw [(hasValue_of_fits hj).not_less_iff (hasValue_of_fits hi)]
    simp
  · rintro ⟨y, hy, hform⟩
    obtain ⟨i, rfl, hi⟩ := number_integral c y hy v hform
    have hvalue := hasValue_of_fits hi
    rw [hlow.forall_iff fun x l hx => hvalue.not_less_iff hx, hhigh.forall_iff fun x h hx => hx.not_less_iff hvalue]
    simp

/-- Limits of either kind, and numbers at them. -/
theorem integer_limits_kept :
    let p : Properties := [("min", .number (.integer (-9007199254740993))), ("max", .number (.floating (.finite false 5 1)))]
    p.Limits "min" (some (-9007199254740993)) ∧ p.Limits "max" (some 10) ∧
      (∃ x, read p .integerRange (.start "-3..7") = .ok x ∧ x.value.form = .range (some (.int (-3))) (some (.int 7))) ∧
      ∃ x, read p .long (.start "10") = .ok x ∧ x.value.form = .number (.int 10) := by
  intro p
  have hlow : p.Limits "min" (some (-9007199254740993)) := .integer rfl (by decide)
  have hhigh : p.Limits "max" (some 10) := .double rfl ⟨_, _, _, rfl, by decide, by decide⟩ ⟨_, _, _, rfl, by decide⟩
  obtain ⟨hranges, hlongs, -⟩ := integer_limits hlow hhigh
  refine ⟨hlow, hhigh, (hranges _ _ _).2 ⟨?_, -3, 7, rfl, rfl, .inl (by decide)⟩, (hlongs _ _).2 ⟨?_, 10, rfl, ?_, ?_⟩⟩
  · obtain ⟨y, hy, hends⟩ := exists_ok_of_any (r := rangeEnds true (.start "-3..7"))
      (p := fun y => y.value = (some (.int (-3)), some (.int 7))) (by decide +kernel)
    exact ⟨y, hy, of_decide_eq_true hends⟩
  · obtain ⟨y, hy, -, hform⟩ := number_accepts (i := 10) (by decide) true (.start "10") [] rfl EndsAt.nil
    exact ⟨y, hy, hform⟩
  · rintro _ ⟨⟩
    exact .inl (by decide)
  · rintro _ ⟨⟩
    exact .inl (by decide)

/-- Beyond `2 ^ 53` the order of two integers is lost: a range stands backwards, and a number lies above its limit. -/
theorem integer_limits_lost :
    (∃ x, read [] .integerRange (.start "9007199254740993..9007199254740992") = .ok x ∧
      x.value.form = .range (some (.int 9007199254740993)) (some (.int 9007199254740992))) ∧
    ∃ x, read [("max", .number (.integer 9007199254740992))] .long (.start "9007199254740993") = .ok x ∧
      x.value.form = .number (.int 9007199254740993) := by
  refine ⟨(range_iff _ _ _ _).2 ⟨?_, by decide +kernel⟩, (bounded_iff _ _ _).2 ⟨?_, ?_, ?_⟩⟩
  · obtain ⟨y, hy, hends⟩ := exists_ok_of_any (r := rangeEnds true (.start "9007199254740993..9007199254740992"))
      (p := fun y => y.value = (some (.int 9007199254740993), some (.int 9007199254740992))) (by decide +kernel)
    exact ⟨y, hy, of_decide_eq_true hends⟩
  · obtain ⟨y, hy, -, hform⟩ := number_accepts (i := 9007199254740993) (by decide) true
      (.start "9007199254740993") [] rfl EndsAt.nil
    exact ⟨y, hy, hform⟩
  · rintro _ ⟨⟩
  · rintro _ ⟨⟩
    decide +kernel

end Parse

end Mcfunction
