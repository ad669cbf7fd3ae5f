import Mathlib.Algebra.Group.Nat.Defs
import Mcfunction.Json.Scanner
import Mcfunction.Parse.Scalar

/-! Numbers that are read are numbers. Rounding gives a mantissa that fits the format or an infinity, so what is
computed from digits is equal to itself; only the word for it is read as no number, and a quotient of two doubles
is one if the divisor is not too small. -/

namespace Mcfunction.Floating

open List Char

variable {x y : Floating} {den k m num : Nat} {e i e' : Int} {f : Format} {negative n : Bool}

/-! ### Equality -/

theorem equal_self (h : x ≠ .nan) : x.equal x = true := by
  cases x with
  | nan => exact absurd rfl h
  | infinite n => simp [equal, order?]
  | finite n m e => simp [equal, order?, compareFinite]

theorem negate_ne_nan (h : x ≠ .nan) : x.negate ≠ .nan := by
  cases x with
  | nan => exact absurd rfl h
  | infinite n | finite n m e => exact Floating.noConfusion

/-! ### Rounding -/

abbrev firstExponent (f : Format) (num den : Nat) : Int := max (exponentOf f num den) f.minExponent

theorem round_eq (f : Format) (negative : Bool) (den : Nat) (hnum : num ≠ 0) : ∃ m e,
    (m = roundScaled num den (firstExponent f num den) ∧ e = firstExponent f num den ∨
      m = 2 ^ (f.precision - 1) ∧ e = firstExponent f num den + 1 ∧
        roundScaled num den (firstExponent f num den) = 2 ^ f.precision) ∧
    round f negative num den = if f.maxExponent < e then .infinite negative else .finite negative m e := by
  rw [round, if_neg hnum]
  by_cases hm : roundScaled num den (firstExponent f num den) = Nat.pow 2 f.precision
  · exact ⟨_, _, .inr ⟨rfl, rfl, hm⟩, by simp only [hm]; rfl⟩
  · exact ⟨_, _, .inl ⟨rfl, rfl⟩, by simp only [if_neg hm]⟩

theorem round_ne_nan (f : Format) (negative : Bool) (num den : Nat) : round f negative num den ≠ .nan := by
  by_cases hnum : num = 0
  · rw [hnum]
    exact Floating.noConfusion
  · obtain ⟨m, e, -, hround⟩ := round_eq f negative den hnum
    rw [hround]
    split <;> exact Floating.noConfusion

def Below (num den : Nat) (e : Int) (k : Nat) : Prop :=
  num * 2 ^ (-e).toNat < den * 2 ^ e.toNat * 2 ^ k

theorem Below.mono (h : Below num den e k) (he : e ≤ e') : Below num den e' k :=
  calc num * 2 ^ (-e').toNat
      ≤ num * 2 ^ (-e).toNat := Nat.mul_le_mul_left _ (Nat.pow_le_pow_right (by decide) (by omega))
    _ < den * 2 ^ e.toNat * 2 ^ k := h
    _ ≤ den * 2 ^ e'.toNat * 2 ^ k :=
        Nat.mul_le_mul_right _ (Nat.mul_le_mul_left _ (Nat.pow_le_pow_right (by decide) (by omega)))

theorem below_of_log2 (hden : den ≠ 0) (he : (num.log2 : Int) + 1 ≤ den.log2 + e + k) : Below num den e k :=
  calc num * 2 ^ (-e).toNat
      < 2 ^ (num.log2 + 1) * 2 ^ (-e).toNat := Nat.mul_lt_mul_of_pos_right Nat.lt_log2_self (Nat.two_pow_pos _)
    _ = 2 ^ (num.log2 + 1 + (-e).toNat) := (pow_add 2 _ _).symm
    _ ≤ 2 ^ (den.log2 + e.toNat + k) := Nat.pow_le_pow_right (by decide) (by omega)
    _ = 2 ^ den.log2 * 2 ^ e.toNat * 2 ^ k := by rw [pow_add, pow_add]
    _ ≤ den * 2 ^ e.toNat * 2 ^ k := Nat.mul_le_mul_right _ (Nat.mul_le_mul_right _ (Nat.log2_self_le hden))

theorem below_exponentOf (f : Format) (hden : den ≠ 0) : Below num den (exponentOf f num den) f.precision := by
  unfold exponentOf
  extract_lets e fits
  split
  · rename_i hfits
    cases he : e with
    | ofNat k | negSucc k =>
      rw [Below]
      simpa [fits, he] using hfits
  · exact below_of_log2 hden (by omega)

theorem roundDiv_le (h : num < den * k) : roundDiv num den ≤ k := by
  have hq : num / den < k := Nat.div_lt_of_lt_mul h
  unfold roundDiv
  extract_lets q r
  split
  · omega
  · split
    · omega
    · split <;> omega

theorem roundScaled_le (h : Below num den e k) : roundScaled num den e ≤ 2 ^ k := by
  unfold roundScaled
  split
  · exact roundDiv_le (by simpa [Below] using h)
  · exact roundDiv_le (by simpa [Below] using h)

theorem round_bounds (hden : den ≠ 0) (hf : f.minExponent ≤ f.maxExponent)
    (h : round f negative num den = .finite n m e) : m ≤ 2 ^ f.precision ∧ e ≤ f.maxExponent := by
  by_cases hnum : num = 0
  · rw [hnum] at h
    cases h
    exact ⟨Nat.zero_le _, hf⟩
  · obtain ⟨m', e', hcases, hround⟩ := round_eq f negative den hnum
    rw [hround] at h
    split at h
    · cases h
    · cases h
      refine ⟨?_, by omega⟩
      rcases hcases with ⟨rfl, -⟩ | ⟨rfl, -⟩
      · exact roundScaled_le ((below_exponentOf f hden).mono (Int.le_max_left _ _))
      · exact Nat.pow_le_pow_right (by decide) (by omega)

theorem exponentOf_le (f : Format) (num den : Nat) :
    exponentOf f num den ≤ (num.log2 : Int) - den.log2 - f.precision + 1 := by
  unfold exponentOf
  extract_lets e fits
  split <;> omega

theorem round_finite (negative : Bool) (hf : f.minExponent + 1 ≤ f.maxExponent)
    (hk : (k : Int) + 2 ≤ f.maxExponent + f.precision) (h : num < den * 2 ^ k) :
    ∃ m e, round f negative num den = .finite negative m e := by
  by_cases hnum : num = 0
  · rw [hnum]
    exact ⟨_, _, rfl⟩
  · obtain ⟨m, e, hcases, hround⟩ := round_eq f negative den hnum
    have hlog : num.log2 < den.log2 + 1 + k := by
      rw [Nat.log2_lt hnum, Nat.pow_add]
      exact Nat.lt_trans h (Nat.mul_lt_mul_of_pos_right Nat.lt_log2_self (Nat.two_pow_pos _))
    have hexponent := exponentOf_le f num den
    have hle : ¬f.maxExponent < e := by rcases hcases with ⟨-, rfl⟩ | ⟨-, rfl, -⟩ <;> rw [firstExponent] <;> omega
    exact ⟨m, e, by rw [hround, if_neg hle]⟩

theorem roundDiv_pos (hden : 0 < den) (h : den ≤ num) : 0 < roundDiv num den := by
  have hq : 0 < num / den := Nat.div_pos h hden
  unfold roundDiv
  extract_lets q r
  split
  · exact hq
  · split
    · omega
    · split <;> omega

theorem roundScaled_pos (hnum : num ≠ 0) (he : e ≤ num.log2) : 0 < roundScaled num 1 e := by
  cases e with
  | ofNat k =>
    refine roundDiv_pos (Nat.mul_pos Nat.one_pos (Nat.two_pow_pos k)) ?_
    rw [one_mul]
    exact (Nat.le_log2 hnum).1 (Int.ofNat_le.1 he)
  | negSucc k =>
    exact roundDiv_pos Nat.one_pos (Nat.mul_pos (Nat.pos_of_ne_zero hnum) (Nat.two_pow_pos (k + 1)))

theorem isZero_ofInt (h : (ofInt .double i).isZero = true) : i = 0 := by
  refine Decidable.byContradiction fun hi => ?_
  have hnum : i.natAbs ≠ 0 := by simpa using hi
  obtain ⟨m, e, hcases, hround⟩ := round_eq .double (i < 0) 1 hnum
  have hm : m ≠ 0 := by
    rcases hcases with ⟨rfl, -⟩ | ⟨rfl, -⟩
    · refine Nat.ne_of_gt (roundScaled_pos hnum ?_)
      have hprecision : (Format.precision .double : Int) = 53 := rfl
      have hmin : Format.minExponent .double = -1074 := rfl
      have hexponent := exponentOf_le .double i.natAbs 1
      rw [firstExponent]
      omega
    · exact Nat.ne_of_gt (Nat.two_pow_pos _)
  rw [ofInt, hround] at h
  split at h
  · cases h
  · exact hm (of_decide_eq_true h)

/-! ### Doubles -/

def IsDouble (x : Floating) : Prop := ∃ n m e, x = .finite n m e ∧ m ≤ 2 ^ 53 ∧ e ≤ 971

def isDivisor : Floating → Bool
  | .finite _ m e => decide (m ≠ 0 ∧ m ≤ 2 ^ 53 ∧ e ≤ 971)
  | _ => false

theorem isDouble_of_isDivisor (h : x.isDivisor = true) : x.IsDouble ∧ x.isZero = false := by
  cases x with
  | nan | infinite n => cases h
  | finite n m e =>
    have hm := of_decide_eq_true h
    exact ⟨⟨n, m, e, rfl, hm.2⟩, decide_eq_false hm.1⟩

theorem IsDouble.ne_nan (h : x.IsDouble) : x ≠ .nan := by
  obtain ⟨n, m, e, rfl, -⟩ := h
  exact Floating.noConfusion

theorem isDouble_round (negative : Bool) (hk : k ≤ 1000) (h : num < den * 2 ^ k) :
    (round .double negative num den).IsDouble := by
  have hreach : (k : Int) + 2 ≤ Format.double.maxExponent + Format.double.precision := by
    change (k : Int) + 2 ≤ 971 + 53
    omega
  obtain ⟨m, e, hround⟩ := round_finite negative (by decide) hreach h
  have hden : den ≠ 0 := by
    rintro rfl
    simp at h
  exact ⟨negative, m, e, hround, round_bounds hden (by decide) hround⟩

theorem isDouble_ofInt (h : i.natAbs < 2 ^ 64) : (ofInt .double i).IsDouble :=
  isDouble_round (k := 64) _ (by decide) (by rwa [one_mul])

theorem ofDecimal_ne_nan (f : Format) (negative : Bool) (digits : Nat) (power : Int) :
    ofDecimal f negative digits power ≠ .nan := by
  unfold ofDecimal
  extract_lets size
  by_cases hzero : digits = 0
  · rw [if_pos hzero]
    exact round_ne_nan _ _ _ _
  · rw [if_neg hzero]
    by_cases hhigh : decimalReach < size + power
    · rw [if_pos hhigh]
      exact Floating.noConfusion
    · rw [if_neg hhigh]
      by_cases hlow : size + power < -decimalReach
      · rw [if_pos hlow]
        exact round_ne_nan _ _ _ _
      · rw [if_neg hlow]
        split <;> exact round_ne_nan _ _ _ _

theorem unsigned?_ne_nan {cs : List Char} (h : unsigned? f negative cs = some x) : x ≠ .nan := by
  unfold unsigned? at h
  dsimp only at h
  split at h
  all_goals
    split at h
    · cases h
    · obtain ⟨e, -, rfl⟩ := Option.map_eq_some_iff.1 h
      exact ofDecimal_ne_nan _ _ _ _

theorem eq_of_toLower_eq_n {ch : Char} (h : ch.toLower = 'n') : ch = 'n' ∨ ch = 'N' := by
  unfold toLower at h
  split at h
  · right
    have hval : ch.val + ('a'.val - 'A'.val) = 'n'.val := congrArg val h
    exact ext ((UInt32.add_left_inj _).1 (hval.trans (by decide)))
  · exact .inl h

theorem read?_ne_nan {text : String} (h : read? f text = some x) (hn : 'n' ∉ text.toList) (hN : 'N' ∉ text.toList) :
    x ≠ .nan := by
  have hword : ∀ {negative : Bool} {cs : List Char}, cs ⊆ text.toList →
      (let word := String.ofList (cs.map toLower)
       if word = "inf" ∨ word = "infinity" then some (infinite negative)
       else if word = "nan" then some nan
       else unsigned? f negative cs) = some x → x ≠ .nan := by
    intro negative cs hsub h
    dsimp only at h
    split at h
    · cases h
      exact Floating.noConfusion
    · split at h
      · rename_i hnan
        have hmem : 'n' ∈ cs.map toLower := by
          have hmap := congrArg String.toList hnan
          rw [String.toList_ofList] at hmap
          rw [hmap]
          exact mem_cons_self
        obtain ⟨ch, hch, hlower⟩ := mem_map.1 hmem
        rcases eq_of_toLower_eq_n hlower with rfl | rfl
        · exact absurd (hsub hch) hn
        · exact absurd (hsub hch) hN
      · exact unsigned?_ne_nan h
  unfold read? at h
  split at h
  rename_i hsplit
  refine hword ?_ h
  split at hsplit
  · rename_i hcs
    cases hsplit
    rw [hcs]
    exact subset_cons_self _ _
  · rename_i hcs
    cases hsplit
    rw [hcs]
    exact subset_cons_self _ _
  · cases hsplit
    exact List.Subset.refl _

/-! ### Quotients -/

theorem multiply_ne_nan (hx : x.IsDouble) (hy : y.IsDouble) : x.multiply .double y ≠ .nan := by
  obtain ⟨n₁, m₁, e₁, rfl, -⟩ := hx
  obtain ⟨n₂, m₂, e₂, rfl, -⟩ := hy
  exact round_ne_nan _ _ _ _

theorem divide_ne_nan (hx : x.IsDouble) (hy : y.IsDouble) (hzero : y.isZero = false) : x.divide .double y ≠ .nan := by
  obtain ⟨n₁, m₁, e₁, rfl, -⟩ := hx
  obtain ⟨n₂, m₂, e₂, rfl, -⟩ := hy
  rw [divide, if_neg (of_decide_eq_false hzero)]
  exact round_ne_nan _ _ _ _

theorem toQuotient_lt (hm : m < 2 ^ 54) (he : e ≤ k) : (toQuotient m e).1 < (toQuotient m e).2 * 2 ^ k * 2 ^ 54 := by
  unfold toQuotient
  split
  · rename_i j
    have hj : j ≤ k := by
      rw [Int.ofNat_eq_natCast] at he
      omega
    rw [one_mul, mul_comm (2 ^ k)]
    exact Nat.mul_lt_mul_of_lt_of_le hm (Nat.pow_le_pow_right (by decide) hj) (Nat.two_pow_pos _)
  · rename_i j
    calc m
        < 2 ^ 54 := hm
      _ ≤ 2 ^ (j + 1) * 2 ^ k * 2 ^ 54 :=
          Nat.le_mul_of_pos_left _ (Nat.mul_pos (Nat.two_pow_pos _) (Nat.two_pow_pos _))

theorem isDouble_divide (hx : x.IsDouble) (hm : m ≠ 0) (hk : 971 ≤ k) :
    (x.divide .double (.finite n m k)).IsDouble := by
  obtain ⟨n₁, m₁, e₁, rfl, hm₁, he₁⟩ := hx
  rw [divide, if_neg hm]
  refine isDouble_round (k := 54) _ (by decide) ?_
  calc (toQuotient m₁ e₁).1 * 1
      < (toQuotient m₁ e₁).2 * 2 ^ k * 2 ^ 54 := by
        rw [mul_one]
        exact toQuotient_lt (Nat.lt_of_le_of_lt hm₁ (by decide)) (by omega)
    _ ≤ (toQuotient m₁ e₁).2 * (m * 2 ^ k) * 2 ^ 54 :=
        Nat.mul_le_mul_right _ (Nat.mul_le_mul_left _ (Nat.le_mul_of_pos_left _ (Nat.pos_of_ne_zero hm)))

end Mcfunction.Floating

namespace Mcfunction.Json.Scanner

open List Floating

theorem isDouble_powerOfTen {k : Nat} (hk : k ≤ 308) : (powerOfTen k).IsDouble ∧ (powerOfTen k).isZero = false := by
  have hall : ((range 309).all fun k => (powerOfTen k).isDivisor) = true := by decide +kernel
  exact isDouble_of_isDivisor (all_eq_true.1 hall k (mem_range.2 (by omega)))

theorem powerOfTen_eq : powerOfTen 308 = .finite false 5010420900022432 (971 : Nat) := by
  decide +kernel

theorem scale_ne_nan {fuel : Nat} {x y : Floating} {e : Int} (hx : x.IsDouble) (h : scale fuel x e = some y) :
    y ≠ .nan := by
  induction fuel generalizing x e with
  | zero =>
    cases h
    exact hx.ne_nan
  | succ fuel ih =>
    rw [scale] at h
    split at h
    · rename_i he
      obtain ⟨hpower, hzero⟩ := isDouble_powerOfTen he
      split at h
      · split at h
        · cases h
        · cases h
          exact multiply_ne_nan hx hpower
      · cases h
        exact divide_ne_nan hx hpower hzero
    · split at h
      · cases h
        exact hx.ne_nan
      · split at h
        · cases h
        · rw [powerOfTen_eq] at h
          exact ih (isDouble_divide hx (by decide) (by decide)) h

end Mcfunction.Json.Scanner
