import Mathlib
import HandTemplate.Binary64

/-!
# Rounding to a binary64 number

What a rational number is rounded to, said without regard to how it is computed (`Rounds`): to a
nearest finite number, to the one with an even significand if two are equally near, and to the
infinity from halfway between the greatest finite number and `2 ^ 1024` on. A rational number is
rounded to one number of each sign (`Rounds.unique`), and that is the one that `ofRatio`,
`ofDecimal` and `mul` compute.

The proofs count the magnitudes from zero on. The finite numbers are `valueAt 0 < valueAt 1 < ...`,
and if their exponents had no bound then so would these go on (`valueAt_strictMono`). What is
rounded lies between two of them that follow one another, of which one is closest
(`closest_low`, `closest_high`); beyond the last finite one, whichever is closest stands for the
infinity (`Closest.rounds`).
-/

namespace HandTemplate

namespace Binary64

/-- Whether this is a finite number. -/
def IsFinite (x : Binary64) : Prop := x.magnitude < infiniteMagnitude

/-- The absolute value of a finite number. -/
def absValue (x : Binary64) : ℚ := x.significand * (2 : ℚ) ^ x.exponent

/-- `Rounds negative q x`: of the numbers with the given sign, `x` is the one to which a rational
number of absolute value `q` is rounded. -/
inductive Rounds (negative : Bool) (q : ℚ) : Binary64 → Prop where
  /-- No finite number is nearer, and if another one is as near then the significand is even. -/
  | finite {x : Binary64} (hsign : x.isNegative = negative) (hfinite : x.IsFinite)
      (hrange : q < 2 ^ 1024 - 2 ^ 970)
      (hnearest : ∀ y : Binary64, y.IsFinite → |x.absValue - q| ≤ |y.absValue - q|)
      (heven : ∀ y : Binary64, y.IsFinite → y.absValue ≠ x.absValue →
        |y.absValue - q| = |x.absValue - q| → x.significand % 2 = 0) : Rounds negative q x
  /-- The greatest finite number is `2 ^ 1024 - 2 ^ 971`, and halfway from there to `2 ^ 1024` the
  infinity begins. -/
  | infinite (hrange : 2 ^ 1024 - 2 ^ 970 ≤ q) : Rounds negative q (infinity negative)

/-! ## Magnitudes -/

/-- The sign and the magnitude of a number that is put together from them. -/
theorem ofMagnitude_parts (negative : Bool) {m : ℕ} (hm : m ≤ infiniteMagnitude) :
    (ofMagnitude negative m).magnitude = m ∧ (ofMagnitude negative m).isNegative = negative := by
  -- In decimal, so that arithmetic on the word is linear.
  have hsign : Nat.pow 2 63 = 9223372036854775808 := rfl
  have hbound : m ≤ 9218868437227405312 := hm
  have hword : (ofMagnitude negative m).bits.toNat =
      (if negative then 9223372036854775808 else 0) + m := by
    rw [ofMagnitude, hsign, UInt64.toNat_ofNat']
    split <;> omega
  unfold magnitude isNegative
  rw [hword, hsign]
  cases negative with
  | false => exact ⟨by simp only [Bool.false_eq_true, ↓reduceIte]; omega, by simp; omega⟩
  | true => exact ⟨by simp only [↓reduceIte]; omega, by simp⟩

/-- A number is determined by its sign and its magnitude. -/
theorem ext_of_magnitude {x y : Binary64} (hsign : x.isNegative = y.isNegative)
    (hmagnitude : x.magnitude = y.magnitude) : x = y := by
  have hpow : Nat.pow 2 63 = 9223372036854775808 := rfl
  have hx := x.bits.toNat_lt
  have hy := y.bits.toNat_lt
  have hword : x.bits.toNat = y.bits.toNat := by
    unfold isNegative at hsign
    unfold magnitude at hmagnitude
    rw [hpow, decide_eq_decide] at hsign
    rw [hpow] at hmagnitude
    omega
  obtain ⟨⟨bits⟩⟩ := x
  obtain ⟨⟨bits'⟩⟩ := y
  have hbits : bits = bits' := BitVec.eq_of_toNat_eq hword
  rw [hbits]

/-- The significand that belongs to a magnitude. -/
def significandAt (m : ℕ) : ℕ := if m < 2 ^ 52 then m else 2 ^ 52 + m % 2 ^ 52

/-- The value of a magnitude, which goes on beyond the finite numbers. -/
def valueAt (m : ℕ) : ℚ :=
  significandAt m * (2 : ℚ) ^ ((max (m / 2 ^ 52) 1 : ℕ) - 1075 : ℤ)

/-- The absolute value of a number is that of its magnitude. -/
theorem absValue_eq (x : Binary64) : x.absValue = valueAt x.magnitude := rfl

/-- The significand of a number is that of its magnitude. -/
theorem significand_eq (x : Binary64) : x.significand = significandAt x.magnitude := rfl

/-- A significand of 53 bits at most and an exponent give a magnitude, also where the significand
is rounded up to one bit more. -/
theorem valueAt_eq {k f : ℕ} (hf : f ≤ 2 ^ 53) (hk : k = 0 ∨ 2 ^ 52 ≤ f) :
    valueAt (k * 2 ^ 52 + f) = f * (2 : ℚ) ^ (k - 1074 : ℤ) := by
  -- A significand of less than 53 bits has the least exponent; one of 53 bits has its own.
  rcases Nat.lt_or_ge f (2 ^ 52) with hlow | hlow
  · obtain rfl : k = 0 := hk.resolve_right (by omega)
    have hexponent : ((max ((0 * 2 ^ 52 + f) / 2 ^ 52) 1 : ℕ) - 1075 : ℤ) = (0 : ℕ) - 1074 := by
      omega
    rw [valueAt, hexponent, significandAt, if_pos (by omega)]
    simp
  rcases Nat.lt_or_ge f (2 ^ 53) with hhigh | hhigh
  · have hexponent : ((max ((k * 2 ^ 52 + f) / 2 ^ 52) 1 : ℕ) - 1075 : ℤ) = k - 1074 := by omega
    have hsignificand : significandAt (k * 2 ^ 52 + f) = f := by
      rw [significandAt, if_neg (by omega)]
      omega
    rw [valueAt, hexponent, hsignificand]
  · -- One bit more: the significand is a power of two, and the exponent one higher.
    obtain rfl : f = 2 ^ 53 := Nat.le_antisymm hf hhigh
    have hexponent : ((max ((k * 2 ^ 52 + 2 ^ 53) / 2 ^ 52) 1 : ℕ) - 1075 : ℤ) =
        (k - 1074) + 1 := by omega
    have hsignificand : significandAt (k * 2 ^ 52 + 2 ^ 53) = 2 ^ 52 := by
      rw [significandAt, if_neg (by omega)]
      omega
    rw [valueAt, hexponent, hsignificand, zpow_add_one₀ two_ne_zero]
    push_cast
    ring

/-- Every magnitude has a significand and an exponent. -/
theorem exists_significand (m : ℕ) :
    ∃ k f, m = k * 2 ^ 52 + f ∧ f < 2 ^ 53 ∧ (k = 0 ∨ 2 ^ 52 ≤ f) := by
  rcases Nat.lt_or_ge m (2 ^ 52) with h | h
  · exact ⟨0, m, by omega, by omega, .inl rfl⟩
  · exact ⟨m / 2 ^ 52 - 1, 2 ^ 52 + m % 2 ^ 52, by omega, by omega, .inr (by omega)⟩

/-- A greater magnitude has a greater value. -/
theorem valueAt_strictMono : StrictMono valueAt := by
  refine strictMono_nat_of_lt_succ fun m => ?_
  obtain ⟨k, f, rfl, hf, hk⟩ := exists_significand m
  have hunit : (0 : ℚ) < 2 ^ (k - 1074 : ℤ) := by positivity
  have hnext : k = 0 ∨ 2 ^ 52 ≤ f + 1 := hk.imp_right (by omega)
  rw [Nat.add_assoc, valueAt_eq hf.le hk, valueAt_eq (Nat.succ_le_of_lt hf) hnext]
  push_cast
  linarith

/-- A significand is even if the magnitude is. -/
theorem significandAt_mod_two (m : ℕ) : significandAt m % 2 = m % 2 := by
  unfold significandAt
  split <;> omega

/-- The last finite magnitude and the one after it lie equally far from where the infinity
begins. -/
theorem valueAt_infinite :
    valueAt (infiniteMagnitude - 1) + valueAt infiniteMagnitude = 2 * (2 ^ 1024 - 2 ^ 970) := by
  -- The last finite magnitude has all bits of its significand set.
  have hlast : valueAt (infiniteMagnitude - 1) = (2 ^ 53 - 1) * (2 : ℚ) ^ 971 := by
    have hvalue := valueAt_eq (k := 2045) (f := 2 ^ 53 - 1) (by omega) (.inr (by omega))
    have hmagnitude : 2045 * 2 ^ 52 + (2 ^ 53 - 1) = infiniteMagnitude - 1 := by decide
    rw [hmagnitude] at hvalue
    rw [hvalue]
    norm_num
  have hinfinite : valueAt infiniteMagnitude = 2 ^ 53 * (2 : ℚ) ^ 971 := by
    have hvalue := valueAt_eq (k := 2045) (f := 2 ^ 53) le_rfl (.inr (by omega))
    have hmagnitude : 2045 * 2 ^ 52 + 2 ^ 53 = infiniteMagnitude := by decide
    rw [hmagnitude] at hvalue
    rw [hvalue]
    norm_num
  have htop : (2 : ℚ) ^ 1024 = 2 ^ 54 * 2 ^ 970 := by rw [← pow_add]
  have hunit : (2 : ℚ) ^ 971 = 2 * 2 ^ 970 := by rw [← pow_succ']
  rw [hlast, hinfinite, htop, hunit]
  generalize (2 : ℚ) ^ 970 = unit
  ring

/-! ## The closest magnitude -/

/-- Of two values, the lower one is as near as the upper one, or nearer, up to halfway. -/
theorem abs_sub_low_le_iff {a b q : ℚ} (hab : a < b) : |a - q| ≤ |b - q| ↔ 2 * q ≤ a + b := by
  have hpos : 0 < b - a := by linarith
  have hsquares : (b - q) ^ 2 - (a - q) ^ 2 = (b - a) * (a + b - 2 * q) := by ring
  rw [← sq_le_sq, ← sub_nonneg, hsquares, mul_nonneg_iff_of_pos_left hpos, sub_nonneg]

/-- Of two values, the upper one is as near as the lower one, or nearer, from halfway on. -/
theorem abs_sub_high_le_iff {a b q : ℚ} (hab : a < b) : |b - q| ≤ |a - q| ↔ a + b ≤ 2 * q := by
  have hpos : 0 < b - a := by linarith
  have hsquares : (a - q) ^ 2 - (b - q) ^ 2 = (b - a) * (2 * q - (a + b)) := by ring
  rw [← sq_le_sq, ← sub_nonneg, hsquares, mul_nonneg_iff_of_pos_left hpos, sub_nonneg]

/-- Of all magnitudes, none has a value nearer to `q`, and if another value is as near then the
magnitude is even. -/
structure Closest (q : ℚ) (m : ℕ) : Prop where
  /-- No value is nearer. -/
  nearest : ∀ n, |valueAt m - q| ≤ |valueAt n - q|
  /-- Of two equally near ones it is the even one. -/
  even : ∀ n, n ≠ m → |valueAt n - q| = |valueAt m - q| → m % 2 = 0

/-- Between two magnitudes, the lower one is closest up to halfway. -/
theorem closest_low {q : ℚ} {m : ℕ} (hlow : valueAt m ≤ q)
    (h : 2 * q < valueAt m + valueAt (m + 1) ∨
      2 * q = valueAt m + valueAt (m + 1) ∧ m % 2 = 0) : Closest q m := by
  have hhalf : 2 * q ≤ valueAt m + valueAt (m + 1) := h.elim le_of_lt fun h => h.1.le
  constructor
  · intro n
    -- Smaller magnitudes lie below `m`, and greater ones above the next, which is not nearer.
    rcases Nat.lt_trichotomy n m with hn | rfl | hn
    · have hvalue := valueAt_strictMono hn
      exact (abs_sub_high_le_iff hvalue).2 (by linarith)
    · exact le_rfl
    · have hvalue := valueAt_strictMono.monotone (Nat.succ_le_of_lt hn)
      exact (abs_sub_low_le_iff (valueAt_strictMono hn)).2 (by linarith)
  · intro n hne hsame
    rcases Nat.lt_or_gt_of_ne hne with hn | hn
    · have hvalue := valueAt_strictMono hn
      linarith [(abs_sub_low_le_iff hvalue).1 hsame.le]
    · -- A greater one is as near only if `q` is halfway.
      have hvalue := valueAt_strictMono.monotone (Nat.succ_le_of_lt hn)
      have hle := (abs_sub_high_le_iff (valueAt_strictMono hn)).1 hsame.le
      exact h.elim (fun h => by linarith) fun h => h.2

/-- Between two magnitudes, the upper one is closest from halfway on. -/
theorem closest_high {q : ℚ} {m : ℕ} (hhigh : q ≤ valueAt (m + 1))
    (h : valueAt m + valueAt (m + 1) < 2 * q ∨
      2 * q = valueAt m + valueAt (m + 1) ∧ m % 2 = 1) : Closest q (m + 1) := by
  have hhalf : valueAt m + valueAt (m + 1) ≤ 2 * q := h.elim le_of_lt fun h => h.1.ge
  constructor
  · intro n
    rcases Nat.lt_trichotomy n (m + 1) with hn | rfl | hn
    · have hvalue := valueAt_strictMono.monotone (Nat.le_of_lt_succ hn)
      exact (abs_sub_high_le_iff (valueAt_strictMono hn)).2 (by linarith)
    · exact le_rfl
    · have hvalue := valueAt_strictMono hn
      exact (abs_sub_low_le_iff hvalue).2 (by linarith)
  · intro n hne hsame
    rcases Nat.lt_or_gt_of_ne hne with hn | hn
    · -- A smaller one is as near only if `q` is halfway.
      have hvalue := valueAt_strictMono.monotone (Nat.le_of_lt_succ hn)
      have hle := (abs_sub_low_le_iff (valueAt_strictMono hn)).1 hsame.le
      rcases h with h | ⟨-, hodd⟩
      · linarith
      · omega
    · have hvalue := valueAt_strictMono hn
      linarith [(abs_sub_high_le_iff hvalue).1 hsame.le]

/-- The closest magnitude is beyond the finite ones exactly from where the infinity begins. -/
theorem Closest.infinite_iff {q : ℚ} {m : ℕ} (h : Closest q m) :
    infiniteMagnitude ≤ m ↔ 2 ^ 1024 - 2 ^ 970 ≤ q := by
  have hhalf := valueAt_infinite
  generalize (2 ^ 1024 - 2 ^ 970 : ℚ) = begins at hhalf ⊢
  constructor
  · intro hm
    -- The last finite magnitude lies below and is no nearer.
    have hvalue := valueAt_strictMono.monotone hm
    have hbelow : valueAt (infiniteMagnitude - 1) < valueAt m :=
      valueAt_strictMono (Nat.lt_of_lt_of_le (by decide) hm)
    linarith [(abs_sub_high_le_iff hbelow).1 (h.nearest _)]
  · intro hq
    by_contra hm
    rw [not_le] at hm
    have hvalue := valueAt_strictMono.monotone (Nat.le_sub_one_of_lt hm)
    have habove := valueAt_strictMono hm
    have hle := (abs_sub_low_le_iff habove).1 (h.nearest _)
    -- So `q` is halfway from the last finite magnitude, which is odd, to the one after it.
    have hlast : m = infiniteMagnitude - 1 :=
      valueAt_strictMono.injective (le_antisymm hvalue (by linarith))
    have hsame : |valueAt infiniteMagnitude - q| = |valueAt m - q| :=
      le_antisymm ((abs_sub_high_le_iff habove).2 (by rw [hlast]; linarith)) (h.nearest _)
    have heven := h.even _ (Nat.ne_of_gt hm) hsame
    rw [hlast] at heven
    exact absurd heven (by decide)

/-- The closest magnitude is that of the number that is rounded to, up to the infinity. -/
theorem Closest.rounds {q : ℚ} {m : ℕ} (h : Closest q m) (negative : Bool) :
    Rounds negative q (ofMagnitude negative (min m infiniteMagnitude)) := by
  rcases Nat.lt_or_ge m infiniteMagnitude with hm | hm
  · rw [Nat.min_eq_left hm.le]
    obtain ⟨hmagnitude, hsign⟩ := ofMagnitude_parts negative hm.le
    have hrange : q < 2 ^ 1024 - 2 ^ 970 := by
      rw [← not_le, ← h.infinite_iff]
      exact Nat.not_le_of_lt hm
    refine .finite hsign (by rwa [IsFinite, hmagnitude]) hrange (fun y _ => ?_)
      fun y _ hne hsame => ?_
    · rw [absValue_eq, absValue_eq, hmagnitude]
      exact h.nearest y.magnitude
    · rw [absValue_eq, absValue_eq, hmagnitude] at hne hsame
      have heven := h.even y.magnitude (fun heq => hne (congrArg valueAt heq)) hsame
      rwa [significand_eq, hmagnitude, significandAt_mod_two]
  · rw [Nat.min_eq_right hm]
    exact .infinite (h.infinite_iff.1 hm)

/-- A finite number is rounded to itself. -/
theorem rounds_absValue {x : Binary64} (hfinite : x.IsFinite) :
    Rounds x.isNegative x.absValue x := by
  refine .finite rfl hfinite ?_ (fun y _ => ?_) fun y _ hne hsame => ?_
  · have hhalf := valueAt_infinite
    generalize (2 ^ 1024 - 2 ^ 970 : ℚ) = begins at hhalf ⊢
    have hvalue := valueAt_strictMono.monotone (Nat.le_sub_one_of_lt hfinite)
    have hlast : valueAt (infiniteMagnitude - 1) < valueAt infiniteMagnitude :=
      valueAt_strictMono (by decide)
    rw [absValue_eq]
    linarith
  · rw [sub_self, abs_zero]
    exact abs_nonneg _
  · rw [sub_self, abs_zero, abs_eq_zero, sub_eq_zero] at hsame
    exact absurd hsame hne

/-! ## What is computed -/

variable {num den : ℕ}

/-- A quotient is divided by a power of two in its denominator. -/
theorem div_two_pow (num den n : ℕ) :
    (num / (den * Nat.pow 2 n : ℕ) : ℚ) = num / den / 2 ^ (n : ℤ) := by
  rw [Nat.pow_eq]
  push_cast
  rw [div_div, zpow_natCast]

/-- A quotient is multiplied by a power of two in its numerator. -/
theorem mul_two_pow (num den n : ℕ) :
    ((num * Nat.pow 2 n : ℕ) / den : ℚ) = num / den / 2 ^ (-n : ℤ) := by
  rw [Nat.pow_eq]
  push_cast
  rw [zpow_neg, zpow_natCast, div_inv_eq_mul, mul_div_right_comm]

/-- A quotient lies less than a factor of two from the quotient of the powers of two next below its
numerator and its denominator. -/
theorem log_ratio (hnum : 0 < num) (hden : 0 < den) :
    (num.log2 - den.log2 - 1 : ℤ) ≤ Int.log 2 (num / den : ℚ) ∧
      Int.log 2 (num / den : ℚ) < (num.log2 - den.log2 + 1 : ℤ) := by
  have hpos : (0 : ℚ) < num / den := by positivity
  have hdenpos : (0 : ℚ) < den := by positivity
  have hnumlow : (2 : ℚ) ^ num.log2 ≤ num := by exact_mod_cast Nat.log2_self_le hnum.ne'
  have hnumhigh : (num : ℚ) < 2 ^ (num.log2 + 1) := by exact_mod_cast Nat.lt_log2_self
  have hdenlow : (2 : ℚ) ^ den.log2 ≤ den := by exact_mod_cast Nat.log2_self_le hden.ne'
  have hdenhigh : (den : ℚ) < 2 ^ (den.log2 + 1) := by exact_mod_cast Nat.lt_log2_self
  constructor
  · refine (Int.zpow_le_iff_le_log one_lt_two hpos).1 ?_
    calc ((2 : ℕ) : ℚ) ^ (num.log2 - den.log2 - 1 : ℤ)
        = 2 ^ num.log2 / 2 ^ (den.log2 + 1) := by
          rw [← zpow_natCast, ← zpow_natCast, ← zpow_sub₀ two_ne_zero]
          push_cast
          ring_nf
      _ ≤ num / den := by gcongr
  · refine (Int.lt_zpow_iff_log_lt one_lt_two hpos).1 ?_
    calc (num / den : ℚ) < 2 ^ (num.log2 + 1) / 2 ^ den.log2 := by gcongr
      _ = ((2 : ℕ) : ℚ) ^ (num.log2 - den.log2 + 1 : ℤ) := by
          rw [← zpow_natCast, ← zpow_natCast, ← zpow_sub₀ two_ne_zero]
          push_cast
          ring_nf

/-- A power of two is compared to a quotient without dividing. -/
theorem reaches_iff (hnum : 0 < num) (hden : 0 < den) (top : ℤ) :
    (if 0 ≤ top then decide (den * Nat.pow 2 top.toNat ≤ num)
      else decide (den ≤ num * Nat.pow 2 (-top).toNat)) = true ↔
        top ≤ Int.log 2 (num / den : ℚ) := by
  have hpos : (0 : ℚ) < num / den := by positivity
  rw [← Int.zpow_le_iff_le_log one_lt_two hpos, Nat.cast_ofNat]
  split
  next htop =>
    obtain ⟨n, rfl⟩ := Int.eq_ofNat_of_zero_le htop
    have hscaled : (0 : ℚ) < (den * Nat.pow 2 n : ℕ) := by
      exact_mod_cast Nat.mul_pos hden (Nat.two_pow_pos n)
    rw [Int.toNat_natCast, decide_eq_true_iff, ← Nat.cast_le (α := ℚ), ← one_le_div hscaled,
      div_two_pow, one_le_div (by positivity)]
  next htop =>
    obtain ⟨n, hn⟩ := Int.eq_ofNat_of_zero_le (a := -top) (by omega)
    obtain rfl : top = -n := by omega
    have hscaled : (0 : ℚ) < den := by exact_mod_cast hden
    rw [neg_neg, Int.toNat_natCast, decide_eq_true_iff, ← Nat.cast_le (α := ℚ),
      ← one_le_div hscaled, mul_two_pow, one_le_div (by positivity)]

/-- The scale is 52 below the binary logarithm, but not below the least exponent. -/
theorem scaleOf_eq (hnum : 0 < num) (hden : 0 < den) :
    scaleOf num den = max (Int.log 2 (num / den : ℚ) - 52) (-1074) := by
  obtain ⟨hlow, hhigh⟩ := log_ratio hnum hden
  have hreaches := reaches_iff hnum hden (num.log2 - den.log2)
  -- Both logarithms are rounded down, so that their difference is right or one too high, which the
  -- comparison tells.
  unfold scaleOf
  dsimp only
  by_cases htop : (num.log2 - den.log2 : ℤ) ≤ Int.log 2 (num / den : ℚ)
  · rw [if_pos (hreaches.2 htop)]
    omega
  · rw [if_neg (fun h => htop (hreaches.1 h))]
    omega

/-- A quotient is rounded down if what remains is less than half of the denominator, or half of it
at an even quotient, and up otherwise. -/
theorem roundHalfEven_cases (num den : ℕ) :
    roundHalfEven num den = num / den ∧
        (2 * (num % den) < den ∨ 2 * (num % den) = den ∧ num / den % 2 = 0) ∨
      roundHalfEven num den = num / den + 1 ∧
        (den < 2 * (num % den) ∨ 2 * (num % den) = den ∧ num / den % 2 = 1) := by
  unfold roundHalfEven
  dsimp only
  split <;> omega

/-- What lies a part of a unit above a magnitude is closest to it or to the next one, as that part
is less or more than a half. -/
theorem closest_of_part {m : ℕ} {f part unit : ℚ} (hunit : 0 < unit) (hnonneg : 0 ≤ part)
    (hlt : part < 1) (hvalue : valueAt m = f * unit) (hnext : valueAt (m + 1) = (f + 1) * unit) :
    (2 * part < 1 ∨ 2 * part = 1 ∧ m % 2 = 0 → Closest ((f + part) * unit) m) ∧
      (1 < 2 * part ∨ 2 * part = 1 ∧ m % 2 = 1 → Closest ((f + part) * unit) (m + 1)) := by
  -- Where `q` is from halfway is decided by the part, as the unit is positive.
  have hhalf : valueAt m + valueAt (m + 1) - 2 * ((f + part) * unit) = (1 - 2 * part) * unit := by
    rw [hvalue, hnext]
    ring
  have htie (h : 2 * part = 1) : 2 * ((f + part) * unit) = valueAt m + valueAt (m + 1) := by
    rw [h, sub_self, zero_mul] at hhalf
    linarith
  constructor
  · intro h
    have hlow : valueAt m ≤ (f + part) * unit := by
      rw [hvalue]
      exact mul_le_mul_of_nonneg_right (by linarith) hunit.le
    refine closest_low hlow (h.imp (fun h => ?_) fun h => ⟨htie h.1, h.2⟩)
    linarith [mul_pos (sub_pos.2 h) hunit]
  · intro h
    have hhigh : (f + part) * unit ≤ valueAt (m + 1) := by
      rw [hnext]
      exact mul_le_mul_of_nonneg_right (by linarith) hunit.le
    refine closest_high hhigh (h.imp (fun h => ?_) fun h => ⟨htie h.1, h.2⟩)
    linarith [mul_pos (sub_pos.2 h) hunit]

/-- A quotient in units of the last place, rounded to an integer, makes the closest magnitude. -/
theorem closest_roundHalfEven (hden : 0 < den) {k : ℕ} (hhigh : num / den < 2 ^ 53)
    (hlow : k = 0 ∨ 2 ^ 52 ≤ num / den) :
    Closest ((num / den : ℚ) * 2 ^ (k - 1074 : ℤ)) (k * 2 ^ 52 + roundHalfEven num den) := by
  have hdenpos : (0 : ℚ) < den := by exact_mod_cast hden
  -- The quotient is its integral part and a part of a unit.
  have hsplit : (num / den : ℚ) = (num / den : ℕ) + (num % den : ℕ) / den := by
    have hnum : (num : ℚ) = den * (num / den : ℕ) + (num % den : ℕ) := by
      exact_mod_cast (Nat.div_add_mod num den).symm
    rw [div_eq_iff hdenpos.ne', add_mul, div_mul_cancel₀ _ hdenpos.ne', mul_comm]
    exact hnum
  have hlt : ((num % den : ℕ) / den : ℚ) < 1 := by
    rw [div_lt_one hdenpos]
    exact_mod_cast Nat.mod_lt num hden
  have hvalue := valueAt_eq hhigh.le hlow
  have hnext := valueAt_eq (k := k) (Nat.succ_le_of_lt hhigh) (hlow.imp_right (by omega))
  rw [Nat.add_succ, Nat.cast_succ] at hnext
  -- The part is less or more than a half as twice the remainder is less or more than the
  -- denominator.
  obtain ⟨hdown, hup⟩ := closest_of_part (by positivity) (by positivity) hlt hvalue hnext
  have hparity : (k * 2 ^ 52 + num / den) % 2 = num / den % 2 := by omega
  have htwice : 2 * ((num % den : ℕ) / den : ℚ) = (2 * (num % den) : ℕ) / den := by
    push_cast
    ring
  rw [htwice, hparity] at hdown hup
  rw [div_lt_one hdenpos, div_eq_one_iff_eq hdenpos.ne', Nat.cast_lt, Nat.cast_inj] at hdown
  rw [one_lt_div hdenpos, div_eq_one_iff_eq hdenpos.ne', Nat.cast_lt, Nat.cast_inj] at hup
  rw [hsplit]
  rcases roundHalfEven_cases num den with ⟨hround, hcase⟩ | ⟨hround, hcase⟩
  · rw [hround]
    exact hdown hcase
  · rw [hround, ← Nat.add_assoc]
    exact hup hcase

/-- A quotient that is scaled to a significand of 53 bits, or as far as the least exponent allows,
makes the closest magnitude. -/
theorem closest_scaled {q : ℚ} (hq : 0 < q) (hden : 0 < den) {scale : ℤ}
    (hscale : scale = max (Int.log 2 q - 52) (-1074)) (hratio : (num / den : ℚ) = q / 2 ^ scale) :
    Closest q ((scale + 1074).toNat * 2 ^ 52 + roundHalfEven num den) := by
  obtain ⟨k, hk⟩ := Int.eq_ofNat_of_zero_le (a := scale + 1074) (by omega)
  obtain rfl : scale = k - 1074 := by omega
  have hunit : (0 : ℚ) < 2 ^ (k - 1074 : ℤ) := by positivity
  -- Below `2 ^ 53` by the logarithm, and from `2 ^ 52` on unless the exponent is the least one.
  have hhigh : num / den < 2 ^ 53 := by
    rw [← Nat.floor_div_eq_div (K := ℚ), Nat.floor_lt (by positivity), hratio, div_lt_iff₀ hunit]
    calc q < (2 : ℕ) ^ (Int.log 2 q + 1) := Int.lt_zpow_succ_log_self one_lt_two q
      _ ≤ (2 : ℕ) ^ (53 + (k - 1074) : ℤ) := zpow_le_zpow_right₀ (by norm_num) (by omega)
      _ = (2 ^ 53 : ℕ) * 2 ^ (k - 1074 : ℤ) := by
        rw [zpow_add₀ (by norm_num)]
        norm_num
  have hlow : k = 0 ∨ 2 ^ 52 ≤ num / den := by
    rw [or_iff_not_imp_left]
    intro hne
    have hlog := Int.zpow_log_le_self (R := ℚ) one_lt_two hq
    have hexponent : Int.log 2 q = 52 + (k - 1074) := by omega
    rw [hexponent, zpow_add₀ (by norm_num)] at hlog
    rw [← Nat.floor_div_eq_div (K := ℚ), Nat.le_floor_iff (by positivity), hratio,
      le_div_iff₀ hunit]
    exact_mod_cast hlog
  have hclosest := closest_roundHalfEven hden hhigh hlow
  rw [hratio, div_mul_cancel₀ _ hunit.ne'] at hclosest
  rwa [hk, Int.toNat_natCast]

/-- The number that is computed from a quotient is the one to which the quotient is rounded. -/
theorem ofRatio_rounds (negative : Bool) (num : ℕ) (hden : 0 < den) :
    Rounds negative (num / den) (ofRatio negative num den) := by
  unfold ofRatio
  rcases Nat.eq_zero_or_pos num with rfl | hnum
  -- Zero is closest to itself.
  · have hzero : valueAt 0 = 0 := by simp [valueAt, significandAt]
    have hone : valueAt 0 < valueAt 1 := valueAt_strictMono one_pos
    have hclosest : Closest 0 0 := closest_low hzero.le (.inl (by linarith))
    rw [if_pos rfl, Nat.cast_zero, zero_div]
    exact hclosest.rounds negative
  have hq : (0 : ℚ) < num / den := by positivity
  have hscale := scaleOf_eq hnum hden
  rw [if_neg hnum.ne']
  dsimp only
  generalize scaleOf num den = scale at hscale ⊢
  -- The scale goes into the denominator or, if it is negative, into the numerator.
  split
  next hs =>
    obtain ⟨n, rfl⟩ := Int.eq_ofNat_of_zero_le hs
    exact (closest_scaled hq (Nat.mul_pos hden (Nat.two_pow_pos n)) hscale
      (div_two_pow num den n)).rounds negative
  next hs =>
    obtain ⟨n, hn⟩ := Int.eq_ofNat_of_zero_le (a := -scale) (by omega)
    obtain rfl : scale = -n := by omega
    rw [neg_neg, Int.toNat_natCast]
    exact (closest_scaled hq hden hscale (mul_two_pow num den n)).rounds negative

/-- A power that goes into the numerator or, if its exponent is negative, into the denominator is
rounded together with its factor. -/
theorem ofRatio_zpow_rounds (negative : Bool) (factor : ℕ) {base : ℕ} (hbase : 0 < base)
    (exponent : ℤ) :
    Rounds negative (factor * (base : ℚ) ^ exponent)
      (if 0 ≤ exponent then ofRatio negative (factor * Nat.pow base exponent.toNat) 1
        else ofRatio negative factor (Nat.pow base (-exponent).toNat)) := by
  split
  next h =>
    obtain ⟨n, rfl⟩ := Int.eq_ofNat_of_zero_le h
    have hrounds := ofRatio_rounds negative (factor * Nat.pow base n) one_pos
    rw [Nat.pow_eq, Nat.cast_one, div_one] at hrounds
    rw [Int.toNat_natCast, zpow_natCast]
    exact_mod_cast hrounds
  next h =>
    obtain ⟨n, hn⟩ := Int.eq_ofNat_of_zero_le (a := -exponent) (by omega)
    obtain rfl : exponent = -n := by omega
    have hrounds := ofRatio_rounds negative factor (Nat.pow_pos (n := n) hbase)
    rw [Nat.cast_pow] at hrounds
    rw [neg_neg, Int.toNat_natCast, zpow_neg, zpow_natCast, ← div_eq_mul_inv]
    exact hrounds

/-- The number that is computed from decimal digits and an exponent is the one to which their value
is rounded. -/
theorem ofDecimal_rounds (negative : Bool) (digits : ℕ) (exponent : ℤ) :
    Rounds negative (digits * 10 ^ exponent) (ofDecimal negative digits exponent) :=
  ofRatio_zpow_rounds negative digits (by decide : 0 < 10) exponent

/-- Two and a half is a binary64 number, and a tenth is not; `2 ^ 53 + 1` lies halfway between two of
them, of which the smaller one is even. -/
example : ofDecimal false 25 (-1) = ⟨0x4004000000000000⟩ ∧
    ofDecimal false 1 (-1) = ⟨0x3FB999999999999A⟩ ∧
    ofDecimal false 9007199254740993 0 = ⟨0x4340000000000000⟩ := by
  decide

/-- The product of two absolute values is rounded once. -/
theorem mul_rounds (x y : Binary64) : Rounds false (x.absValue * y.absValue) (x.mul y) := by
  have hvalue : x.absValue * y.absValue =
      (x.significand * y.significand : ℕ) * ((2 : ℕ) : ℚ) ^ (x.exponent + y.exponent) := by
    unfold absValue
    rw [Nat.cast_ofNat, zpow_add₀ two_ne_zero]
    push_cast
    ring
  rw [hvalue]
  exact ofRatio_zpow_rounds false _ two_pos _

/-! ## Uniqueness -/

/-- Of two numbers that are both nearest, and even if the other one is as near, neither has the
greater magnitude: they would both be even, and the number after the smaller one nearer. -/
theorem not_lt_of_nearest {q : ℚ} {x y : Binary64} (hfinite : y.IsFinite)
    (hx : ∀ z : Binary64, z.IsFinite → |x.absValue - q| ≤ |z.absValue - q|)
    (hy : ∀ z : Binary64, z.IsFinite → |y.absValue - q| ≤ |z.absValue - q|)
    (hevenx : x.significand % 2 = 0) (heveny : y.significand % 2 = 0) :
    ¬ x.magnitude < y.magnitude := by
  -- Even magnitudes are not neighbours, and the one after the smaller lies between them.
  intro hlt
  rw [significand_eq, significandAt_mod_two] at hevenx heveny
  have hbetween : x.magnitude + 1 < y.magnitude := by omega
  obtain ⟨hmagnitude, -⟩ := ofMagnitude_parts false (hbetween.trans hfinite).le
  have hz : (ofMagnitude false (x.magnitude + 1)).IsFinite := by
    rw [IsFinite, hmagnitude]
    exact hbetween.trans hfinite
  have hxz := hx _ hz
  have hyz := hy _ hz
  rw [absValue_eq, absValue_eq, hmagnitude] at hxz hyz
  have hlow := (abs_sub_low_le_iff (valueAt_strictMono (Nat.lt_succ_self _))).1 hxz
  have hhigh := (abs_sub_high_le_iff (valueAt_strictMono hbetween)).1 hyz
  linarith [valueAt_strictMono hlt]

/-- A rational number is rounded to one number of each sign. -/
theorem Rounds.unique {negative : Bool} {q : ℚ} {x y : Binary64} (hx : Rounds negative q x)
    (hy : Rounds negative q y) : x = y := by
  cases hx with
  | infinite hrange =>
    cases hy with
    | infinite => rfl
    | finite _ _ hrange' => exact absurd hrange (not_le.2 hrange')
  | finite hsignx hfinitex hrange hnearestx hevenx =>
    cases hy with
    | infinite hrange' => exact absurd hrange' (not_le.2 hrange)
    | finite hsigny hfinitey _ hnearesty heveny =>
      refine ext_of_magnitude (hsignx.trans hsigny.symm) ?_
      by_contra hne
      have hvalue : x.absValue ≠ y.absValue := fun h => hne (valueAt_strictMono.injective h)
      have hsame := le_antisymm (hnearestx y hfinitey) (hnearesty x hfinitex)
      have hx := hevenx y hfinitey hvalue.symm hsame.symm
      have hy := heveny x hfinitex hvalue hsame
      rcases Nat.lt_or_gt_of_ne hne with hlt | hlt
      · exact not_lt_of_nearest hfinitey hnearestx hnearesty hx hy hlt
      · exact not_lt_of_nearest hfinitex hnearesty hnearestx hy hx hlt

end Binary64

end HandTemplate
