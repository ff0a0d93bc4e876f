import SchemaAtlas.Decimal.Binary64
import Mathlib.Data.Nat.Log
import Mathlib.Tactic.Ring

/-!
# Integers in binary floating point

A number of at most 1023 bits is rounded to a multiple of a power of two that leaves 53 bits
(`Binary64.roundToBits`), and its units are that multiple in units of one (`units_ofInt`).
Rounding keeps the order of integers, though not the strict one: it is exact up to `2 ^ 53`
and beyond that integers fall together.
-/

namespace SchemaAtlas

namespace Binary64

/-! ## Rounded quotients -/

theorem roundQuotient_le_succ (num den : Nat) : roundQuotient num den ≤ num / den + 1 := by
  simp only [roundQuotient]
  split
  · exact Nat.le_refl _
  · split <;> omega

theorem le_roundQuotient (num den : Nat) : num / den ≤ roundQuotient num den := by
  simp only [roundQuotient]
  split
  · exact Nat.le_succ _
  · split <;> omega

/-- Different quotients are a step apart; with one quotient, the remainder decides. -/
theorem roundQuotient_mono {num num' : Nat} (den : Nat) (h : num ≤ num') :
    roundQuotient num den ≤ roundQuotient num' den := by
  rcases (Nat.div_le_div_right (c := den) h).lt_or_eq with hlt | heq
  · calc roundQuotient num den
      _ ≤ num / den + 1 := roundQuotient_le_succ num den
      _ ≤ num' / den := hlt
      _ ≤ roundQuotient num' den := le_roundQuotient num' den
  · have hr : num % den ≤ num' % den := by
      have hnum := Nat.div_add_mod num den
      have hnum' := Nat.div_add_mod num' den
      rw [heq] at hnum
      omega
    simp only [roundQuotient, heq]
    split_ifs <;> omega

theorem roundQuotient_mul (a : Nat) {den : Nat} (hd : 0 < den) :
    roundQuotient (a * den) den = a := by
  simp [roundQuotient, Nat.mul_div_cancel a hd, hd.ne]

theorem roundQuotient_one (a : Nat) : roundQuotient a 1 = a := by
  simpa using roundQuotient_mul a Nat.one_pos

/-! ## Rounded naturals -/

/-- The bits of a natural number after the first 53. -/
def spareBits (n : Nat) : Nat := n.log2 - 52

/-- A natural number rounded to 53 bits. -/
def roundToBits (n : Nat) : Nat := roundQuotient n (2 ^ spareBits n) * 2 ^ spareBits n

/-- The units of one. -/
def unitsOfOne : Nat := 2 ^ (-leastExponent).toNat

theorem units_of_natural (m : Nat) (e : Int) :
    units ⟨false, m, e⟩ = (m * 2 ^ (e - leastExponent).toNat : Nat) := rfl

/-- A significand of 54 bits becomes one of 53 bits with the next exponent. -/
def carry (m : Nat) (e : Int) : Binary64 :=
  if m = 2 ^ 53 then ⟨false, 2 ^ 52, e + 1⟩ else ⟨false, m, e⟩

@[simp] theorem negative_carry (m : Nat) (e : Int) : (carry m e).negative = false := by
  unfold carry
  split <;> rfl

theorem units_carry (m : Nat) {e : Int} (he : leastExponent ≤ e) :
    (carry m e).units = (m * 2 ^ (e - leastExponent).toNat : Nat) := by
  unfold carry
  split
  · rename_i hm
    have hstep : (e + 1 - leastExponent).toNat = (e - leastExponent).toNat + 1 := by omega
    rw [units_of_natural, hstep, hm]
    congr 1
    ring
  · rfl

/-- The exponent guessed from the length of a natural number is the right one. -/
theorem reaches52_guess {n : Nat} (hn : n ≠ 0) : reaches52 n 1 ((n.log2 : Int) - 52) = true := by
  have hlog := Nat.log2_self_le hn
  simp only [reaches52, Nat.pow_eq, Nat.one_mul, Nat.mul_one]
  split
  · have hbits : 52 + ((n.log2 : Int) - 52).toNat = n.log2 := by omega
    rw [decide_eq_true_eq, ← Nat.pow_add, hbits]
    exact hlog
  · have hbits : 52 = n.log2 + (-((n.log2 : Int) - 52)).toNat := by omega
    have hpow : 2 ^ 52 = 2 ^ n.log2 * 2 ^ (-((n.log2 : Int) - 52)).toNat := by
      rw [← Nat.pow_add, ← hbits]
    rw [decide_eq_true_eq, hpow]
    exact Nat.mul_le_mul_right _ hlog

/-- The units of a scaled and rounded natural number, before any carry. -/
theorem scaledQuotient_mul (n : Nat) :
    scaledQuotient n 1 ((n.log2 : Int) - 52) * 2 ^ ((n.log2 : Int) - 52 - leastExponent).toNat =
      roundToBits n * unitsOfOne := by
  simp only [scaledQuotient, roundToBits, unitsOfOne, Nat.pow_eq, Nat.one_mul]
  split
  · have hspare : ((n.log2 : Int) - 52).toNat = spareBits n := by
      unfold spareBits
      omega
    have hexp : ((n.log2 : Int) - 52 - leastExponent).toNat =
        spareBits n + (-leastExponent).toNat := by
      simp only [leastExponent, spareBits]
      omega
    rw [hspare, hexp, Nat.pow_add, Nat.mul_assoc]
  · have hspare : spareBits n = 0 := by
      unfold spareBits
      omega
    have hexp : (-((n.log2 : Int) - 52)).toNat + ((n.log2 : Int) - 52 - leastExponent).toNat =
        (-leastExponent).toNat := by
      simp only [leastExponent]
      omega
    rw [hspare, Nat.pow_zero, roundQuotient_one, roundQuotient_one, Nat.mul_assoc, ← Nat.pow_add,
      hexp, Nat.mul_one]

theorem ofNat_eq {n : Nat} (hzero : n ≠ 0) (hn : n.log2 ≤ 1022) :
    ofNat n = carry (scaledQuotient n 1 ((n.log2 : Int) - 52)) ((n.log2 : Int) - 52) := by
  have hguess : (n.log2 : Int) - (Nat.log2 1 : Nat) - 52 = n.log2 - 52 := by
    have hone : Nat.log2 1 = 0 := by decide +kernel
    rw [hone]
    simp
  have hleast : leastExponent ≤ (n.log2 : Int) - 52 := by
    simp only [leastExponent]
    omega
  simp only [ofNat, round?, hguess, reaches52_guess hzero, if_true, max_eq_left hleast, carry,
    Nat.pow_eq]
  rw [if_neg (by simp [hzero])]
  split <;> rw [if_neg (by simp only [greatestExponent]; omega), Option.getD_some]

theorem negative_ofNat {n : Nat} (hn : n.log2 ≤ 1022) : (ofNat n).negative = false := by
  by_cases hzero : n = 0
  · rw [hzero]
    rfl
  · rw [ofNat_eq hzero hn, negative_carry]

theorem units_ofNat {n : Nat} (hn : n.log2 ≤ 1022) :
    (ofNat n).units = (roundToBits n * unitsOfOne : Nat) := by
  by_cases hzero : n = 0
  · simp [hzero, ofNat, round?, zero, units, roundToBits, roundQuotient]
  · have hleast : leastExponent ≤ (n.log2 : Int) - 52 := by
      simp only [leastExponent]
      omega
    rw [ofNat_eq hzero hn, units_carry _ hleast, scaledQuotient_mul]

/-! ## Order -/

theorem pow_log2_le_roundToBits {n : Nat} (hn : n ≠ 0) : 2 ^ n.log2 ≤ roundToBits n := by
  have hspare : n.log2 - spareBits n + spareBits n = n.log2 := by
    unfold spareBits
    omega
  have hle : 2 ^ (n.log2 - spareBits n) * 2 ^ spareBits n ≤ n := by
    rw [← Nat.pow_add, hspare]
    exact Nat.log2_self_le hn
  have hround := roundQuotient_mono (2 ^ spareBits n) hle
  rw [roundQuotient_mul _ (Nat.two_pow_pos _)] at hround
  calc 2 ^ n.log2
    _ = 2 ^ (n.log2 - spareBits n) * 2 ^ spareBits n := by rw [← Nat.pow_add, hspare]
    _ ≤ roundToBits n := Nat.mul_le_mul_right _ hround

theorem roundToBits_le_pow (n : Nat) : roundToBits n ≤ 2 ^ (n.log2 + 1) := by
  have hspare : n.log2 + 1 - spareBits n + spareBits n = n.log2 + 1 := by
    unfold spareBits
    omega
  have hle : n ≤ 2 ^ (n.log2 + 1 - spareBits n) * 2 ^ spareBits n := by
    rw [← Nat.pow_add, hspare]
    exact Nat.lt_log2_self.le
  have hround := roundQuotient_mono (2 ^ spareBits n) hle
  rw [roundQuotient_mul _ (Nat.two_pow_pos _)] at hround
  calc roundToBits n
    _ ≤ 2 ^ (n.log2 + 1 - spareBits n) * 2 ^ spareBits n := Nat.mul_le_mul_right _ hround
    _ = 2 ^ (n.log2 + 1) := by rw [← Nat.pow_add, hspare]

/-- Within one power of two the quotients are compared; a power of two lies between numbers of
different lengths. -/
theorem roundToBits_mono {m n : Nat} (h : m ≤ n) : roundToBits m ≤ roundToBits n := by
  by_cases hm : m = 0
  · rw [hm]
    exact Nat.zero_le _
  · have hn : n ≠ 0 := by omega
    have hlog : m.log2 ≤ n.log2 := by
      simpa only [Nat.log2_eq_log_two] using Nat.log_mono_right h
    rcases hlog.lt_or_eq with hlt | heq
    · calc roundToBits m
        _ ≤ 2 ^ (m.log2 + 1) := roundToBits_le_pow m
        _ ≤ 2 ^ n.log2 := Nat.pow_le_pow_right Nat.two_pos hlt
        _ ≤ roundToBits n := pow_log2_le_roundToBits hn
    · unfold roundToBits spareBits
      rw [heq]
      exact Nat.mul_le_mul_right _ (roundQuotient_mono _ h)

/-- Numbers of 53 bits stay as they are. -/
theorem roundToBits_of_lt {n : Nat} (hn : n < 2 ^ 53) : roundToBits n = n := by
  have hspare : spareBits n = 0 := by
    by_cases hzero : n = 0
    · rw [hzero]
      decide +kernel
    · have hlog : n.log2 < 53 := (Nat.log2_lt hzero).mpr hn
      unfold spareBits
      omega
  simp [roundToBits, hspare, roundQuotient_one]

/-! ## Integers -/

/-- An integer rounded to 53 bits. -/
def roundInt (i : Int) : Int :=
  if i < 0 then -(roundToBits i.natAbs : Int) else roundToBits i.natAbs

theorem units_ofInt {i : Int} (hi : i.natAbs.log2 ≤ 1022) :
    (ofInt i).units = roundInt i * unitsOfOne := by
  have hnat := units_ofNat hi
  simp only [units, negative_ofNat hi, Bool.false_eq_true, if_false] at hnat
  simp only [ofInt, units, roundInt, decide_eq_true_eq, hnat]
  split
  · rw [Int.neg_mul, Int.natCast_mul]
  · rw [Int.natCast_mul]

theorem roundInt_mono {i j : Int} (h : i ≤ j) : roundInt i ≤ roundInt j := by
  unfold roundInt
  split <;> split
  · have := roundToBits_mono (show j.natAbs ≤ i.natAbs by omega)
    omega
  · omega
  · omega
  · have := roundToBits_mono (show i.natAbs ≤ j.natAbs by omega)
    omega

theorem roundInt_of_natAbs_lt {i : Int} (hi : i.natAbs < 2 ^ 53) : roundInt i = i := by
  unfold roundInt
  rw [roundToBits_of_lt hi]
  split <;> omega

theorem units_ofInt_mono {i j : Int} (hi : i.natAbs.log2 ≤ 1022) (hj : j.natAbs.log2 ≤ 1022)
    (h : i ≤ j) : (ofInt i).units ≤ (ofInt j).units := by
  rw [units_ofInt hi, units_ofInt hj]
  exact Int.mul_le_mul_of_nonneg_right (roundInt_mono h) (Int.natCast_nonneg _)

end Binary64

end SchemaAtlas
