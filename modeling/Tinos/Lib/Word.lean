/-
Unsigned 64-bit words as numbers: what masking with a low-bit mask or its
complement computes (`toNat_and_low`, `toNat_and_not_low`), and sums that
do not wrap. And as fields: a word put together by `|||` from a part under a
mask and a part off it gives each part back (`or_and_high`, `or_and_low`).
-/
import Mathlib.Data.Nat.Bitwise

namespace Word

/-- `a & (2^k - 1)` is the remainder. -/
theorem toNat_and_low {a m : UInt64} {k : Nat} (hm : m.toNat = 2 ^ k - 1) :
    (a &&& m).toNat = a.toNat % 2 ^ k := by
  rw [UInt64.toNat_and, hm, Nat.and_two_pow_sub_one_eq_mod]

/-- `a & ~(2^k - 1)` rounds down to a multiple of `2^k`. -/
theorem toNat_and_not_low {a m : UInt64} {k : Nat} (hm : m.toNat = 2 ^ k - 1) :
    (a &&& ~~~m).toNat = 2 ^ k * (a.toNat / 2 ^ k) := by
  have hnot : (~~~m).toNat = 2 ^ 64 - (m.toNat + 1) := by
    rw [← UInt64.toNat_toBitVec, UInt64.toBitVec_not, BitVec.toNat_not, UInt64.toNat_toBitVec]
    omega
  rw [UInt64.toNat_and, hnot, hm]
  apply Nat.eq_of_testBit_eq
  intro i
  have hk : 2 ^ k - 1 < 2 ^ 64 := hm ▸ m.toNat_lt
  rw [Nat.testBit_and, Nat.testBit_two_pow_sub_succ hk, Nat.testBit_two_pow_sub_one,
    Nat.testBit_two_pow_mul, Nat.testBit_div_two_pow]
  by_cases hik : k ≤ i
  · by_cases hi : i < 64
    · simp [hik, hi, Nat.not_lt.mpr hik]
    · have hpow : 2 ^ 64 ≤ 2 ^ i := Nat.pow_le_pow_right (by decide) (by omega)
      have ha : a.toNat.testBit i = false :=
        Nat.testBit_lt_two_pow (Nat.lt_of_lt_of_le a.toNat_lt hpow)
      simp [hik, ha]
  · simp [hik, Nat.lt_of_not_le hik]

/-- A sum below `2^64` does not wrap. -/
theorem toNat_add_of_lt {a b : UInt64} (h : a.toNat + b.toNat < 2 ^ 64) :
    (a + b).toNat = a.toNat + b.toNat := by
  rw [UInt64.toNat_add, Nat.mod_eq_of_lt h]

theorem toNat_mul_of_lt {a b : UInt64} (h : a.toNat * b.toNat < 2 ^ 64) :
    (a * b).toNat = a.toNat * b.toNat := by
  rw [UInt64.toNat_mul, Nat.mod_eq_of_lt h]

theorem toNat_ofNat_of_lt {x : Nat} (h : x < 2 ^ 64) : (UInt64.ofNat x).toNat = x := by
  rw [UInt64.toNat_ofNat', Nat.mod_eq_of_lt h]

/-! ## Fields -/

variable {x c hi z : UInt64}

theorem or_and_distrib (x y z : UInt64) : (x ||| y) &&& z = (x &&& z) ||| (y &&& z) := by
  apply UInt64.toBitVec_inj.mp
  simp only [UInt64.toBitVec_and, UInt64.toBitVec_or]
  exact BitVec.and_or_distrib_right

theorem or_and_self (x z : UInt64) : (x ||| z) &&& z = z := by
  apply UInt64.toBitVec_inj.mp
  simp only [UInt64.toBitVec_and, UInt64.toBitVec_or]
  refine BitVec.eq_of_getElem_eq ?_
  intro i hi
  simp only [BitVec.getElem_and, BitVec.getElem_or]
  cases x.toBitVec[i] <;> cases z.toBitVec[i] <;> rfl

/-- A word is its parts off and under a mask. -/
theorem or_split (x m : UInt64) : (x &&& ~~~m) ||| (x &&& m) = x := by
  rw [UInt64.and_comm x, UInt64.and_comm x, ← or_and_distrib, UInt64.or_comm, UInt64.or_not_self, UInt64.neg_one_and]

/-- What lies under a mask has nothing off it. -/
theorem and_off (h : x &&& hi = x) (hz : hi &&& z = 0) : x &&& z = 0 := by
  rw [← h, UInt64.and_assoc, hz, UInt64.and_zero]

theorem or_and_high (h : x &&& hi = x) (hc : c &&& hi = 0) : (x ||| c) &&& hi = x := by
  rw [or_and_distrib, h, hc, UInt64.or_zero]

theorem or_and_low (h : x &&& hi = x) (hz : hi &&& z = 0) : (x ||| c) &&& z = c &&& z := by
  rw [or_and_distrib, and_off h hz, UInt64.zero_or]

/-- A word with nothing off a mask lies under it. -/
theorem and_of_and_not (h : x &&& ~~~hi = 0) : x &&& hi = x := by
  have hx : x &&& (hi ||| ~~~hi) = x := by
    rw [UInt64.or_not_self, UInt64.and_neg_one]
  rw [UInt64.and_comm, or_and_distrib, UInt64.and_comm hi, UInt64.and_comm (~~~hi), h, UInt64.or_zero] at hx
  exact hx

/-- Parts off and under a low-bit mask add up. -/
theorem toNat_or_of_disjoint {x y m : UInt64} {k : Nat} (hm : m.toNat = 2 ^ k - 1) (hx : x &&& m = 0)
    (hy : y &&& m = y) : (x ||| y).toNat = x.toNat + y.toNat := by
  have hy' : y.toNat < 2 ^ k := by
    rw [← hy, toNat_and_low hm]
    exact Nat.mod_lt _ (Nat.two_pow_pos k)
  have hx' : x.toNat % 2 ^ k = 0 := by
    rw [← toNat_and_low hm, hx]
    rfl
  rw [UInt64.toNat_or, ← Nat.div_add_mod x.toNat (2 ^ k), hx', Nat.add_zero, Nat.two_pow_add_eq_or_of_lt hy']

end Word
