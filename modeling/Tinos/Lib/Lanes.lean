/-
A 32-bit word as four bytes, lowest first (`lane`), and the read-modify-write
of some of them: the word with the bits under a moved mask cleared and a moved
value put in (`splice`). The value is in the lanes of the mask, and the other
lanes are as they were (`lane_splice`).

`writeOneToClear` is what a register keeps of a word written to it, where a 1
written to some of its bits clears them.
-/
import Tinos.Lib.Bits
import Tinos.Lib.Bytes

namespace Lanes

open Bytes

def lane (d : UInt32) (k : Nat) : UInt8 := UInt8.ofNat (d.toNat / 256 ^ k)

/-- `d` with the bits of `mask` cleared and those of `v` set, both moved up by
`shift`. -/
def splice (d mask v shift : UInt32) : UInt32 := (d &&& ~~~(mask <<< shift)) ||| (v <<< shift)

/-- The bits of `clears` are cleared where a 1 is written, the others take
what is written. -/
def writeOneToClear (clears old v : UInt32) : UInt32 := (v &&& ~~~clears) ||| (old &&& clears &&& ~~~v)

variable {d e mask v shift clears old : UInt32} {i j k n : Nat} {m : Mem} {a : Nat}

/-! ## Bits -/

theorem testBit_not (hi : i < 32) : (~~~d).toNat.testBit i = !d.toNat.testBit i := by
  have hnot : (~~~d).toNat = 2 ^ 32 - (d.toNat + 1) := by
    rw [← UInt32.toNat_toBitVec, UInt32.toBitVec_not, BitVec.toNat_not, UInt32.toNat_toBitVec]
    omega
  rw [hnot, Nat.testBit_two_pow_sub_succ d.toNat_lt]
  simp [hi]

theorem testBit_shiftLeft (hs : shift.toNat < 32) (hi : i < 32) :
    (d <<< shift).toNat.testBit i = (decide (shift.toNat ≤ i) && d.toNat.testBit (i - shift.toNat)) := by
  rw [UInt32.toNat_shiftLeft, Nat.mod_eq_of_lt hs, Nat.testBit_mod_two_pow, Nat.testBit_shiftLeft]
  simp [hi]

/-- The bits under the mask are those of `v`, the others those of `d`. -/
theorem testBit_splice (hs : shift.toNat < 32) (hmask : mask.toNat = 2 ^ n - 1) (hv : v.toNat < 2 ^ n) (hi : i < 32) :
    (splice d mask v shift).toNat.testBit i =
      if shift.toNat ≤ i ∧ i < shift.toNat + n then v.toNat.testBit (i - shift.toNat) else d.toNat.testBit i := by
  rw [splice, UInt32.toNat_or, Nat.testBit_or, UInt32.toNat_and, Nat.testBit_and, testBit_not hi,
    testBit_shiftLeft hs hi, testBit_shiftLeft hs hi, hmask, Nat.testBit_two_pow_sub_one]
  by_cases hle : shift.toNat ≤ i
  · by_cases hlt : i - shift.toNat < n
    · rw [if_pos ⟨hle, by omega⟩]
      simp [hle, hlt]
    · have hzero : v.toNat.testBit (i - shift.toNat) = false :=
        Nat.testBit_lt_two_pow (Nat.lt_of_lt_of_le hv (Nat.pow_le_pow_right (by decide) (by omega)))
      rw [if_neg (by omega)]
      simp [hlt, hzero]
  · rw [if_neg (by omega)]
    simp [hle]

theorem testBit_writeOneToClear (hi : i < 32) : (writeOneToClear clears old v).toNat.testBit i =
    if clears.toNat.testBit i then old.toNat.testBit i && !v.toNat.testBit i else v.toNat.testBit i := by
  rw [writeOneToClear, UInt32.toNat_or, Nat.testBit_or, UInt32.toNat_and, Nat.testBit_and, testBit_not hi,
    UInt32.toNat_and, Nat.testBit_and, UInt32.toNat_and, Nat.testBit_and, testBit_not hi]
  cases clears.toNat.testBit i <;> simp

/-! ## Bytes -/

theorem testBit_lane : (lane d k).toNat.testBit j = (decide (j < 8) && d.toNat.testBit (8 * k + j)) := by
  have hpow : 256 ^ k = 2 ^ (8 * k) := by rw [Nat.pow_mul]
  rw [lane, UInt8.toNat_ofNat', hpow, Nat.testBit_mod_two_pow, Nat.testBit_div_two_pow, Nat.add_comm j]

theorem lane_eq_iff : lane d k = lane e k ↔ ∀ j < 8, d.toNat.testBit (8 * k + j) = e.toNat.testBit (8 * k + j) := by
  constructor
  · intro h j hj
    have hbit := congrArg (fun x : UInt8 => x.toNat.testBit j) h
    simpa only [testBit_lane, hj, decide_true, Bool.true_and] using hbit
  · intro h
    apply Bits.byte_ext
    intro j hj
    rw [testBit_lane, testBit_lane, h j hj]

/-- `n` lanes from the `k`th on are replaced, the others are not. -/
theorem lane_splice (hs : shift.toNat = 8 * k) (hmask : mask.toNat = 2 ^ (8 * n) - 1) (hv : v.toNat < 2 ^ (8 * n))
    (hk : k < 4) (hj : j < 4) :
    lane (splice d mask v shift) j = if k ≤ j ∧ j < k + n then lane v (j - k) else lane d j := by
  apply Bits.byte_ext
  intro i hi
  rw [testBit_lane, testBit_splice (by omega) hmask hv (by omega), hs]
  by_cases hin : k ≤ j ∧ j < k + n
  · rw [if_pos (by omega), if_pos hin, testBit_lane, show 8 * j + i - 8 * k = 8 * (j - k) + i by omega]
  · rw [if_neg (by omega), if_neg hin, testBit_lane]

/-- A lane written back as it is loses the ones of its clearing bits. -/
theorem lane_writeOneToClear_self (hj : j < 4) (hsame : lane v j = lane old j) :
    lane (writeOneToClear clears old v) j = lane old j ↔ lane (old &&& clears) j = 0 := by
  rw [lane_eq_iff] at hsame
  have hzero : lane (old &&& clears) j = 0 ↔ ∀ i < 8, (old.toNat.testBit (8 * j + i) &&
      clears.toNat.testBit (8 * j + i)) = false := by
    have hlane : (0 : UInt8) = lane 0 j := by simp [lane]
    rw [hlane, lane_eq_iff]
    simp only [UInt32.toNat_and, Nat.testBit_and, UInt32.toNat_zero, Nat.zero_testBit]
  rw [hzero, lane_eq_iff]
  refine forall₂_congr ?_
  intro i hi
  rw [testBit_writeOneToClear (by omega), hsame i hi]
  cases clears.toNat.testBit (8 * j + i) <;> cases old.toNat.testBit (8 * j + i) <;> simp

end Lanes
