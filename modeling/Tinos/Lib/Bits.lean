/-
Bit arrays kept in bytes: bit `k` of an array of `n` bytes is bit `k % 8` of
byte `k / 8`, tested, set and cleared through a one-bit mask.

Every access is checked: one whose byte index is outside the array has no
outcome. `test_eq`, `set_eq` and `clear_eq` say what each does to the bits
(`bit`, a total view) when it is inside; `ext_bit`: the bits determine the
bytes, so two updates that restore every bit restore the array.
-/
import Mathlib.Data.Nat.Bitwise
import Mathlib.Data.Finset.Card
import Mathlib.Logic.Function.Basic
import Mathlib.Tactic.IntervalCases

namespace Bits

/-- An array of `n` bytes. -/
abbrev Cells (n : Nat) := Fin n → UInt8

/-- Byte `i`, if the array has one. -/
def Cells.read {n} (c : Cells n) (i : Nat) : Option UInt8 :=
  if h : i < n then some (c ⟨i, h⟩) else none

/-- The array with byte `i` replaced, if it has one. -/
def Cells.write {n} (c : Cells n) (i : Nat) (v : UInt8) : Option (Cells n) :=
  if h : i < n then some (Function.update c ⟨i, h⟩ v) else none

/-- `1 << k`, in a byte. -/
def mask (k : Nat) : UInt8 := 1 <<< UInt8.ofNat k

/-- `a[k / 8] & (1 << (k % 8))`. -/
def Cells.test {n} (c : Cells n) (k : Nat) : Option Bool := do
  let b ← c.read (k / 8)
  return b &&& mask (k % 8) != 0

/-- `a[k / 8] |= 1 << (k % 8)`. -/
def Cells.set {n} (c : Cells n) (k : Nat) : Option (Cells n) := do
  let b ← c.read (k / 8)
  c.write (k / 8) (b ||| mask (k % 8))

/-- `a[k / 8] &= ~(1 << (k % 8))`. -/
def Cells.clear {n} (c : Cells n) (k : Nat) : Option (Cells n) := do
  let b ← c.read (k / 8)
  c.write (k / 8) (b &&& ~~~mask (k % 8))

/-- Bit `k`; no bit outside the array is set. -/
def Cells.bit {n} (c : Cells n) (k : Nat) : Bool :=
  if h : k / 8 < n then (c ⟨k / 8, h⟩).toNat.testBit (k % 8) else false

/-- The array whose bit `k` is `v`, the others as in `c`. -/
def Cells.put {n} (c : Cells n) (k : Nat) (v : Bool) : Cells n :=
  if h : k / 8 < n then
    Function.update c ⟨k / 8, h⟩
      (if v then c ⟨k / 8, h⟩ ||| mask (k % 8) else c ⟨k / 8, h⟩ &&& ~~~mask (k % 8))
  else c

variable {n : Nat} {c c' : Cells n} {k : Nat}

/-! ## One-bit masks -/

theorem mask_testBit {k j : Nat} (hk : k < 8) (hj : j < 8) :
    (mask k).toNat.testBit j = decide (j = k) := by
  interval_cases k <;> interval_cases j <;> rfl

theorem not_mask_testBit {k j : Nat} (hk : k < 8) (hj : j < 8) :
    (~~~mask k).toNat.testBit j = decide (j ≠ k) := by
  interval_cases k <;> interval_cases j <;> rfl

theorem testBit_or_mask (b : UInt8) {k j : Nat} (hk : k < 8) (hj : j < 8) :
    (b ||| mask k).toNat.testBit j = (decide (j = k) || b.toNat.testBit j) := by
  rw [UInt8.toNat_or, Nat.testBit_or, mask_testBit hk hj, Bool.or_comm]

theorem testBit_and_not_mask (b : UInt8) {k j : Nat} (hk : k < 8) (hj : j < 8) :
    (b &&& ~~~mask k).toNat.testBit j = (decide (j ≠ k) && b.toNat.testBit j) := by
  rw [UInt8.toNat_and, Nat.testBit_and, not_mask_testBit hk hj, Bool.and_comm]

/-- A byte is its eight bits. -/
theorem byte_ext {a b : UInt8} (h : ∀ j < 8, a.toNat.testBit j = b.toNat.testBit j) : a = b := by
  apply UInt8.toNat.inj
  apply Nat.eq_of_testBit_eq
  intro j
  by_cases hj : j < 8
  · exact h j hj
  · have hpow : 2 ^ 8 ≤ 2 ^ j := Nat.pow_le_pow_right (by decide) (by omega)
    rw [Nat.testBit_lt_two_pow (Nat.lt_of_lt_of_le a.toNat_lt hpow),
      Nat.testBit_lt_two_pow (Nat.lt_of_lt_of_le b.toNat_lt hpow)]

theorem and_mask_bne_zero (b : UInt8) {k : Nat} (hk : k < 8) :
    (b &&& mask k != 0) = b.toNat.testBit k := by
  cases hb : b.toNat.testBit k with
  | true =>
    simp only [bne_iff_ne, ne_eq]
    intro h0
    have hbit : (b &&& mask k).toNat.testBit k = true := by
      rw [UInt8.toNat_and, Nat.testBit_and, mask_testBit hk hk, hb]; simp
    rw [h0] at hbit
    simp at hbit
  | false =>
    simp only [bne_eq_false_iff_eq]
    apply byte_ext
    intro j hj
    rw [UInt8.toNat_and, Nat.testBit_and, mask_testBit hk hj]
    by_cases hjk : j = k
    · subst hjk; simp [hb]
    · simp [hjk]

/-! ## What each access does to the bits -/

theorem bit_of_lt (h : k / 8 < n) : c.bit k = (c ⟨k / 8, h⟩).toNat.testBit (k % 8) := by
  simp only [Cells.bit, h, ↓reduceDIte]

theorem test_eq (h : k / 8 < n) : c.test k = some (c.bit k) := by
  simp only [Cells.test, Cells.read, h, ↓reduceDIte, Option.bind_eq_bind, Option.bind_some,
    Option.pure_def, bit_of_lt h, and_mask_bne_zero _ (Nat.mod_lt k (by decide : 8 > 0))]

theorem set_eq (h : k / 8 < n) : c.set k = some (c.put k true) := by
  simp [Cells.set, Cells.read, Cells.write, Cells.put, h]

theorem clear_eq (h : k / 8 < n) : c.clear k = some (c.put k false) := by
  simp [Cells.clear, Cells.read, Cells.write, Cells.put, h]

/-- `put` changes one bit. -/
theorem put_bit (h : k / 8 < n) (v : Bool) (j : Nat) :
    (c.put k v).bit j = if j = k then v else c.bit j := by
  have h8 : ∀ i, i % 8 < 8 := fun i => Nat.mod_lt i (by decide)
  by_cases hj : j / 8 < n
  · rw [bit_of_lt hj, bit_of_lt hj]
    simp only [Cells.put, h, ↓reduceDIte]
    by_cases hjk : j / 8 = k / 8
    · have hix : (⟨j / 8, hj⟩ : Fin n) = ⟨k / 8, h⟩ := Fin.ext hjk
      have hmod : j % 8 = k % 8 ↔ j = k := by omega
      rw [hix, Function.update_self]
      cases v with
      | true =>
        simp only [if_true, testBit_or_mask _ (h8 k) (h8 j), hmod]
        by_cases hk : j = k <;> simp [hk]
      | false =>
        simp only [Bool.false_eq_true, if_false, testBit_and_not_mask _ (h8 k) (h8 j), ne_eq, hmod]
        by_cases hk : j = k <;> simp [hk]
    · have hix : (⟨j / 8, hj⟩ : Fin n) ≠ ⟨k / 8, h⟩ := fun he => hjk (Fin.ext_iff.mp he)
      have hne : j ≠ k := fun he => hjk (by rw [he])
      rw [Function.update_of_ne hix, if_neg hne]
  · have hne : j ≠ k := fun he => hj (he ▸ h)
    simp [Cells.bit, hj, hne]

@[simp] theorem put_bit_self (h : k / 8 < n) (v : Bool) : (c.put k v).bit k = v := by
  simp [put_bit h]

theorem put_bit_ne (h : k / 8 < n) (v : Bool) {j : Nat} (hj : j ≠ k) :
    (c.put k v).bit j = c.bit j := by simp [put_bit h, hj]

/-- The bits determine the array. -/
theorem ext_bit (h : ∀ k, k / 8 < n → c.bit k = c'.bit k) : c = c' := by
  funext ⟨i, hi⟩
  apply byte_ext
  intro j hj
  have hdiv : (8 * i + j) / 8 = i := by omega
  have hmod : (8 * i + j) % 8 = j := by omega
  have hlt : (8 * i + j) / 8 < n := by omega
  have hb := h (8 * i + j) hlt
  rw [bit_of_lt hlt, bit_of_lt hlt] at hb
  simpa only [hdiv, hmod] using hb

/-- Every bit of an array of `0xFF` is set. -/
theorem ones_bit (h : k / 8 < n) : Cells.bit (fun _ : Fin n => 0xFF) k = true := by
  rw [bit_of_lt h]
  have h8 : k % 8 < 8 := Nat.mod_lt k (by decide)
  generalize k % 8 = j at h8 ⊢
  interval_cases j <;> rfl

/-- No bit of an array of zeros is set. -/
theorem zeros_bit (k : Nat) : Cells.bit (fun _ : Fin n => 0) k = false := by
  simp only [Cells.bit]
  split <;> simp

end Bits
