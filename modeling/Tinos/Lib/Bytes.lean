/-
Byte memory and the little-endian numbers kept in it: `load` and `store` of
`n` bytes, the law that a load reads what was stored (`load_store`), and the
frame laws (`store_of_outside`, `load_store_disjoint`): a store touches its
own `n` bytes and no load outside them sees it.
-/
import Mathlib.Data.Nat.Bitwise

namespace Bytes

abbrev Mem := Nat → UInt8

/-- The `n` bytes from `a` on, as a number, lowest byte first. -/
def load (m : Mem) (a : Nat) : Nat → Nat
  | 0 => 0
  | n + 1 => (m a).toNat + 256 * load m (a + 1) n

/-- The memory with `v` in the `n` bytes from `a` on, lowest byte first. -/
def store (m : Mem) (a n v : Nat) : Mem := fun x =>
  if a ≤ x ∧ x < a + n then UInt8.ofNat (v / 256 ^ (x - a)) else m x

def load32 (m : Mem) (a : Nat) : UInt32 := UInt32.ofNat (load m a 4)
def load64 (m : Mem) (a : Nat) : UInt64 := UInt64.ofNat (load m a 8)
def store32 (m : Mem) (a : Nat) (v : UInt32) : Mem := store m a 4 v.toNat
def store64 (m : Mem) (a : Nat) (v : UInt64) : Mem := store m a 8 v.toNat

variable {m m' : Mem} {a b n k v x : Nat}

theorem store_of_outside (h : x < a ∨ a + n ≤ x) : store m a n v x = m x := by
  unfold store
  rw [if_neg (by omega)]

theorem store_byte (b : UInt8) : store m a 1 b.toNat a = b := by
  simp [store]

theorem load_congr : ∀ {n a}, (∀ x, a ≤ x → x < a + n → m x = m' x) → load m a n = load m' a n
  | 0, _, _ => rfl
  | n + 1, a, h => by
    have ih : load m (a + 1) n = load m' (a + 1) n :=
      load_congr fun x h1 h2 => h x (by omega) (by omega)
    simp only [load, h a (le_refl a) (by omega), ih]

/-- Bytes that are the digits of `v` load as `v`. -/
theorem load_digits : ∀ {n a v}, (∀ i, i < n → (m (a + i)).toNat = v / 256 ^ i % 256) →
    load m a n = v % 256 ^ n
  | 0, _, _, _ => by simp [load, Nat.mod_one]
  | n + 1, a, v, h => by
    have h0 := h 0 (by omega)
    have ih : load m (a + 1) n = v / 256 % 256 ^ n := load_digits fun i hi => by
      have hi' := h (i + 1) (by omega)
      rw [show a + 1 + i = a + (i + 1) by omega, hi', Nat.pow_succ', Nat.div_div_eq_div_mul]
    simp only [Nat.pow_zero, Nat.div_one, Nat.add_zero] at h0
    rw [load, h0, ih, Nat.pow_succ', Nat.mod_mul]

/-- A load reads what was stored. -/
theorem load_store : load (store m a n v) a n = v % 256 ^ n := by
  apply load_digits
  intro i hi
  simp only [store, Nat.le_add_right, Nat.add_lt_add_left hi, and_self, if_true, UInt8.toNat_ofNat',
    Nat.add_sub_cancel_left]

theorem load_store_disjoint (h : a + n ≤ b ∨ b + k ≤ a) : load (store m b k v) a n = load m a n :=
  load_congr fun _ _ _ => store_of_outside (by omega)

@[simp] theorem load64_store64 (v : UInt64) : load64 (store64 m a v) a = v := by
  apply UInt64.toNat.inj
  have hv : v.toNat < 256 ^ 8 := v.toNat_lt
  rw [load64, store64, load_store, Nat.mod_eq_of_lt hv]
  simp

@[simp] theorem load32_store32 (v : UInt32) : load32 (store32 m a v) a = v := by
  apply UInt32.toNat.inj
  have hv : v.toNat < 256 ^ 4 := v.toNat_lt
  rw [load32, store32, load_store, Nat.mod_eq_of_lt hv]
  simp

theorem load64_store64_disjoint {v : UInt64} (h : a + 8 ≤ b ∨ b + 8 ≤ a) :
    load64 (store64 m b v) a = load64 m a := by
  rw [load64, store64, load_store_disjoint h]; rfl

theorem load64_store32_disjoint {v : UInt32} (h : a + 8 ≤ b ∨ b + 4 ≤ a) :
    load64 (store32 m b v) a = load64 m a := by
  rw [load64, store32, load_store_disjoint h]; rfl

theorem load32_store64_disjoint {v : UInt64} (h : a + 4 ≤ b ∨ b + 8 ≤ a) :
    load32 (store64 m b v) a = load32 m a := by
  rw [load32, store64, load_store_disjoint h]; rfl

/-- The low half of a word is the word of half the bytes. -/
theorem load64_low (m : Mem) (a : Nat) : (load64 m a).toNat % 2 ^ 32 = (load32 m a).toNat := by
  simp only [load64, load32, UInt64.toNat_ofNat', UInt32.toNat_ofNat', load]
  omega

theorem load32_low (m : Mem) (a : Nat) : (load32 m a).toNat % 256 = (m a).toNat := by
  have hb := (m a).toNat_lt
  simp only [load32, UInt32.toNat_ofNat', load]
  omega

/-! ## Byte strings -/

/-- The `n` bytes from `a` on. -/
def bytesAt (m : Mem) (a n : Nat) : List UInt8 := (List.range n).map fun i => m (a + i)

@[simp] theorem length_bytesAt : (bytesAt m a n).length = n := by
  simp [bytesAt]

theorem getElem?_bytesAt {i : Nat} (hi : i < n) : (bytesAt m a n)[i]? = some (m (a + i)) := by
  simp [bytesAt, hi]

theorem bytesAt_congr (h : ∀ i, i < n → m (a + i) = m' (a + i)) : bytesAt m a n = bytesAt m' a n :=
  List.map_congr_left fun i hi => h i (List.mem_range.mp hi)

theorem bytesAt_eq_replicate {b : UInt8} (h : ∀ i, i < n → m (a + i) = b) : bytesAt m a n = List.replicate n b := by
  refine List.eq_replicate_iff.mpr ⟨length_bytesAt, fun c hc => ?_⟩
  obtain ⟨i, hi, rfl⟩ := List.mem_map.mp hc
  exact h i (List.mem_range.mp hi)

/-- A byte stored is an element set. -/
theorem bytesAt_store {i : Nat} (b : UInt8) :
    bytesAt (store m (a + i) 1 b.toNat) a n = (bytesAt m a n).set i b := by
  refine List.ext_getElem? ?_
  intro j
  rw [List.getElem?_set]
  by_cases hj : j < n
  · rw [getElem?_bytesAt hj]
    by_cases hij : i = j
    · rw [hij, store_byte, if_pos rfl, length_bytesAt, if_pos hj]
    · rw [store_of_outside (by omega), if_neg hij, getElem?_bytesAt hj]
  · rw [List.getElem?_eq_none (by simp; omega), List.getElem?_eq_none (by simp; omega)]
    have hij : i = j → n ≤ i := by omega
    simpa using hij

end Bytes
