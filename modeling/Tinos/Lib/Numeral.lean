/-
Numerals in ASCII: what a string of digits stands for, and which strings are
canonical, that is, without leading zeros. The digits above 9 are upper-case
letters.
-/
import Mathlib.Data.Nat.Digits.Lemmas

namespace Numeral

def minus : UInt8 := 45

def digitChar (d : Nat) : UInt8 := UInt8.ofNat (if d < 10 then 48 + d else 55 + d)

def digitValue (c : UInt8) : Option Nat :=
  if 48 ≤ c.toNat ∧ c.toNat ≤ 57 then some (c.toNat - 48)
  else if 65 ≤ c.toNat ∧ c.toNat ≤ 70 then some (c.toNat - 55)
  else none

/-- One more digit, the least significant. -/
def readDigit (base value : Nat) (c : UInt8) : Option Nat := do
  let d ← digitValue c
  if d < base then some (base * value + d) else none

/-- The number that digits stand for, the most significant first. -/
def parse (base : Nat) (cs : List UInt8) : Option Nat := cs.foldlM (readDigit base) 0

def parseInt : List UInt8 → Option Int
  | [] => none
  | c :: cs => if c = minus then (parse 10 cs).map fun n : Nat => -(n : Int) else (parse 10 (c :: cs)).map Int.ofNat

/-- No leading zero, except in "0". -/
def Canonical (cs : List UInt8) : Prop :=
  cs ≠ [] ∧ (cs.head? = some (digitChar 0) → cs = [digitChar 0])

/-- An optional minus, but no "-0". -/
def CanonicalInt (cs : List UInt8) : Prop :=
  Canonical cs ∨ ∃ ds, cs = minus :: ds ∧ Canonical ds ∧ ds ≠ [digitChar 0]

variable {base n d : Nat} {ds : List Nat} {cs : List UInt8}

theorem digitChar_toNat (hd : d < 16) : (digitChar d).toNat = if d < 10 then 48 + d else 55 + d := by
  refine UInt8.toNat_ofNat_of_lt (show _ < 256 from ?_)
  split
  · omega
  · omega

theorem digitValue_digitChar (hd : d < 16) : digitValue (digitChar d) = some d := by
  rw [digitValue, digitChar_toNat hd]
  split
  · rw [if_pos (by omega), Nat.add_sub_cancel_left]
  · rw [if_neg (by omega), if_pos (by omega), Nat.add_sub_cancel_left]

theorem digitChar_ne_minus (hd : d < 16) : digitChar d ≠ minus := by
  intro h
  have hnat := congrArg UInt8.toNat h
  rw [digitChar_toNat hd, show minus.toNat = 45 from rfl] at hnat
  split at hnat
  · omega
  · omega

theorem digitChar_eq_zero (hd : d < 16) (h : digitChar d = digitChar 0) : d = 0 := by
  have hvalue := congrArg digitValue h
  rw [digitValue_digitChar hd, digitValue_digitChar (by decide)] at hvalue
  exact Option.some.inj hvalue

/-- Digits stand for what `Nat.ofDigits` says, read from the other end. -/
theorem parse_digits (hbase : base ≤ 16) (hds : ∀ d ∈ ds, d < base) :
    parse base (ds.reverse.map digitChar) = some (Nat.ofDigits base ds) := by
  induction ds with
  | nil => rfl
  | cons d ds ih =>
    have hd := hds d List.mem_cons_self
    have hrest := ih fun e he => hds e (List.mem_cons_of_mem d he)
    rw [parse] at hrest
    rw [parse, List.reverse_cons, List.map_append, List.foldlM_append, hrest, Nat.ofDigits_cons]
    have hlast : readDigit base (Nat.ofDigits base ds) (digitChar d) = some (d + base * Nat.ofDigits base ds) := by
      rw [readDigit, digitValue_digitChar (by omega), Option.bind_eq_bind, Option.bind_some, if_pos hd, Nat.add_comm]
    rw [Option.bind_eq_bind, Option.bind_some, List.map_singleton, List.foldlM_cons, hlast]
    rfl

theorem canonical_digits (hbase : 1 < base) (hbase' : base ≤ 16) (hn : n ≠ 0) :
    Canonical ((Nat.digits base n).reverse.map digitChar) := by
  have hne : Nat.digits base n ≠ [] := Nat.digits_ne_nil_iff_ne_zero.mpr hn
  have hlast := Nat.getLast_digit_ne_zero base hn
  have hlt := Nat.digits_lt_base hbase (List.getLast_mem hne)
  refine ⟨by simpa using hne, fun h => absurd ?_ hlast⟩
  rw [List.head?_map, List.head?_reverse, List.getLast?_eq_some_getLast hne, Option.map_some] at h
  exact digitChar_eq_zero (by omega) (Option.some.inj h)

theorem ofDigits_append_digit (d : Nat) : Nat.ofDigits base (ds ++ [d]) = Nat.ofDigits base ds + base ^ ds.length * d := by
  rw [Nat.ofDigits_append, Nat.ofDigits_singleton]

/-- The `m` lowest digits of `n`, leading zeros and all. -/
theorem ofDigits_low (m : Nat) :
    Nat.ofDigits base ((List.range m).map fun i => n / base ^ i % base) = n % base ^ m := by
  induction m with
  | zero => rw [pow_zero, Nat.mod_one]; rfl
  | succ m ih =>
    rw [List.range_succ, List.map_append, List.map_singleton, ofDigits_append_digit, ih, List.length_map,
      List.length_range, Nat.mod_pow_succ]

theorem readDigits_nul {m : Nat} : ∀ {cs : List UInt8} {n : Nat}, cs.foldlM (readDigit base) n = some m → 0 ∉ cs
  | [], _, _ => List.not_mem_nil
  | c :: cs, n, h => by
    rw [List.foldlM_cons, Option.bind_eq_bind, Option.bind_eq_some_iff] at h
    obtain ⟨v, hc, hcs⟩ := h
    rw [List.mem_cons, not_or]
    refine ⟨fun h0 => ?_, readDigits_nul hcs⟩
    subst h0
    cases hc

/-- A NUL is not a digit. -/
theorem nul_notMem_of_parse (h : parse base cs = some n) : 0 ∉ cs :=
  readDigits_nul h

theorem nul_notMem_of_parseInt {n : Int} (h : parseInt cs = some n) : 0 ∉ cs := by
  cases cs with
  | nil => cases h
  | cons c cs =>
    rw [parseInt] at h
    split at h
    · next hc =>
      obtain ⟨m, hm, -⟩ := Option.map_eq_some_iff.mp h
      rw [List.mem_cons, not_or]
      exact ⟨fun h0 => absurd (h0.trans hc) (by decide), nul_notMem_of_parse hm⟩
    · obtain ⟨m, hm, -⟩ := Option.map_eq_some_iff.mp h
      exact nul_notMem_of_parse hm

/-- A string that begins with a digit has no sign. -/
theorem parseInt_of_ne_minus (hne : cs ≠ []) (hminus : cs.head? ≠ some minus) :
    parseInt cs = (parse 10 cs).map Int.ofNat := by
  cases cs with
  | nil => exact absurd rfl hne
  | cons c cs => exact if_neg fun hc => hminus (congrArg some hc)

end Numeral
