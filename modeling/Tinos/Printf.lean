/-
`printf` of `lib/std/stdio.c`: a loop over the format with an `int` index, a
conversion for each `%`, and digits collected in buffers of 16 and 21 bytes.

`printf_numbers_iff`: `%d` writes the number, but for the least `int`, whose
negation overflows. `printf_contained_iff`: the loop stops at the terminator,
and no NUL is written, but for a format that ends in an odd number of `%`: the
index then steps over the terminator.
-/
import Tinos.Lib.Numeral
import Tinos.Screen

namespace Tinos

open Numeral

def percent : UInt8 := '%'.toUInt8

/-- The bytes before the terminator. -/
structure CString where
  bytes : List UInt8
  nonzero : 0 ∉ bytes

inductive PrintfArg
  | str (s : CString)
  | int (n : Int32)
  | uint64 (n : UInt64)

/-- What was passed to `putchar`, and whether the loop ended at the
terminator. It does not where `printf` reads past it, takes an argument that is
not there, or overflows its index. -/
structure Printed where
  chars : List UInt8
  ended : Bool
deriving DecidableEq

def Printed.stuck : Printed := ⟨[], false⟩

/-- The loop ended at the terminator, and no NUL was passed to `putchar`. -/
def Printed.Contained (r : Printed) : Prop := r.ended = true ∧ 0 ∉ r.chars

def Printed.after (cs : List UInt8) (r : Printed) : Printed := ⟨cs ++ r.chars, r.ended⟩

/-! ## Conversions -/

/-- `buf[j++] = '0' + (num % 10)` while `num > 0`, in a buffer with `room` bytes left. -/
def collectDigits : Nat → Nat → Option (List UInt8)
  | room, num =>
    if num = 0 then some []
    else
      match room with
      | 0 => none
      | room + 1 => do
        let buf ← collectDigits room (num / 10)
        return UInt8.ofNat (48 + num % 10) :: buf

/-- `%d`. The negation of the least `int` is itself, and a negative number has
no digits. -/
def printInt (num : Int32) : Option (List UInt8) :=
  if num == 0 then some ['0'.toUInt8]
  else do
    let (sign, num) := if num < 0 then (['-'.toUInt8], -num) else ([], num)
    let buf ← collectDigits 16 num.toInt.toNat
    return sign ++ buf.reverse

def printUint (num : UInt64) : Option (List UInt8) :=
  if num == 0 then some ['0'.toUInt8]
  else do
    let buf ← collectDigits 21 num.toNat
    return buf.reverse

/-- "0123456789ABCDEF" -/
def hex : List UInt8 := [48, 49, 50, 51, 52, 53, 54, 55, 56, 57, 65, 66, 67, 68, 69, 70]

def printHex (value : UInt64) : List UInt8 :=
  ['0'.toUInt8, 'x'.toUInt8] ++
    (List.range 16).reverse.map fun j => hex.getD ((value >>> (UInt64.ofNat j * 4)) &&& 0xF).toNat 0

/-- The character after a `%`, and the arguments left. -/
def convert (c : UInt8) (args : List PrintfArg) : Option (List UInt8 × List PrintfArg) :=
  if c == percent then some ([percent], args)
  else if c == 's'.toUInt8 then
    match args with
    | .str s :: args => some (s.bytes, args)
    | _ => none
  else if c == 'd'.toUInt8 then
    match args with
    | .int n :: args => (printInt n).map fun cs => (cs, args)
    | _ => none
  else if c == 'u'.toUInt8 then
    match args with
    | .uint64 n :: args => (printUint n).map fun cs => (cs, args)
    | _ => none
  else if c == 'x'.toUInt8 then
    match args with
    | .uint64 n :: args => some (printHex n, args)
    | _ => none
  else some ([percent, c], args)

/-! ## The loop -/

/-- The loop from index `i`, where `rest` is what is left of the format. -/
def printfFrom : Nat → List UInt8 → List PrintfArg → Printed
  | _, [], _ => ⟨[], true⟩
  | i, c :: rest, args =>
    if c != percent then
      (if i + 1 < 2 ^ 31 then printfFrom (i + 1) rest args else .stuck).after [c]
    else if i + 1 < 2 ^ 31 then
      match rest with
      -- `fmt[i]` is the terminator, and the next pass reads past it
      | [] => ⟨[percent, 0], false⟩
      | c :: rest =>
        match convert c args with
        | none => .stuck
        | some (cs, args) => (if i + 2 < 2 ^ 31 then printfFrom (i + 2) rest args else .stuck).after cs
    else .stuck

def printf (fmt : CString) (args : List PrintfArg) : Printed :=
  printfFrom 0 fmt.bytes args

example : printf ⟨[37, 100, 44, 37, 117], by decide⟩ [.int (-120), .uint64 7] = ⟨[45, 49, 50, 48, 44, 55], true⟩ := by
  decide

/-! ## Numbers -/

section Numbers

variable {room num : Nat} {d : Nat}

theorem collectDigits_eq (h : num < 10 ^ room) : collectDigits room num = some ((Nat.digits 10 num).map digitChar) := by
  induction room generalizing num with
  | zero =>
    obtain rfl : num = 0 := by omega
    rfl
  | succ room ih =>
    rw [collectDigits]
    split
    · next h0 => rw [h0]; rfl
    · next h0 =>
      have hlow : UInt8.ofNat (48 + num % 10) = digitChar (num % 10) := by
        rw [digitChar, if_pos (Nat.mod_lt num (by decide))]
      rw [ih (Nat.div_lt_of_lt_mul (by rw [Nat.pow_succ] at h; omega)),
        Nat.digits_def' (by decide) (Nat.pos_of_ne_zero h0), hlow]
      rfl

theorem digits_parse (num : Nat) : parse 10 ((Nat.digits 10 num).reverse.map digitChar) = some num := by
  rw [parse_digits (by decide) fun d hd => Nat.digits_lt_base (by decide) hd, Nat.ofDigits_digits]

/-- A sign and the digits of a number that fits, the most significant first. -/
theorem collectDigits_sign (sign : List UInt8) (h : num < 10 ^ room) :
    (collectDigits room num).bind (fun buf => some (sign ++ buf.reverse)) =
      some (sign ++ (Nat.digits 10 num).reverse.map digitChar) := by
  rw [collectDigits_eq h, Option.bind_some, List.map_reverse]

theorem printUint_spec (n : UInt64) : ∃ cs, printUint n = some cs ∧ Canonical cs ∧ parse 10 cs = some n.toNat := by
  by_cases h0 : n = 0
  · subst h0
    exact ⟨[48], rfl, ⟨by decide, fun _ => rfl⟩, rfl⟩
  · have hne : n.toNat ≠ 0 := fun h => h0 (UInt64.toNat_inj.mp h)
    have hfit : n.toNat < 10 ^ 21 := Nat.lt_trans n.toNat_lt (by decide)
    refine ⟨_, ?_, canonical_digits (by decide) (by decide) hne, digits_parse _⟩
    rw [printUint, beq_eq_false_iff_ne.mpr h0, if_neg Bool.false_ne_true]
    exact collectDigits_sign [] hfit

theorem digits_head (num : Nat) : ((Nat.digits 10 num).reverse.map digitChar).head? ≠ some minus := by
  intro h
  have hmem := List.mem_of_mem_head? h
  obtain ⟨d, hd, hminus⟩ := List.mem_map.mp hmem
  have hlt := Nat.digits_lt_base (by decide : 1 < 10) (List.mem_reverse.mp hd)
  exact digitChar_ne_minus (by omega) hminus

/-- The negation of an `int` other than the least. -/
theorem toInt_neg_of_ne {n : Int32} (hn : n ≠ Int32.minValue) : (-n).toInt = -n.toInt := by
  have hlo := n.le_toInt
  have hhi := n.toInt_lt
  have hne : n.toInt ≠ -2 ^ 31 := fun h => hn (Int32.toInt_inj.mp h)
  rw [Int32.toInt_neg, Int.bmod_def]
  split
  · omega
  · omega

theorem printInt_spec {n : Int32} (hn : n ≠ Int32.minValue) :
    ∃ cs, printInt n = some cs ∧ CanonicalInt cs ∧ parseInt cs = some n.toInt := by
  have hlo := n.le_toInt
  have hhi := n.toInt_lt
  by_cases h0 : n = 0
  · subst h0
    exact ⟨[48], rfl, .inl ⟨by decide, fun _ => rfl⟩, rfl⟩
  · have hne : n.toInt ≠ 0 := fun h => h0 (Int32.toInt_inj.mp h)
    by_cases hneg : n < 0
    · have hneg' : n.toInt < 0 := Int32.lt_iff_toInt_lt.mp hneg
      have habs : (-n).toInt.toNat = n.toInt.natAbs := by
        rw [toInt_neg_of_ne hn]
        omega
      have hcanonical : Canonical ((Nat.digits 10 n.toInt.natAbs).reverse.map digitChar) :=
        canonical_digits (by decide) (by decide) (by omega)
      refine ⟨minus :: (Nat.digits 10 n.toInt.natAbs).reverse.map digitChar, ?_,
        .inr ⟨_, rfl, hcanonical, fun hz => ?_⟩, ?_⟩
      · rw [printInt, beq_eq_false_iff_ne.mpr h0, if_neg Bool.false_ne_true, if_pos hneg]
        show (collectDigits 16 (-n).toInt.toNat).bind _ = _
        rw [habs]
        exact collectDigits_sign [minus] (by omega)
      · have hvalue := digits_parse n.toInt.natAbs
        rw [hz] at hvalue
        have hzero : 0 = n.toInt.natAbs := Option.some.inj hvalue
        omega
      · rw [parseInt, if_pos rfl, digits_parse, Option.map_some]
        exact congrArg some (by omega)
    · have hnonneg : ¬ n.toInt < 0 := fun h => hneg (Int32.lt_iff_toInt_lt.mpr h)
      have hcanonical : Canonical ((Nat.digits 10 n.toInt.toNat).reverse.map digitChar) :=
        canonical_digits (by decide) (by decide) (by omega)
      refine ⟨_, ?_, .inl hcanonical, ?_⟩
      · rw [printInt, beq_eq_false_iff_ne.mpr h0, if_neg Bool.false_ne_true, if_neg hneg]
        exact collectDigits_sign [] (by omega)
      · rw [parseInt_of_ne_minus hcanonical.1 (digits_head _), digits_parse, Option.map_some]
        exact congrArg some (Int.toNat_of_nonneg (by omega))

theorem hex_eq (hd : d < 16) : hex.getD d 0 = digitChar d := by
  have hall : ∀ e ∈ List.range 16, hex.getD e 0 = digitChar e := by decide
  exact hall d (List.mem_range.mpr hd)

theorem digitChar_mem_hex (hd : d < 16) : digitChar d ∈ hex := by
  have hall : ∀ e ∈ List.range 16, digitChar e ∈ hex := by decide
  exact hall d (List.mem_range.mpr hd)

/-- The hexadecimal digits of a number, the least significant first. -/
def hexDigits (n : Nat) : List Nat := (List.range 16).map fun i => n / 16 ^ i % 16

theorem printHex_eq (n : UInt64) :
    printHex n = ['0'.toUInt8, 'x'.toUInt8] ++ (hexDigits n.toNat).reverse.map digitChar := by
  rw [printHex, hexDigits, ← List.map_reverse, List.map_map]
  refine congrArg (_ ++ ·) (List.map_congr_left fun j hj => ?_)
  have hj' : j < 16 := List.mem_range.mp (List.mem_reverse.mp hj)
  have hshift : (UInt64.ofNat j * 4).toNat = 4 * j := by
    rw [UInt64.toNat_mul, UInt64.toNat_ofNat_of_lt' (show j < 2 ^ 64 by omega), show (4 : UInt64).toNat = 4 from rfl]
    omega
  have hdigit : ((n >>> (UInt64.ofNat j * 4)) &&& 0xF).toNat = n.toNat / 16 ^ j % 16 := by
    rw [UInt64.toNat_and, UInt64.toNat_shiftRight, hshift, Nat.mod_eq_of_lt (by omega),
      show (0xF : UInt64).toNat = 2 ^ 4 - 1 from rfl, Nat.and_two_pow_sub_one_eq_mod, Nat.shiftRight_eq_div_pow,
      Nat.pow_mul]
  rw [hdigit, hex_eq (Nat.mod_lt _ (by decide))]
  rfl

theorem printHex_spec (n : UInt64) : ∃ ds, printHex n = ['0'.toUInt8, 'x'.toUInt8] ++ ds ∧ ds.length = 16 ∧
    (∀ c ∈ ds, c ∈ hex) ∧ parse 16 ds = some n.toNat := by
  have hlt : ∀ d ∈ hexDigits n.toNat, d < 16 := by
    intro d hd
    obtain ⟨i, -, rfl⟩ := List.mem_map.mp hd
    exact Nat.mod_lt _ (by decide)
  refine ⟨_, printHex_eq n, ?_, ?_, ?_⟩
  · rw [List.length_map, List.length_reverse, hexDigits, List.length_map, List.length_range]
  · intro c hc
    obtain ⟨d, hd, rfl⟩ := List.mem_map.mp hc
    exact digitChar_mem_hex (hlt d (List.mem_reverse.mp hd))
  · rw [parse_digits (Nat.le_refl 16) hlt, hexDigits, ofDigits_low]
    exact congrArg some (Nat.mod_eq_of_lt n.toNat_lt)

/-- What a conversion writes for an argument, wherever it stands in a format. -/
def Writes (c : UInt8) (arg : PrintfArg) (cs : List UInt8) : Prop :=
  ∀ i rest args, i + 2 < 2 ^ 31 →
    printfFrom i (percent :: c :: rest) (arg :: args) = (printfFrom (i + 2) rest args).after cs

/-- A pass over a conversion. -/
theorem printfFrom_conversion {i : Nat} {c : UInt8} {rest cs : List UInt8} {args args' : List PrintfArg}
    (h : convert c args = some (cs, args')) (hi : i + 1 < 2 ^ 31) :
    printfFrom i (percent :: c :: rest) args =
      (if i + 2 < 2 ^ 31 then printfFrom (i + 2) rest args' else .stuck).after cs := by
  rw [printfFrom, if_neg (by decide), if_pos hi, h]

theorem writes_of_convert {c : UInt8} {arg : PrintfArg} {cs : List UInt8}
    (h : ∀ args, convert c (arg :: args) = some (cs, args)) : Writes c arg cs := by
  intro i rest args hi
  rw [printfFrom_conversion (h args) (by omega), if_pos hi]

/-- What a conversion writes, it writes once. -/
theorem Writes.unique {c : UInt8} {arg : PrintfArg} {cs cs' : List UInt8} (h : Writes c arg cs)
    (h' : Writes c arg cs') : cs = cs' := by
  have heq := (h 0 [] [] (by decide)).symm.trans (h' 0 [] [] (by decide))
  have hchars := congrArg Printed.chars heq
  exact List.append_cancel_right hchars

/-- **`printf` writes numbers exactly:** `%d` each `int` but the least, `%u` and
`%x` each 64-bit number. What is written reads back as the number, and the
digits fit their buffer. -/
theorem printf_numbers_iff (n : Int32) (m : UInt64) :
    ((∃ cs, Writes 'd'.toUInt8 (.int n) cs ∧ CanonicalInt cs ∧ parseInt cs = some n.toInt) ↔ n ≠ Int32.minValue) ∧
    (∃ cs, Writes 'u'.toUInt8 (.uint64 m) cs ∧ Canonical cs ∧ parse 10 cs = some m.toNat) ∧
    (∃ ds, Writes 'x'.toUInt8 (.uint64 m) (['0'.toUInt8, 'x'.toUInt8] ++ ds) ∧ ds.length = 16 ∧ (∀ c ∈ ds, c ∈ hex) ∧
      parse 16 ds = some m.toNat) := by
  refine ⟨⟨?_, ?_⟩, ?_, ?_⟩
  · rintro ⟨cs, hcs, -, hparse⟩ rfl
    have hminus : Writes 'd'.toUInt8 (.int Int32.minValue) [minus] := writes_of_convert fun args => rfl
    rw [hcs.unique hminus] at hparse
    cases hparse
  · intro hn
    obtain ⟨cs, hprint, hcanonical, hparse⟩ := printInt_spec hn
    refine ⟨cs, writes_of_convert ?_, hcanonical, hparse⟩
    intro args
    exact congrArg (Option.map _) hprint
  · obtain ⟨cs, hprint, hcanonical, hparse⟩ := printUint_spec m
    refine ⟨cs, writes_of_convert ?_, hcanonical, hparse⟩
    intro args
    exact congrArg (Option.map _) hprint
  · obtain ⟨ds, hprint, hlen, hmem, hparse⟩ := printHex_spec m
    refine ⟨ds, writes_of_convert ?_, hlen, hmem, hparse⟩
    intro args
    rw [← hprint]
    rfl

end Numbers

theorem least_int_printed_as_minus : printf ⟨[37, 100], by decide⟩ [.int Int32.minValue] = ⟨[45], true⟩ ∧
    parseInt [45] ≠ some Int32.minValue.toInt := by
  decide

/-! ## The end of the format -/

inductive ArgKind
  | str
  | int
  | uint64

def PrintfArg.kind : PrintfArg → ArgKind
  | .str _ => .str
  | .int _ => .int
  | .uint64 _ => .uint64

/-- The argument that a conversion takes. -/
def argKind (c : UInt8) : List ArgKind :=
  if c == 's'.toUInt8 then [.str]
  else if c == 'd'.toUInt8 then [.int]
  else if c == 'u'.toUInt8 || c == 'x'.toUInt8 then [.uint64]
  else []

def argKinds : List UInt8 → List ArgKind
  | [] => []
  | [_] => []
  | c :: d :: rest => if c != percent then argKinds (d :: rest) else argKind d ++ argKinds rest

/-- Arguments as the conversions of a format take them, and perhaps more. -/
def Matching (fmt : List UInt8) (args : List PrintfArg) : Prop :=
  argKinds fmt <+: args.map PrintfArg.kind

/-- How many `%` a format ends in. -/
def trailingPercents (fmt : List UInt8) : Nat :=
  (fmt.reverse.takeWhile (· == percent)).length

section Terminator

variable {c d : UInt8} {i : Nat} {rest fmt : List UInt8} {args args' : List PrintfArg}

theorem trailing_cons (c : UInt8) (fmt : List UInt8) : trailingPercents (c :: fmt) =
    if trailingPercents fmt = fmt.length ∧ c = percent then fmt.length + 1 else trailingPercents fmt := by
  rw [trailingPercents, trailingPercents, List.reverse_cons, List.takeWhile_append, List.length_reverse]
  by_cases hall : (fmt.reverse.takeWhile (· == percent)).length = fmt.length
  · rw [if_pos hall]
    by_cases hc : c = percent
    · rw [if_pos ⟨hall, hc⟩, hc]
      simp
    · rw [if_neg fun h => hc h.2, List.takeWhile_cons_of_neg (by rwa [beq_iff_eq]), List.append_nil,
        List.length_reverse, hall]
  · rw [if_neg hall, if_neg fun h => hall h.1]

theorem trailing_le (fmt : List UInt8) : trailingPercents fmt ≤ fmt.length := by
  exact (List.takeWhile_prefix _).length_le.trans_eq List.length_reverse

theorem trailing_literal (hp : c ≠ percent) : trailingPercents (c :: fmt) = trailingPercents fmt := by
  rw [trailing_cons, if_neg fun h => hp h.2]

/-- A conversion leaves the parity of the `%` at the end. -/
theorem trailing_percent_cons : Even (trailingPercents (percent :: d :: fmt)) ↔ Even (trailingPercents fmt) := by
  have hle := trailing_le fmt
  rw [trailing_cons, trailing_cons, List.length_cons]
  by_cases hd : trailingPercents fmt = fmt.length ∧ d = percent
  · rw [if_pos hd, if_pos ⟨rfl, rfl⟩, hd.1, Nat.even_add_one, Nat.even_add_one, not_not]
  · rw [if_neg hd, if_neg (by omega)]

theorem Printed.after_contained {cs : List UInt8} {r : Printed} (h : 0 ∉ cs) :
    (r.after cs).Contained ↔ r.Contained := by
  rw [Printed.Contained, Printed.after, List.mem_append, not_or]
  exact ⟨fun hr => ⟨hr.1, hr.2.2⟩, fun hr => ⟨hr.1, h, hr.2⟩⟩

theorem printInt_total (n : Int32) : ∃ cs, printInt n = some cs ∧ 0 ∉ cs := by
  by_cases hn : n = Int32.minValue
  · exact ⟨[45], by rw [hn]; rfl, by decide⟩
  · obtain ⟨cs, hprint, -, hparse⟩ := printInt_spec hn
    exact ⟨cs, hprint, nul_notMem_of_parseInt hparse⟩

theorem printHex_nonzero (n : UInt64) : 0 ∉ printHex n := by
  obtain ⟨ds, hprint, -, -, hparse⟩ := printHex_spec n
  rw [hprint, List.mem_append, not_or]
  exact ⟨by decide, nul_notMem_of_parse hparse⟩

/-- An argument of the kind that is asked for comes first. -/
theorem str_first {ks : List ArgKind} (h : .str :: ks <+: args.map PrintfArg.kind) :
    ∃ s args', args = .str s :: args' ∧ ks <+: args'.map PrintfArg.kind := by
  match args, h with
  | .str s :: args, h => exact ⟨s, args, rfl, (List.cons_prefix_cons.mp h).2⟩

theorem int_first {ks : List ArgKind} (h : .int :: ks <+: args.map PrintfArg.kind) :
    ∃ n args', args = .int n :: args' ∧ ks <+: args'.map PrintfArg.kind := by
  match args, h with
  | .int n :: args, h => exact ⟨n, args, rfl, (List.cons_prefix_cons.mp h).2⟩

theorem uint64_first {ks : List ArgKind} (h : .uint64 :: ks <+: args.map PrintfArg.kind) :
    ∃ n args', args = .uint64 n :: args' ∧ ks <+: args'.map PrintfArg.kind := by
  match args, h with
  | .uint64 n :: args, h => exact ⟨n, args, rfl, (List.cons_prefix_cons.mp h).2⟩

/-- A conversion that has its argument returns, and writes no NUL. -/
theorem convert_total {ks : List ArgKind} (hc : c ≠ 0) (h : argKind c ++ ks <+: args.map PrintfArg.kind) :
    ∃ cs args', convert c args = some (cs, args') ∧ 0 ∉ cs ∧ ks <+: args'.map PrintfArg.kind := by
  by_cases hp : c = percent
  · subst hp
    exact ⟨[percent], args, rfl, by decide, h⟩
  by_cases hs : c = 's'.toUInt8
  · subst hs
    obtain ⟨s, args', rfl, hks⟩ := str_first h
    exact ⟨s.bytes, args', rfl, s.nonzero, hks⟩
  by_cases hd : c = 'd'.toUInt8
  · subst hd
    obtain ⟨n, args', rfl, hks⟩ := int_first h
    obtain ⟨cs, hprint, hcs⟩ := printInt_total n
    exact ⟨cs, args', congrArg (Option.map _) hprint, hcs, hks⟩
  by_cases hu : c = 'u'.toUInt8
  · subst hu
    obtain ⟨n, args', rfl, hks⟩ := uint64_first h
    obtain ⟨cs, hprint, -, hparse⟩ := printUint_spec n
    exact ⟨cs, args', congrArg (Option.map _) hprint, nul_notMem_of_parse hparse, hks⟩
  by_cases hx : c = 'x'.toUInt8
  · subst hx
    obtain ⟨n, args', rfl, hks⟩ := uint64_first h
    exact ⟨printHex n, args', rfl, printHex_nonzero n, hks⟩
  · have hkind : argKind c = [] := by simp [argKind, hs, hd, hu, hx]
    rw [hkind] at h
    refine ⟨[percent, c], args, by simp [convert, hp, hs, hd, hu, hx], ?_, h⟩
    rw [List.mem_cons, List.mem_singleton, not_or]
    exact ⟨by decide, hc.symm⟩

/-- A pass over a byte other than `%`. -/
theorem printfFrom_literal (hp : c ≠ percent) : printfFrom i (c :: rest) args =
    (if i + 1 < 2 ^ 31 then printfFrom (i + 1) rest args else .stuck).after [c] := by
  cases rest with
  | nil => exact if_pos (bne_iff_ne.mpr hp)
  | cons d rest => exact if_pos (bne_iff_ne.mpr hp)

/-- Text without a `%` is written as it is. -/
theorem printfFrom_text {cs : List UInt8} (hcs : percent ∉ cs) (hi : i + cs.length < 2 ^ 31) :
    printfFrom i (cs ++ rest) args = (printfFrom (i + cs.length) rest args).after cs := by
  induction cs generalizing i with
  | nil => rfl
  | cons c cs ih =>
    obtain ⟨hc, hcs⟩ := not_or.mp (List.mem_cons.not.mp hcs)
    rw [List.length_cons] at hi ⊢
    rw [List.cons_append, printfFrom_literal (Ne.symm hc), if_pos (by omega), ih hcs (by omega),
      show i + 1 + cs.length = i + (cs.length + 1) by omega]
    rfl

/-- A pass that writes `cs` and goes on to index `j`. -/
theorem pass_contained {cs : List UInt8} {j n : Nat} {r : Printed} (hcs : 0 ∉ cs)
    (hr : j < 2 ^ 31 → (r.Contained ↔ j + rest.length < 2 ^ 31 ∧ Even n)) :
    ((if j < 2 ^ 31 then r else .stuck).after cs).Contained ↔ j + rest.length < 2 ^ 31 ∧ Even n := by
  rw [Printed.after_contained hcs]
  by_cases hj : j < 2 ^ 31
  · rw [if_pos hj]
    exact hr hj
  · rw [if_neg hj]
    exact ⟨fun h => (nomatch h.1), fun h => absurd h.1 (by omega)⟩

/-- From index `i` on, the loop keeps to the format where its length and the
`%` at its end allow. -/
theorem printfFrom_contained_iff : ∀ {rest : List UInt8} {i : Nat} {args : List PrintfArg}, i < 2 ^ 31 → 0 ∉ rest →
    Matching rest args →
      ((printfFrom i rest args).Contained ↔ i + rest.length < 2 ^ 31 ∧ Even (trailingPercents rest))
  | [], i, args, hi, _, _ => ⟨fun _ => ⟨hi, ⟨0, rfl⟩⟩, fun _ => ⟨rfl, List.not_mem_nil⟩⟩
  | c :: rest, i, args, hi, hnul, hargs => by
    obtain ⟨hc, hrest⟩ := not_or.mp (List.mem_cons.not.mp hnul)
    by_cases hp : c = percent
    · subst hp
      cases rest with
      | nil =>
        have hodd : ¬ Even (trailingPercents [percent]) := by decide
        rw [printfFrom, if_neg (by decide)]
        refine ⟨?_, fun h => absurd h.2 hodd⟩
        intro h
        split at h
        · cases h.1
        · cases h.1
      | cons d rest =>
        obtain ⟨hd, hrest'⟩ := not_or.mp (List.mem_cons.not.mp hrest)
        obtain ⟨cs, args', hconvert, hcs, hargs'⟩ := convert_total (Ne.symm hd) hargs
        have hlen : i + (percent :: d :: rest).length = i + 2 + rest.length := by
          rw [List.length_cons, List.length_cons]
          omega
        rw [trailing_percent_cons, hlen]
        by_cases hi' : i + 1 < 2 ^ 31
        · rw [printfFrom_conversion hconvert hi']
          exact pass_contained hcs fun hj => printfFrom_contained_iff hj hrest' hargs'
        · rw [printfFrom, if_neg (by decide), if_neg hi']
          exact ⟨fun h => (nomatch h.1), fun h => absurd h.1 (by omega)⟩
    · have hargs' : Matching rest args := by
        cases rest with
        | nil => exact List.nil_prefix
        | cons d rest =>
          rw [Matching, argKinds, if_pos (bne_iff_ne.mpr hp)] at hargs
          exact hargs
      have hlen : i + (c :: rest).length = i + 1 + rest.length := by
        rw [List.length_cons]
        omega
      rw [printfFrom_literal hp, trailing_literal hp, hlen]
      refine pass_contained ?_ fun hj => printfFrom_contained_iff hj hrest hargs'
      rwa [List.mem_singleton]

/-- **`printf` keeps to its format,** and writes no NUL, for the formats that
end in an even number of `%` and that an `int` can index, and for no other. -/
theorem printf_contained_iff (fmt : CString) (args : List PrintfArg) (hargs : Matching fmt.bytes args) :
    (printf fmt args).Contained ↔ fmt.bytes.length < 2 ^ 31 ∧ Even (trailingPercents fmt.bytes) := by
  have h := printfFrom_contained_iff (Nat.two_pow_pos 31) fmt.nonzero hargs
  rwa [Nat.zero_add] at h

end Terminator

theorem printf_contained_iff_hex : (printf ⟨[120, 61, 37, 120], by decide⟩ [.uint64 255]).Contained :=
  (printf_contained_iff ⟨[120, 61, 37, 120], by decide⟩ [.uint64 255] ⟨[], rfl⟩).mpr ⟨by decide, by decide⟩

/-- "100%": the NUL is written, and the byte after it read. -/
theorem trailing_percent_overruns : Matching [49, 48, 48, 37] [] ∧
    printf ⟨[49, 48, 48, 37], by decide⟩ [] = ⟨[49, 48, 48, 37, 0], false⟩ :=
  ⟨List.nil_prefix, rfl⟩

end Tinos
