/-
`scanf` (`lib/std/stdio.c`): a line typed at the keyboard, read into a buffer
of `max_len` bytes, with `scancode_to_ascii` (`lib/scancodes.c`).

`scanf_edits_iff`: the buffer is left with the line as edited if and only if
the backspaces typed on an empty line are even in number. The test that a
backspace is one also asks for a character to erase, so on an empty line the
key goes on to the branch of the letters, and its own character is kept,
until the next one takes it away.
-/
import Tinos.Console

namespace Tinos

/-! ## The function -/

/-- `kbd_map`. -/
def kbdMap : List UInt8 :=
  [0, 27, 49, 50, 51, 52, 53, 54, 55, 56, 57, 48, 45, 61, 8,
    9, 113, 119, 101, 114, 116, 121, 117, 105, 111, 112, 91, 93, 10,
    0, 97, 115, 100, 102, 103, 104, 106, 107, 108, 59, 39, 96, 0,
    92, 122, 120, 99, 118, 98, 110, 109, 44, 46, 47, 0, 42,
    0, 32]

def scancodeToAscii (scancode : UInt8) : UInt8 :=
  if scancode.toNat < kbdMap.length then kbdMap.getD scancode.toNat 0 else 0

def enterKey : UInt8 := 0x1C
def backspaceKey : UInt8 := 0x0E

def scanfStore (maxLen : UInt64) (buffer : Nat → UInt8) (i : Nat) (c : UInt8) : Option (Nat → UInt8) :=
  if i < maxLen.toNat then some (Function.update buffer i c) else none

/-- The loop, with the scancodes to come. There is no outcome where it stores
outside the `max_len` bytes, or waits for a key that does not come. -/
def scanfLoop (maxLen : UInt64) (buffer : Nat → UInt8) (i : Nat) : List UInt8 → Option ((Nat → UInt8) × Nat)
  | [] => if i < (maxLen - 1).toNat then none else some (buffer, i)
  | scancode :: keys =>
    if i < (maxLen - 1).toNat then
      if scancode == enterKey then some (buffer, i)
      else if scancode == backspaceKey && i > 0 then do
        let buffer ← scanfStore maxLen buffer (i - 1) 0
        scanfLoop maxLen buffer (i - 1) keys
      else
        let c := scancodeToAscii scancode
        if c != 0 then do
          let buffer ← scanfStore maxLen buffer i c
          scanfLoop maxLen buffer (i + 1) keys
        else scanfLoop maxLen buffer i keys
    else some (buffer, i)

def scanf (maxLen : UInt64) (buffer : Nat → UInt8) (keys : List UInt8) : Option (Nat → UInt8) := do
  let (buffer, i) ← scanfLoop maxLen buffer 0 keys
  scanfStore maxLen buffer i 0

/-! ## Line editing -/

/-- A line after one more key. -/
def editKey (line : List UInt8) (scancode : UInt8) : List UInt8 :=
  if scancode = backspaceKey then line.dropLast
  else if scancodeToAscii scancode = 0 then line
  else line ++ [scancodeToAscii scancode]

/-- The line after the keys, each changing it by `key`, up to an Enter or to
where `room` characters are held. -/
def typeLine (key : List UInt8 → UInt8 → List UInt8) (room : Nat) (line : List UInt8) : List UInt8 → List UInt8
  | [] => line
  | scancode :: keys =>
    if room ≤ line.length ∨ scancode = enterKey then line else typeLine key room (key line scancode) keys

/-- The backspaces typed on an empty line, with `stray` of them so far. An odd
one takes up a character's place in the line until the next is typed. -/
def strayBackspaces (room : Nat) (line : List UInt8) (stray : Nat) : List UInt8 → Nat
  | [] => stray
  | scancode :: keys =>
    if room ≤ line.length + stray % 2 ∨ scancode = enterKey then stray
    else
      strayBackspaces room (editKey line scancode)
        (if scancode = backspaceKey ∧ line = [] then stray + 1 else stray) keys

/-- `scanf` leaves the line the keys edit, as a string, and stores in the
`max_len` bytes alone. -/
def LineEdited (maxLen : UInt64) (buffer : Nat → UInt8) (keys : List UInt8) : Prop :=
  ∃ buffer' line, scanf maxLen buffer (keys ++ [enterKey]) = some buffer' ∧
    bufferString buffer' maxLen.toNat = some line ∧ line.bytes.length ≤ maxLen.toNat - 1 ∧
    (∀ i, maxLen.toNat ≤ i → buffer' i = buffer i) ∧
    line.bytes = typeLine editKey (maxLen.toNat - 1) [] keys ∧ backspace ∉ line.bytes

/-! ## Keys -/

theorem scancodeToAscii_backspaceKey : scancodeToAscii backspaceKey = backspace := rfl

/-- No other key gives the backspace character. -/
theorem scancodeToAscii_ne_backspace {scancode : UInt8} (h : scancode ≠ backspaceKey) :
    scancodeToAscii scancode ≠ backspace := by
  have hall : ∀ n < 256, n ≠ 0x0E → scancodeToAscii (UInt8.ofNat n) ≠ backspace := by decide +kernel
  have hne : scancode.toNat ≠ 0x0E := fun he => h (UInt8.toNat.inj he)
  have := hall scancode.toNat scancode.toNat_lt hne
  rwa [UInt8.ofNat_toNat] at this

/-- Neither a NUL nor a backspace. -/
def Typed (c : UInt8) : Prop := c ≠ 0 ∧ c ≠ backspace

section Line

variable {line : List UInt8} {scancode : UInt8} {room stray : Nat} {keys : List UInt8}

theorem editKey_typed (h : ∀ c ∈ line, Typed c) : ∀ c ∈ editKey line scancode, Typed c := by
  unfold editKey
  intro c hc
  split at hc
  · exact h c (List.mem_of_mem_dropLast hc)
  · next hback =>
    split at hc
    · exact h c hc
    · next hmapped =>
      rcases List.mem_append.mp hc with hc | hc
      · exact h c hc
      · rw [List.mem_singleton] at hc
        exact hc ▸ ⟨hmapped, scancodeToAscii_ne_backspace hback⟩

/-! ## The code's line -/

/-- What a pass of the loop does to the bytes held. -/
def scanfKey (bytes : List UInt8) (scancode : UInt8) : List UInt8 :=
  if scancode = backspaceKey ∧ bytes ≠ [] then bytes.dropLast
  else if scancodeToAscii scancode = 0 then bytes
  else bytes ++ [scancodeToAscii scancode]

/-- The line, after a backspace character where a stray one is held. -/
def heldBytes (stray : Nat) (line : List UInt8) : List UInt8 :=
  if stray % 2 = 1 then backspace :: line else line

theorem heldBytes_length : (heldBytes stray line).length = line.length + stray % 2 := by
  unfold heldBytes
  split
  · next hodd => rw [List.length_cons, hodd]
  · omega

theorem heldBytes_nonzero (h : ∀ c ∈ line, Typed c) : ∀ c ∈ heldBytes stray line, c ≠ 0 := by
  unfold heldBytes
  intro c hc
  split at hc
  · rcases List.mem_cons.mp hc with rfl | hc
    · decide
    · exact (h c hc).1
  · exact (h c hc).1

/-- A stray backspace is kept as a character, or takes the one before it away. -/
theorem heldBytes_stray : scanfKey (heldBytes stray []) backspaceKey = heldBytes (stray + 1) [] := by
  unfold scanfKey heldBytes
  rcases Nat.mod_two_eq_zero_or_one stray with h | h
  · simp [Nat.add_mod, h, scancodeToAscii_backspaceKey, show backspace ≠ 0 by decide]
  · simp [Nat.add_mod, h]

/-- On any other key the code and the editor do the same. -/
theorem heldBytes_key (h : ¬ (scancode = backspaceKey ∧ line = [])) :
    scanfKey (heldBytes stray line) scancode = heldBytes stray (editKey line scancode) := by
  unfold scanfKey editKey heldBytes
  by_cases hback : scancode = backspaceKey
  · have hline : line ≠ [] := fun he => h ⟨hback, he⟩
    split <;> simp [hback, hline, List.dropLast_cons_of_ne_nil]
  · simp only [hback, false_and, if_false]
    split <;> split <;> simp

theorem typeLine_held (room : Nat) (keys : List UInt8) : ∀ (stray : Nat) (line : List UInt8), ∃ line',
    typeLine scanfKey room (heldBytes stray line) keys = heldBytes (strayBackspaces room line stray keys) line' ∧
      ((∀ c ∈ line, Typed c) → ∀ c ∈ line', Typed c) ∧
      (strayBackspaces room line stray keys % 2 = 0 → line' = typeLine editKey room line keys) := by
  induction keys with
  | nil => exact fun stray line => ⟨line, rfl, id, fun _ => rfl⟩
  | cons scancode keys ih =>
    intro stray line
    unfold typeLine strayBackspaces
    rw [heldBytes_length]
    by_cases hstop : room ≤ line.length + stray % 2 ∨ scancode = enterKey
    · -- Where a stray backspace fills the line, it is there to the end.
      rw [if_pos hstop, if_pos hstop]
      refine ⟨line, rfl, id, fun heven => ?_⟩
      rw [heven, Nat.add_zero] at hstop
      rw [if_pos hstop]
    · rw [if_neg hstop, if_neg hstop]
      have hstop' : ¬ (room ≤ line.length ∨ scancode = enterKey) := fun h => hstop (h.imp_left fun h => by omega)
      rw [if_neg hstop']
      have hnext : scanfKey (heldBytes stray line) scancode =
          heldBytes (if scancode = backspaceKey ∧ line = [] then stray + 1 else stray) (editKey line scancode) := by
        split
        · next h =>
          obtain ⟨rfl, rfl⟩ := h
          rw [heldBytes_stray]
          rfl
        · next h => exact heldBytes_key h
      rw [hnext]
      obtain ⟨line', hline', htyped, heven⟩ := ih _ (editKey line scancode)
      exact ⟨line', hline', fun h => htyped (editKey_typed h), heven⟩

end Line

/-! ## The buffer -/

/-- The bytes are the first in the buffer. -/
def Holds (buffer : Nat → UInt8) (bytes : List UInt8) : Prop := (List.range bytes.length).map buffer = bytes

section Buffer

variable {maxLen : UInt64} {buffer : Nat → UInt8} {bytes : List UInt8} {scancode : UInt8}

/-- What is stored from the end of the bytes on does not change them. -/
theorem Holds.store (h : Holds buffer bytes) {i : Nat} (hi : bytes.length ≤ i) (c : UInt8) :
    Holds (Function.update buffer i c) bytes := by
  refine (List.map_congr_left ?_).trans h
  intro k hk
  have := List.mem_range.mp hk
  exact Function.update_of_ne (show k ≠ i by omega) c buffer

theorem Holds.push (h : Holds buffer bytes) (c : UInt8) :
    Holds (Function.update buffer bytes.length c) (bytes ++ [c]) := by
  have hsame : (List.range bytes.length).map (Function.update buffer bytes.length c) = bytes :=
    h.store (Nat.le_refl _) c
  unfold Holds
  rw [List.length_append, List.length_singleton, List.range_succ, List.map_append, hsame]
  simp

theorem Holds.pop (h : Holds buffer bytes) : Holds (Function.update buffer (bytes.length - 1) 0) bytes.dropLast := by
  have hpop : Holds buffer bytes.dropLast := by
    unfold Holds
    rw [List.length_dropLast, List.dropLast_eq_take, ← Nat.min_eq_left (Nat.sub_le bytes.length 1), ← List.take_range,
      List.map_take, h]
    simp
  exact hpop.store (by rw [List.length_dropLast]) 0

theorem Holds.get (h : Holds buffer bytes) {i : Nat} (hi : i < bytes.length) : buffer i ∈ bytes := by
  have hmem : buffer i ∈ (List.range bytes.length).map buffer := List.mem_map_of_mem (List.mem_range.mpr hi)
  rwa [h] at hmem

/-- A pass of the loop does to the buffer what `scanfKey` does to the bytes. -/
theorem scanfLoop_key (h : Holds buffer bytes) (hlt : bytes.length < (maxLen - 1).toNat)
    (hroom : (maxLen - 1).toNat < maxLen.toNat) (hkey : scancode ≠ enterKey) (keys : List UInt8) :
    ∃ buffer', scanfLoop maxLen buffer bytes.length (scancode :: keys) =
        scanfLoop maxLen buffer' (scanfKey bytes scancode).length keys ∧
      Holds buffer' (scanfKey bytes scancode) ∧ ∀ i, maxLen.toNat ≤ i → buffer' i = buffer i := by
  have hstore : ∀ i c, i ≤ bytes.length → scanfStore maxLen buffer i c = some (Function.update buffer i c) := by
    intro i c hi
    exact if_pos (by omega)
  have hframe : ∀ i c, i ≤ bytes.length → ∀ k, maxLen.toNat ≤ k → Function.update buffer i c k = buffer k := by
    intro i c hi k hk
    exact Function.update_of_ne (show k ≠ i by omega) c buffer
  have hne : (scancode == enterKey) = false := beq_eq_false_iff_ne.mpr hkey
  simp only [scanfLoop, hlt, if_true, hne, Bool.false_eq_true, if_false]
  unfold scanfKey
  by_cases hback : scancode = backspaceKey ∧ bytes ≠ []
  · have hpos : 0 < bytes.length := List.length_pos_iff.mpr hback.2
    have htest : (scancode == backspaceKey && decide (bytes.length > 0)) = true := by simp [hback.1, hpos]
    rw [if_pos htest, if_pos hback, hstore _ _ (Nat.sub_le _ 1), List.length_dropLast]
    exact ⟨_, rfl, h.pop, hframe _ _ (Nat.sub_le _ 1)⟩
  · have htest : (scancode == backspaceKey && decide (bytes.length > 0)) = false := by
      rw [Bool.and_eq_false_iff, beq_eq_false_iff_ne, decide_eq_false_iff_not, gt_iff_lt, List.length_pos_iff]
      exact not_and_or.mp hback
    rw [if_neg (by rw [htest]; exact Bool.false_ne_true), if_neg hback]
    by_cases hmapped : scancodeToAscii scancode = 0
    · rw [if_pos hmapped, if_neg (by rw [hmapped]; decide)]
      exact ⟨buffer, rfl, h, fun _ _ => rfl⟩
    · rw [if_neg hmapped, if_pos (bne_iff_ne.mpr hmapped), hstore _ _ (Nat.le_refl _), List.length_append]
      exact ⟨_, rfl, h.push _, hframe _ _ (Nat.le_refl _)⟩

/-- The loop comes to an end, with the bytes that `scanfKey` makes of the keys. -/
theorem scanfLoop_spec (hroom : (maxLen - 1).toNat < maxLen.toNat) (keys : List UInt8) :
    ∀ {buffer : Nat → UInt8} {bytes : List UInt8}, Holds buffer bytes → bytes.length ≤ (maxLen - 1).toNat →
      ∃ buffer', scanfLoop maxLen buffer bytes.length (keys ++ [enterKey]) =
          some (buffer', (typeLine scanfKey (maxLen - 1).toNat bytes keys).length) ∧
        Holds buffer' (typeLine scanfKey (maxLen - 1).toNat bytes keys) ∧
        (typeLine scanfKey (maxLen - 1).toNat bytes keys).length ≤ (maxLen - 1).toNat ∧
        ∀ i, maxLen.toNat ≤ i → buffer' i = buffer i := by
  induction keys with
  | nil =>
    intro buffer bytes h hle
    refine ⟨buffer, ?_, h, hle, fun _ _ => rfl⟩
    simp only [List.nil_append, scanfLoop, beq_self_eq_true, if_true, ite_self, typeLine]
  | cons scancode keys ih =>
    intro buffer bytes h hle
    unfold typeLine
    by_cases hstop : (maxLen - 1).toNat ≤ bytes.length ∨ scancode = enterKey
    · rw [if_pos hstop]
      refine ⟨buffer, ?_, h, hle, fun _ _ => rfl⟩
      rcases hstop with hfull | rfl
      · simp only [List.cons_append, scanfLoop, not_lt.mpr hfull, if_false]
      · simp only [List.cons_append, scanfLoop, beq_self_eq_true, if_true, ite_self]
    · rw [if_neg hstop]
      rw [not_or, not_le] at hstop
      obtain ⟨buffer₁, hpass, h₁, hframe₁⟩ := scanfLoop_key h hstop.1 hroom hstop.2 (keys ++ [enterKey])
      have hlen : (scanfKey bytes scancode).length ≤ bytes.length + 1 := by
        unfold scanfKey
        split
        · rw [List.length_dropLast]
          omega
        · split
          · exact Nat.le_succ _
          · rw [List.length_append, List.length_singleton]
      obtain ⟨buffer₂, hrun, h₂, hle₂, hframe₂⟩ := ih h₁ (by omega)
      exact ⟨buffer₂, by rw [List.cons_append, hpass, hrun], h₂, hle₂, fun i hi => (hframe₂ i hi).trans (hframe₁ i hi)⟩

/-- A call leaves the bytes of the loop as a string. -/
theorem scanf_spec (hpos : 1 ≤ maxLen) (buffer : Nat → UInt8) (keys : List UInt8)
    (hnonzero : ∀ c ∈ typeLine scanfKey (maxLen.toNat - 1) [] keys, c ≠ 0) :
    ∃ buffer' line, scanf maxLen buffer (keys ++ [enterKey]) = some buffer' ∧
      bufferString buffer' maxLen.toNat = some line ∧
      line.bytes = typeLine scanfKey (maxLen.toNat - 1) [] keys ∧ line.bytes.length ≤ maxLen.toNat - 1 ∧
      ∀ i, maxLen.toNat ≤ i → buffer' i = buffer i := by
  have hone : 1 ≤ maxLen.toNat := UInt64.le_iff_toNat_le.mp hpos
  have hroom : (maxLen - 1).toNat = maxLen.toNat - 1 := UInt64.toNat_sub_of_le _ _ hpos
  have hless : (maxLen - 1).toNat < maxLen.toNat := by omega
  have hstart : Holds buffer [] := rfl
  obtain ⟨buffer₁, hrun, h₁, hle, hframe⟩ := scanfLoop_spec hless keys hstart (Nat.zero_le _)
  rw [hroom] at hrun h₁ hle
  generalize typeLine scanfKey (maxLen.toNat - 1) [] keys = bytes at *
  have hlt : bytes.length < maxLen.toNat := by omega
  have hend : Holds (Function.update buffer₁ bytes.length 0) bytes := h₁.store (Nat.le_refl _) 0
  obtain ⟨line, hline, hbytes⟩ := Option.map_eq_some_iff.mp
    (bufferString_eq hlt (Function.update_self bytes.length 0 buffer₁) fun i hi => hnonzero _ (hend.get hi))
  have hlb : line.bytes = bytes := hbytes.trans hend
  refine ⟨Function.update buffer₁ bytes.length 0, line, ?_, hline, hlb, by rw [hlb]; exact hle, ?_⟩
  · simp only [scanf, List.length_nil] at hrun ⊢
    rw [hrun, Option.bind_eq_bind, Option.bind_some]
    exact if_pos hlt
  · intro i hi
    exact (Function.update_of_ne (show i ≠ bytes.length by omega) 0 buffer₁).trans (hframe i hi)

end Buffer

/-- **The line is as typed** if and only if the backspaces typed on an empty
line, before the Enter or the last character that fits, are even in number. -/
theorem scanf_edits_iff (maxLen : UInt64) (buffer : Nat → UInt8) (keys : List UInt8) (hpos : 1 ≤ maxLen) :
    LineEdited maxLen buffer keys ↔ strayBackspaces (maxLen.toNat - 1) [] 0 keys % 2 = 0 := by
  have hnil : ∀ c ∈ ([] : List UInt8), Typed c := nofun
  obtain ⟨line', hheld, htyped, heven⟩ := typeLine_held (maxLen.toNat - 1) keys 0 []
  have hcode : typeLine scanfKey (maxLen.toNat - 1) [] keys =
      heldBytes (strayBackspaces (maxLen.toNat - 1) [] 0 keys) line' := hheld
  obtain ⟨buffer', line, hscanf, hline, hbytes, hle, hframe⟩ := scanf_spec hpos buffer keys (by
    rw [hcode]
    exact heldBytes_nonzero (htyped hnil))
  rw [hcode] at hbytes
  constructor
  · intro hedited
    obtain ⟨buffer₂, line₂, hscanf₂, hline₂, -, -, -, hno⟩ := hedited
    obtain rfl := Option.some.inj (hscanf.symm.trans hscanf₂)
    obtain rfl := Option.some.inj (hline.symm.trans hline₂)
    by_contra hodd
    refine hno ?_
    rw [hbytes, heldBytes, if_pos (Nat.mod_two_ne_zero.mp hodd)]
    exact List.mem_cons_self
  · intro h
    rw [heldBytes, if_neg (by omega)] at hbytes
    refine ⟨buffer', line, hscanf, hline, hle, hframe, hbytes.trans (heven h), ?_⟩
    intro hmem
    rw [hbytes] at hmem
    exact (htyped hnil _ hmem).2 rfl

/-- An `a`, a backspace, a `b`. -/
theorem scanf_edits_iff_three_keys : LineEdited 16 (fun _ => 0) [0x1E, 0x0E, 0x30] ↔
    strayBackspaces ((16 : UInt64).toNat - 1) [] 0 [0x1E, 0x0E, 0x30] % 2 = 0 :=
  scanf_edits_iff 16 (fun _ => 0) [0x1E, 0x0E, 0x30] (by decide)

/-- A backspace and an Enter leave a backspace character in the buffer. -/
theorem backspace_on_empty_line : (scanf 16 (fun _ => 0) [backspaceKey, enterKey]).bind
      (fun buffer => (bufferString buffer 16).map CString.bytes) = some [backspace] ∧
    ¬ LineEdited 16 (fun _ => 0) [backspaceKey] := by
  have hrun : (scanf 16 (fun _ => 0) [backspaceKey, enterKey]).bind
      (fun buffer => (bufferString buffer 16).map CString.bytes) = some [backspace] := by decide +kernel
  refine ⟨hrun, ?_⟩
  intro hedited
  obtain ⟨buffer, line, hscanf, hline, -, -, -, hno⟩ := hedited
  have hbytes : some line.bytes = some [backspace] := by
    rw [← hrun, show [backspaceKey, enterKey] = [backspaceKey] ++ [enterKey] from rfl, hscanf, Option.bind_some,
      show (16 : Nat) = (16 : UInt64).toNat from rfl, hline, Option.map_some]
  rw [Option.some.inj hbytes] at hno
  exact hno List.mem_cons_self

end Tinos
