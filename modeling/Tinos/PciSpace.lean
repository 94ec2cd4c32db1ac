/-
The bytes of the PCI configuration space under the six accessors.

`narrow_writes_keep_iff`: a write of one or two bytes reads and writes back
the whole word, so it leaves every other byte alone where no bit of the word
that a 1 clears is set outside them, and only there.

`config_space_coherent`: where the words hold what is written, the accessors
are loads and stores of one little-endian byte array.
-/
import Tinos.Lib.Runs
import Tinos.Pci

namespace Tinos

open Bytes Lanes

/-- The register an address names, with the device and the function in range. -/
def configTarget (bus device function offset : UInt8) (hd : device.toNat < 32) (hf : function.toNat < 8) :
    ConfigAddress where
  bus := ⟨bus.toNat, bus.toNat_lt⟩
  device := ⟨device.toNat, hd⟩
  function := ⟨function.toNat, hf⟩
  register := ⟨offset.toNat / 4, Nat.div_lt_of_lt_mul offset.toNat_lt⟩

/-- Every byte of the space but `n` of the word at `a`, from the `k`th on, is
as it was. -/
def UnchangedBut (io io' : ConfigPorts) (a : ConfigAddress) (k n : Nat) : Prop :=
  ∀ b, ∀ j < 4, (b ≠ a ∨ j < k ∨ k + n ≤ j) → lane (io'.contents b) j = lane (io.contents b) j

/-- No bit outside these bytes is set that a 1 clears. -/
def NoneToClear (io : ConfigPorts) (a : ConfigAddress) (k n : Nat) : Prop :=
  ∀ j < 4, (j < k ∨ k + n ≤ j) → lane (io.contents a &&& io.clears a) j = 0

/-! ## One array of bytes -/

/-- Where a byte of the space is in the array. -/
def configByte (bus device function offset : UInt8) : Nat :=
  65536 * bus.toNat + 2048 * device.toNat + 256 * function.toNat + offset.toNat

def ConfigPorts.bytes (io : ConfigPorts) : Mem := fun x => lane (io.contents (configWord x)) (x % 4)

inductive PciWrite
  | byte (bus device function offset value : UInt8)
  | word (bus device function offset : UInt8) (value : UInt16)
  | dword (bus device function offset : UInt8) (value : UInt32)

def PciWrite.run (io : ConfigPorts) : PciWrite → ConfigPorts
  | .byte bus device function offset value => pciConfigWrite8 io bus device function offset value
  | .word bus device function offset value => pciConfigWrite16 io bus device function offset value
  | .dword bus device function offset value => pciConfigWrite32 io bus device function offset value

def PciWrite.Aligned : PciWrite → Prop
  | .byte _ device function _ _ => device.toNat < 32 ∧ function.toNat < 8
  | .word _ device function offset _ => device.toNat < 32 ∧ function.toNat < 8 ∧ offset.toNat % 2 = 0
  | .dword _ device function offset _ => device.toNat < 32 ∧ function.toNat < 8 ∧ offset.toNat % 4 = 0

/-- The write, as a store to the array. -/
def PciWrite.store (m : Mem) : PciWrite → Mem
  | .byte bus device function offset value => Bytes.store m (configByte bus device function offset) 1 value.toNat
  | .word bus device function offset value => Bytes.store m (configByte bus device function offset) 2 value.toNat
  | .dword bus device function offset value => Bytes.store m (configByte bus device function offset) 4 value.toNat

section Space

variable {io : ConfigPorts} {bus device function offset : UInt8} {hd : device.toNat < 32} {hf : function.toNat < 8}
  {mask value shift : UInt32} {k n : Nat}

/-! ## Addresses -/

theorem toNat_pciConfigAddress (bus offset : UInt8) (hd : device.toNat < 32) (hf : function.toNat < 8) :
    (pciConfigAddress bus device function offset).toNat =
      2 ^ 31 * 1 + (2 ^ 16 * bus.toNat +
        (2 ^ 11 * device.toNat + (2 ^ 8 * function.toNat + 4 * (offset.toNat / 4)))) := by
  have hb := bus.toNat_lt
  have ho := offset.toNat_lt
  have hlow : ∀ x < 256, x &&& 252 = 4 * (x / 4) := by decide +kernel
  rw [Nat.two_pow_add_eq_or_of_lt (by omega), Nat.two_pow_add_eq_or_of_lt (by omega),
    Nat.two_pow_add_eq_or_of_lt (by omega), Nat.two_pow_add_eq_or_of_lt (by omega), ← hlow _ ho]
  have hbus : bus.toNat * 2 ^ (UInt32.toNat 16 % 32) % 2 ^ 32 = 2 ^ 16 * bus.toNat := by
    rw [show UInt32.toNat 16 % 32 = 16 from rfl]
    omega
  have hdevice : device.toNat * 2 ^ (UInt32.toNat 11 % 32) % 2 ^ 32 = 2 ^ 11 * device.toNat := by
    rw [show UInt32.toNat 11 % 32 = 11 from rfl]
    omega
  have hfunction : function.toNat * 2 ^ (UInt32.toNat 8 % 32) % 2 ^ 32 = 2 ^ 8 * function.toNat := by
    rw [show UInt32.toNat 8 % 32 = 8 from rfl]
    omega
  simp only [pciConfigAddress, UInt32.or_assoc, UInt32.toNat_or, UInt32.toNat_shiftLeft, UInt8.toNat_toUInt32,
    Nat.shiftLeft_eq, UInt8.toNat_and, hbus, hdevice, hfunction]
  rfl

theorem outl_address (io : ConfigPorts) (x : UInt32) : io.outl pciConfigAddressPort x = { io with address := x } := by
  simp only [ConfigPorts.outl, beq_self_eq_true, if_true]

/-- The address written selects the register it names. -/
theorem selected_pciConfigAddress (io : ConfigPorts) (bus offset : UInt8) (hd : device.toNat < 32)
    (hf : function.toNat < 8) : ({ io with address := pciConfigAddress bus device function offset }).selected =
      some (configTarget bus device function offset hd hf) := by
  have hb := bus.toNat_lt
  have ho := offset.toNat_lt
  have haddress := toNat_pciConfigAddress bus offset hd hf
  have henabled : (pciConfigAddress bus device function offset).toNat.testBit 31 = true := by
    rw [Nat.testBit_eq_decide_div_mod_eq, haddress, decide_eq_true_eq]
    omega
  rw [ConfigPorts.selected, if_pos henabled, Option.some.injEq, configTarget, configWord, ConfigAddress.mk.injEq]
  simp only [Fin.mk.injEq, haddress]
  refine ⟨?_, ?_, ?_, ?_⟩ <;> omega

/-! ## Words -/

theorem outl_data {a : ConfigAddress} (h : io.selected = some a) (v : UInt32) :
    io.outl pciConfigDataPort v = { io with
      contents := Function.update io.contents a (writeOneToClear (io.clears a) (io.contents a) v)
      touched := io.touched ++ [a] } := by
  have hne : (pciConfigDataPort == pciConfigAddressPort) = false := by decide
  simp only [ConfigPorts.outl, hne, beq_self_eq_true, Bool.false_eq_true, if_false, if_true, h]

theorem inl_data {a : ConfigAddress} (h : io.selected = some a) :
    io.inl pciConfigDataPort = (io.contents a, { io with touched := io.touched ++ [a] }) := by
  have hne : (pciConfigDataPort == pciConfigAddressPort) = false := by decide
  simp only [ConfigPorts.inl, hne, beq_self_eq_true, Bool.false_eq_true, if_false, if_true, h]

section Selected

variable {t : ConfigAddress}
  (hsel : ({ io with address := pciConfigAddress bus device function offset }).selected = some t)

include hsel

/-- A read answers the word, and changes no word. -/
theorem read32_eq : pciConfigRead32 io bus device function offset = (io.contents t, { io with
    address := pciConfigAddress bus device function offset
    touched := io.touched ++ [t] }) := by
  rw [pciConfigRead32, outl_address, inl_data hsel]

theorem write32_eq (v : UInt32) : pciConfigWrite32 io bus device function offset v = { io with
    address := pciConfigAddress bus device function offset
    contents := Function.update io.contents t (writeOneToClear (io.clears t) (io.contents t) v)
    touched := io.touched ++ [t] } := by
  rw [pciConfigWrite32, outl_address, outl_data hsel]

/-- A narrow write puts the value into the word it read. -/
theorem writeUnder_eq (mask value shift : UInt32) :
    pciConfigWriteUnder io bus device function offset mask value shift = { io with
      address := pciConfigAddress bus device function offset
      contents := Function.update io.contents t
        (writeOneToClear (io.clears t) (io.contents t) (splice (io.contents t) mask value shift))
      touched := io.touched ++ [t] ++ [t] } := by
  rw [pciConfigWriteUnder, outl_address, inl_data hsel]
  exact outl_data (by exact hsel) _

end Selected

/-! ## Narrow writes -/

theorem toNat_shift8 (offset : UInt8) : ((offset &&& 3).toUInt32 * 8).toNat = 8 * (offset.toNat % 4) := by
  have hlow : (offset &&& 3).toNat = offset.toNat % 4 := by
    rw [UInt8.toNat_and]
    exact Nat.and_two_pow_sub_one_eq_mod _ 2
  rw [UInt32.toNat_mul, UInt8.toNat_toUInt32, hlow]
  change offset.toNat % 4 * 8 % 2 ^ 32 = _
  omega

theorem toNat_shift16 (ho : offset.toNat % 2 = 0) :
    ((offset &&& 2).toUInt32 * 8).toNat = 8 * (offset.toNat % 4) := by
  have hlow : ∀ x < 256, x % 2 = 0 → x &&& 2 = x % 4 := by decide +kernel
  rw [UInt32.toNat_mul, UInt8.toNat_toUInt32, UInt8.toNat_and]
  change (offset.toNat &&& 2) * 8 % 2 ^ 32 = _
  rw [hlow _ offset.toNat_lt ho]
  omega

/-- Written back, the other lanes of the word are as they were where none has
a bit set that a 1 clears. -/
theorem writeUnder_unchanged_iff (io : ConfigPorts) (bus offset : UInt8) (hd : device.toNat < 32)
    (hf : function.toNat < 8) (hs : shift.toNat = 8 * k) (hmask : mask.toNat = 2 ^ (8 * n) - 1)
    (hv : value.toNat < 2 ^ (8 * n)) (hk : k < 4) :
    UnchangedBut io (pciConfigWriteUnder io bus device function offset mask value shift)
        (configTarget bus device function offset hd hf) k n ↔
      NoneToClear io (configTarget bus device function offset hd hf) k n := by
  rw [writeUnder_eq (selected_pciConfigAddress io bus offset hd hf)]
  have hother : ∀ j < 4, (j < k ∨ k + n ≤ j) →
      lane (splice (io.contents (configTarget bus device function offset hd hf)) mask value shift) j =
        lane (io.contents (configTarget bus device function offset hd hf)) j := by
    intro j hj hout
    rw [lane_splice hs hmask hv hk hj, if_neg (by omega)]
  constructor
  · intro h j hj hout
    have hsame := h (configTarget bus device function offset hd hf) j hj (.inr hout)
    simp only [Function.update_self] at hsame
    exact (lane_writeOneToClear_self hj (hother j hj hout)).mp hsame
  · intro h b j hj hout
    by_cases hb : b = configTarget bus device function offset hd hf
    · subst hb
      have hout' := hout.resolve_left fun hne => hne rfl
      simp only [Function.update_self]
      exact (lane_writeOneToClear_self hj (hother j hj hout')).mpr (h j hj hout')
    · simp only [Function.update_of_ne hb]

/-! ## The array -/

theorem configTarget_eq : configTarget bus device function offset hd hf =
    configWord (configByte bus device function offset) := by
  have hb := bus.toNat_lt
  have ho := offset.toNat_lt
  rw [configTarget, configWord, ConfigAddress.mk.injEq]
  simp only [Fin.mk.injEq, configByte]
  refine ⟨?_, ?_, ?_, ?_⟩ <;> omega

theorem configWord_eq_iff {x y : Nat} (hx : x < 2 ^ 24) (hy : y < 2 ^ 24) :
    configWord x = configWord y ↔ x / 4 = y / 4 := by
  rw [configWord, configWord, ConfigAddress.mk.injEq]
  simp only [Fin.mk.injEq]
  omega

theorem configByte_lt (hd : device.toNat < 32) (hf : function.toNat < 8) :
    configByte bus device function offset < 2 ^ 24 := by
  have hb := bus.toNat_lt
  have ho := offset.toNat_lt
  unfold configByte
  omega

/-- A word with some lanes replaced is a store of their bytes. -/
theorem bytes_update {a x : Nat} {w : UInt32} {contents : ConfigAddress → UInt32} (ha : a < 2 ^ 24)
    (hn : a % 4 + n ≤ 4) (hw : ∀ j < 4, lane w j = if a % 4 ≤ j ∧ j < a % 4 + n then lane value (j - a % 4) else
      lane (contents (configWord a)) j) (hx : x < 2 ^ 24) :
    lane (Function.update contents (configWord a) w (configWord x)) (x % 4) =
      store (fun x => lane (contents (configWord x)) (x % 4)) a n value.toNat x := by
  have hlt : x % 4 < 4 := Nat.mod_lt _ (by decide)
  unfold store
  by_cases hword : x / 4 = a / 4
  · rw [(configWord_eq_iff hx ha).mpr hword, Function.update_self, hw _ hlt]
    by_cases hin : a ≤ x ∧ x < a + n
    · rw [if_pos (by omega), if_pos hin, lane, show x % 4 - a % 4 = x - a by omega]
    · rw [if_neg (by omega), if_neg hin, ← (configWord_eq_iff hx ha).mpr hword]
  · rw [Function.update_of_ne (fun he => hword ((configWord_eq_iff hx ha).mp he)), if_neg (by omega)]

/-- What some lanes of a word load as. -/
theorem load_bytes {a : Nat} (ha : a < 2 ^ 24) (hn : a % 4 + n ≤ 4) :
    load io.bytes a n = (io.contents (configWord a)).toNat / 256 ^ (a % 4) % 256 ^ n := by
  apply load_digits
  intro i hi
  have hword : configWord (a + i) = configWord a := (configWord_eq_iff (by omega) ha).mpr (by omega)
  rw [ConfigPorts.bytes, hword, show (a + i) % 4 = a % 4 + i by omega, lane, UInt8.toNat_ofNat', Nat.pow_add,
    Nat.div_div_eq_div_mul]

theorem writeOneToClear_zero (old v : UInt32) : writeOneToClear 0 old v = v := by
  simp [writeOneToClear]

/-- A space of plain words. -/
def ConfigPorts.Plain (io : ConfigPorts) : Prop := ∀ a, io.clears a = 0

theorem configByte_mod : configByte bus device function offset % 4 = offset.toNat % 4 := by
  unfold configByte
  omega

/-- A narrow write is the store of its bytes. -/
theorem writeUnder_bytes (bus : UInt8) (hd : device.toNat < 32) (hf : function.toNat < 8) (hplain : io.Plain)
    (hs : shift.toNat = 8 * (offset.toNat % 4)) (hmask : mask.toNat = 2 ^ (8 * n) - 1) (hv : value.toNat < 2 ^ (8 * n))
    (hn : offset.toNat % 4 + n ≤ 4) :
    (pciConfigWriteUnder io bus device function offset mask value shift).Plain ∧ ∀ x < 2 ^ 24,
      (pciConfigWriteUnder io bus device function offset mask value shift).bytes x =
        store io.bytes (configByte bus device function offset) n value.toNat x := by
  have hk : configByte bus device function offset % 4 = offset.toNat % 4 := configByte_mod
  rw [writeUnder_eq (selected_pciConfigAddress io bus offset hd hf), configTarget_eq, hplain, writeOneToClear_zero]
  refine ⟨hplain, ?_⟩
  intro x hx
  refine bytes_update (configByte_lt hd hf) (by omega) (fun j hj => ?_) hx
  rw [hk]
  exact lane_splice hs hmask hv (by omega) hj

/-- An aligned write is the store. -/
theorem PciWrite.run_bytes {w : PciWrite} (hw : w.Aligned) (hplain : io.Plain) :
    (w.run io).Plain ∧ ∀ x < 2 ^ 24, (w.run io).bytes x = w.store io.bytes x := by
  cases w with
  | byte bus device function offset v =>
    obtain ⟨hd, hf⟩ := hw
    have hv : v.toUInt32.toNat = v.toNat := UInt8.toNat_toUInt32 v
    have hvlt := v.toNat_lt
    rw [PciWrite.run, pciConfigWrite8, PciWrite.store, ← hv]
    exact writeUnder_bytes bus hd hf hplain (toNat_shift8 offset) (by decide) (by omega) (by omega)
  | word bus device function offset v =>
    obtain ⟨hd, hf, ho⟩ := hw
    have hv : v.toUInt32.toNat = v.toNat := UInt16.toNat_toUInt32 v
    have hvlt := v.toNat_lt
    rw [PciWrite.run, pciConfigWrite16, PciWrite.store, ← hv]
    exact writeUnder_bytes bus hd hf hplain (toNat_shift16 ho) (by decide) (by omega) (by omega)
  | dword bus device function offset v =>
    obtain ⟨hd, hf, ho⟩ := hw
    have hk : configByte bus device function offset % 4 = 0 := configByte_mod.trans ho
    have hsel := selected_pciConfigAddress io bus offset hd hf
    rw [PciWrite.run, write32_eq hsel, configTarget_eq, hplain, writeOneToClear_zero]
    refine ⟨hplain, ?_⟩
    intro x hx
    refine bytes_update (configByte_lt hd hf) (by omega) (fun j hj => ?_) hx
    rw [hk, if_pos (by omega), Nat.sub_zero]

/-- A store to equal arrays gives equal arrays. -/
theorem PciWrite.store_congr {m m' : Mem} (w : PciWrite) {x : Nat} (h : m x = m' x) : w.store m x = w.store m' x := by
  cases w <;> simp only [PciWrite.store, Bytes.store, h]

theorem run_bytes {ws : List PciWrite} (hws : ∀ w ∈ ws, w.Aligned) (hplain : io.Plain) {x : Nat} (hx : x < 2 ^ 24) :
    (ws.foldl PciWrite.run io).Plain ∧ (ws.foldl PciWrite.run io).bytes x = ws.foldl PciWrite.store io.bytes x := by
  induction ws using List.reverseRecOn with
  | nil => exact ⟨hplain, rfl⟩
  | append_singleton ws w ih =>
    obtain ⟨hplain', hsame⟩ := ih fun w' hw' => hws w' (by simp [hw'])
    obtain ⟨hplain'', hstep⟩ := PciWrite.run_bytes (hws w (by simp)) hplain'
    rw [List.foldl_append, List.foldl_append]
    exact ⟨hplain'', (hstep x hx).trans (w.store_congr hsame)⟩

/-! ## Reads -/

theorem toNat_shiftRight_lane {d : UInt32} (hs : shift.toNat = 8 * k) (hk : k < 4) :
    (d >>> shift).toNat = d.toNat / 256 ^ k := by
  rw [UInt32.toNat_shiftRight, hs, Nat.mod_eq_of_lt (by omega), Nat.shiftRight_eq_div_pow, Nat.pow_mul]

theorem read8_bytes (io : ConfigPorts) (bus offset : UInt8) (hd : device.toNat < 32) (hf : function.toNat < 8) :
    (pciConfigRead8 io bus device function offset).1 = io.bytes (configByte bus device function offset) := by
  have hk : configByte bus device function offset % 4 = offset.toNat % 4 := configByte_mod
  have hm : (0xFF : UInt32).toNat = 2 ^ 8 - 1 := rfl
  have hsel := selected_pciConfigAddress io bus offset hd hf
  rw [pciConfigRead8, read32_eq hsel, ConfigPorts.bytes, configTarget_eq, lane, hk]
  apply UInt8.toNat.inj
  simp only [UInt32.toNat_toUInt8, UInt32.toNat_and, hm, Nat.and_two_pow_sub_one_eq_mod, UInt8.toNat_ofNat',
    toNat_shiftRight_lane (toNat_shift8 offset) (Nat.mod_lt _ (by decide))]
  omega

theorem read16_bytes (io : ConfigPorts) (bus : UInt8) (hd : device.toNat < 32) (hf : function.toNat < 8)
    (ho : offset.toNat % 2 = 0) : (pciConfigRead16 io bus device function offset).1 =
      UInt16.ofNat (load io.bytes (configByte bus device function offset) 2) := by
  have hk : configByte bus device function offset % 4 = offset.toNat % 4 := configByte_mod
  have hm : (0xFFFF : UInt32).toNat = 2 ^ 16 - 1 := rfl
  have hsel := selected_pciConfigAddress io bus offset hd hf
  rw [pciConfigRead16, read32_eq hsel, load_bytes (configByte_lt hd hf) (by omega), configTarget_eq, hk]
  apply UInt16.toNat.inj
  simp only [UInt32.toNat_toUInt16, UInt32.toNat_and, hm, Nat.and_two_pow_sub_one_eq_mod, UInt16.toNat_ofNat',
    toNat_shiftRight_lane (toNat_shift16 ho) (Nat.mod_lt _ (by decide))]
  omega

theorem read32_bytes (io : ConfigPorts) (bus : UInt8) (hd : device.toNat < 32) (hf : function.toNat < 8)
    (ho : offset.toNat % 4 = 0) : (pciConfigRead32 io bus device function offset).1 =
      load32 io.bytes (configByte bus device function offset) := by
  have hk : configByte bus device function offset % 4 = 0 := configByte_mod.trans ho
  have hsel := selected_pciConfigAddress io bus offset hd hf
  rw [read32_eq hsel, load32, load_bytes (configByte_lt hd hf) (by omega), configTarget_eq, hk]
  have hlt : (io.contents (configWord (configByte bus device function offset))).toNat < 256 ^ 4 :=
    (io.contents (configWord (configByte bus device function offset))).toNat_lt
  rw [Nat.pow_zero, Nat.div_one, Nat.mod_eq_of_lt hlt, UInt32.ofNat_toNat]

end Space

/-- A space where every word is `contents`, and a 1 clears the bits of `clears`. -/
def uniformSpace (contents clears : UInt32) : ConfigPorts := ⟨0, fun _ => contents, fun _ => clears, []⟩

/-- **Narrow writes.** A write of one byte, and of two at an even offset, keeps
every other byte of the space if and only if no bit of the word outside them
is set that a 1 clears. -/
theorem narrow_writes_keep_iff (io : ConfigPorts) (bus device function offset : UInt8) (hd : device.toNat < 32)
    (hf : function.toNat < 8) :
    (∀ value, UnchangedBut io (pciConfigWrite8 io bus device function offset value)
        (configTarget bus device function offset hd hf) (offset.toNat % 4) 1 ↔
      NoneToClear io (configTarget bus device function offset hd hf) (offset.toNat % 4) 1) ∧
    (offset.toNat % 2 = 0 → ∀ value, UnchangedBut io (pciConfigWrite16 io bus device function offset value)
        (configTarget bus device function offset hd hf) (offset.toNat % 4) 2 ↔
      NoneToClear io (configTarget bus device function offset hd hf) (offset.toNat % 4) 2) := by
  have hk : offset.toNat % 4 < 4 := Nat.mod_lt _ (by decide)
  constructor
  · intro value
    have hv : value.toUInt32.toNat < 2 ^ (8 * 1) := by
      rw [UInt8.toNat_toUInt32]
      exact value.toNat_lt
    exact writeUnder_unchanged_iff io bus offset hd hf (toNat_shift8 offset) (by decide) hv hk
  · intro ho value
    have hv : value.toUInt32.toNat < 2 ^ (8 * 2) := by
      rw [UInt16.toNat_toUInt32]
      exact value.toNat_lt
    exact writeUnder_unchanged_iff io bus offset hd hf (toNat_shift16 ho) (by decide) hv hk

theorem narrow_writes_keep_iff_command :
    (∀ value, UnchangedBut (uniformSpace 7 0) (pciConfigWrite8 (uniformSpace 7 0) 0 3 1 4 value)
        (configTarget 0 3 1 4 (by decide) (by decide)) 0 1 ↔
      NoneToClear (uniformSpace 7 0) (configTarget 0 3 1 4 (by decide) (by decide)) 0 1) ∧
    ((4 : UInt8).toNat % 2 = 0 → ∀ value, UnchangedBut (uniformSpace 7 0)
        (pciConfigWrite16 (uniformSpace 7 0) 0 3 1 4 value) (configTarget 0 3 1 4 (by decide) (by decide)) 0 2 ↔
      NoneToClear (uniformSpace 7 0) (configTarget 0 3 1 4 (by decide) (by decide)) 0 2) :=
  narrow_writes_keep_iff (uniformSpace 7 0) 0 3 1 4 (by decide) (by decide)

/-- The command register is written, and the status register above it loses
the error it had recorded. -/
theorem command_write_clears_status :
    lane ((uniformSpace 0x20000007 0xF9000000).contents (configTarget 0 3 1 4 (by decide) (by decide))) 3 = 0x20 ∧
    lane ((pciConfigWrite16 (uniformSpace 0x20000007 0xF9000000) 0 3 1 4 6).contents
      (configTarget 0 3 1 4 (by decide) (by decide))) 3 = 0 := by
  decide +kernel

/-- **One array of bytes.** After any aligned writes a read at any aligned
offset of any function loads what the same stores leave in the array of the
bytes there were, and registers with different names are different. -/
theorem config_space_coherent (io : ConfigPorts) (hplain : io.Plain) (ws : List PciWrite)
    (hws : ∀ w ∈ ws, w.Aligned) (bus device function offset : UInt8) (hd : device.toNat < 32) (hf : function.toNat < 8) :
    (pciConfigRead8 (ws.foldl PciWrite.run io) bus device function offset).1 =
        ws.foldl PciWrite.store io.bytes (configByte bus device function offset) ∧
      (offset.toNat % 2 = 0 → (pciConfigRead16 (ws.foldl PciWrite.run io) bus device function offset).1 =
        UInt16.ofNat (load (ws.foldl PciWrite.store io.bytes) (configByte bus device function offset) 2)) ∧
      (offset.toNat % 4 = 0 → (pciConfigRead32 (ws.foldl PciWrite.run io) bus device function offset).1 =
        load32 (ws.foldl PciWrite.store io.bytes) (configByte bus device function offset)) ∧
      ∀ bus' device' function' offset' : UInt8, device'.toNat < 32 → function'.toNat < 8 →
        ({ io with address := pciConfigAddress bus device function offset }).selected =
          ({ io with address := pciConfigAddress bus' device' function' offset' }).selected →
        bus = bus' ∧ device = device' ∧ function = function' ∧ offset.toNat / 4 = offset'.toNat / 4 := by
  have hlt : configByte bus device function offset < 2 ^ 24 := configByte_lt hd hf
  have ho := offset.toNat_lt
  have hsame : ∀ x < 2 ^ 24, (ws.foldl PciWrite.run io).bytes x = ws.foldl PciWrite.store io.bytes x :=
    fun x hx => (run_bytes hws hplain hx).2
  refine ⟨?_, ?_, ?_, ?_⟩
  · rw [read8_bytes _ bus offset hd hf, hsame _ hlt]
  · intro heven
    rw [read16_bytes _ bus hd hf heven, load_congr fun x h1 h2 => hsame x (by unfold configByte at *; omega)]
  · intro hfour
    rw [read32_bytes _ bus hd hf hfour, load32, load32,
      load_congr fun x h1 h2 => hsame x (by unfold configByte at *; omega)]
  · intro bus' device' function' offset' hd' hf' hsel
    rw [selected_pciConfigAddress io bus offset hd hf, selected_pciConfigAddress io bus' offset' hd' hf',
      Option.some.injEq, configTarget, configTarget, ConfigAddress.mk.injEq] at hsel
    simp only [Fin.mk.injEq] at hsel
    obtain ⟨hbus, hdevice, hfunction, hregister⟩ := hsel
    exact ⟨UInt8.toNat.inj hbus, UInt8.toNat.inj hdevice, UInt8.toNat.inj hfunction, hregister⟩

theorem config_space_coherent_two_writes :
    (pciConfigRead8 ([PciWrite.dword 0 3 1 4 0x11223344, .byte 0 3 1 5 0xAA].foldl PciWrite.run (uniformSpace 7 0))
        0 3 1 5).1 =
        [PciWrite.dword 0 3 1 4 0x11223344, .byte 0 3 1 5 0xAA].foldl PciWrite.store (uniformSpace 7 0).bytes
          (configByte 0 3 1 5) := by
  refine (config_space_coherent (uniformSpace 7 0) (fun _ => rfl) _ (fun w hw => ?_) 0 3 1 5 (by decide) (by decide)).1
  simp only [List.mem_cons, List.not_mem_nil, or_false] at hw
  rcases hw with rfl | rfl
  · exact ⟨by decide, by decide, by decide⟩
  · exact ⟨by decide, by decide⟩

end Tinos
