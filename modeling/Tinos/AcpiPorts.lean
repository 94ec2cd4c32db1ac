/-
Port I/O for the ACPI library (`kernel/acpi/kernel_apis.c`): ranges of ports
opened by `uacpi_kernel_io_map`, and reads and writes of 1, 2 and 4 bytes in
them.

`port_io_contained_iff`: where a read and a write of the same width keep to
the range and to the 65536 ports there are, and accept the same offset. They
do not where a write of 2 or 4 bytes starts inside the range and ends past
it, where the sum of offset and width wraps, and past the last port.
-/
import Tinos.AcpiHandles

namespace Tinos

open Bytes

/-! ## Ports -/

inductive PortWidth
  | byte
  | word
  | dword
deriving DecidableEq

def PortWidth.bytes : PortWidth → Nat
  | .byte => 1
  | .word => 2
  | .dword => 4

/-- An `out` of a value, or an `in`. -/
structure PortAccess where
  width : PortWidth
  port : UInt16
  written : Option UInt32

/-- The accesses so far, and what the devices answer to the last of them. -/
structure Ports where
  accesses : List PortAccess
  device : List PortAccess → UInt32

def Ports.input (io : Ports) (width : PortWidth) (port : UInt16) : UInt32 × Ports :=
  let accesses := io.accesses ++ [⟨width, port, none⟩]
  (io.device accesses, { io with accesses })

def Ports.output (io : Ports) (width : PortWidth) (port : UInt16) (value : UInt32) : Ports :=
  { io with accesses := io.accesses ++ [⟨width, port, some value⟩] }

def inb (io : Ports) (port : UInt16) : UInt8 × Ports :=
  let (value, io) := io.input .byte port
  (value.toUInt8, io)

def inw (io : Ports) (port : UInt16) : UInt16 × Ports :=
  let (value, io) := io.input .word port
  (value.toUInt16, io)

def inl (io : Ports) (port : UInt16) : UInt32 × Ports := io.input .dword port

def outb (io : Ports) (port : UInt16) (value : UInt8) : Ports := io.output .byte port value.toUInt32
def outw (io : Ports) (port : UInt16) (value : UInt16) : Ports := io.output .word port value.toUInt32
def outl (io : Ports) (port : UInt16) (value : UInt32) : Ports := io.output .dword port value

/-! ## Ranges -/

def ioBase (m : Mem) (io : UInt64) : UInt64 := load64 m io.toNat
def ioLen (m : Mem) (io : UInt64) : UInt64 := load64 m (io.toNat + 8)

def uacpiKernelIoMap (pool : MemoryPool) (h : Heap) (base len : UInt64) (outHandle : Option UInt64) :
    Option (UacpiStatus × Option UInt64 × Heap) :=
  if outHandle.isNone || len == 0 then some (.invalidArgument, outHandle, h)
  else do
    let (io, h) ← uacpiKernelAlloc pool h 16
    if io == 0 then
      return (.outOfMemory, outHandle, h)
    else
      let m := store64 h.mem io.toNat base
      let m := store64 m (io.toNat + 8) len
      return (.ok, some io, { h with mem := m })

/-! ## Reads and writes -/

/-- The port of an offset, unless the check of the accessor refuses it. -/
def ioPort (m : Mem) (handle offset : UInt64) (refused : UInt64 → UInt64 → Bool) : Option UInt16 :=
  if handle == 0 then none
  else if refused offset (ioLen m handle) then none
  else some (ioBase m handle + offset).toUInt16

def ioRead {α : Type} (input : Ports → UInt16 → α × Ports) (refused : UInt64 → UInt64 → Bool) (m : Mem) (io : Ports)
    (handle offset : UInt64) (outValue : Option α) : UacpiStatus × Option α × Ports :=
  if outValue.isNone then (.invalidArgument, outValue, io)
  else
    match ioPort m handle offset refused with
    | none => (.invalidArgument, outValue, io)
    | some port =>
      let (value, io) := input io port
      (.ok, some value, io)

def ioWrite {α : Type} (output : Ports → UInt16 → α → Ports) (refused : UInt64 → UInt64 → Bool) (m : Mem) (io : Ports)
    (handle offset : UInt64) (inValue : α) : UacpiStatus × Ports :=
  match ioPort m handle offset refused with
  | none => (.invalidArgument, io)
  | some port => (.ok, output io port inValue)

def uacpiKernelIoRead8 := ioRead inb fun offset len => len ≤ offset
def uacpiKernelIoRead16 := ioRead inw fun offset len => len < offset + 2
def uacpiKernelIoRead32 := ioRead inl fun offset len => len < offset + 4

def uacpiKernelIoWrite8 := ioWrite outb fun offset len => len ≤ offset
def uacpiKernelIoWrite16 := ioWrite outw fun offset len => len ≤ offset
def uacpiKernelIoWrite32 := ioWrite outl fun offset len => len ≤ offset

/-- A read of a width, into a variable that holds `value`. -/
def PortWidth.read (width : PortWidth) (m : Mem) (io : Ports) (handle offset : UInt64) (value : UInt32) :
    UacpiStatus × Ports :=
  match width with
  | .byte =>
    let (status, _, io) := uacpiKernelIoRead8 m io handle offset (some value.toUInt8)
    (status, io)
  | .word =>
    let (status, _, io) := uacpiKernelIoRead16 m io handle offset (some value.toUInt16)
    (status, io)
  | .dword =>
    let (status, _, io) := uacpiKernelIoRead32 m io handle offset (some value)
    (status, io)

def PortWidth.write (width : PortWidth) (m : Mem) (io : Ports) (handle offset : UInt64) (value : UInt32) :
    UacpiStatus × Ports :=
  match width with
  | .byte => uacpiKernelIoWrite8 m io handle offset value.toUInt8
  | .word => uacpiKernelIoWrite16 m io handle offset value.toUInt16
  | .dword => uacpiKernelIoWrite32 m io handle offset value

/-! ## What an access keeps to -/

/-- The bytes at the offset are in the range, and their ports exist. -/
def Reaches (base len offset : UInt64) (width : PortWidth) : Prop :=
  offset.toNat + width.bytes ≤ len.toNat ∧ base.toNat + offset.toNat + width.bytes ≤ 65536

/-- One access, of bytes in the range at their own ports; or the argument is
refused, and there is none. -/
def Contained (base len offset : UInt64) (width : PortWidth) (io : Ports) (r : UacpiStatus × Ports) : Prop :=
  (Reaches base len offset width ∧ r.1 = .ok ∧ ∃ a, r.2.accesses = io.accesses ++ [a] ∧ a.width = width ∧
    a.port.toNat = base.toNat + offset.toNat) ∨
  (r.1 = .invalidArgument ∧ r.2 = io)

/-- The access is in the range, or starts past it, and the end of a 2 or 4
byte one does not wrap into it. -/
def IoExact (base len offset : UInt64) (width : PortWidth) : Prop :=
  Reaches base len offset width ∨
    len ≤ offset ∧ (width = .byte ∨ len.toNat < (offset.toNat + width.bytes) % 2 ^ 64)

section Accessors

variable {pool : MemoryPool} {h h' : Heap} {m : Mem} {io : Ports} {base len handle offset value : UInt64}
  {outHandle : Option UInt64} {width : PortWidth}

/-- The checks of the three reads. -/
def PortWidth.readRefused (width : PortWidth) (offset len : UInt64) : Bool :=
  match width with
  | .byte => len ≤ offset
  | .word => len < offset + 2
  | .dword => len < offset + 4

theorem ioRead_eq {α : Type} (input : Ports → UInt16 → α × Ports) (refused : UInt64 → UInt64 → Bool) (m : Mem)
    (io : Ports) (hh : handle ≠ 0) (offset : UInt64) (x : α) : ((ioRead input refused m io handle offset (some x)).1,
        (ioRead input refused m io handle offset (some x)).2.2) =
      if refused offset (ioLen m handle) = true then (.invalidArgument, io)
      else (.ok, (input io (ioBase m handle + offset).toUInt16).2) := by
  have h0 : (handle == 0) = false := beq_eq_false_iff_ne.mpr hh
  simp only [ioRead, ioPort, h0, Option.isNone_some, Bool.false_eq_true, if_false]
  by_cases hr : refused offset (ioLen m handle) = true
  · simp only [hr, if_true]
  · simp only [hr, Bool.false_eq_true, if_false]

theorem ioWrite_eq {α : Type} (output : Ports → UInt16 → α → Ports) (refused : UInt64 → UInt64 → Bool) (m : Mem)
    (io : Ports) (hh : handle ≠ 0) (offset : UInt64) (x : α) : ioWrite output refused m io handle offset x =
      if refused offset (ioLen m handle) = true then (.invalidArgument, io)
      else (.ok, output io (ioBase m handle + offset).toUInt16 x) := by
  have h0 : (handle == 0) = false := beq_eq_false_iff_ne.mpr hh
  simp only [ioWrite, ioPort, h0, Bool.false_eq_true, if_false]
  by_cases hr : refused offset (ioLen m handle) = true
  · simp only [hr, if_true]
  · simp only [hr, Bool.false_eq_true, if_false]

theorem read_eq (width : PortWidth) (m : Mem) (io : Ports) (hh : handle ≠ 0) (offset : UInt64) (v : UInt32) :
    width.read m io handle offset v =
      if width.readRefused offset (ioLen m handle) = true then (.invalidArgument, io)
      else (.ok, (io.input width (ioBase m handle + offset).toUInt16).2) := by
  cases width with
  | byte => exact ioRead_eq inb (fun offset len => len ≤ offset) m io hh offset v.toUInt8
  | word => exact ioRead_eq inw (fun offset len => len < offset + 2) m io hh offset v.toUInt16
  | dword => exact ioRead_eq inl (fun offset len => len < offset + 4) m io hh offset v

theorem write_eq (width : PortWidth) (m : Mem) (io : Ports) (hh : handle ≠ 0) (offset : UInt64) (v : UInt32) :
    ∃ w, width.write m io handle offset v =
      if decide (ioLen m handle ≤ offset) = true then (.invalidArgument, io)
      else (.ok, io.output width (ioBase m handle + offset).toUInt16 w) := by
  cases width with
  | byte => exact ⟨v.toUInt8.toUInt32, ioWrite_eq outb (fun offset len => len ≤ offset) m io hh offset v.toUInt8⟩
  | word => exact ⟨v.toUInt16.toUInt32, ioWrite_eq outw (fun offset len => len ≤ offset) m io hh offset v.toUInt16⟩
  | dword => exact ⟨v, ioWrite_eq outl (fun offset len => len ≤ offset) m io hh offset v⟩

/-- What a handle from `uacpi_kernel_io_map` points to. -/
theorem ioMap_fields (hmap : uacpiKernelIoMap pool h base len outHandle = some (.ok, some handle, h')) :
    handle ≠ 0 ∧ ioBase h'.mem handle = base ∧ ioLen h'.mem handle = len := by
  unfold uacpiKernelIoMap at hmap
  split at hmap
  · cases hmap
  simp only [Option.bind_eq_bind, Option.bind_eq_some_iff] at hmap
  obtain ⟨⟨p, h₁⟩, -, hmap⟩ := hmap
  split at hmap
  · cases hmap
  rename_i hp
  simp only [Option.pure_def, Option.some.injEq, Prod.mk.injEq, true_and] at hmap
  obtain ⟨rfl, rfl⟩ := hmap
  refine ⟨fun h0 => hp (beq_iff_eq.mpr h0), ?_, load64_store64 len⟩
  rw [ioBase, load64_store64_disjoint (.inl (Nat.le_refl _)), load64_store64]

theorem PortWidth.readRefused_iff : width.readRefused offset value = true ↔
    (width = .byte ∧ value ≤ offset) ∨ (width ≠ .byte ∧ value.toNat < (offset.toNat + width.bytes) % 2 ^ 64) := by
  cases width with
  | byte => simp [PortWidth.readRefused]
  | word =>
    simp only [PortWidth.readRefused, decide_eq_true_eq, UInt64.lt_iff_toNat_lt, UInt64.toNat_add]
    simp [PortWidth.bytes]
  | dword =>
    simp only [PortWidth.readRefused, decide_eq_true_eq, UInt64.lt_iff_toNat_lt, UInt64.toNat_add]
    simp [PortWidth.bytes]

/-- An accessor that makes its access at the truncated sum is contained where
it refuses, and where the access reaches. -/
theorem contained_iff {refused : Bool} {io' : Ports} {a : PortAccess} {r : UacpiStatus × Ports}
    (hr : r = if refused = true then (.invalidArgument, io) else (.ok, io')) (ha : io'.accesses = io.accesses ++ [a])
    (hw : a.width = width) (hp : a.port = (base + offset).toUInt16) :
    Contained base len offset width io r ↔ refused = true ∨ Reaches base len offset width := by
  subst hr
  cases refused with
  | true => simp [Contained]
  | false =>
    have hport : Reaches base len offset width → a.port.toNat = base.toNat + offset.toNat := by
      rintro ⟨-, hlast⟩
      have hpos : 0 < width.bytes := by cases width <;> decide
      rw [hp, UInt64.toNat_toUInt16, UInt64.toNat_add, Nat.mod_eq_of_lt (by omega), Nat.mod_eq_of_lt (by omega)]
    simp only [Contained, Bool.false_eq_true, if_false, false_or, true_and, reduceCtorEq, false_and, or_false]
    exact ⟨fun h => h.1, fun h => ⟨h, a, ha, hw, hport h⟩⟩

/-- The first range of a fresh heap. -/
theorem ioMap_eightPorts : ∃ h', uacpiKernelIoMap poolAt4096 ⟨fun _ => 0, 0, false⟩ 0x400 8 (some 0) =
    some (.ok, some 4120, h') := by
  have hrun : (uacpiKernelIoMap poolAt4096 ⟨fun _ => 0, 0, false⟩ 0x400 8 (some 0)).map (fun r => (r.1, r.2.1)) =
      some (.ok, some 4120) := by decide +kernel
  obtain ⟨⟨status, handle, h'⟩, hmap, he⟩ := Option.map_eq_some_iff.mp hrun
  obtain ⟨rfl, rfl⟩ := Prod.mk.inj he
  exact ⟨h', hmap⟩

/-- **Port I/O in a range.** A read and a write of one width and offset keep to
the range and its ports and accept the same if and only if the access is
inside, or refused by both checks. -/
theorem port_io_contained_iff (hmap : uacpiKernelIoMap pool h base len outHandle = some (.ok, some handle, h'))
    (offset : UInt64) (width : PortWidth) (io : Ports) (v w : UInt32) :
    (Contained base len offset width io (width.read h'.mem io handle offset v) ∧
      Contained base len offset width io (width.write h'.mem io handle offset w) ∧
      ((width.read h'.mem io handle offset v).1 = .ok ↔ (width.write h'.mem io handle offset w).1 = .ok)) ↔
    IoExact base len offset width := by
  obtain ⟨hh, hbase, hlen⟩ := ioMap_fields hmap
  have hread := read_eq width h'.mem io hh offset v
  obtain ⟨x, hwrite⟩ := write_eq width h'.mem io hh offset w
  rw [hbase, hlen] at hread hwrite
  rw [contained_iff hread rfl rfl rfl, contained_iff hwrite rfl rfl rfl]
  have hok : ∀ {refused : Bool} {io' : Ports}, (if refused = true then (UacpiStatus.invalidArgument, io) else
      (UacpiStatus.ok, io')).1 = .ok ↔ ¬ refused = true := by
    intro refused io'
    cases refused <;> simp
  rw [hread, hwrite, hok, hok, PortWidth.readRefused_iff, decide_eq_true_eq, UInt64.le_iff_toNat_le, IoExact,
    UInt64.le_iff_toNat_le]
  have hlt := len.toNat_lt
  by_cases hin : Reaches base len offset width
  · -- Inside, neither check refuses.
    obtain ⟨hend, -⟩ := id hin
    have hpos : 0 < width.bytes := by cases width <;> decide
    have hmod : (offset.toNat + width.bytes) % 2 ^ 64 = offset.toNat + width.bytes := Nat.mod_eq_of_lt (by omega)
    simp only [hin, or_true, true_or, true_and, iff_true, hmod]
    omega
  · simp only [hin, or_false, false_or]
    by_cases hbyte : width = .byte
    · simp only [hbyte, true_and, ne_eq, not_true, false_and, or_false, true_or, and_true, and_self]
    · simp only [hbyte, false_and, ne_eq, not_false_iff, true_and, false_or]
      constructor
      · rintro ⟨hsum, hout, -⟩
        exact ⟨hout, hsum⟩
      · rintro ⟨hout, hsum⟩
        exact ⟨hsum, hout, fun h => absurd hsum h, fun h => absurd hout h⟩

end Accessors

theorem port_io_contained_iff_dword : ∃ h', uacpiKernelIoMap poolAt4096 ⟨fun _ => 0, 0, false⟩ 0x400 8 (some 0) =
    some (.ok, some 4120, h') ∧
    ((Contained 0x400 8 4 .dword ⟨[], fun _ => 0⟩ (PortWidth.dword.read h'.mem ⟨[], fun _ => 0⟩ 4120 4 0) ∧
      Contained 0x400 8 4 .dword ⟨[], fun _ => 0⟩ (PortWidth.dword.write h'.mem ⟨[], fun _ => 0⟩ 4120 4 7) ∧
      ((PortWidth.dword.read h'.mem ⟨[], fun _ => 0⟩ 4120 4 0).1 = .ok ↔
        (PortWidth.dword.write h'.mem ⟨[], fun _ => 0⟩ 4120 4 7).1 = .ok)) ↔ IoExact 0x400 8 4 .dword) := by
  obtain ⟨h', hmap⟩ := ioMap_eightPorts
  exact ⟨h', hmap, port_io_contained_iff hmap 4 .dword _ 0 7⟩

/-- Four bytes written at the last of eight: the ports past the range are
written too, and the read there is refused. -/
theorem dword_written_past_range : ∃ h', uacpiKernelIoMap poolAt4096 ⟨fun _ => 0, 0, false⟩ 0x400 8 (some 0) =
    some (.ok, some 4120, h') ∧
    uacpiKernelIoWrite32 h'.mem ⟨[], fun _ => 0⟩ 4120 7 0x11223344 =
      (.ok, ⟨[⟨.dword, 0x407, some 0x11223344⟩], fun _ => 0⟩) ∧
    (uacpiKernelIoRead32 h'.mem ⟨[], fun _ => 0⟩ 4120 7 (some 0)).1 = .invalidArgument ∧
    ¬ Contained 0x400 8 7 .dword ⟨[], fun _ => 0⟩ (uacpiKernelIoWrite32 h'.mem ⟨[], fun _ => 0⟩ 4120 7 0x11223344) := by
  obtain ⟨h', hmap⟩ := ioMap_eightPorts
  obtain ⟨hh, hbase, hlen⟩ := ioMap_fields hmap
  have hwrite : uacpiKernelIoWrite32 h'.mem ⟨[], fun _ => 0⟩ 4120 7 0x11223344 =
      (.ok, ⟨[⟨.dword, 0x407, some 0x11223344⟩], fun _ => 0⟩) := by
    have hport : ((0x400 : UInt64) + 7).toUInt16 = 0x407 := by decide
    rw [uacpiKernelIoWrite32, ioWrite_eq outl _ _ _ hh, hbase, hlen, if_neg (by decide), hport]
    rfl
  have hread : (uacpiKernelIoRead32 h'.mem ⟨[], fun _ => 0⟩ 4120 7 (some 0)).1 = .invalidArgument := by
    have hread := ioRead_eq inl (fun offset len => len < offset + 4) h'.mem ⟨[], fun _ => 0⟩ hh 7 0
    rw [hlen, if_pos (by decide)] at hread
    exact (Prod.mk.inj hread).1
  refine ⟨h', hmap, hwrite, hread, ?_⟩
  rw [hwrite]
  rintro (⟨⟨hend, -⟩, -⟩ | ⟨hstatus, -⟩)
  · exact absurd hend (by decide)
  · cases hstatus

end Tinos
