/-
The start of `_main` (`kernel/main.c`): the loop over the multiboot memory
map, which adds every available entry to the memory manager, and the
reservation of the kernel image.

`boot_free_frames`: for a map laid out as the multiboot header says, the
frames left free are those wholly inside one available entry and off the
kernel image, however the entries are ordered.
-/
import Tinos.Lib.Bytes
import Tinos.PmmRuns

namespace Tinos

open Bytes

def multibootMemoryAvailable : UInt32 := 1

/-- The fields of `multiboot_info_t` that `_main` reads. -/
structure MultibootInfo where
  mmapLength : UInt32
  mmapAddr : UInt32

/-- `multiboot_memory_map_t`. -/
structure MmapEntry where
  size : UInt32
  addrLow : UInt32
  addrHigh : UInt32
  lenLow : UInt32
  lenHigh : UInt32
  type : UInt32
deriving DecidableEq

/-- The entry at `a`. -/
def mmapEntry (m : Mem) (a : Nat) : MmapEntry where
  size := load32 m a
  addrLow := load32 m (a + 4)
  addrHigh := load32 m (a + 8)
  lenLow := load32 m (a + 12)
  lenHigh := load32 m (a + 16)
  type := load32 m (a + 20)

def MmapEntry.base (e : MmapEntry) : UInt64 := (e.addrHigh.toUInt64 <<< 32) ||| e.addrLow.toUInt64
def MmapEntry.length (e : MmapEntry) : UInt64 := (e.lenHigh.toUInt64 <<< 32) ||| e.lenLow.toUInt64

/-- The loop over the map, from the entry at `entry` up to `stop`, with the
memory counted so far. The addresses are below `2^34`, so none wraps. -/
def mmapLoop (m : Mem) (entry stop : Nat) (s : Pmm) (total : UInt64) : Option (Pmm × UInt64) :=
  if entry < stop then
    let e := mmapEntry m entry
    let next := entry + e.size.toNat + 4
    if e.type = multibootMemoryAvailable then do
      let s ← pmmAddRegion s e.base e.length
      mmapLoop m next stop s (total + e.length)
    else
      mmapLoop m next stop s total
  else some (s, total)
termination_by stop - entry

/-- `_main` up to `vmm_init`: the manager, and the memory total printed. -/
def mainMemory (m : Mem) (info : MultibootInfo) (kernelStart kernelEnd : UInt64) :
    Option (Pmm × UInt64) := do
  let start := info.mmapAddr.toNat
  let (s, total) ← mmapLoop m start (start + info.mmapLength.toNat) pmmInit 0
  let s ← pmmReserveRegion s kernelStart (kernelEnd - kernelStart)
  return (s, total)

/-! ## Well-formed maps -/

/-- The entries `es` follow each other from `a` up to `stop` exactly. -/
inductive MapAt (m : Mem) : Nat → List MmapEntry → Nat → Prop
  | nil : MapAt m a [] a
  | cons : 20 ≤ (mmapEntry m a).size.toNat → MapAt m (a + (mmapEntry m a).size.toNat + 4) es stop →
      MapAt m a (mmapEntry m a :: es) stop

theorem MapAt.le {m a es stop} (h : MapAt m a es stop) : a ≤ stop := by
  induction h with
  | nil => exact le_refl _
  | cons _ _ ih => omega

def MmapEntry.available (e : MmapEntry) : Bool := e.type == multibootMemoryAvailable

/-- The regions the loop adds. -/
def availableRegions (es : List MmapEntry) : List Region :=
  (es.filter MmapEntry.available).map fun e => (e.base, e.length)

/-- The walk of a well-formed map adds its available entries in order. -/
theorem mmapLoop_spec {m a es stop} (h : MapAt m a es stop) : ∀ (s : Pmm) (total : UInt64),
    (mmapLoop m a stop s total).map (·.1) = addRegions s (availableRegions es) := by
  induction h with
  | nil =>
    intro s total
    rw [mmapLoop, if_neg (lt_irrefl _)]
    rfl
  | @cons a es stop _ hes ih =>
    intro s total
    have hlt : a < stop := by have := hes.le; omega
    rw [mmapLoop, if_pos hlt]
    by_cases hty : (mmapEntry m a).type = multibootMemoryAvailable
    · have hav : (mmapEntry m a).available = true := by simp [MmapEntry.available, hty]
      simp only [hty, if_true, availableRegions, List.filter_cons_of_pos hav, List.map_cons, addRegions,
        List.foldlM_cons, Option.bind_eq_bind, Option.map_bind]
      congr 1
      funext t
      exact ih t _
    · have hav : ¬ (mmapEntry m a).available = true := by simpa [MmapEntry.available] using hty
      simp only [hty, if_false, availableRegions, List.filter_cons_of_neg hav]
      exact ih s total

theorem exists_availableRegions {es : List MmapEntry} {P : UInt64 → UInt64 → Prop} :
    (∃ r ∈ availableRegions es, P r.1 r.2) ↔
      ∃ e ∈ es, e.type = multibootMemoryAvailable ∧ P e.base e.length := by
  simp [availableRegions, MmapEntry.available, and_assoc]

/-- Frame `p` shares a byte with the kernel image. -/
def InImage (p : ℕ) (kernelStart kernelEnd : UInt64) : Prop :=
  ∃ a, kernelStart.toNat ≤ a ∧ a < kernelEnd.toNat ∧ 4096 * p ≤ a ∧ a < 4096 * p + 4096

/-- What boot leaves of a map, frame by frame. -/
theorem mainMemory_spec {m : Mem} {info : MultibootInfo} {es : List MmapEntry} {kernelStart kernelEnd : UInt64}
    (hmap : MapAt m info.mmapAddr.toNat es (info.mmapAddr.toNat + info.mmapLength.toNat))
    (hfits : ∀ e ∈ es, Fits e.base e.length) (hk : kernelStart < kernelEnd)
    (hend : kernelEnd.toNat ≤ 2 ^ 64 - 4096) :
    ∃ s total, mainMemory m info kernelStart kernelEnd = some (s, total) ∧ Counted s ∧
      ∀ p, p ∈ s.free ↔ p < 16777216 ∧
        (∃ e ∈ es, e.type = multibootMemoryAvailable ∧ Inside p e.base e.length) ∧
        ¬ InImage p kernelStart kernelEnd := by
  have hregions : ∀ r ∈ availableRegions es, Fits r.1 r.2 := by
    simp only [availableRegions, List.mem_map, List.mem_filter]
    rintro _ ⟨e, ⟨he, -⟩, rfl⟩
    exact hfits e he
  obtain ⟨t, ht, hdrift, htotal, hfree⟩ := addRegions_spec pmmInit hregions
  have hwalk := mmapLoop_spec hmap pmmInit 0
  rw [ht, Option.map_eq_some_iff] at hwalk
  obtain ⟨⟨t', total⟩, hloop, rfl⟩ := hwalk
  rw [UInt64.lt_iff_toNat_lt] at hk
  have hlen : (kernelEnd - kernelStart).toNat = kernelEnd.toNat - kernelStart.toNat :=
    UInt64.toNat_sub_of_le _ _ (UInt64.le_iff_toNat_le.mpr hk.le)
  have hkf : Fits kernelStart (kernelEnd - kernelStart) := by unfold Fits; omega
  obtain ⟨s, hs, hb⟩ := pmmReserveRegion_spec t' kernelStart (kernelEnd - kernelStart)
  have hcount : Counted t' :=
    ⟨Counted.iff_drift.mpr (hdrift.trans (Counted.iff_drift.mp pmmInit_counted.free)), htotal⟩
  refine ⟨s, total, ?_, hcount.becomes hb, ?_⟩
  · simp only [mainMemory, hloop, Option.bind_eq_bind, Option.bind_some, hs, Option.pure_def]
  · intro p
    rw [hb.free, Finset.mem_sdiff, hfree, mem_pages_reserve hkf, pmmInit_free, exists_availableRegions, hlen]
    have himage : InImage p kernelStart kernelEnd ↔
        kernelStart.toNat < 4096 * p + 4096 ∧ 4096 * p < kernelEnd.toNat := by
      constructor
      · intro hbyte
        obtain ⟨a, h⟩ := hbyte
        omega
      · intro h; exact ⟨max kernelStart.toNat (4096 * p), by omega⟩
    rw [himage, show kernelStart.toNat + (kernelEnd.toNat - kernelStart.toNat) = kernelEnd.toNat by omega]
    simp only [Finset.notMem_empty, false_or]
    rw [and_assoc, and_congr_right_iff]
    intro hp
    simp only [hp, true_and]

/-- **Boot map to free set.** For a well-formed map and a non-empty kernel
image, the free frames are those below 64 GiB wholly inside one available
entry and off the image, and the counter is their number. A map with the
same entries in another order leaves the same manager. -/
theorem boot_free_frames (m : Mem) (info : MultibootInfo) (es : List MmapEntry) (kernelStart kernelEnd : UInt64)
    (hmap : MapAt m info.mmapAddr.toNat es (info.mmapAddr.toNat + info.mmapLength.toNat))
    (hfits : ∀ e ∈ es, Fits e.base e.length) (hk : kernelStart < kernelEnd)
    (hend : kernelEnd.toNat ≤ 2 ^ 64 - 4096) :
    ∃ s total, mainMemory m info kernelStart kernelEnd = some (s, total) ∧
      (∀ p, p ∈ s.free ↔ 4096 * p < 64 * 1024 * 1024 * 1024 ∧
        (∃ e ∈ es, e.type = multibootMemoryAvailable ∧ Inside p e.base e.length) ∧
        ¬ InImage p kernelStart kernelEnd) ∧
      (pmmGetFreePages s).toNat = s.free.card ∧
      ∀ m' info' es', es'.Perm es →
        MapAt m' info'.mmapAddr.toNat es' (info'.mmapAddr.toNat + info'.mmapLength.toNat) →
        ∃ total', mainMemory m' info' kernelStart kernelEnd = some (s, total') := by
  obtain ⟨s, total, hs, hc, hfree⟩ := mainMemory_spec hmap hfits hk hend
  refine ⟨s, total, hs, ?_, hc.free, ?_⟩
  · intro p
    rw [hfree, show 4096 * p < 64 * 1024 * 1024 * 1024 ↔ p < 16777216 by omega]
  · intro m' info' es' hperm hmap'
    obtain ⟨s', total', hs', hc', hfree'⟩ :=
      mainMemory_spec hmap' (fun e he => hfits e (hperm.mem_iff.mp he)) hk hend
    have hsame : s'.free = s.free := by
      ext p
      rw [hfree', hfree]
      simp only [hperm.mem_iff]
    have hcount : s'.freePages = s.freePages := by
      apply UInt64.toNat.inj
      rw [hc'.free, hc.free, hsame]
    exact ⟨total', by rw [hs', Pmm.ext_free hsame hcount (hc'.total.trans hc.total.symm)]⟩

/-- Two available entries and a reserved one between them, all with ends inside
pages, the reserved one longer than its fields; laid out at `0x9000`. -/
def threeEntryMap : Mem := fun a =>
  [20, 0, 0, 0, 0, 0x18, 0, 0, 0, 0, 0, 0, 0, 0xE0, 0x09, 0, 0, 0, 0, 0, 1, 0, 0, 0,
    24, 0, 0, 0, 0, 0xF8, 0x09, 0, 0, 0, 0, 0, 0, 0x08, 0x06, 0, 0, 0, 0, 0, 2, 0, 0, 0, 0, 0, 0, 0,
    20, 0, 0, 0, 0, 0x04, 0x10, 0, 0, 0, 0, 0, 0, 0x0A, 0x30, 0, 0, 0, 0, 0, 1, 0, 0, 0].getD (a - 0x9000) 0

/-- The same entries with the first one last, elsewhere. -/
def threeEntryMapReordered : Mem := fun a =>
  [24, 0, 0, 0, 0, 0xF8, 0x09, 0, 0, 0, 0, 0, 0, 0x08, 0x06, 0, 0, 0, 0, 0, 2, 0, 0, 0, 0, 0, 0, 0,
    20, 0, 0, 0, 0, 0x04, 0x10, 0, 0, 0, 0, 0, 0, 0x0A, 0x30, 0, 0, 0, 0, 0, 1, 0, 0, 0,
    20, 0, 0, 0, 0, 0x18, 0, 0, 0, 0, 0, 0, 0, 0xE0, 0x09, 0, 0, 0, 0, 0, 1, 0, 0, 0].getD (a - 0xA000) 0

def threeEntries : List MmapEntry :=
  [⟨20, 0x1800, 0, 0x9E000, 0, 1⟩, ⟨24, 0x9F800, 0, 0x60800, 0, 2⟩, ⟨20, 0x100400, 0, 0x300A00, 0, 1⟩]

def threeEntriesReordered : List MmapEntry :=
  [⟨24, 0x9F800, 0, 0x60800, 0, 2⟩, ⟨20, 0x100400, 0, 0x300A00, 0, 1⟩, ⟨20, 0x1800, 0, 0x9E000, 0, 1⟩]

theorem boot_free_frames_three_entries :
    ∃ s total total', mainMemory threeEntryMap ⟨76, 0x9000⟩ 0x100000 0x120800 = some (s, total) ∧
      (∀ p, p ∈ s.free ↔ 4096 * p < 64 * 1024 * 1024 * 1024 ∧
        (∃ e ∈ threeEntries, e.type = multibootMemoryAvailable ∧ Inside p e.base e.length) ∧
        ¬ InImage p 0x100000 0x120800) ∧
      (pmmGetFreePages s).toNat = s.free.card ∧
      mainMemory threeEntryMapReordered ⟨76, 0xA000⟩ 0x100000 0x120800 = some (s, total') := by
  have hmap : MapAt threeEntryMap 0x9000 threeEntries (0x9000 + 76) :=
    .cons (by decide) (.cons (by decide) (.cons (by decide) .nil))
  have hmap' : MapAt threeEntryMapReordered 0xA000 threeEntriesReordered (0xA000 + 76) :=
    .cons (by decide) (.cons (by decide) (.cons (by decide) .nil))
  obtain ⟨s, total, hmain, hfree, hcount, horder⟩ :=
    boot_free_frames threeEntryMap ⟨76, 0x9000⟩ threeEntries 0x100000 0x120800 hmap (by decide) (by decide) (by decide)
  obtain ⟨total', hmain'⟩ := horder threeEntryMapReordered ⟨76, 0xA000⟩ threeEntriesReordered (by decide) hmap'
  exact ⟨s, total, total', hmain, hfree, hcount, hmain'⟩

end Tinos
