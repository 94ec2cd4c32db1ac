/-
Runs of `uacpi_kernel_map` and `uacpi_kernel_unmap`.

`Window` ties together the records, the slot array and the page tables. The
calls are described by what they do to the three (`KernelMap`,
`KernelUnmap`), and keep it, whatever they are given
(`mapping_window_exact`).

A mapping is gone only when an unmap names its pages: any pointer into its
first page, with any length that covers as many pages
(`mapping_lasts`, `unmapped_by_another_length`).
-/
import Tinos.AcpiSlots

namespace Tinos

open Bits Radix Runs

/-- The page an address is in. -/
def pageBase (a : UInt64) : UInt64 := a - (a &&& (acpiPageSize - 1))

/-- How many pages `len` bytes from `a` touch. -/
def pagesOf (a len : UInt64) : Nat := (a.toNat % 4096 + len.toNat + 4095) / 4096

/-- The record is of the `n` slots from `start`. -/
structure AcpiMapping.At (m : AcpiMapping) (start n : Nat) : Prop where
  eq : m = ⟨slotAddress start, UInt64.ofNat n⟩
  pos : 0 < n
  inside : start + n ≤ 16384

/-- The pages of the record are those that `len` bytes from `addr` touch. -/
structure AcpiMapping.Matches (m : AcpiMapping) (addr len : UInt64) : Prop where
  pos : len ≠ 0
  base : pageBase addr = m.virtualBase
  count : pagesOf addr len = m.pageCount.toNat

/-- Record `i` is of a run with slot `k`. -/
def AcpiMap.Owns (s : AcpiMap) (i : Fin acpiMapRecords) (k : Nat) : Prop :=
  ∃ start n, (s.mappings i).At start n ∧ InRun start n k

/-- The records in use are of runs inside the window, no two with a slot in
common; the slots taken are theirs; and they are the pages translated. -/
structure Window (img : Image) (s : AcpiMap) : Prop where
  tables : Tables img s.vmm
  inside : ∀ i, (s.mappings i).pageCount ≠ 0 → ∃ start n, (s.mappings i).At start n
  disjoint : ∀ i j k, s.Owns i k → s.Owns j k → i = j
  slots : ∀ k < 16384, s.mapSlots.bit k = true ↔ ∃ i, s.Owns i k
  pages : ∀ k < 16384, s.mapSlots.bit k = false ↔ hardwareWalk img s.vmm (slotAddress k) = none

/-- What `uacpi_kernel_map` may answer. -/
inductive KernelMap (img : Image) (s : AcpiMap) (addr len : UInt64) : UInt64 → AcpiMap → Prop
  | identity : addr.toNat + len.toNat ≤ 2 ^ 30 → KernelMap img s addr len addr s
  | failed : Tables img vmm → (∀ v, hardwareWalk img vmm v = hardwareWalk img s.vmm v) →
      KernelMap img s addr len uacpiMapFailed { s with vmm }
  | mapped : (s.mappings i).pageCount = 0 → pagesOf addr len = n → 0 < n → start + n ≤ 16384 →
      ClearRun s.mapSlots start n → RunIs s.mapSlots mapSlots start n true → Tables img vmm →
      OtherSlots img s.vmm vmm start n →
      (∀ j < n, Installed img vmm (start + j) (pageBase addr + UInt64.ofNat j * acpiPageSize)) →
      KernelMap img s addr len (slotAddress start + (addr &&& (acpiPageSize - 1)))
        { vmm, mapSlots, mappings := Function.update s.mappings i ⟨slotAddress start, UInt64.ofNat n⟩ }

/-- What `uacpi_kernel_unmap` may do. -/
inductive KernelUnmap (img : Image) (s : AcpiMap) (addr len : UInt64) : AcpiMap → Prop
  | same : (∀ i, (s.mappings i).pageCount ≠ 0 → ¬ (s.mappings i).Matches addr len) → KernelUnmap img s addr len s
  | unmapped : (s.mappings i).At start n → (s.mappings i).Matches addr len →
      RunIs s.mapSlots mapSlots start n false → Tables img vmm → OtherSlots img s.vmm vmm start n →
      (∀ k, InRun start n k → hardwareWalk img vmm (slotAddress k) = none) →
      KernelUnmap img s addr len { vmm, mapSlots, mappings := Function.update s.mappings i ⟨0, 0⟩ }

/-! ## Lengths and addresses -/

section Address

variable {a len : UInt64} {m : AcpiMapping} {start start' n n' k : Nat}

theorem offset_toNat : (a &&& (acpiPageSize - 1)).toNat = a.toNat % 4096 :=
  Word.toNat_and_low (k := 12) (by decide)

theorem pageBase_toNat : (pageBase a).toNat = 4096 * (a.toNat / 4096) := by
  unfold pageBase
  have hle : a &&& (acpiPageSize - 1) ≤ a := by
    rw [UInt64.le_iff_toNat_le, offset_toNat]
    exact Nat.mod_le _ _
  rw [UInt64.toNat_sub_of_le _ _ hle, offset_toNat]
  omega

theorem slotAddress_inj (h : start < 16384) (h' : start' < 16384) (he : slotAddress start = slotAddress start') :
    start = start' := by
  have := congrArg UInt64.toNat he
  rw [slotAddress_toNat h, slotAddress_toNat h'] at this
  omega

theorem AcpiMapping.At.unique (h : m.At start n) (h' : m.At start' n') : start = start' ∧ n = n' := by
  obtain ⟨he, hp, hi⟩ := h
  obtain ⟨he', hp', hi'⟩ := h'
  rw [he, AcpiMapping.mk.injEq] at he'
  refine ⟨slotAddress_inj (by omega) (by omega) he'.1, ?_⟩
  have := congrArg UInt64.toNat he'.2
  rwa [Word.toNat_ofNat_of_lt (by omega), Word.toNat_ofNat_of_lt (by omega)] at this

theorem AcpiMapping.At.count (h : m.At start n) : m.pageCount.toNat = n := by
  have hi := h.inside
  rw [h.eq]
  exact Word.toNat_ofNat_of_lt (by omega)

theorem AcpiMapping.At.live (h : m.At start n) : m.pageCount ≠ 0 := by
  intro h0
  have := h.count
  rw [h0] at this
  exact absurd this.symm h.pos.ne'

/-- The pages of a length, or more than `2^52` where its sum with the offset wraps. -/
theorem mappedLength_spec (a len : UInt64) :
    (mappedLength (a &&& (acpiPageSize - 1)) len = none ∧ 16384 < pagesOf a len) ∨
      ∃ l, mappedLength (a &&& (acpiPageSize - 1)) len = some l ∧ (l / acpiPageSize).toNat = pagesOf a len := by
  have hoff := offset_toNat (a := a)
  have hlt := a.toNat_lt
  have hsub : ∀ b : UInt64, (~~~0 - b).toNat = 2 ^ 64 - 1 - b.toNat := by
    intro b
    have hb := b.toNat_lt
    have hmax : (~~~0 : UInt64).toNat = 2 ^ 64 - 1 := by decide
    rw [UInt64.toNat_sub_of_le _ _ (by rw [UInt64.le_iff_toNat_le]; omega), hmax]
  have hlow : (acpiPageSize - 1).toNat = 2 ^ 12 - 1 := by decide
  unfold mappedLength pagesOf
  split
  · rename_i h
    rw [UInt64.lt_iff_toNat_lt, hsub, hoff] at h
    exact .inl ⟨rfl, by omega⟩
  · rename_i h
    rw [UInt64.lt_iff_toNat_lt, hsub, hoff] at h
    have hsum : (len + (a &&& (acpiPageSize - 1))).toNat = len.toNat + a.toNat % 4096 := by
      rw [Word.toNat_add_of_lt (by omega), hoff]
    split
    · rename_i h'
      rw [UInt64.lt_iff_toNat_lt, hsub, hlow, hsum] at h'
      exact .inl ⟨rfl, by omega⟩
    · rename_i h'
      rw [UInt64.lt_iff_toNat_lt, hsub, hlow, hsum] at h'
      have hup : (len + (a &&& (acpiPageSize - 1)) + acpiPageSize - 1).toNat = len.toNat + a.toNat % 4096 + 4095 := by
        have he : len + (a &&& (acpiPageSize - 1)) + acpiPageSize - 1 =
            len + (a &&& (acpiPageSize - 1)) + (acpiPageSize - 1) := by
          simp only [UInt64.sub_eq_add_neg, UInt64.add_assoc]
        rw [he, Word.toNat_add_of_lt (by omega), hsum, hlow]
        omega
      refine .inr ⟨_, rfl, ?_⟩
      rw [UInt64.toNat_div, Word.toNat_and_not_low hlow, hup]
      simp only [acpiPageSize, UInt64.reduceToNat]
      omega

/-- A length the window has no room for is refused. -/
theorem pageCount_cases (a len : UInt64) :
    (mappedLength (a &&& (acpiPageSize - 1)) len = none ∧ 16384 < pagesOf a len) ∨
      ∃ l, mappedLength (a &&& (acpiPageSize - 1)) len = some l ∧
        (((l / acpiPageSize == 0 || UInt64.ofNat acpiMapWindowPages < l / acpiPageSize) = true ∧
          (pagesOf a len = 0 ∨ 16384 < pagesOf a len)) ∨
        ((l / acpiPageSize == 0 || UInt64.ofNat acpiMapWindowPages < l / acpiPageSize) = false ∧
          0 < pagesOf a len ∧ pagesOf a len ≤ 16384 ∧ l / acpiPageSize = UInt64.ofNat (pagesOf a len))) := by
  rcases mappedLength_spec a len with h | ⟨l, hl, hcount⟩
  · exact .inl h
  · have hw : (UInt64.ofNat acpiMapWindowPages).toNat = 16384 := by decide
    have h0 : (l / acpiPageSize == 0) = true ↔ pagesOf a len = 0 := by
      rw [beq_iff_eq, ← UInt64.toNat_inj, hcount]
      exact Iff.rfl
    refine .inr ⟨l, hl, ?_⟩
    by_cases hbad : (l / acpiPageSize == 0 || UInt64.ofNat acpiMapWindowPages < l / acpiPageSize) = true
    · refine .inl ⟨hbad, ?_⟩
      simpa only [Bool.or_eq_true, h0, decide_eq_true_eq, UInt64.lt_iff_toNat_lt, hw, hcount] using hbad
    · refine .inr ⟨by simpa using hbad, ?_⟩
      simp only [Bool.or_eq_true, h0, decide_eq_true_eq, UInt64.lt_iff_toNat_lt, hw, hcount, not_or] at hbad
      refine ⟨by omega, by omega, ?_⟩
      apply UInt64.toNat.inj
      rw [hcount, Word.toNat_ofNat_of_lt (by omega)]

end Address

/-! ## The calls -/

section Calls

variable {img : Image} {s s' : AcpiMap} {addr len p : UInt64} {i j : Fin acpiMapRecords} {k start n : Nat}

theorem reserveMappingRecord_free {mappings : Mappings} (h : reserveMappingRecord mappings = some i) :
    (mappings i).pageCount = 0 := by
  unfold reserveMappingRecord at h
  simpa using List.find?_some h

theorem findMapping_eq_some {mappings : Mappings} {base count : UInt64} (h : findMapping mappings base count = some i) :
    (mappings i).virtualBase = base ∧ (mappings i).pageCount = count := by
  unfold findMapping at h
  simpa using List.find?_some h

theorem findMapping_eq_none {mappings : Mappings} {base count : UInt64} (h : findMapping mappings base count = none)
    (i : Fin acpiMapRecords) : ¬ ((mappings i).virtualBase = base ∧ (mappings i).pageCount = count) := by
  unfold findMapping at h
  simpa using List.find?_eq_none.mp h i (List.mem_finRange i)

theorem toUInt32_ofNat (h : n ≤ 16384) : (UInt64.ofNat n).toUInt32.toNat = n := by
  rw [UInt64.toNat_toUInt32, Word.toNat_ofNat_of_lt (by omega)]
  omega

theorem Window.clear (h : Window img s) (hle : start + n ≤ 16384) (hclear : ClearRun s.mapSlots start n) :
    ∀ k, InRun start n k → hardwareWalk img s.vmm (slotAddress k) = none := fun k hk =>
  (h.pages k (by unfold InRun at hk; omega)).mp (hclear k hk)

theorem uacpiKernelMap_spec (h : Window img s) (addr len : UInt64) :
    ∃ p s', uacpiKernelMap img s addr len = some (p, s') ∧ KernelMap img s addr len p s' := by
  have hfail : KernelMap img s addr len uacpiMapFailed s := .failed h.tables fun _ => rfl
  unfold uacpiKernelMap
  by_cases h0 : (len == 0) = true
  · exact ⟨_, s, by rw [if_pos h0], hfail⟩
  rw [if_neg h0]
  by_cases hid : (addr < acpiIdentityMapLimit && len ≤ acpiIdentityMapLimit - addr) = true
  · refine ⟨addr, s, by rw [if_pos hid], .identity ?_⟩
    simp only [Bool.and_eq_true, decide_eq_true_eq, UInt64.lt_iff_toNat_lt, UInt64.le_iff_toNat_le] at hid
    have hlim : acpiIdentityMapLimit.toNat = 2 ^ 30 := by decide
    rw [UInt64.toNat_sub_of_le _ _ (by rw [UInt64.le_iff_toNat_le]; omega), hlim] at hid
    omega
  rw [if_neg hid]
  rcases pageCount_cases addr len with ⟨hnone, -⟩ | ⟨l, hl, ⟨hbad, -⟩ | ⟨hok, hpos, hle, hcount⟩⟩
  · exact ⟨_, s, by simp only [hnone], hfail⟩
  · exact ⟨_, s, by simp only [hl, hbad, if_true], hfail⟩
  simp only [hl, hok, Bool.false_eq_true, if_false]
  rw [hcount, toUInt32_ofNat hle]
  cases hrec : reserveMappingRecord s.mappings with
  | none => exact ⟨_, s, rfl, hfail⟩
  | some i =>
  obtain ⟨r, hr, hres⟩ := reserveSlots_spec s.mapSlots (pagesOf addr len)
  simp only [hr, Option.bind_eq_bind, Option.bind_some]
  cases hres with
  | full => exact ⟨_, s, rfl, hfail⟩
  | @taken start mapSlots _ hin hclear _ hrun =>
  have hwalk := h.clear hin hclear
  obtain ⟨ok, vmm, hmap, hcase⟩ := mapPages_spec h.tables start (addr - (addr &&& (acpiPageSize - 1)))
    (pagesOf addr len) 0 (by omega)
    fun j hj => hwalk (start + j) (by unfold InRun at *; omega)
  rw [Word.toNat_ofNat_of_lt (by omega)]
  simp only [hmap, Option.bind_some]
  cases hcase with
  | installed ht ho hin' =>
    refine ⟨_, _, rfl, .mapped (reserveMappingRecord_free hrec) rfl hpos hin hclear hrun ht ho ?_⟩
    intro j hj
    exact hin' j (by unfold InRun; omega)
  | undone ht ho hnone =>
    obtain ⟨back, hback, hundo⟩ := releaseSlots_spec mapSlots hin hpos
    simp only [Bool.false_eq_true, if_false, hback, Option.bind_some]
    rw [hrun.undo hclear hundo]
    refine ⟨_, _, rfl, .failed ht (ho.same (by omega) ?_)⟩
    -- A page of the run is where it was: clear before, and clear again.
    intro k hk
    obtain ⟨j, rfl⟩ := Nat.exists_eq_add_of_le hk.1
    rw [hnone j (by unfold InRun at hk; omega), hwalk (start + j) (by unfold InRun at *; omega)]

theorem AcpiMapping.Matches.at {m : AcpiMapping} (h : m.Matches addr len) (hm : m.At start n) :
    pageBase addr = slotAddress start ∧ pagesOf addr len = n := by
  have hbase := h.base
  rw [hm.eq] at hbase
  exact ⟨hbase, h.count.trans hm.count⟩

/-- Neither NULL nor the answer of a failed mapping is in a record's pages. -/
theorem AcpiMapping.Matches.pointer {m : AcpiMapping} (h : m.Matches addr len) (hm : m.At start n) :
    (addr == 0 || addr == uacpiMapFailed || len == 0) = false := by
  have hbase := congrArg UInt64.toNat (h.at hm).1
  have hpos := hm.pos
  have hin := hm.inside
  rw [pageBase_toNat, slotAddress_toNat (by omega)] at hbase
  have h0 : addr ≠ 0 := by
    intro he
    rw [he] at hbase
    simp only [windowPage, UInt64.reduceToNat] at hbase
    omega
  have hf : addr ≠ uacpiMapFailed := by
    intro he
    rw [he] at hbase
    simp only [windowPage, uacpiMapFailed, UInt64.reduceToNat] at hbase
    omega
  simp [h0, hf, h.pos]

/-- The last place in the window for `n` pages. -/
theorem last_slotAddress (h : n ≤ 16384) :
    acpiMapWindowBase + (UInt64.ofNat acpiMapWindowPages - UInt64.ofNat n) * acpiPageSize = slotAddress (16384 - n) := by
  unfold slotAddress acpiMapWindowPages
  rw [UInt64.ofNat_sub h]

theorem slotAddress_slot (h : k < 16384) :
    ((slotAddress k - acpiMapWindowBase) / acpiPageSize).toUInt32.toNat = k := by
  have hfirst : acpiMapWindowBase.toNat = 4096 * windowPage := by decide
  have hsize : acpiPageSize.toNat = 4096 := by decide
  have hle : acpiMapWindowBase ≤ slotAddress k := by
    rw [UInt64.le_iff_toNat_le, slotAddress_toNat h, hfirst]
    omega
  rw [UInt64.toNat_toUInt32, UInt64.toNat_div, UInt64.toNat_sub_of_le _ _ hle, slotAddress_toNat h, hfirst, hsize]
  omega

theorem Window.same (h : Window img s)
    (hno : ∀ i start n, (s.mappings i).At start n → ¬ (s.mappings i).Matches addr len) : KernelUnmap img s addr len s :=
  .same fun i hi => by
    obtain ⟨start, n, hat⟩ := h.inside i hi
    exact hno i start n hat

/-- The pages of a record are in the window. -/
theorem AcpiMapping.Matches.inside {m : AcpiMapping} (h : m.Matches addr len) (hm : m.At start n) :
    (decide (pageBase addr < acpiMapWindowBase) ||
      decide (slotAddress (16384 - pagesOf addr len) < pageBase addr)) = false := by
  obtain ⟨hbase, hn⟩ := h.at hm
  have hin := hm.inside
  have hpos := hm.pos
  have hfirst : acpiMapWindowBase.toNat = 4096 * windowPage := by decide
  simp only [Bool.or_eq_false_iff, decide_eq_false_iff_not, UInt64.lt_iff_toNat_lt, hbase, hn, hfirst]
  rw [slotAddress_toNat (by omega), slotAddress_toNat (by omega)]
  omega

/-- The record the search finds. -/
theorem Window.found (h : Window img s) (hlen : len ≠ 0) (hpos : 0 < pagesOf addr len) (hle : pagesOf addr len ≤ 16384)
    (hfind : findMapping s.mappings (pageBase addr) (UInt64.ofNat (pagesOf addr len)) = some i) :
    ∃ start, (s.mappings i).At start (pagesOf addr len) ∧ (s.mappings i).Matches addr len ∧
      pageBase addr = slotAddress start := by
  obtain ⟨hbase, hcnt⟩ := findMapping_eq_some hfind
  have hnat : (s.mappings i).pageCount.toNat = pagesOf addr len := by
    rw [hcnt, Word.toNat_ofNat_of_lt (by omega)]
  have hlive : (s.mappings i).pageCount ≠ 0 := fun h0 => by
    rw [h0] at hnat
    exact absurd hnat hpos.ne
  obtain ⟨start, n, hat⟩ := h.inside i hlive
  obtain rfl : pagesOf addr len = n := hnat.symm.trans hat.count
  refine ⟨start, hat, ⟨hlen, hbase.symm, hnat.symm⟩, ?_⟩
  rw [← hbase, hat.eq]

theorem uacpiKernelUnmap_spec (h : Window img s) (addr len : UInt64) :
    ∃ s', uacpiKernelUnmap img s addr len = some s' ∧ KernelUnmap img s addr len s' := by
  have hbase : addr - (addr &&& (acpiPageSize - 1)) = pageBase addr := rfl
  unfold uacpiKernelUnmap
  by_cases h0 : (addr == 0 || addr == uacpiMapFailed || len == 0) = true
  · refine ⟨s, by rw [if_pos h0], h.same ?_⟩
    intro i start n hat hmatch
    rw [hmatch.pointer hat] at h0
    cases h0
  rw [if_neg h0]
  have hpages : pagesOf addr len = 0 ∨ 16384 < pagesOf addr len → KernelUnmap img s addr len s := fun hbad =>
    h.same fun i start n hat hmatch => by
      have hpos := hat.pos
      have hin := hat.inside
      have hn := (hmatch.at hat).2
      omega
  rcases pageCount_cases addr len with ⟨hnone, hbad⟩ | ⟨l, hl, ⟨hlen, hbad⟩ | ⟨hok, hpos, hle, hcount⟩⟩
  · exact ⟨s, by simp only [hnone], hpages (.inr hbad)⟩
  · simp only [hl, Bool.or_assoc (decide (_ < _)), hlen, Bool.or_true, Bool.true_or, if_true]
    exact ⟨s, rfl, hpages hbad⟩
  simp only [hl, Bool.or_assoc (decide (_ < _)), hok, Bool.or_false, hbase]
  rw [hcount, last_slotAddress hle, toUInt32_ofNat hle, Word.toNat_ofNat_of_lt (by omega)]
  by_cases hout : (decide (pageBase addr < acpiMapWindowBase) ||
      decide (slotAddress (16384 - pagesOf addr len) < pageBase addr)) = true
  · refine ⟨s, by rw [if_pos hout], h.same ?_⟩
    intro i start n hat hmatch
    rw [hmatch.inside hat] at hout
    cases hout
  rw [if_neg hout]
  cases hfind : findMapping s.mappings (pageBase addr) (UInt64.ofNat (pagesOf addr len)) with
  | none =>
    refine ⟨s, rfl, h.same ?_⟩
    intro i start n hat hmatch
    obtain ⟨hb, hn⟩ := hmatch.at hat
    apply findMapping_eq_none hfind i
    rw [hat.eq, ← hn]
    exact ⟨hb.symm, rfl⟩
  | some i =>
    obtain ⟨start, hat, hmatch, hb⟩ := h.found (fun he => h0 (by simp [he])) hpos hle hfind
    have hin := hat.inside
    obtain ⟨ht, ho, hw⟩ := unmapPages_spec h.tables start (pagesOf addr len) 0 (by omega)
    obtain ⟨mapSlots, hs, hrun⟩ := releaseSlots_spec s.mapSlots hin hpos
    have hslot := slotAddress_slot (k := start) (by omega)
    refine ⟨_, by simp only [hb, hslot, hs, Option.bind_eq_bind, Option.bind_some]; rfl,
      .unmapped hat hmatch hrun ht ho fun k hk => ?_⟩
    obtain ⟨j, rfl⟩ := Nat.exists_eq_add_of_le hk.1
    exact hw j (by unfold InRun at *; omega)

/-! ## The invariant -/

theorem AcpiMap.Owns.lt (h : s.Owns i k) : k < 16384 := by
  obtain ⟨start, n, hat, hin⟩ := h
  have := hat.inside
  unfold InRun at hin
  omega

theorem AcpiMapping.At.owns (hat : (s.mappings i).At start n) : s.Owns i k ↔ InRun start n k := by
  constructor
  · intro hown
    obtain ⟨a, m, hat', hin⟩ := hown
    obtain ⟨rfl, rfl⟩ := hat.unique hat'
    exact hin
  · exact fun hin => ⟨start, n, hat, hin⟩

theorem owns_other {m : AcpiMapping} {vmm : Vmm} {mapSlots : Slots} (hj : j ≠ i) :
    AcpiMap.Owns ⟨vmm, mapSlots, Function.update s.mappings i m⟩ j k ↔ s.Owns j k := by
  unfold AcpiMap.Owns
  simp only [Function.update_of_ne hj]

/-- A record just made. -/
theorem at_recorded (mappings : Fin acpiMapRecords → AcpiMapping) (i : Fin acpiMapRecords) (hpos : 0 < n)
    (hin : start + n ≤ 16384) :
    AcpiMapping.At (Function.update mappings i ⟨slotAddress start, UInt64.ofNat n⟩ i) start n := by
  rw [Function.update_self]
  exact ⟨rfl, hpos, hin⟩

/-- Record `i` is now of the `n` slots from `start`. -/
theorem owns_recorded {vmm : Vmm} {mapSlots : Slots} (hpos : 0 < n) (hin : start + n ≤ 16384) :
    AcpiMap.Owns ⟨vmm, mapSlots, Function.update s.mappings i ⟨slotAddress start, UInt64.ofNat n⟩⟩ j k ↔
      (j = i ∧ InRun start n k) ∨ (j ≠ i ∧ s.Owns j k) := by
  by_cases hj : j = i
  · subst hj
    have howns : AcpiMap.Owns ⟨vmm, mapSlots, Function.update s.mappings j ⟨slotAddress start, UInt64.ofNat n⟩⟩ j k ↔
        InRun start n k := (at_recorded s.mappings j hpos hin).owns
    simp [howns]
  · simp [owns_other hj, hj]

/-- Record `i` is now of nothing. -/
theorem owns_released {vmm : Vmm} {mapSlots : Slots} :
    AcpiMap.Owns ⟨vmm, mapSlots, Function.update s.mappings i ⟨0, 0⟩⟩ j k ↔ j ≠ i ∧ s.Owns j k := by
  by_cases hj : j = i
  · subst hj
    have hgone : ¬ AcpiMap.Owns ⟨vmm, mapSlots, Function.update s.mappings j ⟨0, 0⟩⟩ j k := by
      rintro ⟨a, m, hat, -⟩
      simp only [Function.update_self] at hat
      exact hat.live rfl
    simp [hgone]
  · simp [owns_other hj, hj]

/-- A record put in place of another leaves all inside, if it is. -/
theorem Window.inside_update (h : Window img s) {m : AcpiMapping} (hm : m.pageCount ≠ 0 → ∃ start n, m.At start n) :
    ∀ j, (Function.update s.mappings i m j).pageCount ≠ 0 → ∃ start n, (Function.update s.mappings i m j).At start n := by
  intro j hj
  by_cases hji : j = i
  · subst hji
    rw [Function.update_self] at hj ⊢
    exact hm hj
  · rw [Function.update_of_ne hji] at hj ⊢
    exact h.inside j hj

/-- Where the slots of a run and its pages change together, slots and pages
agree as before. -/
theorem Window.pages_run (h : Window img s) {vmm : Vmm} {mapSlots : Slots} {v : Bool}
    (hrun : RunIs s.mapSlots mapSlots start n v) (ho : OtherSlots img s.vmm vmm start n)
    (hpages : ∀ k, InRun start n k → (v = false ↔ hardwareWalk img vmm (slotAddress k) = none)) :
    ∀ k < 16384, mapSlots.bit k = false ↔ hardwareWalk img vmm (slotAddress k) = none := by
  intro k hk
  rw [hrun k]
  by_cases hkin : InRun start n k
  · rw [if_pos hkin]
    exact hpages k hkin
  · rw [if_neg hkin, ho.walk_eq hk hkin]
    exact h.pages k hk

/-- A slot of a clear run is nobody's. -/
theorem Window.not_owned (h : Window img s) (hclear : ClearRun s.mapSlots start n) (hj : s.Owns j k) : ¬ InRun start n k := by
  intro hk
  have hset := (h.slots k hj.lt).mpr ⟨j, hj⟩
  rw [hclear k hk] at hset
  cases hset

theorem AcpiMap.Owns.ne_free (hj : s.Owns j k) (hfree : (s.mappings i).pageCount = 0) : j ≠ i := by
  obtain ⟨a, m, hat, -⟩ := hj
  rintro rfl
  exact hat.live hfree

theorem KernelMap.window (h : Window img s) (hm : KernelMap img s addr len p s') : Window img s' := by
  cases hm with
  | identity => exact h
  | failed ht hw =>
    refine ⟨ht, h.inside, h.disjoint, h.slots, ?_⟩
    intro k hk
    rw [hw]
    exact h.pages k hk
  | @mapped i n start mapSlots vmm hfree hn hpos hin hclear hrun ht ho hinst =>
    refine ⟨ht, h.inside_update fun _ => ⟨start, n, rfl, hpos, hin⟩, ?_, ?_, h.pages_run hrun ho ?_⟩
    · intro a b k ha hb
      rcases (owns_recorded hpos hin).mp ha with ⟨rfl, hk⟩ | ⟨-, ha'⟩ <;>
        rcases (owns_recorded hpos hin).mp hb with ⟨rfl, hk'⟩ | ⟨-, hb'⟩
      · rfl
      · exact absurd hk (h.not_owned hclear hb')
      · exact absurd hk' (h.not_owned hclear ha')
      · exact h.disjoint a b k ha' hb'
    · intro k hk
      simp only [hrun k, owns_recorded hpos hin]
      by_cases hkin : InRun start n k
      · rw [if_pos hkin]
        exact ⟨fun _ => ⟨i, .inl ⟨rfl, hkin⟩⟩, fun _ => rfl⟩
      · rw [if_neg hkin, h.slots k hk]
        constructor
        · intro hown
          obtain ⟨j, hj⟩ := hown
          exact ⟨j, .inr ⟨hj.ne_free hfree, hj⟩⟩
        · rintro ⟨j, ⟨-, hj⟩ | ⟨-, hj⟩⟩
          · exact absurd hj hkin
          · exact ⟨j, hj⟩
    · intro k hkin
      obtain ⟨j, rfl⟩ := Nat.exists_eq_add_of_le hkin.1
      obtain ⟨-, t, e, hw⟩ := hinst j (by unfold InRun at hkin; omega)
      rw [hw]
      simp

theorem KernelUnmap.window (h : Window img s) (hm : KernelUnmap img s addr len s') : Window img s' := by
  cases hm with
  | same => exact h
  | @unmapped i start n mapSlots vmm hat hmatch hrun ht ho hw =>
    refine ⟨ht, h.inside_update fun hne => absurd rfl hne, ?_, ?_, h.pages_run hrun ho ?_⟩
    · intro a b k ha hb
      exact h.disjoint a b k (owns_released.mp ha).2 (owns_released.mp hb).2
    · intro k hk
      simp only [hrun k, owns_released]
      by_cases hkin : InRun start n k
      · rw [if_pos hkin]
        constructor
        · intro hf
          cases hf
        · intro hown
          obtain ⟨j, hji, hj⟩ := hown
          exact absurd (h.disjoint j i k hj (hat.owns.mpr hkin)) hji
      · rw [if_neg hkin, h.slots k hk]
        constructor
        · intro hown
          obtain ⟨j, hj⟩ := hown
          have hji : j ≠ i := by
            rintro rfl
            exact hkin (hat.owns.mp hj)
          exact ⟨j, hji, hj⟩
        · rintro ⟨j, -, hj⟩
          exact ⟨j, hj⟩
    · intro k hkin
      exact ⟨fun _ => hw k hkin, fun _ => rfl⟩

end Calls

/-! ## Runs -/

inductive AcpiCall where
  | map (addr len : UInt64)
  | unmap (addr len : UInt64)

def acpiCall (img : Image) (s : AcpiMap) : AcpiCall → Option AcpiMap
  | .map addr len => (uacpiKernelMap img s addr len).map (·.2)
  | .unmap addr len => uacpiKernelUnmap img s addr len

/-- What a call may do. -/
inductive AcpiCallDoes (img : Image) (s : AcpiMap) : AcpiCall → AcpiMap → Prop
  | map : KernelMap img s addr len p s' → AcpiCallDoes img s (.map addr len) s'
  | unmap : KernelUnmap img s addr len s' → AcpiCallDoes img s (.unmap addr len) s'

/-- Nothing mapped, after `vmm_init`. -/
def acpiAtBoot (img : Image) (s : Vmm) : AcpiMap where
  vmm := vmmInit img s
  mapSlots := fun _ => 0
  mappings := fun _ => ⟨0, 0⟩

section Runs

variable {img : Image} {s s' : AcpiMap} {s₀ : Vmm}

theorem acpiAtBoot_window (hs : s₀.pagingEnabled = false)
    (hused : ∀ t ∈ [img.initialPml4, img.initialPdpt, img.initialPd], frameOf t ∉ s₀.pmm.free) :
    Window img (acpiAtBoot img s₀) := by
  have hnone : ∀ i k, ¬ (acpiAtBoot img s₀).Owns i k := by
    rintro i k ⟨a, n, hat, -⟩
    exact hat.live rfl
  have hbit : ∀ k, (acpiAtBoot img s₀).mapSlots.bit k = false := zeros_bit
  have ht : Tables img (acpiAtBoot img s₀).vmm := pagingInit_tables img hs hused
  refine ⟨ht, fun i hi => absurd rfl hi, fun i j k hi => absurd hi (hnone i k), ?_, ?_⟩
  · intro k hk
    rw [hbit]
    exact ⟨fun hf => (by cases hf), fun ⟨i, hi⟩ => absurd hi (hnone i k)⟩
  · intro k hk
    have hwalk : hardwareWalk img (acpiAtBoot img s₀).vmm (slotAddress k) = none := by
      apply ht.walk_none (highPage_slotAddress hk).off
      rw [Option.eq_none_iff_forall_ne_some]
      intro f hf
      rcases pagingInit_reach img hs hf with ⟨he, -⟩ | ⟨he, -⟩ | ⟨he, -⟩ <;> simp at he
    rw [hbit, hwalk]
    exact ⟨fun _ => rfl, fun _ => rfl⟩

theorem acpiCall_spec (h : Window img s) (c : AcpiCall) : ∃ s', acpiCall img s c = some s' ∧ AcpiCallDoes img s c s' := by
  cases c with
  | map addr len =>
    obtain ⟨p, s', hs, hm⟩ := uacpiKernelMap_spec h addr len
    exact ⟨s', by simp only [acpiCall, hs, Option.map_some], .map hm⟩
  | unmap addr len =>
    obtain ⟨s', hs, hm⟩ := uacpiKernelUnmap_spec h addr len
    exact ⟨s', hs, .unmap hm⟩

theorem acpiCall_does {c : AcpiCall} (h : Window img s) (hs : acpiCall img s c = some s') : AcpiCallDoes img s c s' := by
  obtain ⟨t, ht, hdoes⟩ := acpiCall_spec h c
  obtain rfl := Option.some.inj (hs.symm.trans ht)
  exact hdoes

theorem acpiCall_window (h : Window img s) (c : AcpiCall) : ∃ s', acpiCall img s c = some s' ∧ Window img s' := by
  obtain ⟨s', hs, hdoes⟩ := acpiCall_spec h c
  refine ⟨s', hs, ?_⟩
  cases hdoes with
  | map hm => exact hm.window h
  | unmap hm => exact hm.window h

end Runs

/-- **The mapping window is exact.** After any calls with any arguments the
records, the slots and the page tables agree; and an unmap that names the
pages of no record changes nothing. -/
theorem mapping_window_exact (img : Image) {s₀ : Vmm} (hs : s₀.pagingEnabled = false)
    (hused : ∀ t ∈ [img.initialPml4, img.initialPdpt, img.initialPd], frameOf t ∉ s₀.pmm.free)
    (calls : List AcpiCall) :
    ∃ s, calls.foldlM (acpiCall img) (acpiAtBoot img s₀) = some s ∧ Window img s ∧
      ∀ addr len, (∀ i, (s.mappings i).pageCount ≠ 0 → ¬ (s.mappings i).Matches addr len) →
        uacpiKernelUnmap img s addr len = some s := by
  obtain ⟨s, hrun, h⟩ := foldlM_total (Window img) (acpiAtBoot_window hs hused)
    fun c (_ : c ∈ calls) s h => acpiCall_window h c
  refine ⟨s, hrun, h, ?_⟩
  intro addr len hno
  obtain ⟨s', hs', hm⟩ := uacpiKernelUnmap_spec h addr len
  cases hm with
  | same => exact hs'
  | unmapped hat hmatch => exact absurd hmatch (hno _ hat.live)

theorem mapping_window_exact_two_calls :
    ∃ s, [AcpiCall.map 0xFEE00010 0x2000, .unmap 0xFFFF800000000123 5].foldlM (acpiCall imageAtOneMiB)
        (acpiAtBoot imageAtOneMiB vmmAtReset) = some s ∧ Window imageAtOneMiB s ∧
      ∀ addr len, (∀ i, (s.mappings i).pageCount ≠ 0 → ¬ (s.mappings i).Matches addr len) →
        uacpiKernelUnmap imageAtOneMiB s addr len = some s :=
  mapping_window_exact imageAtOneMiB rfl vmmAtReset_used _

/-! ## How long a mapping lasts -/

/-- `p` gives `len` bytes from `addr`: below 1 GiB by the identity map, else by
the pages of a record. -/
inductive Kept (img : Image) (s : AcpiMap) (addr len : UInt64) : UInt64 → Prop
  | identity : addr.toNat + len.toNat ≤ 2 ^ 30 → Kept img s addr len addr
  | window : (s.mappings i).At start n → pagesOf addr len = n →
      (∀ j < n, Installed img s.vmm (start + j) (pageBase addr + UInt64.ofNat j * acpiPageSize)) →
      Kept img s addr len (slotAddress start + (addr &&& (acpiPageSize - 1)))

/-- An unmap of the window pages that `len` bytes from `p` touch. -/
def AcpiCall.Releases (p len : UInt64) : AcpiCall → Prop
  | .map _ _ => False
  | .unmap addr l => l ≠ 0 ∧ acpiMapWindowBase ≤ p ∧ pageBase addr = pageBase p ∧ pagesOf addr l = pagesOf p len

section Kept

variable {img : Image} {s s' : AcpiMap} {addr len p pa v i : UInt64} {r : Fin acpiMapRecords} {start n : Nat}
  {c : AcpiCall}

/-- The bytes of an installed page. -/
theorem Installed.translate (h : Installed img s.vmm k pa) (hk : k < 16384) (hv : pageOf v = windowPage + k) :
    translate img s.vmm v = some (pa + (v &&& 0xFFF)) := by
  obtain ⟨hpage, t, j, hw⟩ := h
  have hoff : ((1 <<< (12 + 9 * UInt64.ofNat 0)) - 1 : UInt64) = 0xFFF := by decide
  have hm : (0xFFF : UInt64).toNat = 2 ^ 12 - 1 := by decide
  have hentry : (pa ||| acpiPageFlagWritable ||| pageFlagPresent) &&& pageAddressMask = pa := by
    rw [UInt64.or_assoc]
    exact Word.or_and_high hpage (by decide)
  have hhigh : pa &&& ~~~0xFFF = pa := by
    have hp : pa &&& pageAddressMask = pa := hpage
    have hmask : pageAddressMask &&& ~~~0xFFF = pageAddressMask := by decide
    rw [← hp, UInt64.and_assoc, hmask]
  have hsum : pa ||| (v &&& 0xFFF) = pa + (v &&& 0xFFF) := by
    have hmod : pa.toNat % 2 ^ 12 = 0 := by
      rw [← Word.toNat_and_low hm]
      exact congrArg UInt64.toNat hpage.aligned
    have hlt := pa.toNat_lt
    apply UInt64.toNat.inj
    rw [Word.toNat_or_of_disjoint hm hpage.aligned (by rw [UInt64.and_assoc, UInt64.and_self]),
      Word.toNat_add_of_lt (by rw [Word.toNat_and_low hm]; omega)]
  unfold Tinos.translate
  rw [hardwareWalk_page (hv.trans (pageOf_slotAddress hk).symm), hw, Option.map_some, physicalAddress, hoff, hentry, hhigh,
    hsum]

theorem Kept.translate (ht : Tables img s.vmm) (h : Kept img s addr len p) (hi : i < len) :
    translate img s.vmm (p + i) = some (addr + i) := by
  have hlt := UInt64.lt_iff_toNat_lt.mp hi
  cases h with
  | identity hlow =>
    apply ht.translate_low
    rw [UInt64.lt_iff_toNat_lt, Word.toNat_add_of_lt (by omega), limit_toNat]
    omega
  | @window r start n hat hn hinst =>
    have hin := hat.inside
    have hpos := hat.pos
    have hoff := offset_toNat (a := addr)
    have hbase := pageBase_toNat (a := addr)
    have ha := addr.toNat_lt
    unfold pagesOf at hn
    -- The byte is in page `j` of the record, `(off + i) % 4096` bytes into it.
    have hv : (slotAddress start + (addr &&& (acpiPageSize - 1)) + i).toNat =
        4096 * (windowPage + start) + (addr.toNat % 4096 + i.toNat) := by
      have hs := slotAddress_toNat (k := start) (by omega)
      unfold windowPage at hs ⊢
      rw [Word.toNat_add_of_lt, Word.toNat_add_of_lt (by omega), hs, hoff]
      · omega
      · rw [Word.toNat_add_of_lt (by omega)]
        omega
    obtain ⟨j, hj⟩ : ∃ j, j = (addr.toNat % 4096 + i.toNat) / 4096 := ⟨_, rfl⟩
    have hpage : pageOf (slotAddress start + (addr &&& (acpiPageSize - 1)) + i) = windowPage + (start + j) := by
      unfold pageOf
      rw [hv]
      omega
    rw [(hinst j (by omega)).translate (by omega) hpage, Option.some.injEq]
    have hsize : acpiPageSize.toNat = 4096 := by decide
    have hm : (0xFFF : UInt64).toNat = 2 ^ 12 - 1 := by decide
    apply UInt64.toNat.inj
    rw [UInt64.toNat_add, UInt64.toNat_add, UInt64.toNat_add, Word.toNat_and_low hm, hv, UInt64.toNat_mul, hsize,
      Word.toNat_ofNat_of_lt (by omega), hbase]
    unfold windowPage
    omega

theorem KernelMap.kept (h : KernelMap img s addr len p s') (hp : p ≠ uacpiMapFailed) : Kept img s' addr len p := by
  cases h with
  | identity hlow => exact .identity hlow
  | failed => exact absurd rfl hp
  | @mapped i n start _ _ _ hn hpos hin _ _ _ _ hinst =>
    exact .window (at_recorded s.mappings i hpos hin) hn hinst

/-- The first page and the number of pages of a window pointer. -/
theorem window_pointer (hk : k < 16384) (addr len : UInt64) :
    acpiMapWindowBase ≤ slotAddress k + (addr &&& (acpiPageSize - 1)) ∧
      pageBase (slotAddress k + (addr &&& (acpiPageSize - 1))) = slotAddress k ∧
      pagesOf (slotAddress k + (addr &&& (acpiPageSize - 1))) len = pagesOf addr len := by
  have hs := slotAddress_toNat hk
  have hoff := offset_toNat (a := addr)
  have hfirst : acpiMapWindowBase.toNat = 4096 * windowPage := by decide
  have hp : (slotAddress k + (addr &&& (acpiPageSize - 1))).toNat = 4096 * (windowPage + k) + addr.toNat % 4096 := by
    rw [Word.toNat_add_of_lt, hs, hoff]
    unfold windowPage at hs
    omega
  refine ⟨?_, ?_, ?_⟩
  · rw [UInt64.le_iff_toNat_le, hp, hfirst]
    omega
  · apply UInt64.toNat.inj
    rw [pageBase_toNat, hp, hs]
    omega
  · unfold pagesOf
    rw [hp]
    omega

/-- A record lasts, and the walks of its pages, until an unmap names them. -/
theorem AcpiMapping.At.call (hw : Window img s) (hat : (s.mappings r).At start n)
    (hc : ∀ a l, c = .unmap a l → ¬ (s.mappings r).Matches a l) (hs : acpiCall img s c = some s') :
    (s'.mappings r).At start n ∧ ∀ j < n, hardwareWalk img s'.vmm (slotAddress (start + j)) =
      hardwareWalk img s.vmm (slotAddress (start + j)) := by
  have hin := hat.inside
  cases acpiCall_does hw hs with
  | map hm =>
    cases hm with
    | identity => exact ⟨hat, fun j _ => rfl⟩
    | failed _ hsame => exact ⟨hat, fun j _ => hsame _⟩
    | @mapped i m b mapSlots vmm hfree _ hpos hin' hclear _ _ ho _ =>
      have hri : r ≠ i := by
        rintro rfl
        exact hat.live hfree
      refine ⟨by simpa only [Function.update_of_ne hri] using hat, ?_⟩
      intro j hj
      apply ho.walk_eq (by omega)
      intro hjin
      have hset := (hw.slots (start + j) (by omega)).mpr ⟨r, hat.owns.mpr (by unfold InRun; omega)⟩
      rw [hclear _ hjin] at hset
      cases hset
  | @unmap a l _ hm =>
    cases hm with
    | same => exact ⟨hat, fun j _ => rfl⟩
    | @unmapped i b m mapSlots vmm hat' hmatch _ _ ho _ =>
      have hri : r ≠ i := by
        rintro rfl
        exact hc a l rfl hmatch
      refine ⟨by simpa only [Function.update_of_ne hri] using hat, ?_⟩
      intro j hj
      apply ho.walk_eq (by omega)
      exact fun hjin => hri (hw.disjoint r i (start + j) (hat.owns.mpr (by unfold InRun; omega)) (hat'.owns.mpr hjin))

/-- The unmaps that name the pages of a window pointer's record are those that
release it. -/
theorem AcpiMapping.At.releases {r : AcpiMapping} (hat : r.At start (pagesOf addr len)) {a l : UInt64}
    (h : r.Matches a l) : (AcpiCall.unmap a l).Releases (slotAddress start + (addr &&& (acpiPageSize - 1))) len := by
  obtain ⟨hb, hn⟩ := h.at hat
  have hin := hat.inside
  have hpos := hat.pos
  obtain ⟨h1, h2, h3⟩ := window_pointer (k := start) (by omega) addr len
  exact ⟨h.pos, h1, hb.trans h2.symm, hn.trans h3.symm⟩

/-- A call that does not release the mapping keeps it. -/
theorem Kept.call (hw : Window img s) (h : Kept img s addr len p) (hc : ¬ c.Releases p len)
    (hs : acpiCall img s c = some s') : Kept img s' addr len p := by
  cases h with
  | identity hlow => exact .identity hlow
  | @window r start n hat hn hinst =>
    subst hn
    have hkeep : ∀ a l, c = .unmap a l → ¬ (s.mappings r).Matches a l := by
      rintro a l rfl hmatch
      exact hc (hat.releases hmatch)
    obtain ⟨hat', hsame⟩ := hat.call hw hkeep hs
    exact .window hat' rfl fun j hj => (hinst j hj).of_walk (hsame j hj)

end Kept

/-- **A mapping lasts until its pages are unmapped.** What `uacpi_kernel_map`
answers, but for a failure, gives each of the bytes asked for, and does so
after any calls none of which unmaps the same window pages. -/
theorem mapping_lasts (img : Image) {s₀ : Vmm} (hs : s₀.pagingEnabled = false)
    (hused : ∀ t ∈ [img.initialPml4, img.initialPdpt, img.initialPd], frameOf t ∉ s₀.pmm.free)
    (calls : List AcpiCall) (addr len : UInt64) :
    ∃ s p s₁, calls.foldlM (acpiCall img) (acpiAtBoot img s₀) = some s ∧
      uacpiKernelMap img s addr len = some (p, s₁) ∧
      (p ≠ uacpiMapFailed → ∀ later : List AcpiCall, (∀ c ∈ later, ¬ c.Releases p len) →
        ∃ s₂, later.foldlM (acpiCall img) s₁ = some s₂ ∧
          ∀ i < len, translate img s₂.vmm (p + i) = some (addr + i)) := by
  obtain ⟨s, hrun, hw⟩ := foldlM_total (Window img) (acpiAtBoot_window hs hused)
    fun c (_ : c ∈ calls) s h => acpiCall_window h c
  obtain ⟨p, s₁, hmap, hm⟩ := uacpiKernelMap_spec hw addr len
  refine ⟨s, p, s₁, hrun, hmap, ?_⟩
  intro hp later hlater
  have hstep : ∀ c ∈ later, ∀ t, Window img t ∧ Kept img t addr len p →
      ∃ t', acpiCall img t c = some t' ∧ Window img t' ∧ Kept img t' addr len p := by
    intro c hc t ht
    obtain ⟨htw, htk⟩ := ht
    obtain ⟨t', ht', htw'⟩ := acpiCall_window htw c
    exact ⟨t', ht', htw', htk.call htw (hlater c hc) ht'⟩
  obtain ⟨s₂, hrun₂, hw₂, hk₂⟩ :=
    foldlM_total (fun t => Window img t ∧ Kept img t addr len p) ⟨hm.window hw, hm.kept hp⟩ hstep
  exact ⟨s₂, hrun₂, fun i hi => hk₂.translate hw₂.tables hi⟩

theorem mapping_lasts_after_one_call :
    ∃ s p s₁, [AcpiCall.map 0xFEE00010 0x2000].foldlM (acpiCall imageAtOneMiB) (acpiAtBoot imageAtOneMiB vmmAtReset) =
        some s ∧ uacpiKernelMap imageAtOneMiB s 0x40000010 0x10 = some (p, s₁) ∧
      (p ≠ uacpiMapFailed → ∀ later : List AcpiCall, (∀ c ∈ later, ¬ c.Releases p 0x10) →
        ∃ s₂, later.foldlM (acpiCall imageAtOneMiB) s₁ = some s₂ ∧
          ∀ i < 0x10, translate imageAtOneMiB s₂.vmm (p + i) = some (0x40000010 + i)) :=
  mapping_lasts imageAtOneMiB rfl vmmAtReset_used _ _ _

/-- Sixteen bytes mapped, and gone when five others of their page are unmapped. -/
theorem unmapped_by_another_length : ∃ s₁ s₂,
    uacpiKernelMap imageAtOneMiB (acpiAtBoot imageAtOneMiB vmmAtReset) 0x40000010 0x10 =
      some (0xFFFF800000000010, s₁) ∧
    translate imageAtOneMiB s₁.vmm 0xFFFF800000000010 = some 0x40000010 ∧
    uacpiKernelUnmap imageAtOneMiB s₁ 0xFFFF800000000050 5 = some s₂ ∧
    translate imageAtOneMiB s₂.vmm 0xFFFF800000000010 = none := by
  have hrun : (uacpiKernelMap imageAtOneMiB (acpiAtBoot imageAtOneMiB vmmAtReset) 0x40000010 0x10).bind (fun r =>
      (uacpiKernelUnmap imageAtOneMiB r.2 0xFFFF800000000050 5).map fun s =>
        (r.1, translate imageAtOneMiB r.2.vmm 0xFFFF800000000010, translate imageAtOneMiB s.vmm 0xFFFF800000000010)) =
      some (0xFFFF800000000010, some 0x40000010, none) := by decide +kernel
  obtain ⟨⟨p, s₁⟩, hmap, hrest⟩ := Option.bind_eq_some_iff.mp hrun
  obtain ⟨s₂, hunmap, he⟩ := Option.map_eq_some_iff.mp hrest
  simp only [Prod.mk.injEq] at he
  obtain ⟨rfl, hwas, hgone⟩ := he
  exact ⟨s₁, s₂, hmap, hwas, hunmap, hgone⟩

end Tinos
