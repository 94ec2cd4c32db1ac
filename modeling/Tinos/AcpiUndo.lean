/-
What a failed `uacpi_kernel_map` leaves, and what `uacpi_kernel_unmap` takes
away.

`failed_map_atomic`: a mapping that fails, at whatever page, leaves the slots,
the records and every walk as they were. It finds out by reading the page
table back, and what it reads is what the processor would.

`unmap_undoes_map`: the pointer and the length of a mapping, given to
`uacpi_kernel_unmap`, name its own record, whatever was mapped and unmapped
since.
-/
import Tinos.AcpiWindow

namespace Tinos

open Bits Radix Runs

/-- The loop of `uacpi_kernel_map`, with `n` pages to go from `index`, comes to
ask in the state `s'` whether `va` was mapped to `pa`. -/
inductive Asks (img : Image) (start : Nat) (base : UInt64) : Vmm → Nat → Nat → Vmm → UInt64 → UInt64 → Prop
  | here : mapPage img s (slotAddress (start + index)) (base + UInt64.ofNat index * acpiPageSize)
        acpiPageFlagWritable = some s' →
      Asks img start base s (n + 1) index s' (slotAddress (start + index)) (base + UInt64.ofNat index * acpiPageSize)
  | later : mapPage img s (slotAddress (start + index)) (base + UInt64.ofNat index * acpiPageSize)
        acpiPageFlagWritable = some s₁ →
      mappingWasInstalled img s₁ (slotAddress (start + index)) (base + UInt64.ofNat index * acpiPageSize) = true →
      Asks img start base s₁ n (index + 1) s' va pa → Asks img start base s (n + 1) index s' va pa

/-- `s` and `s'` have the same slots and records, and every walk the same. -/
structure SameMappings (img : Image) (s s' : AcpiMap) : Prop where
  slots : s'.mapSlots = s.mapSlots
  records : s'.mappings = s.mappings
  walks : ∀ v, hardwareWalk img s'.vmm v = hardwareWalk img s.vmm v

/-- From `s` to `s'` record `i`, of the `n` slots from `start`, is gone with its
slots and its pages, and nothing else. -/
structure Removed (img : Image) (i : Fin acpiMapRecords) (start n : Nat) (s s' : AcpiMap) : Prop where
  record : (s.mappings i).At start n
  records : s'.mappings = Function.update s.mappings i ⟨0, 0⟩
  slots : RunIs s.mapSlots s'.mapSlots start n false
  pages : ∀ k, InRun start n k → hardwareWalk img s'.vmm (slotAddress k) = none
  others : OtherSlots img s.vmm s'.vmm start n

/-- What an unmap of `p` does to `s`, where `p` is the answer to a request for
`len` bytes from `addr` that left `s₁`. -/
inductive Undoes (img : Image) (addr len : UInt64) (s₁ s s' : AcpiMap) : UInt64 → Prop
  | identity : addr.toNat + len.toNat ≤ 2 ^ 30 → s' = s → Undoes img addr len s₁ s s' addr
  | window : (s₁.mappings i).At start n → pagesOf addr len = n → Removed img i start n s s' →
      Undoes img addr len s₁ s s' (slotAddress start + (addr &&& (acpiPageSize - 1)))

/-! ## The installation check -/

section Check

variable {img : Image} {s s' : Vmm} {va pa base : UInt64} {k n index start : Nat}

/-- The walk of a high page ends at the entry of the table that
`get_page_table` finds. -/
theorem Tables.walk_high (h : Tables img s) (hva : HighPage va) (hpt : getPageTable img s va ≠ 0) :
    hardwareWalk img s va = if present (s.mem (getPageTable img s va) (ptIndex va)) then
      some ⟨getPageTable img s va, ptIndex va, 0, s.mem (getPageTable img s va) (ptIndex va)⟩ else none := by
  cases hr : s.reach img [pml4Index va, pdptIndex va, pdIndex va] with
  | none => exact absurd (h.getPageTable_none hva hr) hpt
  | some t =>
    have hpath : path va = [pml4Index va, pdptIndex va, pdIndex va] ++ [ptIndex va] := rfl
    rw [h.getPageTable_eq hva hr]
    unfold hardwareWalk
    rw [if_pos hva.canonical, hpath, walk_append hr (by simp)]
    simp [walk, pageFormat]

theorem translate_high (h : Tables img s) (hva : HighPage va) (hpt : getPageTable img s va ≠ 0) :
    translate img s va = if present (s.mem (getPageTable img s va) (ptIndex va)) then
      some (s.mem (getPageTable img s va) (ptIndex va) &&& pageAddressMask) else none := by
  have hoff : ((1 <<< (12 + 9 * UInt64.ofNat 0)) - 1 : UInt64) = 0xFFF := by decide
  have hm : (0xFFF : UInt64).toNat = 2 ^ 12 - 1 := by decide
  have hva0 : va &&& 0xFFF = 0 := by
    rw [← UInt64.toNat_inj, Word.toNat_and_low hm]
    exact aligned_iff.mp hva.aligned
  have hmask : pageAddressMask &&& ~~~0xFFF = pageAddressMask := by decide
  unfold translate
  rw [h.walk_high hva hpt]
  split
  · rw [Option.map_some, physicalAddress, hoff, hva0, UInt64.or_zero, UInt64.and_assoc, hmask]
  · rfl

/-- The check and the processor read the same entry. -/
theorem mappingWasInstalled_iff (h : Tables img s) (hva : HighPage va)
    (hp : getPageTable img s va ≠ 0 → s.mem (getPageTable img s va) (ptIndex va) &&& pageAddressMask = pa →
      present (s.mem (getPageTable img s va) (ptIndex va)) = true) :
    mappingWasInstalled img s va pa = true ↔ translate img s va = some pa := by
  unfold mappingWasInstalled
  by_cases hpt : getPageTable img s va = 0
  · have hwalk : hardwareWalk img s va = none := by
      by_contra hw
      exact h.getPageTable_ne_zero hva hw hpt
    simp [hpt, translate, hwalk]
  · have hmask : (0x000FFFFFFFFFF000 : UInt64) = pageAddressMask := rfl
    rw [translate_high h hva hpt]
    simp only [beq_iff_eq, hpt, if_false, hmask]
    constructor
    · intro he
      rw [if_pos (hp hpt he), he]
    · intro he
      split at he
      · exact Option.some.inj he
      · cases he

/-- The check after `map_page` of a slot. -/
theorem mapSlot_check (h : Tables img s) (hk : k < 16384)
    (hs : mapPage img s (slotAddress k) pa acpiPageFlagWritable = some s') :
    Tables img s' ∧ (mappingWasInstalled img s' (slotAddress k) pa = true ↔ translate img s' (slotAddress k) = some pa) := by
  have hva := highPage_slotAddress hk
  by_cases hm : Mappable pa acpiPageFlagWritable
  · obtain ⟨t, ht, htab, -, hw⟩ := mapPage_spec h hva hm
    obtain rfl : t = s' := Option.some.inj (ht.symm.trans hs)
    refine ⟨htab, mappingWasInstalled_iff htab hva ?_⟩
    intro hpt _
    rcases hw with hw | ⟨-, -, h0⟩
    · rw [hardwareWalk_entry hw]
      exact present_entry
    · exact absurd h0 hpt
  · obtain rfl : s = s' := by
      simpa [mapPage, refused_of_not_mappable hm] using hs
    refine ⟨h, mappingWasInstalled_iff h hva ?_⟩
    intro _ he
    have hpage : pa &&& pageAddressMask = pa := by
      rw [← he, UInt64.and_assoc, UInt64.and_self]
    have haligned : pageAlignedAddress pa = true := by
      rw [pageAlignedAddress, Word.and_off hpage (by decide)]
      rfl
    exact absurd (acpiPageFlag_mappable haligned (Word.and_off hpage (by decide))) hm

theorem Asks.check (ha : Asks img start base s n index s' va pa) (h : Tables img s) (hle : start + index + n ≤ 16384) :
    mappingWasInstalled img s' va pa = true ↔ translate img s' va = some pa := by
  induction ha with
  | here hs => exact (mapSlot_check h (by omega) hs).2
  | later hs _ _ ih => exact ih (mapSlot_check h (by omega) hs).1 (by omega)

/-- The loop answers that every page was installed where every check says so. -/
theorem mapPages_asks {ok : Bool} (hs : mapPages img s start base n index = some (ok, s')) :
    ok = true ↔ ∀ t va pa, Asks img start base s n index t va pa → mappingWasInstalled img t va pa = true := by
  induction n generalizing s index with
  | zero =>
    simp only [mapPages, Option.some.injEq, Prod.mk.injEq] at hs
    refine ⟨?_, fun _ => hs.1.symm⟩
    intro _ t va pa ha
    cases ha
  | succ n ih =>
    simp only [mapPages, Option.bind_eq_bind, Option.bind_eq_some_iff] at hs
    obtain ⟨s₁, hs₁, hs⟩ := hs
    split at hs
    · rename_i hinst
      rw [ih hs]
      constructor
      · intro hall t va pa ha
        cases ha with
        | here ht => rwa [Option.some.inj (ht.symm.trans hs₁)]
        | later ht _ hrest =>
          rw [Option.some.inj (ht.symm.trans hs₁)] at hrest
          exact hall t va pa hrest
      · exact fun hall t va pa ha => hall t va pa (.later hs₁ hinst ha)
    · rename_i hinst
      obtain ⟨rfl, -⟩ := Prod.mk.inj (Option.some.inj hs)
      exact ⟨fun hf => (by cases hf), fun hall => absurd (hall _ _ _ (.here hs₁)) hinst⟩

end Check

section Failed

variable {img : Image} {s s' : AcpiMap} {addr len : UInt64}

/-- No mapping is answered by the pointer of a failure. -/
theorem KernelMap.failed_same (h : KernelMap img s addr len p s') (hp : p = uacpiMapFailed) : SameMappings img s s' := by
  have hfail : p.toNat = 2 ^ 64 - 1 := by
    rw [hp]
    rfl
  cases h with
  | identity hlow => omega
  | failed ht hw => exact ⟨rfl, rfl, hw⟩
  | @mapped i n start mapSlots vmm _ _ hpos hin =>
    have hslot := slotAddress_toNat (k := start) (by omega)
    have hoff := offset_toNat (a := addr)
    have hlt := Nat.mod_lt addr.toNat (show 4096 > 0 by decide)
    unfold windowPage at hslot
    rw [Word.toNat_add_of_lt (by omega)] at hfail
    omega

end Failed

/-- **A failed mapping is atomic.** After any calls, `uacpi_kernel_map` of any
address and length that answers a failure leaves the slots, the records and
every walk as they were; and whatever run of slots and pages its loop goes
through, it takes a page for installed just where the page is translated to
what was asked. -/
theorem failed_map_atomic (img : Image) {s₀ : Vmm} (hs : s₀.pagingEnabled = false)
    (hused : ∀ t ∈ [img.initialPml4, img.initialPdpt, img.initialPd], frameOf t ∉ s₀.pmm.free)
    (calls : List AcpiCall) (addr len : UInt64) :
    ∃ s p s', calls.foldlM (acpiCall img) (acpiAtBoot img s₀) = some s ∧
      uacpiKernelMap img s addr len = some (p, s') ∧
      (p = uacpiMapFailed → SameMappings img s s') ∧
      ∀ start n base t va pa, start + n ≤ 16384 → Asks img start base s.vmm n 0 t va pa →
        (mappingWasInstalled img t va pa = true ↔ translate img t va = some pa) := by
  obtain ⟨s, hrun, hw⟩ := foldlM_total (Window img) (acpiAtBoot_window hs hused)
    fun c (_ : c ∈ calls) s h => acpiCall_window h c
  obtain ⟨p, s', hmap, hm⟩ := uacpiKernelMap_spec hw addr len
  exact ⟨s, p, s', hrun, hmap, hm.failed_same, fun start n base t va pa hle ha => ha.check hw.tables (by omega)⟩

/-- A page past the 52 bits of a physical address, and the one before it. -/
theorem failed_map_atomic_last_page :
    ∃ s p s', [AcpiCall.map 0xFEE00010 0x2000].foldlM (acpiCall imageAtOneMiB) (acpiAtBoot imageAtOneMiB vmmAtReset) =
        some s ∧
      uacpiKernelMap imageAtOneMiB s 0x000FFFFFFFFFF000 0x2000 = some (p, s') ∧
      (p = uacpiMapFailed → SameMappings imageAtOneMiB s s') ∧
      ∀ start n base t va pa, start + n ≤ 16384 → Asks imageAtOneMiB start base s.vmm n 0 t va pa →
        (mappingWasInstalled imageAtOneMiB t va pa = true ↔ translate imageAtOneMiB t va = some pa) :=
  failed_map_atomic imageAtOneMiB rfl vmmAtReset_used _ _ _

/-! ## Undoing a mapping -/

/-- A record that is free is blank. -/
def FreeRecords (s : AcpiMap) : Prop := ∀ i, (s.mappings i).pageCount = 0 → s.mappings i = ⟨0, 0⟩

section Undo

variable {img : Image} {s s₁ s' : AcpiMap} {addr len p : UInt64} {i : Fin acpiMapRecords} {start n : Nat} {c : AcpiCall}

theorem acpiCall_freeRecords (hw : Window img s) (h : FreeRecords s) (hs : acpiCall img s c = some s') :
    FreeRecords s' := by
  cases acpiCall_does hw hs with
  | map hm =>
    cases hm with
    | identity => exact h
    | failed => exact h
    | @mapped i m b mapSlots vmm _ _ hpos hin =>
      intro j hj
      by_cases hji : j = i
      · subst hji
        exact absurd hj (at_recorded s.mappings j hpos hin).live
      · simp only [Function.update_of_ne hji] at hj ⊢
        exact h j hj
  | unmap hm =>
    cases hm with
    | same => exact h
    | @unmapped i b m mapSlots vmm =>
      intro j hj
      by_cases hji : j = i
      · subst hji
        exact Function.update_self ..
      · simp only [Function.update_of_ne hji] at hj ⊢
        exact h j hj

/-- An unmap of the pointer of record `i` finds record `i`. -/
theorem AcpiMapping.At.removed (hw : Window img s) (hat : (s.mappings i).At start (pagesOf addr len)) (hlen : len ≠ 0) :
    ∃ s', uacpiKernelUnmap img s (slotAddress start + (addr &&& (acpiPageSize - 1))) len = some s' ∧
      Removed img i start (pagesOf addr len) s s' := by
  have hin := hat.inside
  have hpos := hat.pos
  obtain ⟨-, hbase, hpages⟩ := window_pointer (k := start) (by omega) addr len
  obtain ⟨s', hs', hm⟩ := uacpiKernelUnmap_spec hw (slotAddress start + (addr &&& (acpiPageSize - 1))) len
  refine ⟨s', hs', ?_⟩
  cases hm with
  | same hno =>
    refine absurd ⟨hlen, ?_, ?_⟩ (hno i hat.live)
    · rw [hbase, hat.eq]
    · rw [hpages, hat.count]
  | @unmapped j b m mapSlots vmm hat' hmatch hrun _ ho hgone =>
    -- Two records with the slot `start` are one.
    obtain ⟨hb, hm⟩ := hmatch.at hat'
    have hin' := hat'.inside
    have hpos' := hat'.pos
    obtain rfl : start = b := slotAddress_inj (by omega) (by omega) (hbase.symm.trans hb)
    obtain rfl : pagesOf addr len = m := hpages.symm.trans hm
    obtain rfl : i = j := hw.disjoint i j start (hat.owns.mpr (by unfold InRun; omega))
      (hat'.owns.mpr (by unfold InRun; omega))
    exact ⟨hat, rfl, hrun, hgone, ho⟩

/-- No record is of pages below 1 GiB. -/
theorem Window.unmap_low (hw : Window img s) (hlow : addr.toNat + len.toNat ≤ 2 ^ 30) :
    uacpiKernelUnmap img s addr len = some s := by
  obtain ⟨s', hs', hm⟩ := uacpiKernelUnmap_spec hw addr len
  cases hm with
  | same => exact hs'
  | @unmapped i start n mapSlots vmm hat hmatch =>
    have hin := hat.inside
    have hpos := hat.pos
    have hbase := congrArg UInt64.toNat (hmatch.at hat).1
    rw [pageBase_toNat, slotAddress_toNat (by omega)] at hbase
    unfold windowPage at hbase
    omega

theorem uacpiKernelMap_zero (h : uacpiKernelMap img s addr len = some (p, s')) (hp : p ≠ uacpiMapFailed) : len ≠ 0 := by
  rintro rfl
  unfold uacpiKernelMap at h
  simp only [beq_self_eq_true, if_true, Option.some.injEq, Prod.mk.injEq] at h
  exact hp h.1.symm

/-- The mapping just made, taken away again. -/
theorem KernelMap.undo (hw : Window img s) (hfree : FreeRecords s) (hm : KernelMap img s addr len p s₁)
    (hp : p ≠ uacpiMapFailed) (hlen : len ≠ 0) :
    ∃ s', uacpiKernelUnmap img s₁ p len = some s' ∧ SameMappings img s s' := by
  have hw₁ := hm.window hw
  cases hm with
  | identity hlow => exact ⟨s, hw.unmap_low hlow, rfl, rfl, fun _ => rfl⟩
  | failed => exact absurd rfl hp
  | @mapped i n start mapSlots vmm hrec hn hpos hin hclear hrun ht ho hinst =>
    subst hn
    have hat := at_recorded s.mappings i hpos hin
    obtain ⟨s', hs', hr⟩ := AcpiMapping.At.removed hw₁ hat hlen
    refine ⟨s', hs', hrun.undo hclear hr.slots, ?_, ?_⟩
    · rw [hr.records, Function.update_idem, ← hfree i hrec, Function.update_eq_self]
    · have hothers : OtherSlots img s.vmm s'.vmm start (pagesOf addr len) := ho.trans hr.others fun k hk => hk.elim id id
      refine hothers.same hin ?_
      -- A page of the run was clear before the mapping, and is clear now.
      intro k hk
      rw [hr.pages k hk, hw.clear hin hclear k hk]

/-- The mapping taken away after other calls. -/
theorem KernelMap.undoes (hw : Window img s) (hm : KernelMap img s addr len p s₁) (hp : p ≠ uacpiMapFailed)
    (hlen : len ≠ 0) {later : List AcpiCall} (hlater : ∀ c ∈ later, ¬ c.Releases p len) :
    ∃ s₂ s₃, later.foldlM (acpiCall img) s₁ = some s₂ ∧ uacpiKernelUnmap img s₂ p len = some s₃ ∧
      Undoes img addr len s₁ s₂ s₃ p := by
  have hw₁ := hm.window hw
  cases hm with
  | failed => exact absurd rfl hp
  | identity hlow =>
    obtain ⟨s₂, hrun, hw₂⟩ := foldlM_total (Window img) hw₁ fun c (_ : c ∈ later) t h => acpiCall_window h c
    exact ⟨s₂, s₂, hrun, hw₂.unmap_low hlow, .identity hlow rfl⟩
  | @mapped i n start mapSlots vmm _ hn hpos hin _ _ _ _ _ =>
    subst hn
    have hat := at_recorded s.mappings i hpos hin
    -- The record stays where it is, with its slots.
    have hstep : ∀ c ∈ later, ∀ t, Window img t ∧ (t.mappings i).At start (pagesOf addr len) →
        ∃ t', acpiCall img t c = some t' ∧ Window img t' ∧ (t'.mappings i).At start (pagesOf addr len) := by
      intro c hc t ht
      obtain ⟨htw, hta⟩ := ht
      obtain ⟨t', ht', htw'⟩ := acpiCall_window htw c
      have hkeep : ∀ a l, c = .unmap a l → ¬ (t.mappings i).Matches a l := by
        rintro a l rfl hmatch
        exact hlater _ hc (hta.releases hmatch)
      exact ⟨t', ht', htw', (hta.call htw hkeep ht').1⟩
    obtain ⟨s₂, hrun, hw₂, hat₂⟩ :=
      foldlM_total (fun t => Window img t ∧ (t.mappings i).At start (pagesOf addr len)) ⟨hw₁, hat⟩ hstep
    obtain ⟨s₃, hs₃, hr⟩ := hat₂.removed hw₂ hlen
    exact ⟨s₂, s₃, hrun, hs₃, .window hat rfl hr⟩

end Undo

/-- **`uacpi_kernel_unmap` undoes `uacpi_kernel_map`.** After any calls, what a
mapping answers and the length asked for take away that mapping and nothing
else, at once or after any calls that do not unmap it; at once, all is as it
was before the mapping. -/
theorem unmap_undoes_map (img : Image) {s₀ : Vmm} (hs : s₀.pagingEnabled = false)
    (hused : ∀ t ∈ [img.initialPml4, img.initialPdpt, img.initialPd], frameOf t ∉ s₀.pmm.free)
    (calls : List AcpiCall) (addr len : UInt64) :
    ∃ s p s₁, calls.foldlM (acpiCall img) (acpiAtBoot img s₀) = some s ∧
      uacpiKernelMap img s addr len = some (p, s₁) ∧
      (p ≠ uacpiMapFailed →
        (∃ s₂, uacpiKernelUnmap img s₁ p len = some s₂ ∧ SameMappings img s s₂) ∧
        ∀ later : List AcpiCall, (∀ c ∈ later, ¬ c.Releases p len) →
          ∃ s₂ s₃, later.foldlM (acpiCall img) s₁ = some s₂ ∧ uacpiKernelUnmap img s₂ p len = some s₃ ∧
            Undoes img addr len s₁ s₂ s₃ p) := by
  have hstep : ∀ c ∈ calls, ∀ t, Window img t ∧ FreeRecords t →
      ∃ t', acpiCall img t c = some t' ∧ Window img t' ∧ FreeRecords t' := by
    intro c _ t ht
    obtain ⟨t', ht', hw'⟩ := acpiCall_window ht.1 c
    exact ⟨t', ht', hw', acpiCall_freeRecords ht.1 ht.2 ht'⟩
  obtain ⟨s, hrun, hw, hfree⟩ :=
    foldlM_total (fun t => Window img t ∧ FreeRecords t) ⟨acpiAtBoot_window hs hused, fun _ _ => rfl⟩ hstep
  obtain ⟨p, s₁, hmap, hm⟩ := uacpiKernelMap_spec hw addr len
  refine ⟨s, p, s₁, hrun, hmap, ?_⟩
  intro hp
  have hlen := uacpiKernelMap_zero hmap hp
  exact ⟨hm.undo hw hfree hp hlen, fun later hlater => hm.undoes hw hp hlen hlater⟩

theorem unmap_undoes_map_two_mappings :
    ∃ s p s₁, [AcpiCall.map 0xFEE00010 0x2000].foldlM (acpiCall imageAtOneMiB) (acpiAtBoot imageAtOneMiB vmmAtReset) =
        some s ∧
      uacpiKernelMap imageAtOneMiB s 0x40000FFF 2 = some (p, s₁) ∧
      (p ≠ uacpiMapFailed →
        (∃ s₂, uacpiKernelUnmap imageAtOneMiB s₁ p 2 = some s₂ ∧ SameMappings imageAtOneMiB s s₂) ∧
        ∀ later : List AcpiCall, (∀ c ∈ later, ¬ c.Releases p 2) →
          ∃ s₂ s₃, later.foldlM (acpiCall imageAtOneMiB) s₁ = some s₂ ∧
            uacpiKernelUnmap imageAtOneMiB s₂ p 2 = some s₃ ∧ Undoes imageAtOneMiB 0x40000FFF 2 s₁ s₂ s₃ p) :=
  unmap_undoes_map imageAtOneMiB rfl vmmAtReset_used _ _ _

end Tinos
