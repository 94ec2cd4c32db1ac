/-
`map_page`, `unmap_page` and `get_page_table` below 1 GiB.

`paging_init` covers the first GiB with large pages, whose entries point to
no table. `entry_table` does not look at the page-size bit: it takes the
2 MiB page itself for the last-level table, and the first one, at physical
address 0, for NULL. So the calls on a page there do no harm in one case
only (`large_pages_respected_iff`): in the first 2 MiB, where the walk stops
at NULL, while no low frame is left for `next_table` to put a table there.
-/
import Tinos.PmmRuns
import Tinos.VmmMaps

namespace Tinos

open Radix Runs

/-- No page but `va`'s has another translation. -/
def SameTranslations (img : Image) (va : UInt64) (s s' : Vmm) : Prop :=
  ∀ v, pageOf v ≠ pageOf va → translate img s' v = translate img s v

/-- The words stored on the way to `s'` are in tables the processor uses. -/
def StoresInTables (img : Image) (s s' : Vmm) : Prop :=
  ∀ t i e, .store t i e ∈ s'.trace.drop s.trace.length →
    ∃ p, p.length < 4 ∧ (s.reach img p = some t ∨ s'.reach img p = some t)

/-- The calls on `va` keep to the processor's tables and to `va`'s page. -/
structure LargePagesRespected (img : Image) (s : Vmm) (va pa flags : UInt64) : Prop where
  map : ∃ s', mapPage img s va pa flags = some s' ∧ StoresInTables img s s' ∧ SameTranslations img va s s'
  unmap : StoresInTables img s (unmapPage img s va) ∧ SameTranslations img va s (unmapPage img s va)
  table : getPageTable img s va = 0 ∨
    s.reach img [pml4Index va, pdptIndex va, pdIndex va] = some (getPageTable img s va)

/-- The call is refused, off the identity map, or on its first 2 MiB with no
frame there for a table. -/
def VmmCall.Harmless (s : Vmm) : VmmCall → Prop
  | .map va pa flags => mapRefused s va pa flags = true ∨ OffIdentity va ∨ ((pdIndex va).val = 0 ∧ NoLowFrame s.pmm)
  | .unmap va => (canonicalAddress va && pageAlignedAddress va) = false ∨ OffIdentity va ∨ (pdIndex va).val = 0

/-! ## The walk of the code -/

section Low

variable {img : Image} {s s' : Vmm} {va pa flags : UInt64}

/-- The large page's address, not a table's. -/
theorem entryTable_largePageEntry : ∀ i, entryTable (largePageEntry i) = UInt64.ofNat (2 ^ 21 * i.val) := by
  decide +kernel

theorem entryTable_largePageEntry_eq_zero {i : Fin 512} : entryTable (largePageEntry i) = 0 ↔ i = 0 := by
  have hi := i.isLt
  rw [entryTable_largePageEntry, ← UInt64.toNat_inj, Word.toNat_ofNat_of_lt (by omega), Fin.ext_iff]
  simp

/-- The two tables above the page directory of the identity map. -/
theorem Tables.above (h : Tables img s) : ∃ t, entryTable (s.mem img.initialPml4 0) = t ∧ t ≠ 0 ∧
    s.reach img [0] = some t ∧ entryTable (s.mem t 0) = img.initialPd := by
  have hnext : ∀ t, s.reach img [0] = some t → s.reach img [0, 0] = pageFormat.next (s.mem t 0) := by
    intro t ht
    have hsnoc := reach_snoc img s [0] 0
    rw [ht] at hsnoc
    exact hsnoc
  rcases h.entryTable_eq (p := []) (by simp) (by simp) rfl 0 with ⟨-, -, hn⟩ | ⟨hne, hr⟩
  · have hnone : s.reach img ([0] ++ [0]) = none := by
      rw [reach_append]
      simp only [List.nil_append] at hn
      rw [hn]
      rfl
    exact absurd (h.identity.symm.trans hnone) (by simp)
  · refine ⟨_, rfl, hne, hr, ?_⟩
    rcases h.entryTable_eq (p := [0]) (by simp) (by simp) hr 0 with ⟨-, -, hn⟩ | ⟨-, hr2⟩
    · exact absurd (h.identity.symm.trans hn) (by simp)
    · exact Option.some.inj (hr2.symm.trans h.identity)

theorem Tables.findTable_low (h : Tables img s) (hva : [pml4Index va, pdptIndex va] = [0, 0]) :
    findTable img s va = entryTable (largePageEntry (pdIndex va)) := by
  simp only [List.cons.injEq, and_true] at hva
  obtain ⟨t, ht, hne, -, hpd⟩ := h.above
  have hpd0 : img.initialPd ≠ 0 := (h.placed [0, 0] _ (by simp) h.identity).ne_zero
  simp only [findTable, hva.1, hva.2, ht, hpd, beq_iff_eq, hne, hpd0, if_false, h.large]

/-- A large page has no last-level table. -/
theorem Tables.reach_low (h : Tables img s) (hva : [pml4Index va, pdptIndex va] = [0, 0]) :
    s.reach img [pml4Index va, pdptIndex va, pdIndex va] = none := by
  have hsnoc := reach_snoc img s [0, 0] (pdIndex va)
  rw [h.identity, Option.bind_some, h.large, next_largePageEntry] at hsnoc
  simp only [List.cons.injEq, and_true] at hva
  rw [hva.1, hva.2]
  exact hsnoc

/-- `map_page` gets to the page directory of the identity map. -/
theorem Tables.mapPage_low (h : Tables img s) (hva : [pml4Index va, pdptIndex va] = [0, 0])
    (hr : mapRefused s va pa flags = false) : mapPage img s va pa flags =
      (nextTable s img.initialPd (pdIndex va)).bind fun r =>
        if r.1 = 0 then some r.2
        else some (flushTlbPage (r.2.write r.1 (ptIndex va)
          ((pa &&& pageAddressMask) ||| (flags &&& pageFlagMask) ||| pageFlagPresent)) va) := by
  simp only [List.cons.injEq, and_true] at hva
  obtain ⟨t, ht, hne, -, hpd⟩ := h.above
  have hpd0 : img.initialPd ≠ 0 := (h.placed [0, 0] _ (by simp) h.identity).ne_zero
  unfold mapPage
  have h1 : nextTable s img.initialPml4 0 = some (t, s) := by simp [nextTable, ht, hne]
  have h2 : nextTable s t 0 = some (img.initialPd, s) := by simp [nextTable, hpd, hpd0]
  simp only [hr, Bool.false_eq_true, if_false, hva.1, hva.2, h1, h2, Option.bind_eq_bind, Option.bind_some,
    beq_iff_eq, hne, hpd0]
  rfl

/-- The first entry of the identity map's page directory is a large page. -/
theorem Tables.first_large (h : Tables img s) : entryTable (s.mem img.initialPd 0) = 0 := by
  rw [h.large]
  exact entryTable_largePageEntry_eq_zero.mpr rfl

/-- On the first 2 MiB `map_page` links a table that it is given. -/
theorem Tables.mapPage_links (h : Tables img s) (hva : [pml4Index va, pdptIndex va] = [0, 0])
    (hr : mapRefused s va pa flags = false) (hi : pdIndex va = 0) {f : UInt64} {s₁ : Vmm}
    (hs₁ : allocateTable s = some (f, s₁)) (hne : f ≠ 0) : mapPage img s va pa flags =
      some (flushTlbPage ((s₁.write img.initialPd 0 (tableEntry f)).write f (ptIndex va)
        ((pa &&& pageAddressMask) ||| (flags &&& pageFlagMask) ||| pageFlagPresent)) va) := by
  rw [h.mapPage_low hva hr, hi]
  simp only [nextTable, h.first_large, hs₁]
  simp [hne]

/-- On the first 2 MiB with no frame for a table, `map_page` does nothing. -/
theorem Tables.mapPage_full (h : Tables img s) (hva : [pml4Index va, pdptIndex va] = [0, 0])
    (hr : mapRefused s va pa flags = false) (hi : pdIndex va = 0) (hfull : NoLowFrame s.pmm) :
    mapPage img s va pa flags = some s := by
  obtain ⟨f, s₁, hs₁, halloc⟩ := allocateTable_spec s
  rw [h.mapPage_low hva hr, hi]
  cases halloc with
  | full => simp [nextTable, h.first_large, hs₁]
  | table _ _ _ h1 h2 hfree _ => exact absurd (hfull _ hfree h1) (by omega)

/-- On the first 2 MiB with a frame for a table, `map_page` replaces the large
page by the table, and the other pages of it are gone. -/
theorem Tables.mapPage_drops (h : Tables img s) (hva : [pml4Index va, pdptIndex va] = [0, 0])
    (hr : mapRefused s va pa flags = false) (hi : pdIndex va = 0) (hfree : ¬ NoLowFrame s.pmm)
    {j : Fin 512} (hj : j ≠ ptIndex va) :
    ∃ s', mapPage img s va pa flags = some s' ∧ s'.walk img [0, 0, 0, j] = none := by
  obtain ⟨f, s₁, hs₁, halloc⟩ := allocateTable_spec s
  cases halloc with
  | full hfull => exact absurd hfull hfree
  | @table _ pmm hne hpage hlow _ _ hf hb =>
    refine ⟨_, h.mapPage_links hva hr hi hs₁ hne, ?_⟩
    have hfresh := h.fresh hf
    have hpdf : img.initialPd ≠ f := fun he => hfresh [0, 0] (by decide) (he ▸ h.identity)
    have hfill : ∀ q, q.length < 4 →
        descend pageFormat (s.mem.fill f 0) img.initialPml4 q = s.reach img q := fun q hq =>
      descend_fill hfresh hq.le
    have hpd := (hfill [0, 0] (by decide)).trans h.identity
    have hway : ∀ e, descend pageFormat
        (((s.mem.fill f 0).set img.initialPd 0 (tableEntry f)).set f (ptIndex va) e) img.initialPml4 [0, 0, 0] =
        some f := fun e =>
      descend_relink (h.tree.fill hfresh) hpd (by decide) (fun q hq => by rw [hfill q hq]; exact hfresh q hq)
        (next_tableEntry hpage)
    have hzero : ∀ e, (((s.mem.fill f 0).set img.initialPd 0 (tableEntry f)).set f (ptIndex va) e) f j = 0 :=
      fun e => by
        rw [set_ne fun he => hj he.2, set_ne fun he => hpdf he.1.symm]
        simp only [Store.fill, if_true]
    refine (walk_append (q := [j]) (hway _) (by simp)).trans ?_
    simp only [walk, hzero, blank_zero.leaf, blank_zero.next, Bool.false_eq_true, if_false, Option.bind_none]

/-! ## When the calls do no harm -/

theorem Tables.getPageTable_low (h : Tables img s) (hva : va < bootstrapIdentityLimit) :
    getPageTable img s va = entryTable (largePageEntry (pdIndex va)) := by
  have hc : canonicalAddress va = true := canonicalAddress_of_hardware (hardwareCanonical_of_low hva)
  unfold getPageTable
  simp only [h.enabled, hc, Bool.not_true, Bool.or_self, Bool.false_eq_true, if_false]
  exact h.findTable_low (not_off_of_low hva)

theorem Tables.unmapPage_low (h : Tables img s) (hva : [pml4Index va, pdptIndex va] = [0, 0])
    (hi : pdIndex va = 0) : unmapPage img s va = s := by
  unfold unmapPage
  rw [h.findTable_low hva, entryTable_largePageEntry_eq_zero.mpr hi]
  simp

theorem StoresInTables.refl : StoresInTables img s s := fun t i e h => by simp at h

/-- Another page of the first 2 MiB. -/
theorem exists_other_page (va : UInt64) : ∃ v : UInt64, v < bootstrapIdentityLimit ∧
    path v = [0, 0, 0, ptIndex v] ∧ ptIndex v ≠ ptIndex va ∧ pageOf v ≠ pageOf va := by
  have hpage : ∀ v : UInt64, pageOf v = pageOf va → ptIndex v = ptIndex va := by
    intro v he
    rw [Fin.ext_iff, ptIndex_val, ptIndex_val]
    exact congrArg (· % 512) he
  by_cases h : ptIndex va = 0
  · have hne : ptIndex 0x1000 ≠ ptIndex va := by
      rw [h]
      decide
    exact ⟨0x1000, by decide, by decide, hne, fun he => hne (hpage _ he)⟩
  · have hne : ptIndex 0 ≠ ptIndex va := fun he => h (he.symm.trans (by decide))
    exact ⟨0, by decide, by decide, hne, fun he => hne (hpage _ he)⟩

theorem Tables.respected_iff (h : Tables img s) (hva : va < bootstrapIdentityLimit)
    (ha : pageAlignedAddress va = true) (hm : Mappable pa flags) :
    LargePagesRespected img s va pa flags ↔ pdIndex va = 0 ∧ NoLowFrame s.pmm := by
  have hlow := not_off_of_low hva
  have hr := h.not_refused (hardwareCanonical_of_low hva) ha hm
  constructor
  · intro hok
    have hi : pdIndex va = 0 := by
      rcases hok.table with h0 | hreach
      · rw [h.getPageTable_low hva] at h0
        exact entryTable_largePageEntry_eq_zero.mp h0
      · rw [h.reach_low hlow] at hreach
        cases hreach
    refine ⟨hi, ?_⟩
    by_contra hfree
    obtain ⟨v, hv, hpath, hj, hpage⟩ := exists_other_page va
    obtain ⟨s₁, hs₁, hnone⟩ := h.mapPage_drops hlow hr hi hfree hj
    obtain ⟨s₂, hs₂, -, hsame⟩ := hok.map
    rw [hs₁, Option.some.injEq] at hs₂
    subst hs₂
    have hgone : translate img s₁ v = none := by
      unfold translate hardwareWalk
      rw [if_pos (hardwareCanonical_of_low hv), hpath]
      exact congrArg _ hnone
    have hwas := hsame v hpage
    rw [hgone, h.translate_low hv] at hwas
    cases hwas
  · intro hboth
    obtain ⟨hi, hfull⟩ := hboth
    have hsame : SameTranslations img va s s := fun _ _ => rfl
    refine ⟨⟨s, h.mapPage_full hlow hr hi hfull, .refl, hsame⟩, ?_, .inl ?_⟩
    · rw [h.unmapPage_low hlow hi]
      exact ⟨.refl, hsame⟩
    · rw [h.getPageTable_low hva]
      exact entryTable_largePageEntry_eq_zero.mpr hi

/-- A harmless call keeps the tables. -/
theorem VmmCall.Harmless.tables {c : VmmCall} (h : Tables img s) (hc : c.Harmless s)
    (hs : vmmCall img s c = some s') : Tables img s' := by
  have hoff : OffIdentity c.address → Tables img s' := by
    intro hoff
    obtain ⟨s₁, hs₁, ht⟩ := vmmCall_tables h c hoff
    rw [hs₁, Option.some.injEq] at hs
    rwa [← hs]
  have hsame : vmmCall img s c = some s → Tables img s' := by
    intro he
    rw [he, Option.some.injEq] at hs
    rwa [← hs]
  cases c with
  | map va pa flags =>
    rcases hc with hr | ho | ⟨hi, hfull⟩
    · exact hsame (by simp [vmmCall, mapPage, hr])
    · exact hoff ho
    · by_cases hlow : OffIdentity va
      · exact hoff hlow
      · cases hr : mapRefused s va pa flags with
        | true => exact hsame (by simp [vmmCall, mapPage, hr])
        | false => exact hsame (h.mapPage_full (not_not.mp hlow) hr (Fin.val_eq_zero_iff.mp hi) hfull)
  | unmap va =>
    rcases hc with hr | ho | hi
    · refine hsame ?_
      have hr' : (!s.pagingEnabled || !canonicalAddress va || !pageAlignedAddress va) = true := by
        rw [Bool.or_assoc, ← Bool.not_and, hr]
        simp
      simp only [vmmCall, unmapPage, hr', if_true]
    · exact hoff ho
    · by_cases hlow : OffIdentity va
      · exact hoff hlow
      · exact hsame (congrArg some (h.unmapPage_low (not_not.mp hlow) (Fin.val_eq_zero_iff.mp hi)))

end Low

/-- **The large pages are respected in the first 2 MiB without a frame, and
nowhere else.** In every run of harmless calls, at each page below 1 GiB. -/
theorem large_pages_respected_iff (img : Image) {s₀ s : Vmm} (hs : s₀.pagingEnabled = false)
    (hused : ∀ t ∈ [img.initialPml4, img.initialPdpt, img.initialPd], frameOf t ∉ s₀.pmm.free)
    {calls : List VmmCall}
    (hrun : Steps (fun t c u => VmmCall.Harmless t c ∧ vmmCall img t c = some u) (pagingInit img s₀) calls s)
    {va pa flags : UInt64} (hva : va < bootstrapIdentityLimit) (ha : pageAlignedAddress va = true)
    (hm : Mappable pa flags) :
    LargePagesRespected img s va pa flags ↔ pdIndex va = 0 ∧ NoLowFrame s.pmm := by
  have h : Tables img s := hrun.invariant_of (Tables img) (pagingInit_tables img hs hused)
    fun t c u ht hc hu => hc.tables ht hu
  exact h.respected_iff hva ha hm

/-- At 2 MiB, right after `paging_init`, `get_page_table` answers the page. -/
theorem large_page_for_table :
    getPageTable imageAtOneMiB (pagingInit imageAtOneMiB vmmAtReset) 0x200000 = 0x200000 ∧
      ¬ LargePagesRespected imageAtOneMiB (pagingInit imageAtOneMiB vmmAtReset) 0x200000 0x200000 3 := by
  have h := pagingInit_tables imageAtOneMiB (s := vmmAtReset) rfl vmmAtReset_used
  refine ⟨(h.getPageTable_low (by decide)).trans (by decide), ?_⟩
  intro hok
  obtain ⟨hi, -⟩ := (h.respected_iff (by decide) (by decide) ⟨by decide, by decide, by decide⟩).mp hok
  exact absurd hi (by decide)

/-- Before `paging_init`, with no frame free. -/
def vmmWithoutFrames : Vmm := { vmmAtReset with pmm := pmmInit }

/-- A high page mapped and taken away, with frames left over; and a page of the
first 2 MiB asked for without any. -/
theorem large_pages_respected_iff_two_runs :
    (∃ s, Steps (fun t c u => VmmCall.Harmless t c ∧ vmmCall imageAtOneMiB t c = some u)
      (pagingInit imageAtOneMiB vmmAtReset) [.map 0x40000000 0x5000 3, .unmap 0x40000000] s ∧
        ¬ LargePagesRespected imageAtOneMiB s 0x3000 0x5000 3) ∧
    Steps (fun t c u => VmmCall.Harmless t c ∧ vmmCall imageAtOneMiB t c = some u)
      (pagingInit imageAtOneMiB vmmWithoutFrames) [.map 0x3000 0x5000 3] (pagingInit imageAtOneMiB vmmWithoutFrames) ∧
      LargePagesRespected imageAtOneMiB (pagingInit imageAtOneMiB vmmWithoutFrames) 0x3000 0x5000 3 := by
  have hlow : (0x3000 : UInt64) < bootstrapIdentityLimit := by decide
  have hm : Mappable 0x5000 3 := ⟨by decide, by decide, by decide⟩
  have hhigh : HighPage 0x40000000 := ⟨by decide, by decide, by decide⟩
  have hnone : NoLowFrame (pagingInit imageAtOneMiB vmmWithoutFrames).pmm := by
    rw [pagingInit_pmm]
    intro q hq
    rw [vmmWithoutFrames, pmmInit_free] at hq
    exact absurd hq (Finset.notMem_empty q)
  have hused : ∀ t ∈ [imageAtOneMiB.initialPml4, imageAtOneMiB.initialPdpt, imageAtOneMiB.initialPd],
      frameOf t ∉ vmmWithoutFrames.pmm.free := by
    intro t _
    rw [vmmWithoutFrames, pmmInit_free]
    exact Finset.notMem_empty _
  refine ⟨?_, ?_⟩
  · have hcalc : ((vmmCall imageAtOneMiB (pagingInit imageAtOneMiB vmmAtReset) (.map 0x40000000 0x5000 3)).bind fun s₁ =>
        (vmmCall imageAtOneMiB s₁ (.unmap 0x40000000)).map fun s₂ => pageUsed s₂.pmm 519) = some (some false) := by
      decide +kernel
    simp only [Option.bind_eq_some_iff, Option.map_eq_some_iff] at hcalc
    obtain ⟨s₁, h₁, s₂, h₂, hfree⟩ := hcalc
    have hrun : Steps (fun t c u => VmmCall.Harmless t c ∧ vmmCall imageAtOneMiB t c = some u)
        (pagingInit imageAtOneMiB vmmAtReset) [.map 0x40000000 0x5000 3, .unmap 0x40000000] s₂ :=
      .snoc (.snoc .nil ⟨.inr (.inl hhigh.off), h₁⟩) ⟨.inr (.inl hhigh.off), h₂⟩
    refine ⟨s₂, hrun, fun hok => ?_⟩
    obtain ⟨-, hfull⟩ := (large_pages_respected_iff imageAtOneMiB rfl vmmAtReset_used hrun hlow (by decide) hm).mp hok
    rw [pageUsed_eq (by decide), Option.some.injEq] at hfree
    exact absurd (hfull 519 (Pmm.mem_free.mpr ⟨by decide, hfree⟩) (by decide)) (by decide)
  · have ht := pagingInit_tables imageAtOneMiB (s := vmmWithoutFrames) rfl hused
    have hcall := ht.mapPage_full (not_off_of_low hlow) (ht.not_refused (by decide) (by decide) hm) (by decide) hnone
    have hrun : Steps (fun t c u => VmmCall.Harmless t c ∧ vmmCall imageAtOneMiB t c = some u)
        (pagingInit imageAtOneMiB vmmWithoutFrames) [.map 0x3000 0x5000 3] (pagingInit imageAtOneMiB vmmWithoutFrames) :=
      .snoc .nil ⟨.inr (.inr ⟨by decide, hnone⟩), hcall⟩
    exact ⟨hrun, (large_pages_respected_iff imageAtOneMiB rfl hused hrun hlow (by decide) hm).mpr ⟨by decide, hnone⟩⟩

end Tinos
