/-
The addresses the code takes, and the ones the processor does.

`canonical_address` compares bits 63 to 48 and leaves out bit 47, so it takes
addresses that fault before any table is read. Their tables are those of the
address with the other bits 63 to 48 (`Twins`), and a map of one is a map of
the other. `canonical_pages_kept_apart` says that this is all that goes
wrong: an address the processor does not take is ignored if and only if
`canonical_address` refuses it, and two pages share their tables' entries,
and one's map shows in the other, if and only if they are twins.
-/
import Tinos.VmmLarge
import Tinos.VmmOwners

namespace Tinos

open Radix Runs

/-- The calls, all with `P`, lead from `paging_init` to `s`. -/
def Reached (img : Image) (P : VmmCall → Prop) (s : Vmm) : Prop :=
  ∃ (s₀ : Vmm) (calls : List VmmCall), s₀.pagingEnabled = false ∧ (∀ t ∈ img.tables, frameOf t ∉ s₀.pmm.free) ∧
    (∀ c ∈ calls, P c) ∧ calls.foldlM (vmmCall img) (pagingInit img s₀) = some s

/-- No call does anything for the address. -/
def Ignored (img : Image) (va : UInt64) : Prop :=
  ∀ s, Reached img (fun _ => True) s → (∀ pa flags, mapPage img s va pa flags = some s) ∧
    unmapPage img s va = s ∧ getPageTable img s va = 0

/-- The addresses have the same bits below 48 and the opposite ones from there on. -/
def Twins (a b : UInt64) : Prop :=
  a.toNat + (2 ^ 64 - 2 ^ 48) = b.toNat ∨ b.toNat + (2 ^ 64 - 2 ^ 48) = a.toNat

/-- Off the identity map, mapping or unmapping `a` never changes what `b` is
translated to. -/
def NeverChanges (img : Image) (a b : UInt64) : Prop :=
  ∀ s, Reached img (fun c => OffIdentity c.address) s →
    (∀ pa flags s', mapPage img s a pa flags = some s' → hardwareWalk img s' b = hardwareWalk img s b) ∧
      hardwareWalk img (unmapPage img s a) b = hardwareWalk img s b

/-! ## Addresses -/

/-- Of the pages the code takes, twins alone have the same indices. -/
theorem path_eq_iff_twins {a b : UInt64} (hne : a ≠ b) (ha : pageAlignedAddress a = true)
    (hb : pageAlignedAddress b = true) (hca : canonicalAddress a = true) (hcb : canonicalAddress b = true) :
    path a = path b ↔ Twins a b := by
  have hnat : a.toNat ≠ b.toNat := fun he => hne (UInt64.toNat.inj he)
  have ha' := a.toNat_lt
  have hb' := b.toNat_lt
  rw [aligned_iff] at ha hb
  rw [canonicalAddress_iff] at hca hcb
  rw [path_eq_iff, Twins]
  unfold pageOf
  omega

/-- The first three indices do not depend on the bits below 12. -/
theorem exists_page (va : UInt64) (hc : canonicalAddress va = true) : ∃ v : UInt64, pageAlignedAddress v = true ∧
    canonicalAddress v = true ∧ path v = path va := by
  have hm : (pageSize - 1).toNat = 2 ^ 12 - 1 := by decide
  have hv : (va &&& ~~~(pageSize - 1)).toNat = 2 ^ 12 * (va.toNat / 2 ^ 12) := Word.toNat_and_not_low hm
  rw [canonicalAddress_iff] at hc
  refine ⟨va &&& ~~~(pageSize - 1), aligned_iff.mpr (by omega), canonicalAddress_iff.mpr (by omega), ?_⟩
  rw [path_eq_iff]
  unfold pageOf
  omega

/-! ## Reached states -/

section Reached

variable {img : Image} {P : VmmCall → Prop} {s s' s₀ : Vmm} {a b va pa flags : UInt64}

/-- Off the identity map the tables are as `Tables` says. -/
theorem Reached.tables (h : Reached img (fun c => OffIdentity c.address) s) : Tables img s := by
  obtain ⟨s₀, calls, hs, hused, hoff, hrun⟩ := h
  obtain ⟨s', hrun', ht⟩ := foldlM_total (Tables img) (pagingInit_tables img hs hused)
    fun c hc s h => vmmCall_tables h c (hoff c hc)
  rwa [Option.some.inj (hrun.symm.trans hrun')]

/-- Any set of frames may be the free ones. -/
theorem Pmm.exists_free (F : Finset ℕ) (hF : ∀ p ∈ F, p < 16777216) : ∃ s : Pmm, s.free = F := by
  induction F using Finset.induction_on with
  | empty => exact ⟨pmmInit, pmmInit_free⟩
  | insert p F _ ih =>
    obtain ⟨s, hs⟩ := ih fun q hq => hF q (Finset.mem_insert_of_mem hq)
    have hp : (UInt64.ofNat p).toNat = p :=
      Word.toNat_ofNat_of_lt (by have := hF p (Finset.mem_insert_self p F); omega)
    obtain ⟨s', -, hb⟩ := addPage_spec s (by rw [hp]; exact hF p (Finset.mem_insert_self p F))
    exact ⟨s', by rw [hb.free, hs, hp, Finset.union_singleton]⟩

/-- A start with four frames to put tables in, beside the static tables. -/
theorem exists_start (img : Image) : ∃ s₀ : Vmm, s₀.pagingEnabled = false ∧
    (∀ t ∈ img.tables, frameOf t ∉ s₀.pmm.free) ∧ 3 < s₀.pmm.lowFree.card := by
  -- Of frames 1 to 7 the three static tables leave four.
  obtain ⟨F, hF⟩ : ∃ F, F = Finset.range 8 \ (0 :: img.tables.map frameOf).toFinset := ⟨_, rfl⟩
  have hlow : ∀ p ∈ F, 1 ≤ p ∧ p < 8 := by
    intro p hp
    rw [hF, Finset.mem_sdiff, Finset.mem_range, List.mem_toFinset, List.mem_cons, not_or] at hp
    omega
  obtain ⟨pmm, hpmm⟩ := Pmm.exists_free F fun p hp => by have := hlow p hp; omega
  refine ⟨⟨fun _ _ => 0, pmm, false, []⟩, rfl, ?_, ?_⟩
  · intro t ht hm
    rw [hpmm, hF, Finset.mem_sdiff, List.mem_toFinset] at hm
    exact hm.2 (List.mem_cons_of_mem 0 (List.mem_map_of_mem ht))
  · have hall : pmm.lowFree = F := by
      rw [Pmm.lowFree, hpmm, Finset.filter_eq_self]
      exact fun p hp => by have := hlow p hp; omega
    have htaken : (0 :: img.tables.map frameOf).toFinset.card ≤ 4 :=
      (List.toFinset_card_le _).trans (by simp [Image.tables])
    have hcard := Finset.le_card_sdiff (0 :: img.tables.map frameOf).toFinset (Finset.range 8)
    rw [← hF, Finset.card_range] at hcard
    simp only [hall]
    omega

/-- With four frames left, a page off the identity map gets its table. -/
theorem Tables.mapPage_room (h : Tables img s) (hoff : OffIdentity va) (hr : mapRefused s va pa flags = false)
    (hroom : 3 < s.pmm.lowFree.card) : ∃ s₁ t, Tables img s₁ ∧ SameWalks img s s₁ ∧
      s₁.reach img [pml4Index va, pdptIndex va, pdIndex va] = some t ∧
      mapPage img s va pa flags = some (flushTlbPage (s₁.write t (ptIndex va)
        ((pa &&& pageAddressMask) ||| (flags &&& pageFlagMask) ||| pageFlagPresent)) va) := by
  obtain ⟨s', hs', hcase⟩ := mapPage_cases h hoff hr
  have hg := (vmmCall_grows (c := .map va pa flags) h hoff hs').2
  cases hcase with
  | mapped ht hw hreach => exact ⟨_, _, ht, hw, hreach, hs'⟩
  | full _ _ hf _ =>
    rw [noLowFrame_iff] at hf
    have := hg.spends
    omega

theorem pagingInit_room (img : Image) : ∃ s : Vmm, Reached img P s ∧ Tables img s ∧ 3 < s.pmm.lowFree.card ∧
    ∀ va, OffIdentity va → s.reach img [pml4Index va, pdptIndex va, pdIndex va] = none := by
  obtain ⟨s₀, hs, hused, hroom⟩ := exists_start img
  refine ⟨pagingInit img s₀, ⟨s₀, [], hs, hused, nofun, rfl⟩, pagingInit_tables img hs hused, ?_, ?_⟩
  · rwa [pagingInit_pmm]
  · intro va _
    rw [Option.eq_none_iff_forall_ne_some]
    intro f hf
    rcases pagingInit_reach img hs hf with ⟨he, -⟩ | ⟨he, -⟩ | ⟨he, -⟩ <;> simp at he

theorem Reached.call {c : VmmCall} (h : Reached img P s) (hc : P c) (hs : vmmCall img s c = some s') : Reached img P s' := by
  obtain ⟨s₀, calls, hs₀, hused, hall, hrun⟩ := h
  refine ⟨s₀, calls ++ [c], hs₀, hused, ?_, ?_⟩
  · intro d hd
    rcases List.mem_append.mp hd with hd | hd
    · exact hall d hd
    · rw [List.mem_singleton] at hd
      exact hd ▸ hc
  · rw [List.foldlM_append, hrun]
    simp [hs]

/-! ## Addresses the processor does not take -/

theorem ignored_of_refused (hc : canonicalAddress va = false) : Ignored img va := by
  intro s _
  refine ⟨?_, ?_, ?_⟩
  · intro pa flags
    simp [mapPage, mapRefused, hc]
  · simp [unmapPage, hc]
  · simp [getPageTable, hc]

theorem Tables.accepted (h : Tables img s) (hc : canonicalAddress va = true) (ha : pageAlignedAddress va = true) :
    mapRefused s va 0 0 = false := by
  have h0 : pageAlignedAddress 0 = true := by decide
  simp [mapRefused, h.enabled, hc, ha, h0]

/-- In the first 2 MiB of the identity map a map puts a table in. -/
theorem Tables.mapPage_first (h : Tables img s) (hva : [pml4Index va, pdptIndex va] = [0, 0])
    (hr : mapRefused s va pa flags = false) (hi : pdIndex va = 0) (hfree : ¬ NoLowFrame s.pmm) :
    ∃ s', mapPage img s va pa flags = some s' ∧ s'.pagingEnabled = true ∧ findTable img s' va ≠ 0 := by
  obtain ⟨f, s₁, hs₁, halloc⟩ := allocateTable_spec s
  cases halloc with
  | full hfull => exact absurd hfull hfree
  | @table _ pmm hne hpage hlow _ _ hf hb =>
    refine ⟨_, h.mapPage_links hva hr hi hs₁ hne, ?_, ?_⟩
    · exact h.enabled
    obtain ⟨t, ht, ht0, hreach, hpd⟩ := h.above
    have hfresh := h.fresh hf
    have hpd0 : img.initialPd ≠ 0 := (h.placed [0, 0] _ (by simp) h.identity).ne_zero
    have hpml4 : img.initialPml4 ≠ f ∧ img.initialPml4 ≠ img.initialPd :=
      ⟨fun he => hfresh [] (by simp) (he ▸ rfl), img.ne.2.1⟩
    have htable : t ≠ f ∧ t ≠ img.initialPd :=
      ⟨fun he => hfresh [0] (by simp) (he ▸ hreach), h.ne_pd (by simp) (by simp) hreach⟩
    have hpdf : img.initialPd ≠ f := fun he => hfresh [0, 0] (by simp) (he ▸ h.identity)
    have hlink : entryTable (tableEntry f) = f := Tinos.entryTable_eq (next_tableEntry hpage) hlow
    simp only [List.cons.injEq, and_true] at hva
    simp only [findTable, hva.1, hva.2, hi, flushTlbPage, write_mem, zeroPage_mem, Store.set, Store.fill, hpml4.1,
      hpml4.2, htable.1, htable.2, hpdf, ht, hpd, hlink, false_and, true_and, if_false, if_true, beq_iff_eq, ht0, hpd0]
    exact hne

/-- An address the code takes has a table in some state, aligned or not. -/
theorem exists_getPageTable (img : Image) (hc : canonicalAddress va = true) :
    ∃ s, Reached img (fun _ => True) s ∧ getPageTable img s va ≠ 0 := by
  obtain ⟨s, hreached, ht, hroom, -⟩ := pagingInit_room (P := fun _ => True) img
  obtain ⟨v, hav, hcv, hpath⟩ := exists_page va hc
  have hr := ht.accepted hcv hav
  have hget : ∀ u : Vmm, u.pagingEnabled = true → getPageTable img u va = findTable img u va := by
    intro u hu
    simp [getPageTable, hu, hc]
  simp only [path, List.cons.injEq, and_true] at hpath
  obtain ⟨h1, h2, h3, -⟩ := hpath
  by_cases hoff : OffIdentity va
  · have hoffv : OffIdentity v := by
      unfold OffIdentity
      rwa [h1, h2]
    obtain ⟨s₁, t, ht₁, -, hreach, hmap⟩ := ht.mapPage_room hoffv hr hroom
    refine ⟨_, hreached.call (c := .map v 0 0) trivial hmap, ?_⟩
    have ht₂ : Tables img (flushTlbPage (s₁.write t (ptIndex v)
        ((0 &&& pageAddressMask) ||| (0 &&& pageFlagMask) ||| pageFlagPresent)) v) := (ht₁.write_last rfl hreach).flush
    rw [hget _ ht₂.enabled]
    rcases findTable_eq ht₂ hoff with ⟨-, hnone⟩ | ⟨hne, -⟩
    · rw [← h1, ← h2, ← h3] at hnone
      have hself := descend_set_self (i := ptIndex v)
        (e := (0 &&& pageAddressMask) ||| (0 &&& pageFlagMask) ||| pageFlagPresent) ht₁.tree hreach (by simp)
      exact absurd (hself.symm.trans hnone) (by simp)
    · exact hne
  · have hlow := not_not.mp hoff
    by_cases hi : pdIndex va = 0
    · have hfree : ¬ NoLowFrame s.pmm := by
        rw [noLowFrame_iff]
        omega
      obtain ⟨s', hmap, hen, hne⟩ := ht.mapPage_first (by rw [h1, h2]; exact hlow) hr (by rw [h3, hi]) hfree
      refine ⟨s', hreached.call (c := .map v 0 0) trivial hmap, ?_⟩
      rw [hget s' hen]
      simp only [findTable, h1, h2, h3] at hne ⊢
      exact hne
    · refine ⟨s, hreached, ?_⟩
      rw [hget s ht.enabled, ht.findTable_low hlow]
      exact fun he => hi (entryTable_largePageEntry_eq_zero.mp he)

theorem ignored_iff (img : Image) (va : UInt64) : Ignored img va ↔ canonicalAddress va = false := by
  constructor
  · intro hign
    cases hc : canonicalAddress va with
    | false => rfl
    | true =>
      obtain ⟨s, hreached, hne⟩ := exists_getPageTable img hc
      exact absurd (hign s hreached).2.2 hne
  · exact ignored_of_refused

/-! ## Twins -/

/-- A call shows in no walk but that of its own indices. -/
theorem Tables.vmmCall_keeps {c : VmmCall} (h : Tables img s) (hoff : OffIdentity c.address)
    (hb : path b ≠ path c.address ∨ hardwareCanonical b = false) (hs : vmmCall img s c = some s') :
    hardwareWalk img s' b = hardwareWalk img s b := by
  rcases hb with hne | hfault
  · obtain ⟨-, s₁, u, -, -, ht, hw, hu, hcase⟩ :=
      vmmCall_levels (fun _ _ => True) h hoff trivial fun _ _ _ _ _ _ _ _ _ => trivial
    obtain rfl := Option.some.inj (hs.symm.trans hu)
    rcases hcase with rfl | ⟨t, e, hreach, rfl⟩
    · exact hw.hardwareWalk b
    · exact (ht.walk_write_ne hreach hne).trans (hw.hardwareWalk b)
  · simp [hardwareWalk, hfault]

/-- A map of `a` is a map of the page of the same indices. -/
theorem not_neverChanges (img : Image) (hoff : OffIdentity a) (hc : canonicalAddress a = true)
    (ha : pageAlignedAddress a = true) (hpath : path a = path b) (hb : hardwareCanonical b = true) :
    ¬ NeverChanges img a b := by
  intro hnever
  obtain ⟨s, hreached, ht, hroom, hnone⟩ := pagingInit_room (P := fun c => OffIdentity c.address) img
  obtain ⟨s₁, t, ht₁, -, hreach, hmap⟩ := ht.mapPage_room hoff (ht.accepted hc ha) hroom
  have hkept := (hnever s hreached).1 0 0 _ hmap
  simp only [path, List.cons.injEq, and_true] at hpath
  obtain ⟨h1, h2, h3, h4⟩ := hpath
  have hoffb : OffIdentity b := by
    unfold OffIdentity
    rwa [← h1, ← h2]
  rw [h1, h2, h3] at hreach
  rw [h4, ht.walk_none hoffb (hnone b hoffb)] at hkept
  have hwalk := ht₁.walk_write (e := (0 &&& pageAddressMask) ||| (0 &&& pageFlagMask) ||| pageFlagPresent) hb hreach
  have hpresent : present ((0 &&& pageAddressMask) ||| (0 &&& pageFlagMask) ||| pageFlagPresent) = true := by decide
  rw [hpresent, if_pos rfl] at hwalk
  exact absurd (hwalk.symm.trans hkept) (by simp)

end Reached

/-- **The addresses taken.** An address the processor does not take is
ignored just where bits 63 to 48 give it away; two pages the code takes have
different indices just where they are no twins; and off the identity map a
map or unmap of one changes what the other is translated to just where they
are twins and the processor takes the other. -/
theorem canonical_pages_kept_apart (img : Image) :
    (∀ va, hardwareCanonical va = false → (Ignored img va ↔ canonicalAddress va = false)) ∧
      ∀ a b, a ≠ b → pageAlignedAddress a = true → pageAlignedAddress b = true →
        canonicalAddress a = true → canonicalAddress b = true →
        (path a ≠ path b ↔ ¬ Twins a b) ∧
          (OffIdentity a → (NeverChanges img a b ↔ ¬ (Twins a b ∧ hardwareCanonical b = true))) := by
  refine ⟨fun va _ => ignored_iff img va, ?_⟩
  intro a b hne ha hb hca hcb
  have htwins := path_eq_iff_twins hne ha hb hca hcb
  refine ⟨not_congr htwins, fun hoff => ⟨?_, ?_⟩⟩
  · intro hnever htw
    exact not_neverChanges img hoff hca ha (htwins.mpr htw.1) htw.2 hnever
  · intro hno s hs
    have hb : path b ≠ path a ∨ hardwareCanonical b = false := by
      rw [or_iff_not_imp_left, not_not]
      intro hp
      exact Bool.eq_false_iff.mpr fun hcan => hno ⟨htwins.mp hp.symm, hcan⟩
    exact ⟨fun pa flags s' hmap => hs.tables.vmmCall_keeps (c := .map a pa flags) hoff hb hmap,
      hs.tables.vmmCall_keeps (c := .unmap a) hoff hb rfl⟩

theorem canonical_pages_kept_apart_window :
    (Ignored imageAtOneMiB 0x0000800000000000 ↔ canonicalAddress 0x0000800000000000 = false) ∧
      (path 0x0000800000000000 ≠ path 0xFFFF800000000000 ↔ ¬ Twins 0x0000800000000000 0xFFFF800000000000) ∧
      (NeverChanges imageAtOneMiB 0x0000800000000000 0xFFFF800000000000 ↔
        ¬ (Twins 0x0000800000000000 0xFFFF800000000000 ∧ hardwareCanonical 0xFFFF800000000000 = true)) := by
  have h := canonical_pages_kept_apart imageAtOneMiB
  have hpair := h.2 0x0000800000000000 0xFFFF800000000000 (by decide) (by decide) (by decide) (by decide) (by decide)
  exact ⟨h.1 0x0000800000000000 (by decide), hpair.1, hpair.2 (by unfold OffIdentity; decide)⟩

/-- A map at an address that faults is one of the first page of the ACPI
window. -/
theorem faulting_page_maps_window : ∃ s,
    mapPage imageAtOneMiB (pagingInit imageAtOneMiB vmmAtReset) 0x0000800000000000 0x5000 3 = some s ∧
    hardwareCanonical 0x0000800000000000 = false ∧ getPageTable imageAtOneMiB s 0x0000800000000000 ≠ 0 ∧
    path 0x0000800000000000 = path 0xFFFF800000000000 ∧
    translate imageAtOneMiB (pagingInit imageAtOneMiB vmmAtReset) 0xFFFF800000000000 = none ∧
    translate imageAtOneMiB s 0xFFFF800000000000 = some 0x5000 := by
  have hrun : (mapPage imageAtOneMiB (pagingInit imageAtOneMiB vmmAtReset) 0x0000800000000000 0x5000 3).map (fun s =>
      (getPageTable imageAtOneMiB s 0x0000800000000000 != 0,
        translate imageAtOneMiB (pagingInit imageAtOneMiB vmmAtReset) 0xFFFF800000000000,
        translate imageAtOneMiB s 0xFFFF800000000000)) = some (true, none, some 0x5000) := by decide +kernel
  obtain ⟨s, hs, he⟩ := Option.map_eq_some_iff.mp hrun
  simp only [Prod.mk.injEq, bne_iff_ne, ne_eq] at he
  exact ⟨s, hs, by decide, he.1, by decide, he.2.1, he.2.2⟩

end Tinos
