/-
Runs of `map_page` and `unmap_page`.

Off the identity map (any address whose first two table indices are not both
0) the calls keep `Tables`: `translation_correct` says what they do to the
processor's walks, for every history of calls at or above 1 GiB.

Below 1 GiB the calls go through the page directory of the identity map,
whose large entries `entry_table` takes for tables (and entry 0 for NULL).
`Tinos.VmmLarge` says what that comes to.
-/
import Tinos.Lib.Runs
import Tinos.VmmTables

namespace Tinos

open Radix Runs

inductive VmmCall where
  | map (virtualAddress physicalAddress flags : UInt64)
  | unmap (virtualAddress : UInt64)

def VmmCall.address : VmmCall → UInt64
  | .map virtualAddress _ _ => virtualAddress
  | .unmap virtualAddress => virtualAddress

def vmmCall (img : Image) (s : Vmm) : VmmCall → Option Vmm
  | .map virtualAddress physicalAddress flags => mapPage img s virtualAddress physicalAddress flags
  | .unmap virtualAddress => some (unmapPage img s virtualAddress)

/-- A page the processor can reach, at or above 1 GiB. -/
structure HighPage (va : UInt64) : Prop where
  canonical : hardwareCanonical va = true
  aligned : pageAlignedAddress va = true
  high : bootstrapIdentityLimit ≤ va

/-- A physical page and flags `map_page` takes. -/
structure Mappable (pa flags : UInt64) : Prop where
  aligned : pageAlignedAddress pa = true
  inside : pa &&& ~~~pageAddressMask = 0
  flags : flags &&& ~~~pageFlagMask = 0

/-- The page of an address. -/
def pageOf (va : UInt64) : Nat := va.toNat / 4096

/-- No page but `va`'s is translated otherwise. -/
def OtherPages (img : Image) (va : UInt64) (s s' : Vmm) : Prop :=
  ∀ v, pageOf v ≠ pageOf va → hardwareWalk img s' v = hardwareWalk img s v

/-! ## Addresses -/

section Address

variable {va v k : UInt64}

theorem tableIndex_val (hk : k < 64) : (tableIndex va k).val = va.toNat / 2 ^ k.toNat % 512 := by
  have hk' : k.toNat < 64 := UInt64.lt_iff_toNat_lt.mp hk
  have hm : (0x1FF : UInt64).toNat = 2 ^ 9 - 1 := by decide
  simp only [tableIndex]
  rw [Word.toNat_and_low hm, UInt64.toNat_shiftRight, Nat.mod_eq_of_lt hk', Nat.shiftRight_eq_div_pow]
  rfl

theorem pml4Index_val : (pml4Index va).val = va.toNat / 2 ^ 39 % 512 := tableIndex_val (by decide)
theorem pdptIndex_val : (pdptIndex va).val = va.toNat / 2 ^ 30 % 512 := tableIndex_val (by decide)
theorem pdIndex_val : (pdIndex va).val = va.toNat / 2 ^ 21 % 512 := tableIndex_val (by decide)
theorem ptIndex_val : (ptIndex va).val = va.toNat / 2 ^ 12 % 512 := tableIndex_val (by decide)

theorem hardwareCanonical_iff :
    hardwareCanonical va = true ↔ va.toNat < 2 ^ 47 ∨ 2 ^ 64 - 2 ^ 47 ≤ va.toNat := by
  have hs : (va >>> 47).toNat = va.toNat / 2 ^ 47 := by
    rw [UInt64.toNat_shiftRight, Nat.shiftRight_eq_div_pow]
    rfl
  have hlt := va.toNat_lt
  simp only [hardwareCanonical, Bool.or_eq_true, beq_iff_eq, ← UInt64.toNat_inj, hs, UInt64.reduceToNat]
  omega

theorem canonicalAddress_iff :
    canonicalAddress va = true ↔ va.toNat < 2 ^ 48 ∨ 2 ^ 64 - 2 ^ 48 ≤ va.toNat := by
  have hs : (va >>> 48).toNat = va.toNat / 2 ^ 48 := by
    rw [UInt64.toNat_shiftRight, Nat.shiftRight_eq_div_pow]
    rfl
  have hlt := va.toNat_lt
  simp only [canonicalAddress, Bool.or_eq_true, beq_iff_eq, ← UInt64.toNat_inj, hs, UInt64.reduceToNat]
  omega

theorem canonicalAddress_of_hardware (h : hardwareCanonical va = true) : canonicalAddress va = true := by
  rw [hardwareCanonical_iff] at h
  rw [canonicalAddress_iff]
  omega

theorem aligned_iff : pageAlignedAddress v = true ↔ v.toNat % 4096 = 0 := by
  have hm : (pageSize - 1).toNat = 2 ^ 12 - 1 := by decide
  have hmod := Word.toNat_and_low (a := v) hm
  simp only [pageAlignedAddress, beq_iff_eq, ← UInt64.toNat_inj, hmod]
  exact Iff.rfl

/-- The indices are bits 47 to 12. -/
theorem path_eq_iff : path v = path va ↔ pageOf v % 2 ^ 36 = pageOf va % 2 ^ 36 := by
  simp only [path, List.cons.injEq, and_true, Fin.ext_iff, pml4Index_val, pdptIndex_val, pdIndex_val, ptIndex_val,
    pageOf]
  omega

theorem path_page (h : pageOf v = pageOf va) : path v = path va := path_eq_iff.mpr (by rw [h])

theorem hardwareCanonical_page (h : pageOf v = pageOf va) : hardwareCanonical v = hardwareCanonical va := by
  unfold pageOf at h
  rw [Bool.eq_iff_iff, hardwareCanonical_iff, hardwareCanonical_iff]
  omega

/-- Two reachable pages have different paths. -/
theorem path_ne (h : hardwareCanonical va = true) (hv : hardwareCanonical v = true) (hne : pageOf v ≠ pageOf va) :
    path v ≠ path va := by
  have ha := va.toNat_lt
  have hb := v.toNat_lt
  rw [hardwareCanonical_iff] at h hv
  rw [ne_eq, path_eq_iff]
  unfold pageOf at hne ⊢
  omega

theorem limit_toNat : bootstrapIdentityLimit.toNat = 2 ^ 30 := rfl

theorem HighPage.off (h : HighPage va) : OffIdentity va := by
  have hlt := va.toNat_lt
  have hc := hardwareCanonical_iff.mp h.canonical
  have hhigh := UInt64.le_iff_toNat_le.mp h.high
  intro he
  simp only [List.cons.injEq, and_true, Fin.ext_iff, pml4Index_val, pdptIndex_val, Fin.val_zero] at he
  rw [limit_toNat] at hhigh
  omega

theorem hardwareCanonical_of_low (h : va < bootstrapIdentityLimit) : hardwareCanonical va = true := by
  have hlow := UInt64.lt_iff_toNat_lt.mp h
  rw [limit_toNat] at hlow
  exact hardwareCanonical_iff.mpr (.inl (by omega))

theorem not_off_of_low (h : va < bootstrapIdentityLimit) : [pml4Index va, pdptIndex va] = [0, 0] := by
  have hlow := UInt64.lt_iff_toNat_lt.mp h
  rw [limit_toNat] at hlow
  simp only [List.cons.injEq, and_true, Fin.ext_iff, pml4Index_val, pdptIndex_val, Fin.val_zero]
  omega

end Address

/-! ## One call off the identity map -/

/-- What `map_page` may do off the identity map: write the entry in the
processor's last table, or stop for want of a frame. -/
inductive MapPage (img : Image) (s : Vmm) (va e : UInt64) : Vmm → Prop
  | mapped : Tables img s' → SameWalks img s s' →
      s'.reach img [pml4Index va, pdptIndex va, pdIndex va] = some t →
      MapPage img s va e (flushTlbPage (s'.write t (ptIndex va) e) va)
  | full : Tables img s' → SameWalks img s s' → NoLowFrame s'.pmm →
      s'.reach img [pml4Index va, pdptIndex va, pdIndex va] = none → MapPage img s va e s'

/-- What `unmap_page` does off the identity map. -/
inductive UnmapPage (img : Image) (s : Vmm) (va : UInt64) : Vmm → Prop
  | unmapped : s.reach img [pml4Index va, pdptIndex va, pdIndex va] = some t →
      UnmapPage img s va (flushTlbPage (s.write t (ptIndex va) 0) va)
  | absent : s.reach img [pml4Index va, pdptIndex va, pdIndex va] = none → UnmapPage img s va s

section Call

variable {img : Image} {s s' : Vmm} {va pa flags t e : UInt64} {p : List (Fin 512)} {i : Fin 512}

/-- An entry of a last table may be anything. -/
theorem Tables.write_last (h : Tables img s) (hlen : p.length = 3) (ht : s.reach img p = some t) :
    Tables img (s.write t i e) := by
  have hreach : ∀ q, q.length < 4 → (s.write t i e).reach img q = s.reach img q := fun q hq =>
    descend_set_last h.tree ht (by omega) hq
  have hne : ∀ q f, q.length < 3 → s.reach img q = some f → f ≠ t := by
    rintro q f hq hf rfl
    have hqp := h.tree q p _ (by omega) (by omega) hf ht
    rw [hqp] at hq
    omega
  refine ⟨h.enabled, h.tree.set_last ht (by omega), ?_, ?_, ?_, fun q f j hq hq0 hf => ?_⟩
  · rw [hreach _ (by decide)]
    exact h.identity
  · intro j
    rw [write_mem, set_ne fun he => hne _ _ (by decide) h.identity he.1]
    exact h.large j
  · intro q f hq hf
    rw [hreach q hq] at hf
    exact h.placed q f hq hf
  · rw [hreach q (by omega)] at hf
    rw [write_mem, set_ne fun he => hne q f hq hf he.1]
    exact h.plain q f j hq hq0 hf

theorem Tables.flush (h : Tables img s) : Tables img (flushTlbPage s va) :=
  ⟨h.enabled, h.tree, h.identity, h.large, h.placed, h.plain⟩

/-- The levels of `map_page`: what holds at first and is kept by each call of
`next_table` holds where they end, and there the entry is written or no low
frame was left. -/
theorem mapPage_levels (P : Nat → Vmm → Prop) (h : Tables img s) (hoff : OffIdentity va)
    (hr : mapRefused s va pa flags = false) (h0 : P 0 s)
    (hnext : ∀ k s p t i f s', P k s → Level img s p t i f s' → P (k + 1) s') :
    ∃ k s₁ s', k ≤ 3 ∧ P k s₁ ∧ Tables img s₁ ∧ SameWalks img s s₁ ∧ mapPage img s va pa flags = some s' ∧
      (s' = s₁ ∧ NoLowFrame s₁.pmm ∧ s₁.reach img [pml4Index va, pdptIndex va, pdIndex va] = none ∨
        ∃ t, s₁.reach img [pml4Index va, pdptIndex va, pdIndex va] = some t ∧
          s' = flushTlbPage (s₁.write t (ptIndex va)
            ((pa &&& pageAddressMask) ||| (flags &&& pageFlagMask) ||| pageFlagPresent)) va) := by
  unfold mapPage
  simp only [hr, Bool.false_eq_true, if_false]
  obtain ⟨pdpt, s₁, h1, l1⟩ := nextTable_does h (p := []) (by simp) (by simp) rfl (pml4Index va)
  have p1 := hnext 0 _ _ _ _ _ _ h0 l1
  rw [h1]
  cases l1.next with
  | full hf hn =>
    exact ⟨1, s, s, by omega, p1, h, .refl img s, by simp, .inl ⟨rfl, hf, reach_none (q := [pdptIndex va, pdIndex va]) hn⟩⟩
  | table hne t1 r1 w1 =>
  obtain ⟨pd, s₂, h2, l2⟩ := nextTable_does t1 (p := [pml4Index va]) (by simp) (by simp) r1 (pdptIndex va)
  have p2 := hnext 1 _ _ _ _ _ _ p1 l2
  simp only [Option.bind_eq_bind, Option.bind_some, beq_iff_eq, hne, if_false, h2]
  cases l2.next with
  | full hf hn =>
    exact ⟨2, s₁, s₁, by omega, p2, t1, w1, by simp, .inl ⟨rfl, hf, reach_none (q := [pdIndex va]) hn⟩⟩
  | table hne2 t2 r2 w2 =>
  obtain ⟨pt, s₃, h3, l3⟩ := nextTable_does t2 (by simp) hoff r2 (pdIndex va)
  have p3 := hnext 2 _ _ _ _ _ _ p2 l3
  simp only [Option.bind_some, hne2, if_false, h3]
  cases l3.next with
  | full hf hn => exact ⟨3, s₂, s₂, le_refl 3, p3, t2, w1.trans w2, by simp, .inl ⟨rfl, hf, hn⟩⟩
  | table hne3 t3 r3 w3 =>
    refine ⟨3, s₃, _, le_refl 3, p3, t3, (w1.trans w2).trans w3, ?_, .inr ⟨pt, r3, rfl⟩⟩
    simp only [hne3, if_false]
    rfl

theorem mapPage_cases (h : Tables img s) (hoff : OffIdentity va) (hr : mapRefused s va pa flags = false) :
    ∃ s', mapPage img s va pa flags = some s' ∧
      MapPage img s va ((pa &&& pageAddressMask) ||| (flags &&& pageFlagMask) ||| pageFlagPresent) s' := by
  obtain ⟨-, s₁, s', -, -, ht, hw, hs', hcase⟩ :=
    mapPage_levels (fun _ _ => True) h hoff hr trivial fun _ _ _ _ _ _ _ _ _ => trivial
  refine ⟨s', hs', ?_⟩
  rcases hcase with ⟨rfl, hf, hn⟩ | ⟨t, hreach, rfl⟩
  · exact .full ht hw hf hn
  · exact .mapped ht hw hreach

theorem MapPage.tables (h : MapPage img s va e s') : Tables img s' := by
  cases h with
  | mapped ht _ hr => exact (ht.write_last rfl hr).flush
  | full ht _ _ _ => exact ht

theorem unmapPage_cases (h : Tables img s) (hoff : OffIdentity va) (hc : canonicalAddress va = true)
    (ha : pageAlignedAddress va = true) : UnmapPage img s va (unmapPage img s va) := by
  unfold unmapPage
  simp only [h.enabled, hc, ha, Bool.not_true, Bool.or_self, Bool.false_eq_true, if_false, beq_iff_eq]
  rcases findTable_eq h hoff with ⟨h0, hr⟩ | ⟨h0, hr⟩
  · rw [if_pos h0]
    exact .absent hr
  · rw [if_neg h0]
    exact .unmapped hr

theorem unmapPage_refused (h : ¬ (canonicalAddress va = true ∧ pageAlignedAddress va = true)) : unmapPage img s va = s := by
  unfold unmapPage
  rw [if_pos]
  rw [not_and_or, Bool.not_eq_true, Bool.not_eq_true] at h
  rcases h with h | h <;> simp [h]

theorem UnmapPage.tables (h : Tables img s) (hu : UnmapPage img s va s') : Tables img s' := by
  cases hu with
  | unmapped hr => exact (h.write_last rfl hr).flush
  | absent => exact h

/-! ## Walks -/

/-- Writing the entry of a page shows in no walk of another path. -/
theorem Tables.walk_write_ne (h : Tables img s) (ht : s.reach img [pml4Index va, pdptIndex va, pdIndex va] = some t)
    {v : UInt64} (hne : path v ≠ path va) :
    hardwareWalk img (flushTlbPage (s.write t (ptIndex va) e) va) v = hardwareWalk img s v := by
  unfold hardwareWalk
  split
  · have hlen : (path v).length = 4 := rfl
    apply walk_set h.tree ht (by simp) hlen.le
    intro hp
    exact hne (hp.eq_of_length hlen.symm).symm
  · rfl

/-- Nor in the walks of another page. -/
theorem Tables.otherPages_write (h : Tables img s) (hc : hardwareCanonical va = true)
    (ht : s.reach img [pml4Index va, pdptIndex va, pdIndex va] = some t) :
    OtherPages img va s (flushTlbPage (s.write t (ptIndex va) e) va) := by
  intro v hv
  by_cases hcv : hardwareCanonical v = true
  · exact h.walk_write_ne ht (path_ne hc hcv hv)
  · unfold hardwareWalk
    rw [if_neg hcv, if_neg hcv]

theorem Tables.walk_write (h : Tables img s) (hc : hardwareCanonical va = true)
    (ht : s.reach img [pml4Index va, pdptIndex va, pdIndex va] = some t) :
    hardwareWalk img (flushTlbPage (s.write t (ptIndex va) e) va) va =
      if present e then some ⟨t, ptIndex va, 0, e⟩ else none := by
  have hw := walk_set_last (i := ptIndex va) (e := e) h.tree ht rfl
  unfold hardwareWalk
  rw [if_pos hc]
  refine hw.trans ?_
  simp [pageFormat]

theorem SameWalks.hardwareWalk (h : SameWalks img s s') (v : UInt64) :
    hardwareWalk img s' v = hardwareWalk img s v := by
  unfold Tinos.hardwareWalk
  split
  · exact h (path v) rfl
  · rfl

theorem Tables.walk_none (h : Tables img s) (hoff : OffIdentity va)
    (hr : s.reach img [pml4Index va, pdptIndex va, pdIndex va] = none) : hardwareWalk img s va = none := by
  unfold hardwareWalk
  split
  · refine walk_eq_none (p := [pml4Index va, pdptIndex va, pdIndex va]) (q := [ptIndex va]) hr
      fun r i f hri hf => ?_
    have hlen := hri.length_le
    simp only [List.length_append, List.length_cons, List.length_nil] at hlen
    have hr0 : r ≠ [0, 0] := by
      rintro rfl
      simp only [List.cons_append, List.nil_append, List.cons_prefix_cons] at hri
      exact hoff (by rw [← hri.1, ← hri.2.1])
    rcases h.plain r f i (by omega) hr0 hf with hb | hg
    · exact .inl (blank_of_not_present hb)
    · exact .inr hg
  · rfl

/-! ## The calls on a high page -/

theorem Mappable.entry (h : Mappable pa flags) :
    (pa &&& pageAddressMask) ||| (flags &&& pageFlagMask) ||| pageFlagPresent = pa ||| flags ||| pageFlagPresent := by
  rw [Word.and_of_and_not h.inside, Word.and_of_and_not h.flags]

theorem present_entry : present (pa ||| flags ||| pageFlagPresent) = true := by
  unfold present pageFlagPresent
  rw [Word.or_and_self]
  rfl

theorem Tables.not_refused (h : Tables img s) (hc : hardwareCanonical va = true) (ha : pageAlignedAddress va = true)
    (hm : Mappable pa flags) : mapRefused s va pa flags = false := by
  unfold mapRefused
  simp [h.enabled, canonicalAddress_of_hardware hc, ha, hm.aligned, hm.inside, hm.flags]

/-- `get_page_table` finds the table the processor does. -/
theorem Tables.getPageTable_reach (h : Tables img s) (hva : HighPage va) :
    getPageTable img s va = (s.reach img [pml4Index va, pdptIndex va, pdIndex va]).getD 0 := by
  unfold getPageTable
  simp only [h.enabled, canonicalAddress_of_hardware hva.canonical, Bool.not_true, Bool.or_self,
    Bool.false_eq_true, if_false]
  rcases findTable_eq h hva.off with ⟨h0, hn⟩ | ⟨-, hn⟩
  · rw [hn, h0]
    rfl
  · rw [hn]
    rfl

theorem Tables.getPageTable_eq (h : Tables img s) (hva : HighPage va)
    (hr : s.reach img [pml4Index va, pdptIndex va, pdIndex va] = some t) : getPageTable img s va = t := by
  rw [h.getPageTable_reach hva, hr, Option.getD_some]

theorem Tables.getPageTable_none (h : Tables img s) (hva : HighPage va)
    (hr : s.reach img [pml4Index va, pdptIndex va, pdIndex va] = none) : getPageTable img s va = 0 := by
  rw [h.getPageTable_reach hva, hr, Option.getD_none]

theorem Tables.getPageTable_ne_zero (h : Tables img s) (hva : HighPage va)
    (hw : hardwareWalk img s va ≠ none) : getPageTable img s va ≠ 0 := by
  unfold getPageTable
  simp only [h.enabled, canonicalAddress_of_hardware hva.canonical, Bool.not_true, Bool.or_self,
    Bool.false_eq_true, if_false]
  rcases findTable_eq h hva.off with ⟨-, hr⟩ | ⟨h0, -⟩
  · exact absurd (h.walk_none hva.off hr) hw
  · exact h0

theorem hardwareWalk_entry {l : Leaf UInt64 (Fin 512) UInt64} (h : hardwareWalk img s va = some l) :
    s.mem l.table l.index = l.entry := by
  unfold hardwareWalk at h
  split at h
  · exact walk_entry h
  · cases h

/-- A high page is mapped, or a frame was wanting for a table it still lacks and
nothing is translated otherwise. -/
theorem mapPage_spec (h : Tables img s) (hva : HighPage va) (hm : Mappable pa flags) :
    ∃ s', mapPage img s va pa flags = some s' ∧ Tables img s' ∧ OtherPages img va s s' ∧
      (hardwareWalk img s' va = some ⟨getPageTable img s' va, ptIndex va, 0, pa ||| flags ||| pageFlagPresent⟩ ∨
        NoLowFrame s'.pmm ∧ hardwareWalk img s' va = hardwareWalk img s va ∧ getPageTable img s' va = 0) := by
  obtain ⟨s', hs', hcase⟩ := mapPage_cases h hva.off (h.not_refused hva.canonical hva.aligned hm)
  refine ⟨s', hs', hcase.tables, ?_⟩
  cases hcase with
  | full ht hw hf hr =>
    exact ⟨fun v _ => hw.hardwareWalk v, .inr ⟨hf, hw.hardwareWalk va, ht.getPageTable_none hva hr⟩⟩
  | @mapped s₁ t ht hw hr =>
    refine ⟨fun v hv => (ht.otherPages_write hva.canonical hr v hv).trans (hw.hardwareWalk v), .inl ?_⟩
    rw [ht.walk_write hva.canonical hr, hm.entry, present_entry, if_pos rfl]
    have hr' : (s₁.write t (ptIndex va) (pa ||| flags ||| pageFlagPresent)).reach img
        [pml4Index va, pdptIndex va, pdIndex va] = some t := descend_set_self ht.tree hr (by simp)
    rw [(ht.write_last rfl hr).flush.getPageTable_eq hva hr']

/-- A high page is unmapped. -/
theorem unmapPage_spec (h : Tables img s) (hva : HighPage va) :
    Tables img (unmapPage img s va) ∧ OtherPages img va s (unmapPage img s va) ∧
      hardwareWalk img (unmapPage img s va) va = none := by
  have hcase := unmapPage_cases h hva.off (canonicalAddress_of_hardware hva.canonical) hva.aligned
  generalize unmapPage img s va = s' at hcase
  refine ⟨hcase.tables h, ?_⟩
  cases hcase with
  | unmapped hr =>
    refine ⟨h.otherPages_write hva.canonical hr, ?_⟩
    rw [h.walk_write hva.canonical hr]
    rfl
  | absent hr => exact ⟨fun v _ => rfl, h.walk_none hva.off hr⟩

end Call

/-! ## The identity map -/

section Identity

variable {img : Image} {s : Vmm} {v : UInt64}

theorem largePageEntry_base : ∀ i, (largePageEntry i &&& pageAddressMask) &&& ~~~0x1FFFFF =
    UInt64.ofNat (2 ^ 21 * i.val) := by
  decide +kernel

/-- Below 1 GiB the walk ends at a large page. -/
theorem Tables.walk_low (h : Tables img s) (hv : v < bootstrapIdentityLimit) :
    hardwareWalk img s v = some ⟨img.initialPd, pdIndex v, 1, largePageEntry (pdIndex v)⟩ := by
  have hpath : path v = [0, 0] ++ [pdIndex v, ptIndex v] := by
    unfold path
    rw [← not_off_of_low hv]
    rfl
  unfold hardwareWalk
  rw [if_pos (hardwareCanonical_of_low hv), hpath, walk_append h.identity (by simp), walk, h.large]
  simp [pageFormat, largePageEntry_large]

theorem Tables.translate_low (h : Tables img s) (hv : v < bootstrapIdentityLimit) : translate img s v = some v := by
  have hlow := UInt64.lt_iff_toNat_lt.mp hv
  rw [limit_toNat] at hlow
  have hm : (0x1FFFFF : UInt64).toNat = 2 ^ 21 - 1 := by decide
  have hbase : UInt64.ofNat (2 ^ 21 * (pdIndex v).val) = v &&& ~~~0x1FFFFF := by
    apply UInt64.toNat.inj
    rw [Word.toNat_and_not_low hm, pdIndex_val, Word.toNat_ofNat_of_lt (by omega)]
    omega
  have hoff : ((1 <<< (12 + 9 * UInt64.ofNat 1)) - 1 : UInt64) = 0x1FFFFF := by decide
  unfold translate
  rw [h.walk_low hv, Option.map_some, physicalAddress, hoff, largePageEntry_base, hbase, Word.or_split]

end Identity

/-! ## Runs -/

/-- A call off the identity map, refused or not: three levels at most, each of
which keeps what it should, and then at most one entry of the last table. -/
theorem vmmCall_levels {img : Image} {s : Vmm} {c : VmmCall} (P : Nat → Vmm → Prop) (h : Tables img s)
    (hoff : OffIdentity c.address) (h0 : P 0 s)
    (hnext : ∀ k s p t i f s', P k s → Level img s p t i f s' → P (k + 1) s') :
    ∃ k s₁ s', k ≤ 3 ∧ P k s₁ ∧ Tables img s₁ ∧ SameWalks img s s₁ ∧ vmmCall img s c = some s' ∧
      (s' = s₁ ∨ ∃ t e, s₁.reach img [pml4Index c.address, pdptIndex c.address, pdIndex c.address] = some t ∧
        s' = flushTlbPage (s₁.write t (ptIndex c.address) e) c.address) := by
  cases c with
  | map va pa flags =>
    cases hr : mapRefused s va pa flags with
    | true => exact ⟨0, s, s, by omega, h0, h, .refl img s, by simp [vmmCall, mapPage, hr], .inl rfl⟩
    | false =>
      obtain ⟨k, s₁, s', hk, hP, ht, hw, hs', hcase⟩ := mapPage_levels P h hoff hr h0 hnext
      refine ⟨k, s₁, s', hk, hP, ht, hw, hs', ?_⟩
      rcases hcase with ⟨rfl, -⟩ | ⟨t, hreach, rfl⟩
      · exact .inl rfl
      · exact .inr ⟨t, _, hreach, rfl⟩
  | unmap va =>
    refine ⟨0, s, unmapPage img s va, by omega, h0, h, .refl img s, rfl, ?_⟩
    by_cases hok : canonicalAddress va = true ∧ pageAlignedAddress va = true
    · have hcase : UnmapPage img s va (unmapPage img s va) := unmapPage_cases h hoff hok.1 hok.2
      generalize unmapPage img s va = s' at hcase
      cases hcase with
      | unmapped hreach => exact .inr ⟨_, 0, hreach, rfl⟩
      | absent => exact .inl rfl
    · exact .inl (unmapPage_refused hok)

/-- So it keeps the tables. -/
theorem vmmCall_tables {img : Image} {s : Vmm} (h : Tables img s) (c : VmmCall) (hoff : OffIdentity c.address) :
    ∃ s', vmmCall img s c = some s' ∧ Tables img s' := by
  obtain ⟨-, s₁, s', -, -, ht, -, hs', hcase⟩ :=
    vmmCall_levels (fun _ _ => True) h hoff trivial fun _ _ _ _ _ _ _ _ _ => trivial
  refine ⟨s', hs', ?_⟩
  rcases hcase with rfl | ⟨t, e, hreach, rfl⟩
  · exact ht
  · exact (ht.write_last rfl hreach).flush

/-- The static tables from 1 MiB on. -/
def imageAtOneMiB : Image where
  initialPml4 := 0x100000
  initialPdpt := 0x101000
  initialPd := 0x102000
  aligned := by
    simp only [List.forall_mem_cons, List.not_mem_nil, false_imp_iff, implies_true, and_true]
    decide
  low := by
    simp only [List.forall_mem_cons, List.not_mem_nil, false_imp_iff, implies_true, and_true]
    decide
  nodup := by decide

/-- Before `paging_init`, with the eight frames from 2 MiB on free. -/
def vmmAtReset : Vmm where
  mem := fun _ _ => 0
  pmm := { bitmap := fun i => if i.val = 64 then 0 else 0xFF, totalPages := maxPages, freePages := 8 }
  pagingEnabled := false
  trace := []

theorem vmmAtReset_used :
    ∀ t ∈ [imageAtOneMiB.initialPml4, imageAtOneMiB.initialPdpt, imageAtOneMiB.initialPd],
      frameOf t ∉ vmmAtReset.pmm.free := by
  simp only [Pmm.mem_free, List.forall_mem_cons, List.not_mem_nil, false_imp_iff, implies_true, and_true]
  decide +kernel

end Tinos
