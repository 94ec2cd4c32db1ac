/-
The page tables as a tree of frames the memory manager does not have free
(`Tables`), kept by every table the code finds or makes.

The software walk (`entry_table`) ignores the page-size bit and takes
physical address 0 for NULL; the processor does neither. `Tables` says where
the two agree: every table but the page directory of the identity map holds
only blank entries and entries naming a table, and every table is at a
non-zero address below 1 GiB. So a walk that does not go through that
directory finds the table the processor uses (`findTable_eq`), and
`next_table` on such a way either reaches or links one table more, changing
no walk, or finds no low frame (`nextTable_does`, `Level.next`).
-/
import Tinos.Lib.Word
import Tinos.PmmFrames
import Tinos.Vmm

namespace Tinos

open Radix

/-- The table the processor reaches by a path of indices. -/
abbrev Vmm.reach (img : Image) (s : Vmm) (p : List (Fin 512)) : Option UInt64 :=
  descend pageFormat s.mem img.initialPml4 p

/-- What the processor's walk of a path finds. -/
abbrev Vmm.walk (img : Image) (s : Vmm) (p : List (Fin 512)) : Option (Leaf UInt64 (Fin 512) UInt64) :=
  Radix.walk pageFormat s.mem img.initialPml4 p

theorem reach_append {img : Image} {s : Vmm} {p q : List (Fin 512)} :
    s.reach img (p ++ q) = (s.reach img p).bind fun f => descend pageFormat s.mem f q := descend_append

theorem reach_none {img : Image} {s : Vmm} {p q : List (Fin 512)} (h : s.reach img p = none) :
    s.reach img (p ++ q) = none := by
  rw [reach_append, h]
  rfl

theorem reach_snoc (img : Image) (s : Vmm) (p : List (Fin 512)) (i : Fin 512) :
    s.reach img (p ++ [i]) = (s.reach img p).bind fun f => pageFormat.next (s.mem f i) := descend_snoc

/-! ## Entries -/

/-- The address of a page in the 52-bit physical range. -/
def PageAt (f : UInt64) : Prop := f &&& pageAddressMask = f

section Entry

variable {f c e : UInt64}

theorem present_or (h : PageAt f) : present (f ||| c) = present c := by
  rw [present, present, Word.or_and_low h (by decide)]

theorem large_or (h : PageAt f) : large (f ||| c) = large c := by
  rw [large, large, Word.or_and_low h (by decide)]

theorem blank_of_not_present (h : present e = false) : pageFormat.Blank e :=
  ⟨by simp [pageFormat, h], by simp [pageFormat, h]⟩

theorem blank_zero : pageFormat.Blank 0 := blank_of_not_present (by decide)

theorem next_eq_some : pageFormat.next e = some f ↔
    present e = true ∧ large e = false ∧ e &&& pageAddressMask = f := by
  simp [pageFormat, and_assoc]

theorem next_or (h : PageAt f) (hc : c &&& pageAddressMask = 0) (hp : present c = true) (hl : large c = false) :
    pageFormat.next (f ||| c) = some f :=
  next_eq_some.mpr ⟨by rw [present_or h, hp], by rw [large_or h, hl], Word.or_and_high h hc⟩

theorem next_tableEntry (h : PageAt f) : pageFormat.next (tableEntry f) = some f := by
  have h' : f &&& pageAddressMask = f := h
  rw [tableEntry, h', UInt64.or_assoc]
  exact next_or h (by decide) (by decide) (by decide)

theorem largePageEntry_large : ∀ i, present (largePageEntry i) = true ∧ large (largePageEntry i) = true := by
  decide +kernel

theorem next_largePageEntry (i : Fin 512) : pageFormat.next (largePageEntry i) = none := by
  simp [pageFormat, largePageEntry_large i]

/-- A page-aligned address below `2^52`. -/
theorem pageAt_of_aligned (ha : f &&& (pageSize - 1) = 0) (hlt : f.toNat < 2 ^ 52) : PageAt f := by
  have hmask : pageAddressMask = 0xFFFFFFFFFFFFF &&& ~~~(pageSize - 1) := by decide
  have hsize : (pageSize - 1).toNat = 2 ^ 12 - 1 := by decide
  have hwide : (0xFFFFFFFFFFFFF : UInt64).toNat = 2 ^ 52 - 1 := by decide
  have hmod : f.toNat % 2 ^ 12 = 0 := by rw [← Word.toNat_and_low hsize, ha]; rfl
  apply UInt64.toNat.inj
  rw [hmask, ← UInt64.and_assoc, Word.toNat_and_not_low hsize, Word.toNat_and_low hwide, Nat.mod_eq_of_lt hlt]
  omega

theorem PageAt.aligned (h : PageAt f) : f &&& (pageSize - 1) = 0 := Word.and_off h (by decide)

theorem physicalToBootstrapVirtual_eq (h : PageAt f) (hlt : f < bootstrapIdentityLimit) :
    physicalToBootstrapVirtual f = f := by
  simp [physicalToBootstrapVirtual, pageAlignedAddress, h.aligned, hlt]

theorem entryTable_eq (hn : pageFormat.next e = some f) (hlt : f < bootstrapIdentityLimit) :
    entryTable e = f := by
  obtain ⟨hp, -, hf⟩ := next_eq_some.mp hn
  have hpage : PageAt f := by rw [PageAt, ← hf, UInt64.and_assoc, UInt64.and_self]
  have hp0 : (e &&& pageFlagPresent == 0) = false := by simpa [present, pageFlagPresent] using hp
  rw [entryTable, hp0, hf]
  exact physicalToBootstrapVirtual_eq hpage hlt

theorem entryTable_blank (h : present e = false) : entryTable e = 0 := by
  have hp0 : (e &&& pageFlagPresent == 0) = true := by simpa [present, pageFlagPresent] using h
  rw [entryTable, hp0]
  rfl

end Entry

theorem Image.pageAt (img : Image) {t : UInt64} (ht : t ∈ [img.initialPml4, img.initialPdpt, img.initialPd]) :
    PageAt t := by
  have hlt : t.toNat < 2 ^ 30 := UInt64.lt_iff_toNat_lt.mp (img.low t ht).2
  exact pageAt_of_aligned (img.aligned t ht) (by omega)

/-- The entries `paging_init` links its tables by. -/
theorem Image.next_link (img : Image) {t : UInt64}
    (ht : t ∈ [img.initialPml4, img.initialPdpt, img.initialPd]) : pageFormat.next (t ||| 0x003) = some t :=
  next_or (img.pageAt ht) (by decide) (by decide) (by decide)

/-! ## The invariant -/

/-- A frame fit for a table: in the identity map, not at address 0, and not
free. -/
structure Placed (f : UInt64) (pmm : Pmm) : Prop where
  page : PageAt f
  pos : 0 < f
  low : f < bootstrapIdentityLimit
  used : frameOf f ∉ pmm.free

theorem Placed.ne_zero {f : UInt64} {pmm : Pmm} (h : Placed f pmm) : f ≠ 0 := by
  rintro rfl
  exact absurd h.pos (by decide)

/-- The page tables while nothing has been mapped below 1 GiB. -/
structure Tables (img : Image) (s : Vmm) : Prop where
  enabled : s.pagingEnabled = true
  tree : Tree pageFormat s.mem img.initialPml4 4
  identity : s.reach img [0, 0] = some img.initialPd
  large : ∀ i, s.mem img.initialPd i = largePageEntry i
  placed : ∀ p f, p.length < 4 → s.reach img p = some f → Placed f s.pmm
  plain : ∀ p f i, p.length < 3 → p ≠ [0, 0] → s.reach img p = some f →
    present (s.mem f i) = false ∨ ∃ g, pageFormat.next (s.mem f i) = some g

/-- Every full walk finds what it did. -/
def SameWalks (img : Image) (s s' : Vmm) : Prop := ∀ q, q.length = 4 → s'.walk img q = s.walk img q

theorem SameWalks.refl (img : Image) (s : Vmm) : SameWalks img s s := fun _ _ => rfl

theorem SameWalks.trans {img : Image} {s s' s'' : Vmm} (h : SameWalks img s s') (h' : SameWalks img s' s'') :
    SameWalks img s s'' := fun q hq => (h' q hq).trans (h q hq)

/-- No frame is left for a table. -/
def NoLowFrame (pmm : Pmm) : Prop := ∀ q ∈ pmm.free, 1 ≤ q → 2048 ≤ q

section Walks

variable {img : Image} {s : Vmm} {p : List (Fin 512)} {t : UInt64}

theorem Tables.ne_pd (h : Tables img s) (hlen : p.length < 4) (hp : p ≠ [0, 0]) (ht : s.reach img p = some t) :
    t ≠ img.initialPd := by
  rintro rfl
  exact hp (h.tree p [0, 0] _ hlen (by decide) ht h.identity)

/-- Off the identity map, `entry_table` finds what the processor does. -/
theorem Tables.entryTable_eq (h : Tables img s) (hlen : p.length < 3) (hp : p ≠ [0, 0])
    (ht : s.reach img p = some t) (i : Fin 512) :
    (entryTable (s.mem t i) = 0 ∧ present (s.mem t i) = false ∧ s.reach img (p ++ [i]) = none) ∨
      (entryTable (s.mem t i) ≠ 0 ∧ s.reach img (p ++ [i]) = some (entryTable (s.mem t i))) := by
  have hsnoc : s.reach img (p ++ [i]) = pageFormat.next (s.mem t i) := by
    rw [reach_snoc, ht, Option.bind_some]
  rcases h.plain p t i hlen hp ht with hb | ⟨g, hg⟩
  · left
    exact ⟨entryTable_blank hb, hb, by rw [hsnoc, (blank_of_not_present hb).next]⟩
  · right
    have hpl := h.placed (p ++ [i]) g (by simp; omega) (by rw [hsnoc, hg])
    rw [Tinos.entryTable_eq hg hpl.low, hsnoc]
    exact ⟨hpl.ne_zero, hg⟩

/-- Off the identity map, the software walk ends at the processor's table. -/
theorem findTable_eq (h : Tables img s) {va : UInt64} (hva : [pml4Index va, pdptIndex va] ≠ [0, 0]) :
    (findTable img s va = 0 ∧ s.reach img [pml4Index va, pdptIndex va, pdIndex va] = none) ∨
      (findTable img s va ≠ 0 ∧
        s.reach img [pml4Index va, pdptIndex va, pdIndex va] = some (findTable img s va)) := by
  simp only [findTable]
  rcases h.entryTable_eq (p := []) (by simp) (by simp) rfl (pml4Index va) with ⟨h0, -, hr⟩ | ⟨h0, hr⟩
  · left
    simp only [h0, beq_self_eq_true, if_true, true_and]
    exact reach_none (q := [pdptIndex va, pdIndex va]) hr
  simp only [beq_iff_eq, h0, if_false]
  rcases h.entryTable_eq (by simp) (by simp) hr (pdptIndex va) with ⟨h1, -, hr1⟩ | ⟨h1, hr1⟩
  · left
    simp only [h1, if_true, true_and]
    exact reach_none (q := [pdIndex va]) hr1
  simp only [h1, if_false]
  rcases h.entryTable_eq (by simp) hva hr1 (pdIndex va) with ⟨h2, -, hr2⟩ | ⟨h2, hr2⟩
  · exact .inl ⟨h2, hr2⟩
  · exact .inr ⟨h2, hr2⟩

end Walks

/-! ## Writing pages -/

section Writes

variable {s : Vmm} {t t' : UInt64} {i i' : Fin 512} {v : Fin 512 → UInt64}

@[simp] theorem write_mem {e : UInt64} : (s.write t i e).mem = s.mem.set t i e := rfl
@[simp] theorem write_pmm {e : UInt64} : (s.write t i e).pmm = s.pmm := rfl

theorem writeEach_mem : (s.writeEach t v).mem t' i' = if t' = t then v i' else s.mem t' i' := rfl
@[simp] theorem writeEach_pmm : (s.writeEach t v).pmm = s.pmm := rfl

theorem zeroPage_mem : (zeroPage s t).mem = s.mem.fill t 0 := rfl
@[simp] theorem zeroPage_pmm : (zeroPage s t).pmm = s.pmm := rfl

theorem write_trace {e : UInt64} : (s.write t i e).trace = s.trace ++ [.store t i e] := rfl
theorem zeroPage_trace : (zeroPage s t).trace = s.trace ++ (List.finRange 512).map (.store t · 0) := rfl
theorem flushTlbPage_trace : (flushTlbPage s t).trace = s.trace ++ [.invlpg t] := rfl

end Writes

/-! ## The identity map -/

section PagingInit

variable (img : Image) {s : Vmm}

theorem Image.ne (img : Image) : img.initialPml4 ≠ img.initialPdpt ∧ img.initialPml4 ≠ img.initialPd ∧
    img.initialPdpt ≠ img.initialPd := by
  have h := img.nodup
  simp only [List.nodup_cons, List.mem_cons, List.not_mem_nil, or_false, not_or] at h
  exact ⟨h.1.1, h.1.2, h.2.1⟩

/-- The three tables after `paging_init`. -/
theorem pagingInit_mem (hs : s.pagingEnabled = false) (i : Fin 512) :
    (pagingInit img s).mem img.initialPml4 i = (if i = 0 then img.initialPdpt ||| 0x003 else 0) ∧
      (pagingInit img s).mem img.initialPdpt i = (if i = 0 then img.initialPd ||| 0x003 else 0) ∧
      (pagingInit img s).mem img.initialPd i = largePageEntry i := by
  obtain ⟨h1, h2, h3⟩ := img.ne
  simp only [pagingInit, hs, Bool.false_eq_true, if_false, reloadPageDirectory, writeEach_mem,
    write_mem, zeroPage_mem, Store.set, Store.fill, h1, h2, h3, h1.symm, false_and, true_and, if_true, and_self]

theorem pagingInit_pmm (s : Vmm) : (pagingInit img s).pmm = s.pmm := by
  unfold pagingInit
  split
  · rfl
  · simp only [reloadPageDirectory, writeEach_pmm, write_pmm, zeroPage_pmm]

/-- `paging_init` reaches its three tables and no other. -/
theorem pagingInit_reach (hs : s.pagingEnabled = false) {p : List (Fin 512)} {f : UInt64}
    (h : (pagingInit img s).reach img p = some f) :
    (p = [] ∧ f = img.initialPml4) ∨ (p = [0] ∧ f = img.initialPdpt) ∨ (p = [0, 0] ∧ f = img.initialPd) := by
  have hmem := pagingInit_mem img hs
  have hpdpt : pageFormat.next (img.initialPdpt ||| 0x003) = some img.initialPdpt := img.next_link (by simp)
  have hpd : pageFormat.next (img.initialPd ||| 0x003) = some img.initialPd := img.next_link (by simp)
  cases p with
  | nil => exact .inl ⟨rfl, (Option.some.inj h).symm⟩
  | cons i p =>
  simp only [Vmm.reach, descend, (hmem i).1, Option.bind_eq_some_iff] at h
  obtain ⟨g, hg, h⟩ := h
  by_cases hi : i = 0
  · rw [if_pos hi, hpdpt, Option.some.injEq] at hg
    subst hi hg
    cases p with
    | nil => exact .inr (.inl ⟨rfl, (Option.some.inj h).symm⟩)
    | cons j p =>
    simp only [descend, (hmem j).2.1, Option.bind_eq_some_iff] at h
    obtain ⟨g, hg, h⟩ := h
    by_cases hj : j = 0
    · rw [if_pos hj, hpd, Option.some.injEq] at hg
      subst hj hg
      cases p with
      | nil => exact .inr (.inr ⟨rfl, (Option.some.inj h).symm⟩)
      | cons k p =>
        simp only [descend, (hmem k).2.2, next_largePageEntry] at h
        cases h
    · rw [if_neg hj, blank_zero.next] at hg
      cases hg
  · rw [if_neg hi, blank_zero.next] at hg
    cases hg

/-- The entries of these tables: links of them, blanks, and large pages in the
last. -/
theorem pagingInit_entry (hs : s.pagingEnabled = false) {p : List (Fin 512)} {f : UInt64}
    (h : (pagingInit img s).reach img p = some f) (i : Fin 512) :
    (∃ t ∈ [img.initialPml4, img.initialPdpt, img.initialPd], (pagingInit img s).mem f i = t ||| 0x003) ∨
      (pagingInit img s).mem f i = 0 ∨ (p = [0, 0] ∧ (pagingInit img s).mem f i = largePageEntry i) := by
  have hmem := pagingInit_mem img hs i
  rcases pagingInit_reach img hs h with ⟨-, rfl⟩ | ⟨-, rfl⟩ | ⟨rfl, rfl⟩
  · rw [hmem.1]
    by_cases hi : i = 0
    · exact .inl ⟨img.initialPdpt, by simp, if_pos hi⟩
    · exact .inr (.inl (if_neg hi))
  · rw [hmem.2.1]
    by_cases hi : i = 0
    · exact .inl ⟨img.initialPd, by simp, if_pos hi⟩
    · exact .inr (.inl (if_neg hi))
  · exact .inr (.inr ⟨rfl, hmem.2.2⟩)

theorem pagingInit_tables (hs : s.pagingEnabled = false)
    (hused : ∀ t ∈ [img.initialPml4, img.initialPdpt, img.initialPd], frameOf t ∉ s.pmm.free) :
    Tables img (pagingInit img s) where
  enabled := by simp only [pagingInit, hs, Bool.false_eq_true, if_false]
  tree := by
    obtain ⟨h1, h2, h3⟩ := img.ne
    intro p q f _ _ hp hq
    rcases pagingInit_reach img hs hp with ⟨rfl, rfl⟩ | ⟨rfl, rfl⟩ | ⟨rfl, rfl⟩ <;>
      rcases pagingInit_reach img hs hq with ⟨rfl, he⟩ | ⟨rfl, he⟩ | ⟨rfl, he⟩ <;>
      first | rfl | exact absurd he (by assumption) | exact absurd he.symm (by assumption)
  identity := by
    have hpdpt : pageFormat.next (img.initialPdpt ||| 0x003) = some img.initialPdpt := img.next_link (by simp)
    have hpd : pageFormat.next (img.initialPd ||| 0x003) = some img.initialPd := img.next_link (by simp)
    have hmem := pagingInit_mem img hs 0
    simp only [Vmm.reach, descend, hmem.1, if_true, hpdpt, Option.bind_some, hmem.2.1, hpd]
  large i := (pagingInit_mem img hs i).2.2
  placed p f _ hf := by
    have hmem : f ∈ [img.initialPml4, img.initialPdpt, img.initialPd] := by
      rcases pagingInit_reach img hs hf with ⟨-, rfl⟩ | ⟨-, rfl⟩ | ⟨-, rfl⟩ <;> simp
    have hlow := img.low f hmem
    exact ⟨img.pageAt hmem, hlow.1, hlow.2, by rw [pagingInit_pmm]; exact hused f hmem⟩
  plain p f i _ hp hf := by
    rcases pagingInit_entry img hs hf i with ⟨t, ht, he⟩ | he | ⟨rfl, -⟩
    · exact .inr ⟨t, by rw [he]; exact img.next_link ht⟩
    · exact .inl (by rw [he]; decide)
    · exact absurd rfl hp

end PagingInit

/-! ## Finding or making the next table -/

/-- What an allocation of a table may answer. -/
inductive AllocTable (s : Vmm) : UInt64 → Vmm → Prop
  | table : f ≠ 0 → PageAt f → f < bootstrapIdentityLimit → 1 ≤ frameOf f → frameOf f < 2048 →
      frameOf f ∈ s.pmm.free →
      Becomes s.pmm pmm (s.pmm.free.erase (frameOf f)) → AllocTable s f (zeroPage { s with pmm } f)
  | full : NoLowFrame s.pmm → AllocTable s 0 s

theorem allocateTable_spec (s : Vmm) : ∃ f s', allocateTable s = some (f, s') ∧ AllocTable s f s' := by
  obtain ⟨a, pmm, ha, hspec⟩ := pmmAllocPageLow_spec s.pmm
  cases hspec with
  | none hnone => exact ⟨0, s, by simp [allocateTable, ha], .full hnone⟩
  | frame p hp h1 hlt _ hap hb =>
    have hne : a ≠ 0 := ne_zero_of_frame hap h1
    have hfr : frameOf a = p := frameOf_eq hap
    have hsize : (pageSize - 1).toNat = 2 ^ 12 - 1 := by decide
    have haligned : a &&& (pageSize - 1) = 0 := by
      apply UInt64.toNat.inj
      rw [Word.toNat_and_low hsize, hap]
      simp
    have hpage : PageAt a := pageAt_of_aligned haligned (by omega)
    have hlow : a < bootstrapIdentityLimit := by
      rw [UInt64.lt_iff_toNat_lt, hap]
      simp only [bootstrapIdentityLimit, UInt64.reduceMul, UInt64.reduceToNat]
      omega
    refine ⟨a, _, ?_, .table hne hpage hlow (by omega) (by omega) (by rwa [hfr]) (by rwa [hfr])⟩
    simp [allocateTable, ha, hne, physicalToBootstrapVirtual_eq hpage hlow]

/-- All that `next_table` may do at entry `i` of the table `t`, at `p`: find the
next table, make it of a free frame, or do nothing for want of one. -/
inductive NextTableDoes (img : Image) (s : Vmm) (p : List (Fin 512)) (t : UInt64) (i : Fin 512) : UInt64 → Vmm → Prop
  | found : f ≠ 0 → s.reach img (p ++ [i]) = some f → NextTableDoes img s p t i f s
  | made : f ≠ 0 → PageAt f → f < bootstrapIdentityLimit → frameOf f < 2048 → frameOf f ∈ s.pmm.free →
      Becomes s.pmm pmm (s.pmm.free.erase (frameOf f)) → present (s.mem t i) = false →
      s.reach img (p ++ [i]) = none →
      NextTableDoes img s p t i f ((zeroPage { s with pmm } f).write t i (tableEntry f))
  | full : NoLowFrame s.pmm → s.reach img (p ++ [i]) = none → NextTableDoes img s p t i 0 s

/-- What `next_table` may answer for entry `i` of the table at `p`: the next
table, found or made, or 0 with nothing changed when no low frame is left. -/
inductive NextTable (img : Image) (s : Vmm) (p : List (Fin 512)) (i : Fin 512) : UInt64 → Vmm → Prop
  | table : f ≠ 0 → Tables img s' → s'.reach img (p ++ [i]) = some f → SameWalks img s s' →
      NextTable img s p i f s'
  | full : NoLowFrame s.pmm → s.reach img (p ++ [i]) = none → NextTable img s p i 0 s

section Link

variable {img : Image} {s : Vmm} {p : List (Fin 512)} {t f : UInt64} {i : Fin 512} {pmm : Pmm}

/-- A frame the manager has free is at no table. -/
theorem Tables.fresh (h : Tables img s) (hf : frameOf f ∈ s.pmm.free) :
    ∀ q, q.length < 4 → s.reach img q ≠ some f := fun q hq hr => (h.placed q f hq hr).used hf

/-- Linking a zeroed free frame under a blank entry. -/
theorem Tables.links (h : Tables img s) (hlen : p.length < 3) (ht : s.reach img p = some t)
    (hblank : present (s.mem t i) = false) (hf : PageAt f) (hfree : frameOf f ∈ s.pmm.free) :
    Links pageFormat (s.mem.fill f 0) img.initialPml4 4 p t i (tableEntry f) f where
  tree := h.tree.fill (h.fresh hfree)
  parent := by rw [descend_fill (h.fresh hfree) (by omega)]; exact ht
  short := by omega
  was := by
    have hne : t ≠ f := fun he => h.fresh hfree p (by omega) (he ▸ ht)
    rw [fill_ne hne]
    exact blank_of_not_present hblank
  names := next_tableEntry hf
  fresh q hq := by rw [descend_fill (h.fresh hfree) hq.le]; exact h.fresh hfree q hq
  blank j := by simpa [Store.fill] using blank_zero

/-- The tables reached are those of before and the new one. -/
theorem Tables.linked_reach (h : Tables img s) (hlen : p.length < 3) (ht : s.reach img p = some t)
    (hblank : present (s.mem t i) = false) (hpage : PageAt f) (hfree : frameOf f ∈ s.pmm.free) (pmm : Pmm)
    {q : List (Fin 512)} (hq : q.length < 4) :
    (q = p ++ [i] ∧ ((zeroPage { s with pmm } f).write t i (tableEntry f)).reach img q = some f) ∨
      (q ≠ p ++ [i] ∧ ((zeroPage { s with pmm } f).write t i (tableEntry f)).reach img q = s.reach img q) := by
  have hl := h.links hlen ht hblank hpage hfree
  rcases hl.descend_eq hq.le with ⟨hqp, he⟩ | ⟨hqp, he⟩
  · exact .inl ⟨hqp, he⟩
  · exact .inr ⟨hqp, he.trans (descend_fill (h.fresh hfree) hq.le)⟩

/-- An entry of a table reached is the new link, blank in the new table, or an
entry of before. -/
theorem Tables.linked_entry (h : Tables img s) (hlen : p.length < 3) (ht : s.reach img p = some t)
    (hblank : present (s.mem t i) = false) (hpage : PageAt f) (hfree : frameOf f ∈ s.pmm.free) (pmm : Pmm)
    {q : List (Fin 512)} {g : UInt64} {j : Fin 512} (hq : q.length < 4)
    (hg : ((zeroPage { s with pmm } f).write t i (tableEntry f)).reach img q = some g) :
    ((zeroPage { s with pmm } f).write t i (tableEntry f)).mem g j = tableEntry f ∨
      ((zeroPage { s with pmm } f).write t i (tableEntry f)).mem g j = 0 ∨
      s.reach img q = some g ∧ ((zeroPage { s with pmm } f).write t i (tableEntry f)).mem g j = s.mem g j := by
  rw [write_mem, zeroPage_mem]
  by_cases hti : g = t ∧ j = i
  · obtain ⟨rfl, rfl⟩ := hti
    exact .inl set_self
  · rw [set_ne hti]
    by_cases hgf : g = f
    · exact .inr (.inl (if_pos hgf))
    · rw [fill_ne hgf]
      rcases h.linked_reach hlen ht hblank hpage hfree pmm hq with ⟨-, he⟩ | ⟨-, he⟩
      · exact absurd (Option.some.inj (hg.symm.trans he)) hgf
      · exact .inr (.inr ⟨he.symm.trans hg, rfl⟩)

theorem Tables.link (h : Tables img s) (hlen : p.length < 3) (hp : p ≠ [0, 0]) (ht : s.reach img p = some t)
    (hblank : present (s.mem t i) = false) (hnone : s.reach img (p ++ [i]) = none) (hpage : PageAt f)
    (hne : f ≠ 0) (hlow : f < bootstrapIdentityLimit) (hfree : frameOf f ∈ s.pmm.free)
    (hb : Becomes s.pmm pmm (s.pmm.free.erase (frameOf f))) :
    Tables img ((zeroPage { s with pmm } f).write t i (tableEntry f)) := by
  have hpd : t ≠ img.initialPd := h.ne_pd (by omega) hp ht
  have hpdf : img.initialPd ≠ f := fun he => h.fresh hfree [0, 0] (by decide) (he ▸ h.identity)
  refine ⟨h.enabled, Tree.link (h.links hlen ht hblank hpage hfree), ?_, ?_, ?_, fun q g j hq hq0 hg => ?_⟩
  · rcases h.linked_reach hlen ht hblank hpage hfree pmm (q := [0, 0]) (by decide) with ⟨he, -⟩ | ⟨-, he⟩
    · rw [← he] at hnone
      exact absurd (h.identity.symm.trans hnone) (by simp)
    · exact he.trans h.identity
  · intro j
    rw [write_mem, zeroPage_mem, set_ne fun he => hpd he.1.symm, fill_ne hpdf]
    exact h.large j
  · intro q g hq hg
    rcases h.linked_reach hlen ht hblank hpage hfree pmm hq with ⟨-, he⟩ | ⟨-, he⟩
    · obtain rfl := Option.some.inj (hg.symm.trans he)
      refine ⟨hpage, UInt64.pos_iff_ne_zero.mpr hne, hlow, ?_⟩
      rw [write_pmm, zeroPage_pmm, hb.free]
      exact Finset.notMem_erase _ _
    · have hpl := h.placed q g hq (he.symm.trans hg)
      refine ⟨hpl.page, hpl.pos, hpl.low, ?_⟩
      rw [write_pmm, zeroPage_pmm, hb.free]
      exact fun hm => hpl.used (Finset.mem_of_mem_erase hm)
  · rcases h.linked_entry hlen ht hblank hpage hfree pmm (j := j) (by omega) hg with he | he | ⟨hr, he⟩
    · rw [he]
      exact .inr ⟨f, next_tableEntry hpage⟩
    · rw [he]
      exact .inl (by decide)
    · rw [he]
      exact h.plain q g j hq hq0 hr

/-- `next_table`, called at entry `i` of the table `t` that the processor
reaches by `p`. -/
structure Level (img : Image) (s : Vmm) (p : List (Fin 512)) (t : UInt64) (i : Fin 512) (f : UInt64) (s' : Vmm) : Prop where
  tables : Tables img s
  short : p.length < 3
  off : p ≠ [0, 0]
  parent : s.reach img p = some t
  does : NextTableDoes img s p t i f s'

theorem nextTable_does (h : Tables img s) (hlen : p.length < 3) (hp : p ≠ [0, 0]) (ht : s.reach img p = some t)
    (i : Fin 512) : ∃ f s', nextTable s t i = some (f, s') ∧ Level img s p t i f s' := by
  rcases h.entryTable_eq hlen hp ht i with ⟨h0, hblank, hnone⟩ | ⟨h0, hr⟩
  · obtain ⟨f, s₁, hs₁, halloc⟩ := allocateTable_spec s
    cases halloc with
    | full hfull => exact ⟨0, s, by simp [nextTable, h0, hs₁], h, hlen, hp, ht, .full hfull hnone⟩
    | table hne hpage hlow _ hlt hfree hb =>
      exact ⟨f, _, by simp [nextTable, h0, hs₁, hne], h, hlen, hp, ht, .made hne hpage hlow hlt hfree hb hblank hnone⟩
  · exact ⟨_, s, by simp [nextTable, h0], h, hlen, hp, ht, .found h0 hr⟩

/-- **One level of the walk.** Off the identity map, `next_table` gives the
table the processor uses from then on, and changes no walk. -/
theorem Level.next {s' : Vmm} (h : Level img s p t i f s') : NextTable img s p i f s' := by
  cases h.does with
  | found hne hr => exact .table hne h.tables hr (.refl img s)
  | full hfull hnone => exact .full hfull hnone
  | made hne hpage hlow _ hfree hb hblank hnone =>
    have hl := h.tables.links h.short h.parent hblank hpage hfree
    refine .table hne (h.tables.link h.short h.off h.parent hblank hnone hpage hne hlow hfree hb) hl.descend_link ?_
    intro q hq
    exact (hl.walk_eq hq).trans (walk_fill (h.tables.fresh hfree) hq.le)

end Link

end Tinos
