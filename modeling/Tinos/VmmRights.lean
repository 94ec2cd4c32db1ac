/-
The rights the processor grants at a page `map_page` has mapped.

They are the conjunction over the four entries of the walk. The entries that
name tables are all made by `table_entry` or by `paging_init`: present,
writable, and not for users (`SupervisorLinks`). So a page is writable as its
flags say and is never a user's (`map_rights`), and no later call changes what
another page has.
-/
import Tinos.VmmTlb

namespace Tinos

open Radix Runs

/-- The rights to the page of an address. -/
def rights (img : Image) (s : Vmm) (address : UInt64) : Option Rights :=
  (translation img s.mem address).map Translation.rights

/-- The states of the page tables: after `paging_init`, after any calls off the
identity map, and after whatever the manager does that frees no table. -/
inductive PagingState (img : Image) : Vmm → Prop
  | init : s.pagingEnabled = false →
      (∀ t ∈ [img.initialPml4, img.initialPdpt, img.initialPd], frameOf t ∉ s.pmm.free) →
      PagingState img (pagingInit img s)
  | call : PagingState img s → OffIdentity c.address → vmmCall img s c = some s' → PagingState img s'
  | manager : PagingState img s → (∀ p f, p.length < 4 → s.reach img p = some f → frameOf f ∉ pmm.free) →
      PagingState img { s with pmm }

/-- The entry leaves writes to the ones below it, and keeps users out. -/
def LinkRights (e : UInt64) : Prop := entryWritable e = true ∧ entryUser e = false

/-- So do all entries that name tables. -/
def SupervisorLinks (img : Image) (s : Vmm) : Prop :=
  ∀ p f i g, p.length < 3 → s.reach img p = some f → pageFormat.next (s.mem f i) = some g → LinkRights (s.mem f i)

section Links

variable {img : Image} {s s' : Vmm} {p : List (Fin 512)} {i : Fin 512} {t f e c : UInt64} {es : List UInt64}

theorem linkRights_or (h : PageAt f) : LinkRights (f ||| 0x003) := by
  unfold LinkRights entryWritable entryUser
  rw [Word.or_and_low h (by decide), Word.or_and_low h (by decide)]
  decide

theorem linkRights_tableEntry (h : PageAt f) : LinkRights (tableEntry f) := by
  have hf : f &&& pageAddressMask = f := h
  rw [tableEntry, hf, UInt64.or_assoc]
  exact linkRights_or h

/-- Below such entries the last one decides on writes. -/
theorem effectiveRights_links (hne : es ≠ []) (h : ∀ x ∈ es, LinkRights x) :
    effectiveRights (es ++ [e]) = ⟨entryWritable e, false⟩ := by
  have hwritable : es.all entryWritable = true := List.all_eq_true.mpr fun x hx => (h x hx).1
  have huser : es.all entryUser = false := by
    obtain ⟨x, hx⟩ := List.exists_mem_of_ne_nil es hne
    exact List.all_eq_false.mpr ⟨x, hx, by simp [(h x hx).2]⟩
  simp [effectiveRights, hwritable, huser]

/-! ## The invariant -/

theorem pagingInit_supervisorLinks (img : Image) (hs : s.pagingEnabled = false) :
    SupervisorLinks img (pagingInit img s) := by
  intro p f i g _ hf hg
  rcases pagingInit_entry img hs hf i with ⟨t, ht, he⟩ | he | ⟨-, he⟩
  · rw [he]
    exact linkRights_or (img.pageAt ht)
  · rw [he, blank_zero.next] at hg
    cases hg
  · rw [he, next_largePageEntry] at hg
    cases hg

theorem Level.supervisorLinks (hl : Level img s p t i f s') (h : SupervisorLinks img s) : SupervisorLinks img s' := by
  cases hl.does with
  | found => exact h
  | full => exact h
  | @made _ pmm hne hpage hlow hlt hfree hb hblank hnone =>
    intro q g j g' hq hg hn
    rcases hl.tables.linked_entry hl.short hl.parent hblank hpage hfree pmm (j := j) (by omega) hg with he | he | ⟨hr, he⟩
    · rw [he]
      exact linkRights_tableEntry hpage
    · rw [he, blank_zero.next] at hn
      cases hn
    · rw [he] at hn ⊢
      exact h q g j g' hq hr hn

/-- An entry of a last table names no table. -/
theorem SupervisorLinks.write_last (h : SupervisorLinks img s) (ht : Tables img s) (hlen : p.length = 3)
    (hr : s.reach img p = some t) : SupervisorLinks img (s.write t i e) := by
  intro q g j g' hq hg hn
  have hold : s.reach img q = some g := (descend_set_last ht.tree hr (by omega) (by omega)).symm.trans hg
  have hgt : g ≠ t := by
    rintro rfl
    have hqp := ht.tree q p _ (by omega) (by omega) hold hr
    rw [hqp] at hq
    omega
  rw [write_mem, set_ne fun he => hgt he.1] at hn ⊢
  exact h q g j g' hq hold hn

end Links

/-! ## Calls -/

section Calls

variable {img : Image} {s s' : Vmm} {va pa flags t e v : UInt64} {c : VmmCall}

theorem vmmCall_supervisorLinks (h : SupervisorLinks img s) (ht : Tables img s) (hoff : OffIdentity c.address)
    (hs : vmmCall img s c = some s') : SupervisorLinks img s' := by
  obtain ⟨-, s₁, u, -, hsup, ht₁, -, hu, hcase⟩ := vmmCall_levels (fun _ a => SupervisorLinks img a) ht hoff h
    fun _ _ _ _ _ _ _ hsup hl => hl.supervisorLinks hsup
  obtain rfl := Option.some.inj (hs.symm.trans hu)
  rcases hcase with rfl | ⟨t, e, hreach, rfl⟩
  · exact hsup
  · exact hsup.write_last ht₁ rfl hreach

theorem PagingState.supervised (h : PagingState img s) : Tables img s ∧ SupervisorLinks img s := by
  induction h with
  | init hs hused => exact ⟨pagingInit_tables img hs hused, pagingInit_supervisorLinks img hs⟩
  | @call s c s' _ hoff hs ih =>
    obtain ⟨u, hu, ht⟩ := vmmCall_tables ih.1 c hoff
    obtain rfl := Option.some.inj (hs.symm.trans hu)
    exact ⟨ht, vmmCall_supervisorLinks ih.2 ih.1 hoff hs⟩
  | manager _ hused ih => exact ⟨ih.1.with_pmm hused, ih.2⟩

/-- The rights to a page whose entry has just been written. -/
theorem SupervisorLinks.rights_write (h : SupervisorLinks img s) (ht : Tables img s) (hc : hardwareCanonical va = true)
    (hr : s.reach img [pml4Index va, pdptIndex va, pdIndex va] = some t) (he : present e = true) :
    rights img (flushTlbPage (s.write t (ptIndex va) e) va) va = some ⟨entryWritable e, false⟩ := by
  have hleaf : pageFormat.leaf 0 e = true := by simp [pageFormat, he]
  obtain ⟨es, hlen, htrail, hes⟩ := trail_set_last (i := ptIndex va) ht.tree hr rfl hleaf
  have hwalk := walk_set_last (i := ptIndex va) (e := e) ht.tree hr rfl
  rw [if_pos hleaf] at hwalk
  have hlinks : ∀ x ∈ es, LinkRights x := by
    intro x hx
    obtain ⟨q, g, j, hq, hd, rfl, g', hn⟩ := hes x hx
    exact h.write_last ht rfl hr q g j g' hq hd hn
  have hne : es ≠ [] := List.ne_nil_of_length_pos (by simp [hlen])
  have hpath : path va = [pml4Index va, pdptIndex va, pdIndex va] ++ [ptIndex va] := rfl
  have hmem : (flushTlbPage (s.write t (ptIndex va) e) va).mem = s.mem.set t (ptIndex va) e := rfl
  unfold rights translation
  rw [if_pos hc, hmem, hpath, hwalk, htrail]
  exact congrArg some (effectiveRights_links hne hlinks)

/-- What `map_page` does not refuse. -/
theorem mappable_of_accepted (h : mapRefused s va pa flags = false) : pageAlignedAddress va = true ∧ Mappable pa flags := by
  simp only [mapRefused, Bool.or_eq_false_iff, Bool.not_eq_false', bne_eq_false_iff_eq] at h
  exact ⟨h.1.1.1.2, h.1.1.2, h.1.2, h.2⟩

theorem entryWritable_entry (h : PageAt pa) : entryWritable (pa ||| flags ||| pageFlagPresent) = entryWritable flags := by
  unfold entryWritable
  rw [UInt64.or_assoc, Word.or_and_low h (by decide), Word.or_and_distrib, show pageFlagPresent &&& 0x002 = 0 by decide,
    UInt64.or_zero]

theorem mapPage_rights (h : SupervisorLinks img s) (ht : Tables img s) (hva : HighPage va) (hm : Mappable pa flags)
    (hs : mapPage img s va pa flags = some s') :
    getPageTable img s' va = 0 ∨ rights img s' va = some ⟨entryWritable flags, false⟩ := by
  obtain ⟨-, s₁, u, -, hsup, ht₁, -, hu, hcase⟩ := mapPage_levels (fun _ a => SupervisorLinks img a) ht hva.off
    (ht.not_refused hva.canonical hva.aligned hm) h fun _ _ _ _ _ _ _ hsup hl => hl.supervisorLinks hsup
  obtain rfl := Option.some.inj (hs.symm.trans hu)
  rcases hcase with ⟨rfl, -, hnone⟩ | ⟨t, hreach, rfl⟩
  · exact .inl (ht₁.getPageTable_none hva hnone)
  · right
    rw [hm.entry, hsup.rights_write ht₁ hva.canonical hreach present_entry,
      entryWritable_entry (Word.and_of_and_not hm.inside)]

end Calls

/-- **The rights to a mapped page.** Where `map_page` installs a page it is
writable if and only if the flags say so, and it is never a user's; the
rights to other pages stay as they were. -/
theorem map_rights {img : Image} {s s' : Vmm} {va pa flags : UInt64} (hs : PagingState img s)
    (hc : hardwareCanonical va = true) (hhigh : bootstrapIdentityLimit ≤ va)
    (haccept : mapRefused s va pa flags = false) (hmap : mapPage img s va pa flags = some s') :
    (getPageTable img s' va ≠ 0 → rights img s' va = some ⟨flags &&& 0x002 != 0, false⟩) ∧
      ∀ v, pageOf v ≠ pageOf va → rights img s' v = rights img s v := by
  obtain ⟨ht, hsup⟩ := hs.supervised
  obtain ⟨haligned, hm⟩ := mappable_of_accepted haccept
  have hva : HighPage va := ⟨hc, haligned, hhigh⟩
  refine ⟨?_, ?_⟩
  · intro hne
    exact (mapPage_rights hsup ht hva hm hmap).resolve_left hne
  · intro v hv
    unfold rights
    rw [(vmmCall_effects (c := .map va pa flags) ht hc hva.off hmap).others hv]

theorem map_rights_one_page : ∃ s', mapPage imageAtOneMiB (pagingInit imageAtOneMiB vmmAtReset) 0x40000000 0x5000 7 = some s' ∧
    (getPageTable imageAtOneMiB s' 0x40000000 ≠ 0 → rights imageAtOneMiB s' 0x40000000 = some ⟨true, false⟩) ∧
    ∀ v, pageOf v ≠ pageOf 0x40000000 →
      rights imageAtOneMiB s' v = rights imageAtOneMiB (pagingInit imageAtOneMiB vmmAtReset) v := by
  have hva : HighPage 0x40000000 := ⟨by decide, by decide, by decide⟩
  have hstate : PagingState imageAtOneMiB (pagingInit imageAtOneMiB vmmAtReset) := .init rfl vmmAtReset_used
  have hm : Mappable 0x5000 7 := ⟨by decide, by decide, by decide⟩
  obtain ⟨s', hs', -⟩ := mapPage_spec hstate.supervised.1 hva hm
  exact ⟨s', hs', map_rights hstate hva.canonical hva.high (hstate.supervised.1.not_refused hva.canonical hva.aligned hm) hs'⟩

/-- The user bit of the flags is lost on the way. And where a map below 1 GiB
has put an entry of its own in a page directory, the writable bit is. -/
theorem user_right_not_granted :
    (∃ s', mapPage imageAtOneMiB (pagingInit imageAtOneMiB vmmAtReset) 0x40000000 0x5000 6 = some s' ∧
      getPageTable imageAtOneMiB s' 0x40000000 ≠ 0 ∧ rights imageAtOneMiB s' 0x40000000 = some ⟨true, false⟩) ∧
    ∃ s s', [VmmCall.map 0x40000000 0x5000 3, .map 0x200000 0x201000 0].foldlM (vmmCall imageAtOneMiB)
        (pagingInit imageAtOneMiB vmmAtReset) = some s ∧
      mapPage imageAtOneMiB s 0x40000000 0x5000 2 = some s' ∧
      getPageTable imageAtOneMiB s' 0x40000000 ≠ 0 ∧ rights imageAtOneMiB s' 0x40000000 = some ⟨false, false⟩ := by
  have huser : (mapPage imageAtOneMiB (pagingInit imageAtOneMiB vmmAtReset) 0x40000000 0x5000 6).map (fun s =>
      (getPageTable imageAtOneMiB s 0x40000000 != 0, rights imageAtOneMiB s 0x40000000)) =
      some (true, some ⟨true, false⟩) := by decide +kernel
  have hlow : ([VmmCall.map 0x40000000 0x5000 3, .map 0x200000 0x201000 0].foldlM (vmmCall imageAtOneMiB)
      (pagingInit imageAtOneMiB vmmAtReset)).bind (fun s => (mapPage imageAtOneMiB s 0x40000000 0x5000 2).map fun s =>
        (getPageTable imageAtOneMiB s 0x40000000 != 0, rights imageAtOneMiB s 0x40000000)) =
      some (true, some ⟨false, false⟩) := by decide +kernel
  constructor
  · obtain ⟨s', hs', he⟩ := Option.map_eq_some_iff.mp huser
    simp only [Prod.mk.injEq, bne_iff_ne, ne_eq] at he
    exact ⟨s', hs', he.1, he.2⟩
  · obtain ⟨s, hs, hmap⟩ := Option.bind_eq_some_iff.mp hlow
    obtain ⟨s', hs', he⟩ := Option.map_eq_some_iff.mp hmap
    simp only [Prod.mk.injEq, bne_iff_ne, ne_eq] at he
    exact ⟨s, s', hs, hs', he.1, he.2⟩

end Tinos
