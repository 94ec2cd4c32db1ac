/-
What the processor may have cached of the page tables while `map_page` and
`unmap_page` change them.

The TLB is a cache (`Tinos.Lib.Cache`) of what the walk of a page gives, and
the effects of a call are its table stores and its `invlpg`, in order. The
stores before the last change no translation: they blank a table no walk
reaches, and link it (`Level.quiet`). The last changes that of the page, and
the `invlpg` of the page comes next (`CallEffects.keeps`). So
`no_stale_translation`: whenever a call has returned, what is cached is what
the tables give.
-/
import Tinos.Lib.Cache
import Tinos.VmmOwners

namespace Tinos

open Radix Runs

/-! ## Translations -/

abbrev PageTables := Store UInt64 (Fin 512) UInt64

/-- What the entries of a walk all grant. -/
structure Rights where
  writable : Bool
  user : Bool
deriving DecidableEq

def entryWritable (entry : UInt64) : Bool := entry &&& 0x002 != 0
def entryUser (entry : UInt64) : Bool := entry &&& 0x004 != 0

def effectiveRights (entries : List UInt64) : Rights := ⟨entries.all entryWritable, entries.all entryUser⟩

/-- The physical page of a virtual page, and the rights to it. -/
structure Translation where
  page : UInt64
  rights : Rights
deriving DecidableEq

/-- What the tables give for the page of an address. -/
def translation (img : Image) (mem : PageTables) (address : UInt64) : Option Translation :=
  if hardwareCanonical address then do
    let l ← walk pageFormat mem img.initialPml4 (path address)
    let entries ← trail pageFormat mem img.initialPml4 (path address)
    return ⟨physicalAddress l (address &&& ~~~0xFFF), effectiveRights entries⟩
  else none

/-- A virtual page by its number. -/
abbrev Page := Fin (2 ^ 52)

def pageNumber (address : UInt64) : Page := ⟨pageOf address, by have := address.toNat_lt; unfold pageOf; omega⟩

def addressOfPage (page : Page) : UInt64 := UInt64.ofNat (4096 * page)

/-- The TLB: `invlpg` drops the page of its address, a load of `cr3` all. -/
def tlbSpec (img : Image) : Cache.Spec PageTables Page Translation Effect where
  look mem page := translation img mem (addressOfPage page)
  write
    | .store table index value, mem => mem.set table index value
    | _, mem => mem
  drops
    | .store _ _ _, _ => false
    | .invlpg address, page => page == pageNumber address
    | .loadCr3 _, _ => true

section Translation

variable {img : Image} {m m' : PageTables} {v v' va t e : UInt64} {i : Fin 512} {page : Page}

theorem addressOfPage_toNat : (addressOfPage page).toNat = 4096 * page := Word.toNat_ofNat_of_lt (by have := page.isLt; omega)

theorem pageNumber_addressOfPage (page : Page) : pageNumber (addressOfPage page) = page := by
  have hdiv : (addressOfPage page).toNat / 4096 = page := by
    rw [addressOfPage_toNat]
    omega
  exact Fin.ext hdiv

/-- The translation is one of the page. -/
theorem translation_page (h : pageOf v = pageOf v') : translation img m v = translation img m v' := by
  have hm : (0xFFF : UInt64).toNat = 2 ^ 12 - 1 := by decide
  have hbase : v &&& ~~~0xFFF = v' &&& ~~~0xFFF := by
    apply UInt64.toNat.inj
    rw [Word.toNat_and_not_low hm, Word.toNat_and_not_low hm]
    exact congrArg _ h
  unfold translation
  rw [hardwareCanonical_page h, path_page h, hbase]

/-- The page is where `translate` takes its first byte. -/
theorem translate_eq (s : Vmm) (hv : pageAlignedAddress v = true) :
    translate img s v = (translation img s.mem v).map Translation.page := by
  have hm : (0xFFF : UInt64).toNat = 2 ^ 12 - 1 := by decide
  have hbase : v &&& ~~~0xFFF = v := by
    apply UInt64.toNat.inj
    rw [Word.toNat_and_not_low hm]
    have := aligned_iff.mp hv
    omega
  unfold translate hardwareWalk translation
  rw [hbase]
  split
  · cases hwalk : walk pageFormat s.mem img.initialPml4 (path v) with
    | none => rfl
    | some l =>
      cases htrail : trail pageFormat s.mem img.initialPml4 (path v) with
      | none =>
        rw [trail_eq_none_iff, hwalk] at htrail
        cases htrail
      | some entries => rfl
  · rfl

theorem translation_pageNumber : translation img m (addressOfPage (pageNumber v)) = translation img m v := by
  apply translation_page
  exact congrArg Fin.val (pageNumber_addressOfPage (pageNumber v))

end Translation

/-! ## Stores that change no translation -/

/-- The effects since `s` lead to the tables of `s'`, and none of them changes a
translation. -/
def QuietSince (img : Image) (s s' : Vmm) : Prop :=
  ∃ es, s'.trace = s.trace ++ es ∧ Cache.Quiet (tlbSpec img) s.mem es s'.mem

section Quiet

variable {img : Image} {s s' s'' : Vmm} {m m' : PageTables} {p : List (Fin 512)} {i : Fin 512} {t f z v : UInt64}

theorem translation_of_alike (h : Alike pageFormat m m' img.initialPml4 4) (v : UInt64) :
    translation img m' v = translation img m v := by
  obtain ⟨hwalk, htrail⟩ := h (path v) rfl
  unfold translation
  rw [hwalk, htrail]

theorem QuietSince.refl (img : Image) (s : Vmm) : QuietSince img s s := ⟨[], by simp, .nil⟩

theorem QuietSince.trans (h : QuietSince img s s') (h' : QuietSince img s' s'') : QuietSince img s s'' := by
  obtain ⟨es, ht, hq⟩ := h
  obtain ⟨fs, ht', hq'⟩ := h'
  exact ⟨es ++ fs, by rw [ht', ht, List.append_assoc], hq.append hq'⟩

theorem QuietSince.translation_eq (h : QuietSince img s s') (v : UInt64) :
    translation img s'.mem v = translation img s.mem v := by
  obtain ⟨es, -, hq⟩ := h
  rw [← translation_pageNumber, ← @translation_pageNumber img s.mem]
  exact hq.look_eq (pageNumber v)

/-- Filling entries of a table no path reaches, one after the other. -/
theorem quiet_fill (hfresh : ∀ q, q.length < 4 → descend pageFormat m img.initialPml4 q ≠ some f) (is : List (Fin 512)) :
    Cache.Quiet (tlbSpec img) m (is.map (.store f · z)) (is.foldl (fun m i => m.set f i z) m) := by
  induction is generalizing m with
  | nil => exact .nil
  | cons i is ih =>
    refine .cons (fun page => translation_of_alike (alike_set_unreached hfresh) (addressOfPage page)) (ih ?_)
    intro q hq hd
    exact hfresh q hq ((descend_congr (set_unreached hfresh hq.le)).symm.trans hd)

/-- The stores of one level blank the new table and link it. -/
theorem Level.quiet (h : Level img s p t i f s') : QuietSince img s s' := by
  cases h.does with
  | found => exact .refl img s
  | full => exact .refl img s
  | @made _ pmm hne hpage hlow hlt hfree hb hblank hnone =>
    have hfresh := h.tables.fresh hfree
    have hl := h.tables.links h.short h.parent hblank hpage hfree
    have hfill := quiet_fill (z := 0) hfresh (List.finRange 512)
    have hall : (List.finRange 512).foldl (fun m i => m.set f i 0) s.mem = s.mem.fill f 0 := by
      rw [foldl_set]
      funext g j
      simp [Store.fill]
    rw [hall] at hfill
    have hlink : Cache.Quiet (tlbSpec img) (s.mem.fill f 0) [.store t i (tableEntry f)]
        ((s.mem.fill f 0).set t i (tableEntry f)) :=
      .cons (fun page => translation_of_alike hl.alike (addressOfPage page)) .nil
    refine ⟨(List.finRange 512).map (.store f · 0) ++ [.store t i (tableEntry f)], ?_, ?_⟩
    · rw [write_trace, zeroPage_trace, List.append_assoc]
    · rw [write_mem, zeroPage_mem]
      exact hfill.append hlink

end Quiet

/-! ## Calls -/

/-- The effects of a call on a page: stores that change no translation, and then,
where the walk gets to the last table, one that changes the page's alone and
the `invlpg` of the page. -/
inductive CallEffects (img : Image) (s : Vmm) (va : UInt64) : Vmm → Prop
  | quiet : QuietSince img s s' → CallEffects img s va s'
  | page : QuietSince img s s₁ →
      (∀ v, pageOf v ≠ pageOf va → translation img (s₁.mem.set t i e) v = translation img s₁.mem v) →
      CallEffects img s va (flushTlbPage (s₁.write t i e) va)

section Call

variable {img : Image} {s s' : Vmm} {va v t e : UInt64} {c : VmmCall}

/-- The entry of a page shows in no other page's translation. -/
theorem Tables.translation_write_ne (h : Tables img s) (hc : hardwareCanonical va = true)
    (ht : s.reach img [pml4Index va, pdptIndex va, pdIndex va] = some t) (hv : pageOf v ≠ pageOf va) :
    translation img (s.mem.set t (ptIndex va) e) v = translation img s.mem v := by
  unfold translation
  by_cases hcv : hardwareCanonical v = true
  · have hlen : (path v).length = 4 := rfl
    have hthrough : ¬ [pml4Index va, pdptIndex va, pdIndex va] ++ [ptIndex va] <+: path v := by
      intro hp
      exact path_ne hc hcv hv (hp.eq_of_length hlen.symm).symm
    obtain ⟨hwalk, htrail⟩ := ends_set (e := e) h.tree ht (by simp) hlen.le hthrough
    rw [hwalk, htrail]
  · rw [if_neg hcv, if_neg hcv]

theorem vmmCall_effects (h : Tables img s) (hc : hardwareCanonical c.address = true) (hoff : OffIdentity c.address)
    (hs : vmmCall img s c = some s') : CallEffects img s c.address s' := by
  obtain ⟨-, s₁, u, -, hquiet, ht, -, hu, hcase⟩ := vmmCall_levels (fun _ a => QuietSince img s a) h hoff (.refl img s)
    fun _ _ _ _ _ _ _ hq hl => hq.trans hl.quiet
  obtain rfl := Option.some.inj (hs.symm.trans hu)
  rcases hcase with rfl | ⟨t, e, hreach, rfl⟩
  · exact .quiet hquiet
  · exact .page hquiet fun v hv => ht.translation_write_ne hc hreach hv

/-- A call changes the translation of its own page alone. -/
theorem CallEffects.others (h : CallEffects img s va s') (hv : pageOf v ≠ pageOf va) :
    translation img s'.mem v = translation img s.mem v := by
  cases h with
  | quiet hq => exact hq.translation_eq v
  | page hq hothers => exact (hothers v hv).trans (hq.translation_eq v)

/-- However the TLB is filled meanwhile, it is coherent after the call if it
was before. -/
theorem CallEffects.keeps (h : CallEffects img s va s') : ∃ es, s'.trace = s.trace ++ es ∧
    Cache.Keeps (tlbSpec img) s.mem (fun _ => True) es (fun _ => True) s'.mem := by
  cases h with
  | quiet hq =>
    obtain ⟨es, ht, hq⟩ := hq
    exact ⟨es, ht, hq.keeps⟩
  | @page s₁ t i e hq hothers =>
    obtain ⟨es, ht, hq⟩ := hq
    refine ⟨es ++ [.store t i e, .invlpg va], ?_, hq.keeps.append ?_⟩
    · rw [flushTlbPage_trace, write_trace, ht, List.append_assoc, List.append_assoc]
      rfl
    · refine Cache.keeps_update (pageNumber va) ?_ (beq_self_eq_true (pageNumber va)) fun _ => rfl
      intro page hpage
      refine hothers (addressOfPage page) fun he => hpage ?_
      rw [← pageNumber_addressOfPage page]
      exact Fin.ext he

end Call

/-! ## Runs -/

/-- The tables and the clients of the manager, and the processor's own view of
the tables with its TLB. -/
structure Machine where
  shared : Shared
  cpu : Cache.State PageTables Page Translation

/-- A call or a step of the clients, its effects taking place one by one, with
the TLB filled in between as it may be. -/
inductive MachineStep (img : Image) : Machine → SharedEvent → Machine → Prop
  | step : SharedStep img w.shared e shared →
      Cache.Executes (tlbSpec img) w.cpu (shared.vmm.trace.drop w.shared.vmm.trace.length) cpu →
      MachineStep img w e ⟨shared, cpu⟩

/-- The load of `cr3` that `paging_init` ends with leaves nothing cached. -/
def machineAfterInit (img : Image) (s₀ : Vmm) : Machine where
  shared := ⟨pagingInit img s₀, ∅⟩
  cpu := ⟨(pagingInit img s₀).mem, fun _ => none⟩

/-- Between calls the TLB agrees with the tables. -/
structure Fresh (img : Image) (w : Machine) : Prop where
  shares : Shares img w.shared
  mem : w.cpu.mem = w.shared.vmm.mem
  coherent : Cache.Coherent (tlbSpec img) (fun _ => True) w.cpu

section Machine

variable {img : Image} {w w' : Machine} {e : SharedEvent} {s₀ : Vmm}

/-- Whoever takes the step, its effects keep the TLB coherent. -/
theorem SharedStep.keeps {x y : Shared} (h : SharedStep img x e y) (ht : Tables img x.vmm) :
    ∃ es, y.vmm.trace = x.vmm.trace ++ es ∧
      Cache.Keeps (tlbSpec img) x.vmm.mem (fun _ => True) es (fun _ => True) y.vmm.mem := by
  cases h with
  | vmm hc hs => exact (vmmCall_effects ht hc.canonical hc.off hs).keeps
  | client => exact ⟨[], by simp, .nil⟩

theorem Fresh.step (h : Fresh img w) (hs : MachineStep img w e w') : Fresh img w' := by
  cases hs with
  | step hshared hexec =>
    obtain ⟨es, htrace, hkeeps⟩ := hshared.keeps h.shares.tables
    rw [htrace, List.drop_left] at hexec
    rw [← h.mem] at hkeeps
    obtain ⟨hmem, hcoherent⟩ := Cache.Keeps.executes hexec hkeeps h.coherent
    exact ⟨(hshared.shares h.shares).1, hmem, hcoherent⟩

end Machine

/-- **No stale translation.** After any maps and unmaps of pages at or above
1 GiB, successful or not, whatever the clients of the memory manager do
between them and wherever between two stores the TLB was filled, what it
holds of a page is what the tables give. -/
theorem no_stale_translation (img : Image) {s₀ : Vmm} (hs : s₀.pagingEnabled = false)
    (hused : ∀ t ∈ [img.initialPml4, img.initialPdpt, img.initialPd], frameOf t ∉ s₀.pmm.free)
    {es : List SharedEvent} {w : Machine} (hrun : Steps (MachineStep img) (machineAfterInit img s₀) es w) :
    w.cpu.mem = w.shared.vmm.mem ∧
      ∀ v t, w.cpu.cached (pageNumber v) = some t → translation img w.shared.vmm.mem v = some t := by
  have hfresh := hrun.invariant (Fresh img) ⟨pagingInit_shares hs hused, rfl, nofun⟩ fun _ _ _ h hstep => h.step hstep
  refine ⟨hfresh.mem, ?_⟩
  intro v t hv
  have hlook := hfresh.coherent (pageNumber v) t trivial hv
  rw [hfresh.mem] at hlook
  exact translation_pageNumber.symm.trans hlook

/-- A page mapped and then mapped elsewhere. The TLB takes in the first
translation just before the last store makes it stale, another page's before
the `invlpg`, and the second translation after it. -/
theorem no_stale_translation_remap : ∃ w,
    Steps (MachineStep imageAtOneMiB) (machineAfterInit imageAtOneMiB vmmAtReset)
      [.vmm (.map 0x40000000 0x5000 3), .vmm (.map 0x40000000 0x7000 1)] w ∧
    w.cpu.cached (pageNumber 0x40000000) = some ⟨0x7000, ⟨false, false⟩⟩ ∧
    w.cpu.cached (pageNumber 0x3000) = some ⟨0x3000, ⟨true, false⟩⟩ ∧
    w.cpu.mem = w.shared.vmm.mem ∧
    ∀ v t, w.cpu.cached (pageNumber v) = some t → translation imageAtOneMiB w.shared.vmm.mem v = some t := by
  have hva : HighPage 0x40000000 := ⟨by decide, by decide, by decide⟩
  -- the second call stores one entry, whose table and slot the first has made
  have hcalc : ((vmmCall imageAtOneMiB (pagingInit imageAtOneMiB vmmAtReset) (.map 0x40000000 0x5000 3)).bind fun s₁ =>
      (vmmCall imageAtOneMiB s₁ (.map 0x40000000 0x7000 1)).map fun s₂ =>
        (translation imageAtOneMiB s₁.mem 0x40000000,
          translation imageAtOneMiB (s₁.mem.set 0x201000 0 0x7001) 0x3000,
          translation imageAtOneMiB (s₁.mem.set 0x201000 0 0x7001) 0x40000000, s₂.trace.drop s₁.trace.length)) =
      some (some ⟨0x5000, ⟨true, false⟩⟩, some ⟨0x3000, ⟨true, false⟩⟩, some ⟨0x7000, ⟨false, false⟩⟩,
        [.store 0x201000 0 0x7001, .invlpg 0x40000000]) := by decide +kernel
  simp only [Option.bind_eq_some_iff, Option.map_eq_some_iff, Prod.mk.injEq] at hcalc
  obtain ⟨s₁, h₁, s₂, h₂, hold, hlow, hnew, heffects⟩ := hcalc
  obtain ⟨cpu₁, hcpu₁⟩ := Cache.exists_executes (tlbSpec imageAtOneMiB)
    (s₁.trace.drop (pagingInit imageAtOneMiB vmmAtReset).trace.length) (machineAfterInit imageAtOneMiB vmmAtReset).cpu
  have hrun₁ : Steps (MachineStep imageAtOneMiB) (machineAfterInit imageAtOneMiB vmmAtReset)
      [.vmm (.map 0x40000000 0x5000 3)] ⟨⟨s₁, ∅⟩, cpu₁⟩ := .snoc .nil (.step (.vmm hva h₁) hcpu₁)
  have hmem : cpu₁.mem = s₁.mem := (no_stale_translation imageAtOneMiB rfl vmmAtReset_used hrun₁).1
  rw [← hmem] at hold hlow hnew
  let spec := tlbSpec imageAtOneMiB
  let stale := (cpu₁.fill (pageNumber 0x40000000) ⟨0x5000, ⟨true, false⟩⟩).effect spec (.store 0x201000 0 0x7001)
  let dropped := (stale.fill (pageNumber 0x3000) ⟨0x3000, ⟨true, false⟩⟩).effect spec (.invlpg 0x40000000)
  let cpu₂ := dropped.fill (pageNumber 0x40000000) ⟨0x7000, ⟨false, false⟩⟩
  have hcpu₂ : Cache.Executes spec cpu₁ (s₂.trace.drop s₁.trace.length) cpu₂ := by
    rw [heffects]
    refine .fill (translation_pageNumber.trans hold) (.effect ?_)
    refine .fill (translation_pageNumber.trans hlow) (.effect ?_)
    exact .fill (translation_pageNumber.trans hnew) .done
  have hrun : Steps (MachineStep imageAtOneMiB) (machineAfterInit imageAtOneMiB vmmAtReset)
      [.vmm (.map 0x40000000 0x5000 3), .vmm (.map 0x40000000 0x7000 1)] ⟨⟨s₂, ∅⟩, cpu₂⟩ :=
    hrun₁.snoc (.step (.vmm hva h₂) hcpu₂)
  have hpage : cpu₂.cached (pageNumber 0x40000000) = some ⟨0x7000, ⟨false, false⟩⟩ :=
    Function.update_self (pageNumber 0x40000000) _ dropped.cached
  have hother : cpu₂.cached (pageNumber 0x3000) = some ⟨0x3000, ⟨true, false⟩⟩ := by
    have hne : pageNumber 0x3000 ≠ pageNumber 0x40000000 := by decide
    have hkept : spec.drops (.invlpg 0x40000000) (pageNumber 0x3000) = false := beq_eq_false_iff_ne.mpr hne
    simp only [cpu₂, dropped, Cache.State.fill, Cache.State.effect, Function.update_of_ne hne, hkept, Bool.false_eq_true,
      if_false, Function.update_self]
  exact ⟨_, hrun, hpage, hother, no_stale_translation imageAtOneMiB rfl vmmAtReset_used hrun⟩

end Tinos
