/-
The page tables next to the other clients of the memory manager.

A call of `map_page` takes the frames of its new tables from the same bitmap
the clients allocate from and give back to. `Grows` says what a call off the
identity map does to the set of tables: they stay where they are, and new
ones are at frames that were free and below 8 MiB. So in any order of map,
unmap, allocate and free the tables are nobody else's
(`table_frames_owned`).
-/
import Tinos.PmmRuns
import Tinos.VmmMaps

namespace Tinos

open Radix Runs

/-- The static tables. -/
def Image.tables (img : Image) : List UInt64 := [img.initialPml4, img.initialPdpt, img.initialPd]

/-- The free frames a table can be put in. -/
def Pmm.lowFree (s : Pmm) : Finset ℕ := s.free.filter fun p => 1 ≤ p ∧ p < 2048

/-- The page tables and the addresses the clients of the manager hold. -/
structure Shared where
  vmm : Vmm
  held : Finset UInt64

inductive SharedEvent where
  | vmm (c : VmmCall)
  | client (e : ClientEvent)

/-- A call for a page at or above 1 GiB, or a step of the clients. -/
inductive SharedStep (img : Image) : Shared → SharedEvent → Shared → Prop
  | vmm {w : Shared} {c : VmmCall} {s : Vmm} : HighPage c.address → vmmCall img w.vmm c = some s →
      SharedStep img w (.vmm c) ⟨s, w.held⟩
  | client {w : Shared} {e : ClientEvent} {pmm : Pmm} {held : Finset UInt64} :
      ClientStep ⟨w.vmm.pmm, w.held⟩ e ⟨pmm, held⟩ → SharedStep img w (.client e) ⟨{ w.vmm with pmm }, held⟩

/-- The event is an allocation that answers `a`. -/
def SharedEvent.HandsOut (a : UInt64) : SharedEvent → Prop
  | .client (.alloc b) => b = a ∧ a ≠ 0
  | .client (.allocLow b) => b = a ∧ a ≠ 0
  | _ => False

/-- The tables of `s'` are those of `s` and others, at low frames that were
free. At most `k` frames were taken. -/
structure Grows (img : Image) (k : ℕ) (s s' : Vmm) : Prop where
  keeps : ∀ p f, p.length < 4 → s.reach img p = some f → s'.reach img p = some f
  new : ∀ p f, p.length < 4 → s'.reach img p = some f →
    s.reach img p = some f ∨ frameOf f ∈ s.pmm.free ∧ frameOf f < 2048
  free : s'.pmm.free ⊆ s.pmm.free
  spends : s.pmm.lowFree.card ≤ s'.pmm.lowFree.card + k

/-- The page tables are a tree of used frames, the new ones low, and nobody
holds the frame of a table. -/
structure Shares (img : Image) (w : Shared) : Prop where
  tables : Tables img w.vmm
  low : ∀ p f, p.length < 4 → w.vmm.reach img p = some f → f ∈ img.tables ∨ frameOf f < 2048
  held : ∀ a ∈ w.held, a.toNat % 4096 = 0 ∧ frameOf a < 16777216 ∧ frameOf a ∉ w.vmm.pmm.free
  apart : ∀ a ∈ w.held, ∀ p f, p.length < 4 → w.vmm.reach img p = some f → frameOf f ≠ frameOf a

section Grows

variable {img : Image} {s s' s'' : Vmm} {p : List (Fin 512)} {i : Fin 512} {t f va e : UInt64} {k l : ℕ}

theorem noLowFrame_iff {pmm : Pmm} : NoLowFrame pmm ↔ pmm.lowFree.card = 0 := by
  rw [Finset.card_eq_zero, Pmm.lowFree, Finset.filter_eq_empty_iff]
  refine forall₂_congr ?_
  intro q _
  omega

theorem Grows.of_reach (hreach : ∀ q, q.length < 4 → s'.reach img q = s.reach img q) (hpmm : s'.pmm = s.pmm) :
    Grows img 0 s s' where
  keeps p f hp hf := by rwa [hreach p hp]
  new p f hp hf := .inl (by rwa [hreach p hp] at hf)
  free := by rw [hpmm]
  spends := by rw [hpmm, Nat.add_zero]

theorem Grows.refl (img : Image) (s : Vmm) : Grows img 0 s s := .of_reach (fun _ _ => rfl) rfl

theorem Grows.trans (h : Grows img k s s') (h' : Grows img l s' s'') : Grows img (k + l) s s'' where
  keeps p f hp hf := h'.keeps p f hp (h.keeps p f hp hf)
  new p f hp hf := by
    rcases h'.new p f hp hf with hf | hf
    · exact h.new p f hp hf
    · exact .inr ⟨h.free hf.1, hf.2⟩
  free := h'.free.trans h.free
  spends := by
    have h1 := h.spends
    have h2 := h'.spends
    omega

theorem Grows.mono (h : Grows img k s s') (hk : k ≤ l) : Grows img l s s' :=
  ⟨h.keeps, h.new, h.free, by have := h.spends; omega⟩

/-- Writing an entry of a last table moves no table. -/
theorem Tables.grows_write (h : Tables img s) (hlen : p.length = 3) (ht : s.reach img p = some t) :
    Grows img 0 s (flushTlbPage (s.write t i e) va) :=
  .of_reach (fun _ hq => descend_set_last h.tree ht (by omega) hq) rfl

/-- One more table, or none. -/
theorem Level.grows (h : Level img s p t i f s') : Grows img 1 s s' := by
  cases h.does with
  | found => exact (Grows.refl img s).mono (by omega)
  | full => exact (Grows.refl img s).mono (by omega)
  | @made _ pmm hne hpage hlow hlt hfree hb hblank hnone =>
    have hreach : ∀ q : List (Fin 512), q.length < 4 → _ := fun q hq =>
      h.tables.linked_reach h.short h.parent hblank hpage hfree pmm hq
    refine ⟨?_, ?_, ?_, ?_⟩
    · intro q x hq hx
      rcases hreach q hq with ⟨rfl, -⟩ | ⟨-, he⟩
      · rw [hnone] at hx
        cases hx
      · rw [he]
        exact hx
    · intro q x hq hx
      rcases hreach q hq with ⟨-, he⟩ | ⟨-, he⟩
      · rw [he, Option.some.injEq] at hx
        exact .inr (hx ▸ ⟨hfree, hlt⟩)
      · rw [he] at hx
        exact .inl hx
    · rw [write_pmm, zeroPage_pmm, hb.free]
      exact Finset.erase_subset _ _
    · rw [write_pmm, zeroPage_pmm, Pmm.lowFree, Pmm.lowFree, hb.free, Finset.filter_erase]
      have hcard := Finset.pred_card_le_card_erase (s := s.pmm.free.filter fun p => 1 ≤ p ∧ p < 2048) (a := frameOf f)
      omega

/-- A call adds three tables at most. -/
theorem vmmCall_grows {c : VmmCall} (h : Tables img s) (hoff : OffIdentity c.address) (hs : vmmCall img s c = some s') :
    Tables img s' ∧ Grows img 3 s s' := by
  obtain ⟨k, s₁, u, hk, hg, ht, -, hu, hcase⟩ := vmmCall_levels (fun k a => Grows img k s a) h hoff (.refl img s)
    fun _ _ _ _ _ _ _ hg hl => hg.trans hl.grows
  obtain rfl := Option.some.inj (hs.symm.trans hu)
  rcases hcase with rfl | ⟨t, e, hreach, rfl⟩
  · exact ⟨ht, hg.mono hk⟩
  · exact ⟨(ht.write_last rfl hreach).flush, (hg.trans (ht.grows_write rfl hreach)).mono hk⟩

end Grows

/-! ## Steps -/

section Shared

variable {img : Image} {w w' : Shared} {s : Vmm} {pmm : Pmm} {c : VmmCall} {e : ClientEvent} {p : List (Fin 512)}
variable {a f : UInt64} {limit : ℕ}

/-- The manager may do anything that frees no table. -/
theorem Tables.with_pmm (h : Tables img s)
    (hused : ∀ p f, p.length < 4 → s.reach img p = some f → frameOf f ∉ pmm.free) : Tables img { s with pmm } where
  enabled := h.enabled
  tree := h.tree
  identity := h.identity
  large := h.large
  placed p f hp hf := by
    have hpl := h.placed p f hp hf
    exact ⟨hpl.page, hpl.pos, hpl.low, hused p f hp hf⟩
  plain := h.plain

theorem Shares.vmm (h : Shares img w) (hc : HighPage c.address) (hs : vmmCall img w.vmm c = some s) :
    Shares img ⟨s, w.held⟩ := by
  obtain ⟨ht, hg⟩ := vmmCall_grows h.tables hc.off hs
  refine ⟨ht, ?_, ?_, ?_⟩
  · intro p f hp hf
    rcases hg.new p f hp hf with hf | hf
    · exact h.low p f hp hf
    · exact .inr hf.2
  · intro a ha
    obtain ⟨h0, hlt, hused⟩ := h.held a ha
    exact ⟨h0, hlt, fun hm => hused (hg.free hm)⟩
  · intro a ha p f hp hf
    rcases hg.new p f hp hf with hf | hf
    · exact h.apart a ha p f hp hf
    · exact fun he => (h.held a ha).2.2 (he ▸ hf.1)

/-- What an allocation hands out is no table's frame and nobody's. -/
theorem Shares.allocs (h : Shares img w) (hl : limit ≤ 16777216) (ha : Allocs w.vmm.pmm limit a pmm) :
    Shares img ⟨{ w.vmm with pmm }, if a = 0 then w.held else insert a w.held⟩ ∧
      (a ≠ 0 → ∀ p f, p.length < 4 → w.vmm.reach img p = some f → frameOf a ≠ frameOf f) := by
  cases ha with
  | none =>
    rw [if_pos rfl]
    exact ⟨h, fun hne => absurd rfl hne⟩
  | frame x hx h1 hlt _ hax hb =>
    have hne : a ≠ 0 := ne_zero_of_frame hax h1
    have hfr : frameOf a = x := frameOf_eq hax
    have hmem : ∀ y, y ∉ w.vmm.pmm.free → y ∉ pmm.free := fun y hy hm => hy (by
      rw [hb.free] at hm
      exact Finset.mem_of_mem_erase hm)
    have hapart : ∀ p f, p.length < 4 → w.vmm.reach img p = some f → frameOf f ≠ x := fun p f hp hf he =>
      (h.tables.placed p f hp hf).used (he ▸ hx)
    rw [if_neg hne]
    refine ⟨⟨h.tables.with_pmm fun p f hp hf => hmem _ (h.tables.placed p f hp hf).used, h.low, fun b hm => ?_,
      fun b hm p f hp hf => ?_⟩, fun _ p f hp hf he => hapart p f hp hf (he.symm.trans hfr)⟩
    · rcases Finset.mem_insert.mp hm with rfl | hm
      · refine ⟨by omega, by omega, ?_⟩
        rw [hfr, hb.free]
        exact Finset.notMem_erase _ _
      · obtain ⟨h0, hlt', hused⟩ := h.held b hm
        exact ⟨h0, hlt', hmem _ hused⟩
    · rcases Finset.mem_insert.mp hm with rfl | hm
      · rw [hfr]
        exact hapart p f hp hf
      · exact h.apart b hm p f hp hf

theorem Shares.free (h : Shares img w) (ha : a ∈ w.held) (hs : pmmFreePage w.vmm.pmm a = some pmm) :
    Shares img ⟨{ w.vmm with pmm }, w.held.erase a⟩ := by
  obtain ⟨pmm', hs', hb⟩ := pmmFreePage_spec w.vmm.pmm a
  obtain rfl := Option.some.inj (hs.symm.trans hs')
  obtain ⟨h0, hlt, -⟩ := h.held a ha
  rw [if_pos ⟨h0, hlt⟩] at hb
  have hmem : ∀ y, y ≠ frameOf a → y ∉ w.vmm.pmm.free → y ∉ pmm.free := by
    intro y hne hy hm
    rw [hb.free] at hm
    exact hy ((Finset.mem_insert.mp hm).resolve_left hne)
  refine ⟨h.tables.with_pmm fun p f hp hf => hmem _ (h.apart a ha p f hp hf) (h.tables.placed p f hp hf).used, h.low,
    fun b hm => ?_, fun b hm => h.apart b (Finset.mem_of_mem_erase hm)⟩
  obtain ⟨hne, hm⟩ := Finset.mem_erase.mp hm
  obtain ⟨hb0, hblt, hused⟩ := h.held b hm
  refine ⟨hb0, hblt, hmem _ (fun he => hne (UInt64.toNat.inj ?_)) hused⟩
  unfold frameOf at he
  omega

/-- A step of the clients leaves the tables alone, and hands out none of them. -/
theorem Shares.client {held : Finset UInt64} (h : Shares img w) (hs : ClientStep ⟨w.vmm.pmm, w.held⟩ e ⟨pmm, held⟩) :
    Shares img ⟨{ w.vmm with pmm }, held⟩ ∧ ∀ a, SharedEvent.HandsOut a (.client e) →
      ∀ p f, p.length < 4 → w.vmm.reach img p = some f → frameOf a ≠ frameOf f := by
  cases hs with
  | alloc hs =>
    obtain ⟨b, s', hs', ha⟩ := pmmAllocPage_spec w.vmm.pmm
    obtain ⟨rfl, rfl⟩ := Prod.mk.inj (Option.some.inj (hs.symm.trans hs'))
    obtain ⟨hshares, hnew⟩ := h.allocs (le_refl _) ha
    refine ⟨hshares, ?_⟩
    intro a hout
    obtain ⟨rfl, hne⟩ := hout
    exact hnew hne
  | allocLow hs =>
    obtain ⟨b, s', hs', ha⟩ := pmmAllocPageLow_spec w.vmm.pmm
    obtain ⟨rfl, rfl⟩ := Prod.mk.inj (Option.some.inj (hs.symm.trans hs'))
    obtain ⟨hshares, hnew⟩ := h.allocs (by omega) ha
    refine ⟨hshares, ?_⟩
    intro a hout
    obtain ⟨rfl, hne⟩ := hout
    exact hnew hne
  | free ha hs => exact ⟨h.free ha hs, fun a hout => absurd hout id⟩

/-- Every step keeps the tables where they are, and hands out none of them. -/
theorem SharedStep.shares {e : SharedEvent} (hs : SharedStep img w e w') (h : Shares img w) : Shares img w' ∧
    ∀ p f, p.length < 4 → w.vmm.reach img p = some f →
      w'.vmm.reach img p = some f ∧ ∀ a, e.HandsOut a → frameOf a ≠ frameOf f := by
  cases hs with
  | vmm hc hs =>
    obtain ⟨-, hg⟩ := vmmCall_grows h.tables hc.off hs
    exact ⟨h.vmm hc hs, fun p f hp hf => ⟨hg.keeps p f hp hf, fun a hout => absurd hout id⟩⟩
  | client hs =>
    obtain ⟨hshares, hnew⟩ := h.client hs
    exact ⟨hshares, fun p f hp hf => ⟨hf, fun a hout => hnew a hout p f hp hf⟩⟩

/-! ## Runs -/

/-- After any steps every table is where it was, and none was handed out. -/
theorem Shares.run {es : List SharedEvent} (h : Shares img w) (hrun : Steps (SharedStep img) w es w') : Shares img w' ∧
    ∀ p f, p.length < 4 → w.vmm.reach img p = some f →
      w'.vmm.reach img p = some f ∧ ∀ e ∈ es, ∀ a, e.HandsOut a → frameOf a ≠ frameOf f := by
  induction hrun with
  | nil => exact ⟨h, fun p f _ hf => ⟨hf, nofun⟩⟩
  | snoc _ hs ih =>
    obtain ⟨hshares, hkeeps⟩ := ih
    obtain ⟨hshares', hkeeps'⟩ := hs.shares hshares
    refine ⟨hshares', ?_⟩
    intro p f hp hf
    obtain ⟨hf₁, hold⟩ := hkeeps p f hp hf
    obtain ⟨hf₂, hnew⟩ := hkeeps' p f hp hf₁
    refine ⟨hf₂, ?_⟩
    intro e he
    rcases List.mem_append.mp he with he | he
    · exact hold e he
    · rw [List.mem_singleton] at he
      exact he ▸ hnew

theorem pagingInit_shares {s₀ : Vmm} (hs : s₀.pagingEnabled = false)
    (hused : ∀ t ∈ [img.initialPml4, img.initialPdpt, img.initialPd], frameOf t ∉ s₀.pmm.free) :
    Shares img ⟨pagingInit img s₀, ∅⟩ where
  tables := pagingInit_tables img hs hused
  low p f _ hf := by
    left
    rcases pagingInit_reach img hs hf with ⟨-, rfl⟩ | ⟨-, rfl⟩ | ⟨-, rfl⟩ <;> simp [Image.tables]
  held a ha := absurd ha (Finset.notMem_empty a)
  apart a ha := absurd ha (Finset.notMem_empty a)

end Shared

/-- Entry `i` of table `t` is present and refers to the table `f`. -/
def References (img : Image) (s : Vmm) (t : UInt64) (i : Fin 512) (f : UInt64) : Prop :=
  Names pageFormat s.mem img.initialPml4 4 t i f

/-- Whose the frames of the tables are. -/
structure TablesOwned (img : Image) (w : Shared) : Prop where
  root : ∀ t i, ¬ References img w.vmm t i img.initialPml4
  once : ∀ p f, p ≠ [] → p.length < 4 → w.vmm.reach img p = some f →
    ∃! e : UInt64 × Fin 512, References img w.vmm e.1 e.2 f
  dynamic : ∀ p f, p.length < 4 → w.vmm.reach img p = some f → f ∉ img.tables →
    f.toNat % 4096 = 0 ∧ f.toNat < 8 * 1024 * 1024
  used : ∀ p f, p.length < 4 → w.vmm.reach img p = some f → w.vmm.pmm.bitmap.bit (frameOf f) = true
  apart : ∀ a ∈ w.held, ∀ p f, p.length < 4 → w.vmm.reach img p = some f → frameOf a ≠ frameOf f
  /-- The calls go on to return. -/
  returns : ∀ c : VmmCall, HighPage c.address → ∃ s, vmmCall img w.vmm c = some s

theorem Shares.owned {img : Image} {w : Shared} (h : Shares img w) : TablesOwned img w where
  root t i := h.tables.tree.root_not_named
  once p f hp hlen hf := by
    obtain ⟨t, i, hn⟩ := names_of_reached hp hlen hf
    refine ⟨(t, i), hn, ?_⟩
    intro e he
    obtain ⟨h1, h2⟩ := h.tables.tree.named_once he hn
    exact Prod.ext h1 h2
  dynamic p f hlen hf hdyn := by
    have hlow := (h.low p f hlen hf).resolve_left hdyn
    have hmod : f.toNat % 2 ^ 12 = 0 := by
      rw [← Word.toNat_and_low (m := pageSize - 1) (by decide), (h.tables.placed p f hlen hf).page.aligned]
      rfl
    unfold frameOf at hlow
    exact ⟨hmod, by omega⟩
  used p f hlen hf := by
    have hpl := h.tables.placed p f hlen hf
    have hlow := UInt64.lt_iff_toNat_lt.mp hpl.low
    rw [limit_toNat] at hlow
    have hbit := hpl.used
    rw [Pmm.mem_free] at hbit
    unfold frameOf at hbit ⊢
    simpa [show f.toNat / 4096 < 16777216 by omega] using hbit
  apart a ha p f hlen hf he := h.apart a ha p f hlen hf he.symm
  returns c hc := by
    obtain ⟨s, hs, -⟩ := vmmCall_tables h.tables c hc.off
    exact ⟨s, hs⟩

/-- **A table's frame is the table's alone.** In any order of maps, unmaps,
allocations and frees the tables are a tree, in used frames nobody holds, and
no allocation hands one of them out from then on. -/
theorem table_frames_owned (img : Image) {s₀ : Vmm} (hs : s₀.pagingEnabled = false)
    (hused : ∀ t ∈ [img.initialPml4, img.initialPdpt, img.initialPd], frameOf t ∉ s₀.pmm.free)
    {es : List SharedEvent} {w : Shared} (hrun : Steps (SharedStep img) ⟨pagingInit img s₀, ∅⟩ es w) :
    TablesOwned img w ∧ ∀ es' w', Steps (SharedStep img) w es' w' →
      ∀ p f, p.length < 4 → w.vmm.reach img p = some f →
        w'.vmm.reach img p = some f ∧ ∀ e ∈ es', ∀ a, e.HandsOut a → frameOf a ≠ frameOf f := by
  obtain ⟨h, -⟩ := (pagingInit_shares hs hused).run hrun
  exact ⟨h.owned, fun es' w' hrun' => (h.run hrun').2⟩

/-- A page is mapped while a client holds a frame and taken away after the
client has given it back, and the frame is handed out again. -/
theorem table_frames_owned_two_clients : ∃ w, Steps (SharedStep imageAtOneMiB) ⟨pagingInit imageAtOneMiB vmmAtReset, ∅⟩
    [.client (.alloc 0x200000), .vmm (.map 0x40000000 0x5000 3), .client (.free 0x200000), .vmm (.unmap 0x40000000),
      .client (.allocLow 0x200000)] w ∧ TablesOwned imageAtOneMiB w ∧
      ∀ es' w', Steps (SharedStep imageAtOneMiB) w es' w' →
        ∀ p f, p.length < 4 → w.vmm.reach imageAtOneMiB p = some f →
          w'.vmm.reach imageAtOneMiB p = some f ∧ ∀ e ∈ es', ∀ a, e.HandsOut a → frameOf a ≠ frameOf f := by
  have hva : HighPage 0x40000000 := ⟨by decide, by decide, by decide⟩
  have hcalc : ((pmmAllocPage (pagingInit imageAtOneMiB vmmAtReset).pmm).bind fun r₁ =>
      (vmmCall imageAtOneMiB { pagingInit imageAtOneMiB vmmAtReset with pmm := r₁.2 }
        (.map 0x40000000 0x5000 3)).bind fun s₂ => (pmmFreePage s₂.pmm 0x200000).bind fun pmm₃ =>
          (vmmCall imageAtOneMiB { s₂ with pmm := pmm₃ } (.unmap 0x40000000)).bind fun s₄ =>
            (pmmAllocPageLow s₄.pmm).map fun r₅ => (r₁.1, r₅.1)) = some (0x200000, 0x200000) := by decide +kernel
  simp only [Option.bind_eq_some_iff, Option.map_eq_some_iff, Prod.exists, Prod.mk.injEq] at hcalc
  obtain ⟨a, pmm₁, h₁, s₂, h₂, pmm₃, h₃, s₄, h₄, b, pmm₅, h₅, rfl, rfl⟩ := hcalc
  let left := ({0x200000} : Finset UInt64).erase 0x200000
  have c₁ : SharedStep imageAtOneMiB ⟨pagingInit imageAtOneMiB vmmAtReset, ∅⟩ (.client (.alloc 0x200000))
      ⟨{ pagingInit imageAtOneMiB vmmAtReset with pmm := pmm₁ }, {0x200000}⟩ := .client (.alloc h₁)
  have c₂ : SharedStep imageAtOneMiB ⟨{ pagingInit imageAtOneMiB vmmAtReset with pmm := pmm₁ }, {0x200000}⟩
      (.vmm (.map 0x40000000 0x5000 3)) ⟨s₂, {0x200000}⟩ := .vmm hva h₂
  have c₃ : SharedStep imageAtOneMiB ⟨s₂, {0x200000}⟩ (.client (.free 0x200000)) ⟨{ s₂ with pmm := pmm₃ }, left⟩ :=
    .client (.free (Finset.mem_singleton_self _) h₃)
  have c₄ : SharedStep imageAtOneMiB ⟨{ s₂ with pmm := pmm₃ }, left⟩ (.vmm (.unmap 0x40000000)) ⟨s₄, left⟩ := .vmm hva h₄
  have c₅ : SharedStep imageAtOneMiB ⟨s₄, left⟩ (.client (.allocLow 0x200000)) _ := .client (.allocLow h₅)
  have hrun := Steps.nil.snoc c₁ |>.snoc c₂ |>.snoc c₃ |>.snoc c₄ |>.snoc c₅
  exact ⟨_, hrun, table_frames_owned imageAtOneMiB rfl vmmAtReset_used hrun⟩

end Tinos
