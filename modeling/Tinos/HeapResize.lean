/-
`realloc` of a used block: it is cut (`realloc_shrink`), takes in the free
block after it and is cut (`realloc_grow`), or its bytes go to a new block
and it is freed (`realloc_move`).
-/
import Tinos.HeapCalls

namespace Tinos

open Bytes Tiling

/-! ## The byte loops -/

section Loops

variable {m : Mem} {n d s x : Nat}

theorem ofNat_add_one (d : Nat) : UInt64.ofNat d + 1 = UInt64.ofNat (d + 1) :=
  (UInt64.ofNat_add d 1).symm

theorem copyBytes_outside (hd : d + n < 2 ^ 64) (hx : ¬ (d ≤ x ∧ x < d + n)) :
    copyBytes m (UInt64.ofNat d) (UInt64.ofNat s) n x = m x := by
  induction n generalizing m d s with
  | zero => rfl
  | succ n ih =>
    rw [copyBytes, ofNat_add_one, ofNat_add_one, ih (by omega) (by omega), toNat_ofNat (by omega)]
    exact store_of_outside (by omega)

/-- The source is read as it was, where the copy does not write over it. -/
theorem copyBytes_spec (hd : d + n < 2 ^ 64) (hs : s + n < 2 ^ 64) (hdis : d + n ≤ s ∨ s + n ≤ d) {i : Nat}
    (hi : i < n) : copyBytes m (UInt64.ofNat d) (UInt64.ofNat s) n (d + i) = m (s + i) := by
  induction n generalizing m d s i with
  | zero => omega
  | succ n ih =>
    rw [copyBytes, ofNat_add_one, ofNat_add_one, toNat_ofNat (by omega), toNat_ofNat (by omega)]
    cases i with
    | zero => rw [copyBytes_outside (by omega) (by omega), Nat.add_zero, Nat.add_zero, store_byte]
    | succ i =>
      rw [show d + (i + 1) = d + 1 + i by omega, ih (by omega) (by omega) (by omega) (by omega),
        store_of_outside (by omega)]
      congr 1
      omega

theorem zeroBytes_outside {i : Nat} (hd : d + i + n < 2 ^ 64) (hx : ¬ (d + i ≤ x ∧ x < d + i + n)) :
    zeroBytes m (UInt64.ofNat d) n i x = m x := by
  induction n generalizing m i with
  | zero => rfl
  | succ n ih =>
    rw [zeroBytes, ih (by omega) (by omega), ← UInt64.ofNat_add, toNat_ofNat (by omega)]
    exact store_of_outside (by omega)

theorem zeroBytes_spec {i : Nat} (hd : d + i + n < 2 ^ 64) (h1 : d + i ≤ x) (h2 : x < d + i + n) :
    zeroBytes m (UInt64.ofNat d) n i x = 0 := by
  induction n generalizing m i with
  | zero => omega
  | succ n ih =>
    rw [zeroBytes, ← UInt64.ofNat_add, toNat_ofNat (by omega)]
    by_cases hx : x = d + i
    · rw [zeroBytes_outside (by omega) (by omega), hx]
      exact store_byte 0
    · exact ih (by omega) (by omega) (by omega)

end Loops

/-! ## realloc -/

section Realloc

variable {pool : MemoryPool} {h h' : Heap} {b c : Block} {bs pre post : List Block}
variable {y z n : Nat} {newSize : UInt64}

/-- There is a free block after `b`, and the two together have `n` bytes. -/
def roomAfter (n : Nat) (b : Block) (post : List Block) : Bool :=
  match post with
  | [] => false
  | c :: _ => c.free && n ≤ b.size + (24 + c.size)

theorem Ready.absorb (hr : Ready pool h (pre ++ b :: c :: post)) (hy : y = pool.bytes.toNat + span 24 pre) :
    Ready pool { h with mem := absorbOne h.mem (UInt64.ofNat y) }
        (pre ++ ⟨b.size + (24 + c.size), b.free⟩ :: post) ∧
      ∀ x, ¬ (y ≤ x ∧ x < y + 24) → absorbOne h.mem (UInt64.ofNat y) x = h.mem x := by
  obtain ⟨-, -, hend⟩ := hr.pointer hy
  subst hy
  obtain ⟨hchain, hout⟩ := absorbOne_spec hr.suffix hend
  refine ⟨hr.replace (by simp only [span]; omega) hchain (by simp) (by simp) (fun x h1 h2 => hout x (by omega)) ?_, hout⟩
  intro d hd
  rcases List.mem_cons.mp hd with rfl | hd
  · exact whole_merge (by decide) (hr.sizes b (by simp)) (hr.sizes c (by simp))
  · exact hr.sizes d (by simp [hd])

/-- The test of `realloc` for the block after. -/
theorem roomAfter_eq {m : Mem} (h : Chain m y (b :: post) 0) (hpos : 0 < y) (hfit : y + span 24 (b :: post) < 2 ^ 64)
    (hn : n < 2 ^ 64) :
    (blockNext m (UInt64.ofNat y) != 0 && blockFree m (blockNext m (UInt64.ofNat y)) != 0 &&
      decide (UInt64.ofNat n ≤ UInt64.ofNat b.size + sizeofBlock + blockSize m (blockNext m (UInt64.ofNat y)))) =
        roomAfter n b post := by
  rw [h.nextFree hpos hfit]
  cases post with
  | nil => rfl
  | cons c post =>
    simp only [span] at hfit
    have hsize : UInt64.ofNat b.size + sizeofBlock + blockSize m (blockNext m (UInt64.ofNat y)) =
        UInt64.ofNat (b.size + (24 + c.size)) := by
      rw [h.1.blockNext (by omega), first_cons, h.2.1.blockSize (by omega), ofNat_add_header, ← UInt64.ofNat_add,
        Nat.add_assoc]
    simp only [hsize, ofNat_le hn (show b.size + (24 + c.size) < 2 ^ 64 by omega), List.head?_cons, Option.any_some,
      roomAfter]

/-- The writes of `realloc` that take in the block after: one turn of the inner
loop of the sweep. -/
theorem absorbOne_eq {m : Mem} {next : UInt64} (h : Header m y b next) (hy : y < 2 ^ 64) :
    setBlockNext (setBlockSize m (UInt64.ofNat y) (UInt64.ofNat b.size + sizeofBlock + blockSize m next)) (UInt64.ofNat y)
      (blockNext (setBlockSize m (UInt64.ofNat y) (UInt64.ofNat b.size + sizeofBlock + blockSize m next)) next) =
        absorbOne m (UInt64.ofNat y) := by
  have hkeep : ∀ size, blockNext (setBlockSize m (UInt64.ofNat y) size) (UInt64.ofNat y) = next := by
    intro size
    rw [setBlockSize, blockNext, toNat_ofNat hy, load64_store64_disjoint (by omega), h.next]
  simp only [absorbOne, h.blockSize hy, h.blockNext hy, hkeep, ← UInt64.add_assoc]

/-- The three ways of `realloc`, on the list. -/
theorem realloc_of_live (hr : Ready pool h (pre ++ b :: post)) (hb : b.free = false)
    (hy : y = pool.bytes.toNat + span 24 pre) (hs : newSize ≠ 0) (hn : n = alignUp newSize.toNat) (hlt : n < 2 ^ 64) :
    realloc pool h (UInt64.ofNat (y + 24)) newSize =
      if n ≤ b.size then
        some (UInt64.ofNat (y + 24), { h with mem := splitBlock h.mem (UInt64.ofNat y) (UInt64.ofNat n) })
      else if roomAfter n b post then
        some (UInt64.ofNat (y + 24),
          { h with mem := splitBlock (absorbOne h.mem (UInt64.ofNat y)) (UInt64.ofNat y) (UInt64.ofNat n) })
      else (malloc pool h (UInt64.ofNat n)).bind fun r =>
        if r.1 == 0 then some (0, r.2)
        else (free { r.2 with mem := copyBytes r.2.mem r.1 (UInt64.ofNat (y + 24)) b.size } (UInt64.ofNat (y + 24))).bind
          fun h => some (r.1, h) := by
  obtain ⟨hpos, hptr, hend⟩ := hr.pointer hy
  have hfits := hr.fits
  simp only [span_append] at hfits
  have hptr0 : (UInt64.ofNat (y + 24) == 0) = false := ofNat_beq_zero (by omega) hptr
  have hs0 : (newSize == 0) = false := beq_eq_false_iff_ne.mpr hs
  have hnat : newSize.toNat ≠ 0 := fun h0 => hs (UInt64.toNat.inj h0)
  have hnpos : 0 < n := hn ▸ alignUp_pos (by omega)
  have hal : alignSize newSize = UInt64.ofNat n := hn ▸ alignSize_of_lt (hn ▸ hlt)
  have hne : (UInt64.ofNat n == 0) = false := ofNat_beq_zero hnpos hlt
  have hchain := hy ▸ hr.suffix
  have hhead := hchain.1
  have hflag : (blockFree h.mem (UInt64.ofNat y) != 0) = false := by rw [hhead.blockFree (by omega), hb]
  have hsize : blockSize h.mem (UInt64.ofNat y) = UInt64.ofNat b.size := hhead.blockSize (by omega)
  have hold : (UInt64.ofNat b.size).toNat = b.size := toNat_ofNat (by omega)
  unfold realloc
  simp only [hptr0, hs0, hal, hne, ofNat_sub_header, hflag, hsize, ofNat_le hlt (show b.size < 2 ^ 64 by omega),
    roomAfter_eq hchain hpos (by omega) hlt, Bool.false_eq_true, if_false]
  by_cases hle : n ≤ b.size
  · simp only [hle, if_true]
  · have hcopy : UInt64.ofNat b.size < UInt64.ofNat n := by
      rw [UInt64.lt_iff_toNat_lt, hold, toNat_ofNat hlt]
      omega
    rw [hhead.blockNext (by omega), absorbOne_eq hhead (by omega)]
    simp only [hle, hcopy, if_false, if_true, hold]
    rfl

/-- `realloc` to no bytes is `free`, of NULL too. -/
theorem realloc_zero (pool : MemoryPool) (h : Heap) (ptr : UInt64) :
    realloc pool h ptr 0 = (free h ptr).map fun h' => (0, h') := by
  by_cases h0 : ptr = 0
  · rw [h0]
    rfl
  · unfold realloc
    simp only [beq_eq_false_iff_ne.mpr h0, beq_self_eq_true, Bool.false_eq_true, if_false, if_true]
    cases free h ptr <;> rfl

theorem realloc_refused (hr : Ready pool h (pre ++ b :: post)) (hy : y = pool.bytes.toNat + span 24 pre)
    (hs : newSize ≠ 0) (hbig : 2 ^ 64 ≤ alignUp newSize.toNat) :
    realloc pool h (UInt64.ofNat (y + 24)) newSize = some (0, h) := by
  obtain ⟨hpos, hptr, -⟩ := hr.pointer hy
  have hptr0 : (UInt64.ofNat (y + 24) == 0) = false := ofNat_beq_zero (by omega) hptr
  have hs0 : (newSize == 0) = false := beq_eq_false_iff_ne.mpr hs
  unfold realloc
  simp only [hptr0, hs0, alignSize_of_ge hbig, beq_self_eq_true, Bool.false_eq_true, if_false, if_true]

theorem realloc_shrink (hr : Ready pool h (pre ++ b :: post)) (hb : b.free = false)
    (hy : y = pool.bytes.toNat + span 24 pre) (hs : newSize ≠ 0) (hn : n = alignUp newSize.toNat) (hle : n ≤ b.size) :
    ∃ h', realloc pool h (UInt64.ofNat (y + 24)) newSize = some (UInt64.ofNat (y + 24), h') ∧
      Settled pool h (pre ++ b :: post) y n n h' (pre ++ carve 24 8 n false b ++ post) := by
  obtain ⟨-, -, hend⟩ := hr.pointer hy
  have hnat : newSize.toNat ≠ 0 := fun h0 => hs (UInt64.toNat.inj h0)
  have hpos : 0 < n := hn ▸ alignUp_pos (by omega)
  obtain ⟨hcut, hout⟩ := hr.carve hy hle hpos (hn ▸ alignUp_mod _)
  rw [hb, ← List.append_assoc] at hcut
  refine ⟨_, (realloc_of_live hr hb hy hs hn (by omega)).trans (if_pos hle), settled_cut hcut hy hle ?_ ?_⟩
  · exact fun x h1 h2 => hout x (by omega) (by omega)
  · exact fun x hx => hout x (by omega) (by omega)

theorem realloc_grow (hr : Ready pool h (pre ++ b :: c :: post)) (hb : b.free = false) (hc : c.free = true)
    (hy : y = pool.bytes.toNat + span 24 pre) (hs : newSize ≠ 0) (hn : n = alignUp newSize.toNat) (hgt : b.size < n)
    (hle : n ≤ b.size + (24 + c.size)) :
    ∃ h', realloc pool h (UInt64.ofNat (y + 24)) newSize = some (UInt64.ofNat (y + 24), h') ∧
      Settled pool h (pre ++ b :: c :: post) y n b.size h'
        (pre ++ carve 24 8 n false ⟨b.size + (24 + c.size), false⟩ ++ post) := by
  obtain ⟨-, -, hend⟩ := hr.pointer hy
  have hfits := hr.fits
  simp only [span_append, span] at hfits
  have hroom : roomAfter n b (c :: post) = true := by simp [roomAfter, hc, hle]
  obtain ⟨habs, habsOut⟩ := hr.absorb hy
  obtain ⟨hcut, hout⟩ := habs.carve hy hle (by omega) (hn ▸ alignUp_mod _)
  simp only [hb] at hcut
  rw [← List.append_assoc] at hcut
  refine ⟨_, (realloc_of_live hr hb hy hs hn (by omega)).trans ((if_neg (by omega)).trans (if_pos hroom)),
    settled_grow hcut hc hy hle ?_ ?_⟩
  · exact fun x h1 h2 => (hout x (by omega) (by omega)).trans (habsOut x (by omega))
  · exact fun x hx => (hout x (by omega) (by simp only; omega)).trans (habsOut x (by omega))

/-- The block at `y` is free, and its first `k` bytes are in another one, at
`z`, of `n` bytes or more. -/
structure Moved (pool : MemoryPool) (h : Heap) (bs : List Block) (y z n k : Nat) (h' : Heap) (bs' : List Block) :
    Prop where
  ready : Ready pool h' bs'
  fresh : ∀ s, (z, s) ∉ used 24 pool.bytes.toNat bs
  moves : ∃ s mid h₁, Ready pool h₁ mid ∧ n ≤ s ∧ Grants 24 pool.bytes.toNat bs mid z s ∧ Drops 24 pool.bytes.toNat mid bs' y
  copied : ∀ i, i < k → h'.mem (z + 24 + i) = h.mem (y + 24 + i)
  others : OthersKept pool h h' bs y
  coalesced : NoFreePair bs'

/-- The bytes of the block at `y` go to the new block at `z`, and it is freed. -/
theorem copy_free {h₁ : Heap} {bs₁ : List Block} {k : Nat} (hset : Settled pool h bs z n 0 h₁ bs₁)
    (hfresh : ∀ s, (z, s) ∉ used 24 pool.bytes.toNat bs) (hy : (y, k) ∈ used 24 pool.bytes.toNat bs) (hk : k ≤ n) :
    ∃ h' bs', free { h₁ with mem := copyBytes h₁.mem (UInt64.ofNat (z + 24)) (UInt64.ofNat (y + 24)) k }
        (UInt64.ofNat (y + 24)) = some h' ∧ Moved pool h bs y z n k h' bs' := by
  obtain ⟨s, hns, hgrants⟩ := hset.grants
  have hzy : y ≠ z := fun he => hfresh k (he ▸ hy)
  have hz := (hgrants z s).mpr (.inl ⟨rfl, rfl⟩)
  have hy₁ := (hgrants y k).mpr (.inr ⟨hy, hzy⟩)
  have hzin := hset.ready.used_bounds hz
  have hyin := hset.ready.used_bounds hy₁
  have hapart := (used_apart hy₁ hz).resolve_left hzy
  obtain ⟨m₂, hm₂⟩ : ∃ m₂, m₂ = copyBytes h₁.mem (UInt64.ofNat (z + 24)) (UInt64.ofNat (y + 24)) k := ⟨_, rfl⟩
  have hout : ∀ x, ¬ (z + 24 ≤ x ∧ x < z + 24 + k) → m₂ x = h₁.mem x := by
    intro x hx
    rw [hm₂]
    exact copyBytes_outside (by omega) hx
  have hready : Ready pool { h₁ with mem := m₂ } bs₁ := hset.ready.payload hz fun x hx => hout x (by omega)
  obtain ⟨pre₁, post₁, rfl, hpre⟩ := exists_split (mem_used.mp hy₁)
  obtain ⟨h', hfree, hready', hothers⟩ := free_spec hready rfl hpre
  rw [← hm₂]
  refine ⟨h', _, hfree, hready', hfresh, ⟨s, _, _, hready, hns, hgrants, hpre ▸ drops_free (by decide)⟩, ?_, ?_,
    noFreePair_coalesce⟩
  · intro i hi
    have hkept := hothers z s hz hzy.symm (z + 24 + i) (by omega) (by omega)
    have hcopy : m₂ (z + 24 + i) = h₁.mem (y + 24 + i) := by
      rw [hm₂]
      exact copyBytes_spec (by omega) (by omega) (by omega) hi
    exact (hkept.trans hcopy).trans (hset.others y k hy hzy _ (by omega) (by omega))
  · intro w t hw hne x h1 h2
    have hwz : w ≠ z := fun he => hfresh t (he ▸ hw)
    have hw₁ := (hgrants w t).mpr (.inr ⟨hw, hwz⟩)
    have hwapart := (used_apart hw₁ hz).resolve_left hwz
    exact ((hothers w t hw₁ hne x h1 h2).trans (hout x (by omega))).trans (hset.others w t hw hwz x h1 h2)

theorem realloc_move (hr : Ready pool h (pre ++ b :: post)) (hb : b.free = false)
    (hy : y = pool.bytes.toNat + span 24 pre) (hs : newSize ≠ 0) (hn : n = alignUp newSize.toNat) (hlt : n < 2 ^ 64)
    (hgt : b.size < n) (hroom : roomAfter n b post = false) :
    realloc pool h (UInt64.ofNat (y + 24)) newSize = some (0, h) ∨
      ∃ z h' bs', realloc pool h (UInt64.ofNat (y + 24)) newSize = some (UInt64.ofNat (z + 24), h') ∧
        Moved pool h (pre ++ b :: post) y z n b.size h' bs' := by
  have hinit : allocatorInit pool h = h := allocatorInit_of_init hr.init
  have hal : alignUp (UInt64.ofNat n).toNat = n := by rw [toNat_ofNat hlt, hn, alignUp_alignUp]
  have hne : UInt64.ofNat n ≠ 0 := ofNat_ne_zero (by omega) hlt
  have hcall := realloc_of_live hr hb hy hs hn hlt
  rw [if_neg (by omega), hroom, if_neg Bool.false_ne_true] at hcall
  have halloc := malloc_spec (hinit.symm ▸ hr) hne (hal.symm ▸ hlt)
  rw [hal, hinit] at halloc
  rw [hcall]
  rcases halloc with ⟨hm, -⟩ | ⟨z, pre₁, d, post₁, h₁, hm, hbs, hd, hz, hset⟩
  · exact .inl (by rw [hm]; rfl)
  · have hfresh : ∀ t, (z, t) ∉ used 24 pool.bytes.toNat (pre ++ b :: post) := by
      rw [hbs]
      exact fun t ht => not_used_of_free (by decide) hd (hz ▸ ht)
    obtain ⟨h', bs', hfree, hmoved⟩ := copy_free hset hfresh (hy ▸ used_of_split hb) (Nat.le_of_lt hgt)
    obtain ⟨s, -, hgrants⟩ := hset.grants
    have hz0 := beq_eq_false_iff_ne.mpr (hset.ready.pointer_ne_zero ((hgrants z s).mpr (.inl ⟨rfl, rfl⟩)))
    refine .inr ⟨z, h', bs', ?_, hmoved⟩
    rw [hm, Option.bind_some, hz0, if_neg Bool.false_ne_true, hfree]
    rfl

end Realloc

end Tinos
