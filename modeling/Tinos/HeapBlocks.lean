/-
The block list in memory (`Chain`): the headers of a list of blocks laid end
to end, each linked to the next.

What the loops and `split_block` do to it, as operations of `Tinos.Lib.Tiling`
on the list, and which bytes they change: `splitBlock_spec` the two headers
of a block that is cut, `coalesceFrom_spec` headers of free blocks,
`firstFit_spec` none.
-/
import Tinos.Heap
import Tinos.Lib.Tiling
import Tinos.Lib.Word

namespace Tinos

open Bytes Tiling

/-- A header at `a`: the size, the flag as 1 or 0, and the link. -/
structure Header (m : Mem) (a : Nat) (b : Block) (next : UInt64) : Prop where
  size : load64 m a = UInt64.ofNat b.size
  free : load32 m (a + 8) = if b.free then 1 else 0
  next : load64 m (a + 16) = next

/-- The address of the first of the blocks, `last` where there is none. -/
def first (a : Nat) (bs : List Block) (last : UInt64) : UInt64 :=
  match bs with
  | [] => last
  | _ :: _ => UInt64.ofNat a

/-- The blocks laid from `a`, the last one linked to `last`. -/
def Chain (m : Mem) (a : Nat) (bs : List Block) (last : UInt64) : Prop :=
  match bs with
  | [] => True
  | b :: bs => Header m a b (first (a + 24 + b.size) bs last) ∧ Chain m (a + 24 + b.size) bs last

section Chain

variable {m m' : Mem} {a n v : Nat} {b c : Block} {bs cs : List Block} {next last size : UInt64}

@[simp] theorem first_cons : first a (b :: bs) last = UInt64.ofNat a := rfl

theorem Header.congr (h : Header m a b next) (hm : ∀ x, a ≤ x → x < a + 24 → m' x = m x) : Header m' a b next where
  size := by
    rw [← h.size, load64, load64, load_congr]
    intro x h1 h2
    exact hm x h1 (by omega)
  free := by
    rw [← h.free, load32, load32, load_congr]
    intro x h1 h2
    exact hm x (by omega) (by omega)
  next := by
    rw [← h.next, load64, load64, load_congr]
    intro x h1 h2
    exact hm x (by omega) (by omega)

/-- A chain is in the bytes of its headers. -/
theorem Chain.congr (h : Chain m a bs last)
    (hm : ∀ y b, (y, b) ∈ placed 24 a bs → ∀ x, y ≤ x → x < y + 24 → m' x = m x) : Chain m' a bs last := by
  induction bs generalizing a with
  | nil => trivial
  | cons b bs ih =>
    refine ⟨h.1.congr (hm a b (by simp [placed])), ih h.2 fun y c hc => hm y c ?_⟩
    exact List.mem_cons_of_mem _ hc

/-- A chain is in the bytes it covers. -/
theorem Chain.congr_span (h : Chain m a bs last) (hm : ∀ x, a ≤ x → x < a + span 24 bs → m' x = m x) :
    Chain m' a bs last :=
  h.congr fun y b hb x h1 h2 => by
    have := placed_bounds hb
    exact hm x (by omega) (by omega)

theorem chain_append : Chain m a (bs ++ cs) last ↔
    Chain m a bs (first (a + span 24 bs) cs last) ∧ Chain m (a + span 24 bs) cs last := by
  induction bs generalizing a with
  | nil => simp [Chain, span]
  | cons b bs ih =>
    have ha : a + 24 + b.size + span 24 bs = a + (24 + b.size + span 24 bs) := by omega
    have hfirst : first (a + 24 + b.size) (bs ++ cs) last =
        first (a + 24 + b.size) bs (first (a + (24 + b.size + span 24 bs)) cs last) := by
      cases bs with
      | nil => exact congrArg (first · cs last) (by simp only [span]; omega)
      | cons d ds => rfl
    simp only [List.cons_append, Chain, ih, span, ha, hfirst, and_assoc]

end Chain

/-! ## The fields of a block of the chain -/

section Fields

variable {m : Mem} {a : Nat} {b : Block} {next : UInt64}

theorem toNat_ofNat (h : a < 2 ^ 64) : (UInt64.ofNat a).toNat = a := Word.toNat_ofNat_of_lt h

/-- `block + 1`. -/
theorem ofNat_add_header (a : Nat) : UInt64.ofNat a + sizeofBlock = UInt64.ofNat (a + 24) :=
  (UInt64.ofNat_add a 24).symm

theorem ofNat_le {n : Nat} (ha : a < 2 ^ 64) (hn : n < 2 ^ 64) : UInt64.ofNat a ≤ UInt64.ofNat n ↔ a ≤ n := by
  rw [UInt64.le_iff_toNat_le, toNat_ofNat ha, toNat_ofNat hn]

theorem Header.blockSize (h : Header m a b next) (ha : a < 2 ^ 64) :
    blockSize m (UInt64.ofNat a) = UInt64.ofNat b.size := by
  rw [Tinos.blockSize, toNat_ofNat ha, h.size]

theorem Header.blockNext (h : Header m a b next) (ha : a < 2 ^ 64) : blockNext m (UInt64.ofNat a) = next := by
  rw [Tinos.blockNext, toNat_ofNat ha, h.next]

theorem Header.blockFree (h : Header m a b next) (ha : a < 2 ^ 64) :
    (blockFree m (UInt64.ofNat a) != 0) = b.free := by
  rw [Tinos.blockFree, toNat_ofNat ha, h.free]
  cases b.free <;> rfl

end Fields

/-! ## Writing headers -/

section Write

variable {m : Mem} {a n x : Nat} {b : Block} {bs : List Block} {next next' last : UInt64} {f : Bool}

theorem Header.setSize (h : Header m a b next) (n : Nat) : Header (store64 m a (UInt64.ofNat n)) a ⟨n, b.free⟩ next where
  size := load64_store64 _
  free := by rw [load32_store64_disjoint (by omega), h.free]
  next := by rw [load64_store64_disjoint (by omega), h.next]

theorem Header.setFree (h : Header m a b next) (f : Bool) :
    Header (store32 m (a + 8) (if f then 1 else 0)) a ⟨b.size, f⟩ next where
  size := by rw [load64_store32_disjoint (by omega), h.size]
  free := load32_store32 _
  next := by rw [load64_store32_disjoint (by omega), h.next]

theorem Header.setNext (h : Header m a b next) (next' : UInt64) : Header (store64 m (a + 16) next') a b next' where
  size := by rw [load64_store64_disjoint (by omega), h.size]
  free := by rw [load32_store64_disjoint (by omega), h.free]
  next := load64_store64 _

/-- The three fields written one after the other. -/
def writeHeader (m : Mem) (block size : UInt64) (free : UInt32) (next : UInt64) : Mem :=
  setBlockNext (setBlockFree (setBlockSize m block size) block free) block next

theorem writeHeader_header (ha : a < 2 ^ 64) (n : Nat) (f : Bool) (next : UInt64) :
    Header (writeHeader m (UInt64.ofNat a) (UInt64.ofNat n) (if f then 1 else 0) next) a ⟨n, f⟩ next := by
  simp only [writeHeader, setBlockNext, setBlockFree, setBlockSize, toNat_ofNat ha]
  constructor
  · rw [load64_store64_disjoint (by omega), load64_store32_disjoint (by omega), load64_store64]
  · rw [load32_store64_disjoint (by omega), load32_store32]
  · rw [load64_store64]

theorem writeHeader_outside (ha : a < 2 ^ 64) {size : UInt64} {free : UInt32} (hx : ¬ (a ≤ x ∧ x < a + 24)) :
    writeHeader m (UInt64.ofNat a) size free next x = m x := by
  simp only [writeHeader, setBlockNext, setBlockFree, setBlockSize, toNat_ofNat ha, store64, store32]
  rw [store_of_outside (by omega), store_of_outside (by omega), store_of_outside (by omega)]

theorem chain_setFree (h : Chain m a (b :: bs) last) (ha : a < 2 ^ 64) (f : Bool) :
    Chain (setBlockFree m (UInt64.ofNat a) (if f then 1 else 0)) a (⟨b.size, f⟩ :: bs) last := by
  rw [setBlockFree, toNat_ofNat ha]
  refine ⟨h.1.setFree f, h.2.congr_span ?_⟩
  intro x hx _
  exact store_of_outside (by omega)

theorem setFree_outside (ha : a < 2 ^ 64) {free : UInt32} (hx : ¬ (a ≤ x ∧ x < a + 24)) :
    setBlockFree m (UInt64.ofNat a) free x = m x := by
  rw [setBlockFree, toNat_ofNat ha]
  exact store_of_outside (by omega)

/-- A size and a link written, as `split_block` and the sweep do. -/
theorem Header.resize (h : Header m a b next) (ha : a < 2 ^ 64) (n : Nat) (next' : UInt64) :
    Header (setBlockNext (setBlockSize m (UInt64.ofNat a) (UInt64.ofNat n)) (UInt64.ofNat a) next') a ⟨n, b.free⟩ next' := by
  rw [setBlockNext, setBlockSize, toNat_ofNat ha]
  exact (h.setSize n).setNext next'

theorem resize_outside (ha : a < 2 ^ 64) {size : UInt64} (hx : ¬ (a ≤ x ∧ x < a + 24)) :
    setBlockNext (setBlockSize m (UInt64.ofNat a) size) (UInt64.ofNat a) next x = m x := by
  rw [setBlockNext, setBlockSize, toNat_ofNat ha, store64, store64, store_of_outside (by omega),
    store_of_outside (by omega)]

/-- The test of `split_block`. -/
theorem splitBlock_test (h : Header m a b next) (ha : a < 2 ^ 64) (hn : n ≤ b.size) (hsize : b.size + 32 < 2 ^ 64) :
    blockSize m (UInt64.ofNat a) < UInt64.ofNat n + sizeofBlock + allocationAlignment ↔ b.size < n + 24 + 8 := by
  have hneed : UInt64.ofNat n + sizeofBlock + allocationAlignment = UInt64.ofNat (n + 24 + 8) := by
    rw [ofNat_add_header]
    exact (UInt64.ofNat_add (n + 24) 8).symm
  rw [h.blockSize ha, hneed, UInt64.lt_iff_toNat_lt, toNat_ofNat (by omega), toNat_ofNat (by omega)]

/-- A header for the rest, and then the two fields of the block itself. -/
theorem splitBlock_eq (h : Header m a b next) (hn : n + 24 + 8 ≤ b.size) (hfit : a + 24 + b.size < 2 ^ 64)
    (hsize : b.size + 32 < 2 ^ 64) :
    splitBlock m (UInt64.ofNat a) (UInt64.ofNat n) =
      setBlockNext (setBlockSize (writeHeader m (UInt64.ofNat (a + 24 + n)) (UInt64.ofNat (b.size - n - 24)) 1 next)
        (UInt64.ofNat a) (UInt64.ofNat n)) (UInt64.ofNat a) (UInt64.ofNat (a + 24 + n)) := by
  have ha : a < 2 ^ 64 := by omega
  have hr : a + 24 + n < 2 ^ 64 := by omega
  have hrem : UInt64.ofNat a + sizeofBlock + UInt64.ofNat n = UInt64.ofNat (a + 24 + n) := by
    rw [ofNat_add_header, ← UInt64.ofNat_add]
  have hrest : blockSize m (UInt64.ofNat a) - UInt64.ofNat n - sizeofBlock = UInt64.ofNat (b.size - n - 24) := by
    rw [h.blockSize ha, UInt64.ofNat_sub (by omega), UInt64.ofNat_sub (by omega)]
    rfl
  have hnext : blockNext (setBlockFree (setBlockSize m (UInt64.ofNat (a + 24 + n)) (UInt64.ofNat (b.size - n - 24)))
      (UInt64.ofNat (a + 24 + n)) 1) (UInt64.ofNat a) = next := by
    simp only [blockNext, setBlockFree, setBlockSize, toNat_ofNat hr, toNat_ofNat ha]
    rw [load64_store32_disjoint (by omega), load64_store64_disjoint (by omega), h.next]
  unfold splitBlock
  rw [if_neg (mt (splitBlock_test h ha (by omega) hsize).mp (by omega))]
  simp only [hrem, hrest, hnext]
  rfl

/-- Cutting the first block. The bytes it keeps are not touched. -/
theorem splitBlock_spec (h : Chain m a (b :: bs) last) (hn : n ≤ b.size) (hfit : a + 24 + b.size < 2 ^ 64)
    (hsize : b.size + 32 < 2 ^ 64) :
    Chain (splitBlock m (UInt64.ofNat a) (UInt64.ofNat n)) a (carve 24 8 n b.free b ++ bs) last ∧
      ∀ x, ¬ (a ≤ x ∧ x < a + 24) → ¬ (a + 24 + n ≤ x ∧ x < a + 24 + b.size) →
        splitBlock m (UInt64.ofNat a) (UInt64.ofNat n) x = m x := by
  have ha : a < 2 ^ 64 := by omega
  unfold carve
  by_cases hsmall : b.size < n + 24 + 8
  · have hsame : splitBlock m (UInt64.ofNat a) (UInt64.ofNat n) = m := by
      unfold splitBlock
      exact if_pos ((splitBlock_test h.1 ha hn hsize).mpr hsmall)
    rw [if_neg (by omega), hsame]
    exact ⟨h, fun x _ _ => rfl⟩
  · rw [if_pos (by omega), splitBlock_eq h.1 (by omega) hfit hsize]
    obtain ⟨m₁, hm₁⟩ : ∃ m₁, m₁ = writeHeader m (UInt64.ofNat (a + 24 + n)) (UInt64.ofNat (b.size - n - 24)) 1
        (first (a + 24 + b.size) bs last) := ⟨_, rfl⟩
    have hrem : Header m₁ (a + 24 + n) ⟨b.size - n - 24, true⟩ (first (a + 24 + b.size) bs last) := by
      rw [hm₁]
      exact writeHeader_header (by omega) _ true _
    have hout₁ : ∀ x, ¬ (a + 24 + n ≤ x ∧ x < a + 24 + n + 24) → m₁ x = m x := by
      intro x hx
      rw [hm₁]
      exact writeHeader_outside (by omega) hx
    have hhead : Header m₁ a b (first (a + 24 + b.size) bs last) := h.1.congr fun x h1 h2 => hout₁ x (by omega)
    have hlast : a + 24 + n + 24 + (b.size - n - 24) = a + 24 + b.size := by omega
    rw [← hm₁]
    refine ⟨⟨hhead.resize ha n _, ?_, ?_⟩, fun x h1 h2 => (resize_outside ha h1).trans (hout₁ x (by omega))⟩
    · simp only [hlast]
      exact hrem.congr fun x h1 _ => resize_outside ha (by omega)
    · simp only [hlast]
      exact h.2.congr_span fun x h1 _ => (resize_outside ha (by omega)).trans (hout₁ x (by omega))

end Write

/-! ## The sweep -/

/-- The free block `b` at `a` has taken in the free blocks after it. -/
structure Absorbed (m m' : Mem) (a : Nat) (b : Block) (bs : List Block) (c : Block) (cs : List Block) : Prop where
  chain : Chain m' a (c :: cs) 0
  same : coalesce 24 (c :: cs) = coalesce 24 (b :: bs)
  next : ∀ d ∈ cs.head?, d.free = false
  length : cs.length ≤ bs.length
  span : span 24 (c :: cs) = span 24 (b :: bs)
  rest : ∀ y d, (y, d) ∈ placed 24 (a + 24 + c.size) cs → (y, d) ∈ placed 24 (a + 24 + b.size) bs
  outside : ∀ x, ¬ (a ≤ x ∧ x < a + 24) → m' x = m x

section Sweep

variable {m : Mem} {a n steps : Nat} {b : Block} {bs : List Block}

theorem ofNat_ne_zero (hpos : 0 < a) (ha : a < 2 ^ 64) : UInt64.ofNat a ≠ 0 := by
  intro h
  have := congrArg UInt64.toNat h
  rw [toNat_ofNat ha] at this
  exact absurd this hpos.ne'

theorem ofNat_beq_zero (hpos : 0 < a) (ha : a < 2 ^ 64) : (UInt64.ofNat a == 0) = false :=
  beq_eq_false_iff_ne.mpr (ofNat_ne_zero hpos ha)

theorem Absorbed.stop (h : Chain m a (b :: bs) 0) (hnext : ∀ d ∈ bs.head?, d.free = false) :
    Absorbed m m a b bs b bs :=
  ⟨h, rfl, hnext, le_refl _, rfl, fun _ _ hd => hd, fun _ _ => rfl⟩

/-- One turn of the inner loop: the next block is part of this one. -/
theorem absorbOne_spec {d : Block} {ds : List Block} (h : Chain m a (b :: d :: ds) 0)
    (hfit : a + 24 + b.size < 2 ^ 64) :
    Chain (absorbOne m (UInt64.ofNat a)) a (⟨b.size + (24 + d.size), b.free⟩ :: ds) 0 ∧
      ∀ x, ¬ (a ≤ x ∧ x < a + 24) → absorbOne m (UInt64.ofNat a) x = m x := by
  obtain ⟨hb, hd, hds⟩ := h
  have ha : a < 2 ^ 64 := by omega
  have hsize : blockSize m (UInt64.ofNat a) + (sizeofBlock + blockSize m (blockNext m (UInt64.ofNat a))) =
      UInt64.ofNat (b.size + (24 + d.size)) := by
    rw [hb.blockSize ha, hb.blockNext ha, first_cons, hd.blockSize hfit, UInt64.ofNat_add, UInt64.ofNat_add]
    rfl
  -- The link of the next block is read after the size is written.
  have hkeep : ∀ x, ¬ (a ≤ x ∧ x < a + 24) →
      setBlockSize m (UInt64.ofNat a) (UInt64.ofNat (b.size + (24 + d.size))) x = m x := by
    intro x hx
    rw [setBlockSize, toNat_ofNat ha, store64, store_of_outside (by omega)]
  have hnext : blockNext (setBlockSize m (UInt64.ofNat a) (UInt64.ofNat (b.size + (24 + d.size)))) (UInt64.ofNat a) =
      UInt64.ofNat (a + 24 + b.size) := by
    rw [setBlockSize, toNat_ofNat ha]
    exact (hb.setSize _).blockNext ha
  have hnext' := (hd.congr fun x h1 _ => hkeep x (by omega)).blockNext hfit
  have hone : absorbOne m (UInt64.ofNat a) =
      setBlockNext (setBlockSize m (UInt64.ofNat a) (UInt64.ofNat (b.size + (24 + d.size)))) (UInt64.ofNat a)
        (first (a + 24 + b.size + 24 + d.size) ds 0) := by
    simp only [absorbOne, hsize, hnext, hnext']
  have hz : a + 24 + (b.size + (24 + d.size)) = a + 24 + b.size + 24 + d.size := by omega
  rw [hone]
  refine ⟨⟨?_, ?_⟩, fun x hx => resize_outside ha hx⟩
  · simp only [hz]
    exact hb.resize ha _ _
  · simp only [hz]
    exact hds.congr_span fun x h1 _ => resize_outside ha (by omega)

/-- The test of the inner loop: the next block, if there is one, is free. -/
theorem Chain.nextFree (h : Chain m a (b :: bs) 0) (hpos : 0 < a) (hfit : a + span 24 (b :: bs) < 2 ^ 64) :
    (blockNext m (UInt64.ofNat a) != 0 && blockFree m (blockNext m (UInt64.ofNat a)) != 0) =
      bs.head?.any Block.free := by
  simp only [span] at hfit
  rw [h.1.blockNext (by omega)]
  cases bs with
  | nil => rfl
  | cons d ds =>
    simp only [span] at hfit
    rw [first_cons, h.2.1.blockFree (by omega), bne_iff_ne.mpr (ofNat_ne_zero (by omega) (by omega))]
    rfl

theorem absorbNext_spec (h : Chain m a (b :: bs) 0) (hb : b.free = true) (hpos : 0 < a)
    (hfit : a + span 24 (b :: bs) < 2 ^ 64) (hlen : bs.length < steps) :
    ∃ m' c cs, absorbNext m (UInt64.ofNat a) steps = some m' ∧ Absorbed m m' a b bs c cs := by
  induction steps generalizing m b bs with
  | zero => omega
  | succ steps ih =>
    have hcond := h.nextFree hpos hfit
    cases bs with
    | nil =>
      have hstop : absorbNext m (UInt64.ofNat a) (steps + 1) = some m := by
        simp only [absorbNext, hcond, List.head?_nil, Option.any_none, Bool.false_eq_true, if_false]
      exact ⟨m, b, [], hstop, .stop h nofun⟩
    | cons d ds =>
      simp only [span, List.length_cons] at hfit hlen
      simp only [List.head?_cons, Option.any_some] at hcond
      cases hd : d.free with
      | false =>
        have hstop : absorbNext m (UInt64.ofNat a) (steps + 1) = some m := by
          simp only [absorbNext, hcond, hd, Bool.false_eq_true, if_false]
        refine ⟨m, b, d :: ds, hstop, .stop h ?_⟩
        intro e he
        rw [List.head?_cons, Option.mem_some_iff] at he
        rw [← he, hd]
      | true =>
        obtain ⟨hchain, hout⟩ := absorbOne_spec h (by omega)
        have hgo : absorbNext m (UInt64.ofNat a) (steps + 1) =
            absorbNext (absorbOne m (UInt64.ofNat a)) (UInt64.ofNat a) steps := by
          simp only [absorbNext, hcond, hd, if_true]
        have hz : a + 24 + (b.size + (24 + d.size)) = a + 24 + b.size + 24 + d.size := by omega
        rw [hb] at hchain
        obtain ⟨m'', c, cs, hm'', habs⟩ := ih hchain rfl (by simp only [span]; omega) (by omega)
        refine ⟨m'', c, cs, hgo.trans hm'', habs.chain, habs.same.trans (coalesce_join hb hd), habs.next, ?_, ?_, ?_, ?_⟩
        · have := habs.length
          rw [List.length_cons]
          omega
        · rw [habs.span]
          simp only [span]
          omega
        · intro y e he
          have := habs.rest y e he
          simp only [hz] at this
          exact List.mem_cons_of_mem _ this
        · exact fun x hx => (habs.outside x hx).trans (hout x hx)

theorem first_coalesce {last : UInt64} : first a (coalesce 24 bs) last = first a bs last := by
  cases hc : coalesce 24 bs with
  | nil => rw [coalesce_eq_nil.mp hc]
  | cons c cs =>
    cases bs with
    | nil => cases hc
    | cons b bs => rfl

theorem first_ne_zero (hpos : 0 < a) (hfit : a + span 24 (b :: bs) < 2 ^ 64) : (first a (b :: bs) 0 == 0) = false := by
  rw [first_cons]
  exact ofNat_beq_zero hpos (by omega)

/-- Memory holds one list. -/
theorem Chain.unique {cs : List Block} (h : Chain m a bs 0) (h' : Chain m a cs 0) (hpos : 0 < a)
    (hfit : a + span 24 bs < 2 ^ 64) (hfit' : a + span 24 cs < 2 ^ 64) (hfirst : first a bs 0 = first a cs 0) :
    bs = cs := by
  induction bs generalizing a cs with
  | nil =>
    cases cs with
    | nil => rfl
    | cons c cs => exact absurd hfirst.symm (ofNat_ne_zero hpos (by omega))
  | cons b bs ih =>
    cases cs with
    | nil => exact absurd hfirst (ofNat_ne_zero hpos (by omega))
    | cons c cs =>
      simp only [span] at hfit hfit'
      have hsize : b.size = c.size := by
        have heq := congrArg UInt64.toNat (h.1.size.symm.trans h'.1.size)
        rwa [toNat_ofNat (by omega), toNat_ofNat (by omega)] at heq
      have hfree : b.free = c.free := by
        rw [← h.1.blockFree (by omega), ← h'.1.blockFree (by omega)]
      have hbc : b = c := by
        cases b
        cases c
        simp only at hsize hfree
        rw [hsize, hfree]
      subst hbc
      rw [ih h.2 h'.2 (by omega) (by omega) (by omega) (h.1.next.symm.trans h'.1.next)]

/-- A block with no free neighbour after it stays in front of the swept rest. -/
theorem Chain.swept_cons {c : Block} {cs : List Block} (hc : Chain m a (c :: cs) 0)
    (hcons : coalesce 24 (c :: cs) = c :: coalesce 24 cs) (hrest : Chain m' (a + 24 + c.size) (coalesce 24 cs) 0)
    (hout : ∀ x, a ≤ x → x < a + 24 → m' x = m x) : Chain m' a (coalesce 24 (c :: cs)) 0 := by
  rw [hcons]
  refine ⟨?_, hrest⟩
  rw [first_coalesce]
  exact hc.1.congr hout

/-- The sweep makes every run of free blocks one, and writes only in headers
of free blocks. -/
theorem coalesceFrom_spec (h : Chain m a bs 0) (hpos : 0 < a) (hfit : a + span 24 bs < 2 ^ 64)
    (hlen : bs.length < steps) :
    ∃ m', coalesceFrom m (first a bs 0) steps = some m' ∧ Chain m' a (coalesce 24 bs) 0 ∧
      ∀ x, (∀ y b, (y, b) ∈ placed 24 a bs → b.free = true → ¬ (y ≤ x ∧ x < y + 24)) → m' x = m x := by
  induction steps generalizing m a bs with
  | zero => omega
  | succ steps ih =>
    cases bs with
    | nil => exact ⟨m, by simp [coalesceFrom, first], trivial, fun x _ => rfl⟩
    | cons b bs =>
      have hne := first_ne_zero hpos hfit
      have ha : a < 2 ^ 64 := by omega
      simp only [List.length_cons] at hlen
      -- The rest of the sweep, from the block after the one at `a`.
      have hrest : ∀ {m₁ : Mem} {c : Block} {cs : List Block}, Chain m₁ a (c :: cs) 0 →
          span 24 (c :: cs) = span 24 (b :: bs) → cs.length ≤ bs.length →
          coalesce 24 (c :: cs) = c :: coalesce 24 cs →
          ∃ m', coalesceFrom m₁ (blockNext m₁ (UInt64.ofNat a)) steps = some m' ∧
            Chain m' a (coalesce 24 (c :: cs)) 0 ∧
            ∀ x, (∀ y b, (y, b) ∈ placed 24 (a + 24 + c.size) cs → b.free = true → ¬ (y ≤ x ∧ x < y + 24)) →
              m' x = m₁ x := by
        intro m₁ c cs hc hspan hle hcons
        rw [← hspan] at hfit
        simp only [span] at hfit
        obtain ⟨m', hm', hchain, hout⟩ := ih hc.2 (by omega) (by omega) (by omega)
        refine ⟨m', by rw [hc.1.blockNext ha]; exact hm', hc.swept_cons hcons hchain fun x h1 h2 => hout x ?_, hout⟩
        intro y d hd _
        have := placed_bounds hd
        omega
      cases hb : b.free with
      | true =>
        obtain ⟨m₁, c, cs, hm₁, habs⟩ := absorbNext_spec h hb hpos hfit (show bs.length < steps + 1 by omega)
        obtain ⟨m', hm', hchain, hout⟩ := hrest habs.chain habs.span habs.length (coalesce_cons habs.next)
        rw [habs.same] at hchain
        refine ⟨m', ?_, hchain, ?_⟩
        · simp only [coalesceFrom, hne, Bool.false_eq_true, if_false]
          rw [first_cons, h.1.blockFree ha, hb, if_pos rfl, hm₁]
          exact hm'
        · intro x hx
          refine (hout x fun y d hd hfree => hx y d ?_ hfree).trans (habs.outside x ?_)
          · exact List.mem_cons_of_mem _ (habs.rest y d hd)
          · exact hx a b (by simp [placed]) hb
      | false =>
        have hcons : coalesce 24 (b :: bs) = b :: coalesce 24 bs := join_of_used hb
        obtain ⟨m', hm', hchain, hout⟩ := hrest h rfl (le_refl _) hcons
        refine ⟨m', ?_, hchain, fun x hx => hout x fun y d hd hfree => hx y d (List.mem_cons_of_mem _ hd) hfree⟩
        simp only [coalesceFrom, hne, Bool.false_eq_true, if_false]
        rw [first_cons, h.1.blockFree ha, hb]
        exact hm'

/-- Where no two neighbours are free the sweep writes nothing. -/
theorem coalesceFrom_same (h : Chain m a bs 0) (hpairs : NoFreePair bs) (hpos : 0 < a) (hfit : a + span 24 bs < 2 ^ 64)
    (hlen : bs.length < steps) : coalesceFrom m (first a bs 0) steps = some m := by
  induction steps generalizing a bs with
  | zero => omega
  | succ steps ih =>
    cases bs with
    | nil => simp [coalesceFrom, first]
    | cons b bs =>
      have hne := first_ne_zero hpos hfit
      have hcond := h.nextFree hpos hfit
      simp only [span, List.length_cons] at hfit hlen
      have hrest := ih h.2 (List.isChain_cons.mp hpairs).2 (by omega) (by omega) (by omega)
      rw [← h.1.blockNext (show a < 2 ^ 64 by omega)] at hrest
      simp only [coalesceFrom, hne, Bool.false_eq_true, if_false]
      rw [first_cons, h.1.blockFree (by omega)]
      cases hb : b.free with
      | false => exact hrest
      | true =>
        have hnext : bs.head?.any Block.free = false := by
          cases bs with
          | nil => rfl
          | cons c bs => exact (List.isChain_cons_cons.mp hpairs).1 hb
        have hstop : absorbNext m (UInt64.ofNat a) (steps + 1) = some m := by
          simp only [absorbNext, hcond, hnext, Bool.false_eq_true, if_false]
        rw [if_pos rfl, hstop]
        exact hrest

/-- The search finds a free block of the size, if there is one. -/
theorem firstFit_spec (h : Chain m a bs 0) (hpos : 0 < a) (hfit : a + span 24 bs < 2 ^ 64) (hn : n < 2 ^ 64)
    (hlen : bs.length < steps) :
    (firstFit m (UInt64.ofNat n) (first a bs 0) steps = some 0 ∧ ∀ b ∈ bs, b.free = true → b.size < n) ∨
      ∃ pre b post, bs = pre ++ b :: post ∧ b.free = true ∧ n ≤ b.size ∧
        firstFit m (UInt64.ofNat n) (first a bs 0) steps = some (UInt64.ofNat (a + span 24 pre)) := by
  induction steps generalizing a bs with
  | zero => omega
  | succ steps ih =>
    cases bs with
    | nil => exact .inl ⟨by simp [firstFit, first], fun b hb => by cases hb⟩
    | cons b bs =>
      have hne := first_ne_zero hpos hfit
      simp only [span, List.length_cons] at hfit hlen
      have ha : a < 2 ^ 64 := by omega
      have hcond : (blockFree m (UInt64.ofNat a) != 0 && decide (UInt64.ofNat n ≤ blockSize m (UInt64.ofNat a))) =
          (b.free && decide (n ≤ b.size)) := by
        rw [h.1.blockFree ha, h.1.blockSize ha]
        simp only [ofNat_le hn (show b.size < 2 ^ 64 by omega)]
      have hstep : firstFit m (UInt64.ofNat n) (first a (b :: bs) 0) (steps + 1) =
          if (b.free && decide (n ≤ b.size)) = true then some (UInt64.ofNat a)
          else firstFit m (UInt64.ofNat n) (first (a + 24 + b.size) bs 0) steps := by
        simp only [firstFit, hne, Bool.false_eq_true, if_false]
        rw [first_cons, hcond, h.1.blockNext ha]
      rw [hstep]
      by_cases hb : (b.free && decide (n ≤ b.size)) = true
      · rw [if_pos hb]
        rw [Bool.and_eq_true, decide_eq_true_eq] at hb
        exact .inr ⟨[], b, bs, rfl, hb.1, hb.2, rfl⟩
      · rw [if_neg hb]
        rw [Bool.and_eq_true, decide_eq_true_eq] at hb
        rcases ih h.2 (by omega) (by omega) (by omega) with ⟨hr, hno⟩ | ⟨pre, c, post, rfl, hfree, hsize, hr⟩
        · refine .inl ⟨hr, fun c hc hfree => ?_⟩
          rcases List.mem_cons.mp hc with rfl | hc
          · exact Nat.lt_of_not_le fun hle => hb ⟨hfree, hle⟩
          · exact hno c hc hfree
        · refine .inr ⟨b :: pre, c, post, rfl, hfree, hsize, ?_⟩
          rw [hr, span]
          congr 2
          omega

end Sweep

end Tinos
