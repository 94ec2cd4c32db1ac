/-
Blocks laid end to end, each a header of `H` bytes and a payload, free or used.

What an allocator does to such a list: cut a block in two (`carve`), join
neighbours that are free (`coalesce`). Both keep the bytes covered (`span`)
and the used blocks where they are (`used`). Where no two neighbours are free
(`NoFreePair`), the bytes between used blocks are single free blocks
(`NoFreePair.gap`), so what no free block has room for has no room at all.
-/
import Mathlib.Data.List.Chain
import Mathlib.Data.List.Infix

namespace Tiling

structure Block where
  size : Nat
  free : Bool
deriving DecidableEq

variable (H : Nat)

/-- The bytes a list of blocks covers. -/
def span : List Block → Nat
  | [] => 0
  | b :: bs => H + b.size + span bs

/-- The blocks with their addresses, laid from `a` on. -/
def placed (a : Nat) : List Block → List (Nat × Block)
  | [] => []
  | b :: bs => (a, b) :: placed (a + H + b.size) bs

/-- The addresses and sizes of the used blocks. -/
def used (a : Nat) : List Block → List (Nat × Nat)
  | [] => []
  | b :: bs => if b.free then used (a + H + b.size) bs else (a, b.size) :: used (a + H + b.size) bs

/-- A block cut to `n` bytes with the flag `f`, and a free rest where that has
room for a header and `U` bytes. -/
def carve (U n : Nat) (f : Bool) (b : Block) : List Block :=
  if n + H + U ≤ b.size then [⟨n, f⟩, ⟨b.size - n - H, true⟩] else [⟨b.size, f⟩]

/-- A block put in front, joined to the first when both are free. -/
def join (b : Block) : List Block → List Block
  | [] => [b]
  | c :: bs => if b.free && c.free then ⟨b.size + (H + c.size), true⟩ :: bs else b :: c :: bs

/-- Every run of free blocks made one. -/
def coalesce : List Block → List Block
  | [] => []
  | b :: bs => join H b (coalesce bs)

/-- No two neighbours are free. -/
def NoFreePair : List Block → Prop := List.IsChain fun b c => b.free = true → c.free = false

variable {H} {U n a x y z l s : Nat} {f : Bool} {b c : Block} {bs cs : List Block}

/-! ## Places -/

theorem span_append : span H (bs ++ cs) = span H bs + span H cs := by
  induction bs with
  | nil => simp [span]
  | cons b bs ih =>
    simp only [List.cons_append, span, ih]
    omega

theorem placed_append : placed H a (bs ++ cs) = placed H a bs ++ placed H (a + span H bs) cs := by
  induction bs generalizing a with
  | nil => simp [placed, span]
  | cons b bs ih =>
    simp only [List.cons_append, placed, ih, span]
    rw [show a + H + b.size + span H bs = a + (H + b.size + span H bs) by omega]

theorem used_append : used H a (bs ++ cs) = used H a bs ++ used H (a + span H bs) cs := by
  induction bs generalizing a with
  | nil => simp [used, span]
  | cons b bs ih =>
    have ha : a + H + b.size + span H bs = a + (H + b.size + span H bs) := by omega
    simp only [List.cons_append, used, ih, span, ha]
    split <;> rfl

theorem placed_bounds (h : (y, b) ∈ placed H a bs) : a ≤ y ∧ y + H + b.size ≤ a + span H bs := by
  induction bs generalizing a with
  | nil => cases h
  | cons c bs ih =>
    simp only [placed, List.mem_cons, Prod.mk.injEq] at h
    unfold span
    rcases h with ⟨rfl, rfl⟩ | h
    · omega
    · have := ih h
      omega

theorem placed_mem (h : (y, b) ∈ placed H a bs) : b ∈ bs := by
  induction bs generalizing a with
  | nil => cases h
  | cons c bs ih =>
    simp only [placed, List.mem_cons, Prod.mk.injEq] at h
    rcases h with ⟨-, rfl⟩ | h
    · exact List.mem_cons_self
    · exact List.mem_cons_of_mem _ (ih h)

/-- Every byte covered is one of a block. -/
theorem exists_placed (h1 : a ≤ x) (h2 : x < a + span H bs) :
    ∃ y b, (y, b) ∈ placed H a bs ∧ y ≤ x ∧ x < y + H + b.size := by
  induction bs generalizing a with
  | nil =>
    simp only [span] at h2
    omega
  | cons b bs ih =>
    simp only [span] at h2
    by_cases hx : x < a + H + b.size
    · exact ⟨a, b, by simp [placed], h1, hx⟩
    · obtain ⟨y, c, hc, hy⟩ := ih (by omega) (show x < a + H + b.size + span H bs by omega)
      exact ⟨y, c, List.mem_cons_of_mem _ hc, hy⟩

/-- Two blocks are the same or apart. -/
theorem placed_apart (hb : (y, b) ∈ placed H a bs) (hc : (z, c) ∈ placed H a bs) :
    (y = z ∧ b = c) ∨ y + H + b.size ≤ z ∨ z + H + c.size ≤ y := by
  induction bs generalizing a with
  | nil => cases hb
  | cons d bs ih =>
    simp only [placed, List.mem_cons, Prod.mk.injEq] at hb hc
    rcases hb with ⟨rfl, rfl⟩ | hb <;> rcases hc with ⟨rfl, rfl⟩ | hc
    · exact .inl ⟨rfl, rfl⟩
    · exact .inr (.inl (placed_bounds hc).1)
    · exact .inr (.inr (placed_bounds hb).1)
    · exact ih hb hc

/-- The blocks before and after one. -/
theorem exists_split (h : (y, b) ∈ placed H a bs) : ∃ pre post, bs = pre ++ b :: post ∧ y = a + span H pre := by
  induction bs generalizing a with
  | nil => cases h
  | cons c bs ih =>
    simp only [placed, List.mem_cons, Prod.mk.injEq] at h
    rcases h with ⟨rfl, rfl⟩ | h
    · exact ⟨[], bs, rfl, by simp [span]⟩
    · obtain ⟨pre, post, rfl, rfl⟩ := ih h
      exact ⟨c :: pre, post, rfl, by simp only [span]; omega⟩

theorem mem_used : (y, s) ∈ used H a bs ↔ (y, ⟨s, false⟩) ∈ placed H a bs := by
  induction bs generalizing a with
  | nil => simp [used, placed]
  | cons b bs ih =>
    obtain ⟨size, free⟩ := b
    cases free with
    | true => simp [used, placed, ih]
    | false => simp [used, placed, ih]

/-- A used block and a block are the same or apart. -/
theorem used_placed_apart (hy : (y, s) ∈ used H a bs) (hz : (z, c) ∈ placed H a bs) :
    (y = z ∧ c = ⟨s, false⟩) ∨ y + H + s ≤ z ∨ z + H + c.size ≤ y :=
  (placed_apart (mem_used.mp hy) hz).imp (And.imp_right Eq.symm) id

theorem used_apart {t : Nat} (hy : (y, s) ∈ used H a bs) (hz : (z, t) ∈ used H a bs) :
    y = z ∨ y + H + s ≤ z ∨ z + H + t ≤ y :=
  (used_placed_apart hy (mem_used.mp hz)).imp And.left id

theorem used_bounds (hy : (y, s) ∈ used H a bs) : a ≤ y ∧ y + H + s ≤ a + span H bs :=
  placed_bounds (mem_used.mp hy)

theorem used_of_split {pre post : List Block} (hb : b.free = false) :
    (a + span H pre, b.size) ∈ used H a (pre ++ b :: post) := by
  rw [used_append]
  simp [used, hb]

/-- A free block is no used one. -/
theorem not_used_of_free {pre post : List Block} (hH : 0 < H) (hb : b.free = true) :
    (a + span H pre, s) ∉ used H a (pre ++ b :: post) := by
  intro h
  have hin : (a + span H pre, b) ∈ placed H a (pre ++ b :: post) := by
    rw [placed_append]
    simp [placed]
  rcases used_placed_apart h hin with ⟨-, rfl⟩ | hlt | hlt
  · cases hb
  · omega
  · omega

theorem length_le_span (H : Nat) (bs : List Block) : H * bs.length ≤ span H bs := by
  induction bs with
  | nil => simp
  | cons b bs ih =>
    simp only [span, List.length_cons, Nat.mul_add]
    omega

/-! ## Putting blocks in the place of others -/

/-- `cs` has a used block of `s` bytes at `y`, and the other used blocks of
`bs`. -/
def Grants (H a : Nat) (bs cs : List Block) (y s : Nat) : Prop :=
  ∀ z t, (z, t) ∈ used H a cs ↔ (z = y ∧ t = s) ∨ ((z, t) ∈ used H a bs ∧ z ≠ y)

/-- `cs` has the used blocks of `bs` but the one at `y`. -/
def Drops (H a : Nat) (bs cs : List Block) (y : Nat) : Prop :=
  ∀ z t, (z, t) ∈ used H a cs ↔ (z, t) ∈ used H a bs ∧ z ≠ y

section Replace

variable {pre mid mid' post : List Block}

/-- A used block is among the middle ones, or apart from them all. -/
theorem used_middle (h : (z, s) ∈ used H a (pre ++ mid ++ post)) :
    (z, s) ∈ used H (a + span H pre) mid ∨ z + H + s ≤ a + span H pre ∨
      a + span H pre + span H mid ≤ z := by
  rw [used_append, used_append, List.mem_append, List.mem_append, span_append] at h
  rcases h with (h | h) | h
  · exact .inr (.inl (used_bounds h).2)
  · exact .inl h
  · have := (used_bounds h).1
    exact .inr (.inr (by omega))

/-- Where the middle blocks have at most their first one used, replacing them
changes no other used block. -/
theorem mem_used_replace (hspan : span H mid' = span H mid)
    (hold : ∀ z t, (z, t) ∈ used H (a + span H pre) mid → z = a + span H pre)
    (hnew : ∀ z t, (z, t) ∈ used H (a + span H pre) mid' → z = a + span H pre) (hz : z ≠ a + span H pre) :
    (z, s) ∈ used H a (pre ++ mid' ++ post) ↔ (z, s) ∈ used H a (pre ++ mid ++ post) := by
  simp only [used_append, span_append, List.mem_append, hspan]
  have h1 : (z, s) ∉ used H (a + span H pre) mid := fun h => hz (hold z s h)
  have h2 : (z, s) ∉ used H (a + span H pre) mid' := fun h => hz (hnew z s h)
  simp only [h1, h2]

theorem grants_replace (a : Nat) (pre mid mid' post : List Block) (hH : 0 < H) (hspan : span H mid' = span H mid)
    (hold : ∀ z t, (z, t) ∈ used H (a + span H pre) mid → z = a + span H pre)
    (hnew : used H (a + span H pre) mid' = [(a + span H pre, s)]) :
    Grants H a (pre ++ mid ++ post) (pre ++ mid' ++ post) (a + span H pre) s := by
  have hnew' : ∀ z t, (z, t) ∈ used H (a + span H pre) mid' → z = a + span H pre ∧ t = s := by
    intro z t h
    rw [hnew, List.mem_singleton, Prod.mk.injEq] at h
    exact h
  have hpos : 0 < span H mid' := by
    have h := (used_bounds (hnew ▸ List.mem_singleton_self _)).2
    omega
  intro z t
  by_cases hz : z = a + span H pre
  · subst hz
    constructor
    · intro h
      rcases used_middle h with h | h | h
      · exact .inl (hnew' _ _ h)
      · omega
      · omega
    · rintro (⟨-, rfl⟩ | ⟨-, hne⟩)
      · rw [used_append, used_append, hnew]
        simp
      · exact absurd rfl hne
  · rw [mem_used_replace hspan hold (fun z t h => (hnew' z t h).1) hz]
    simp [hz]

theorem drops_replace (a : Nat) (pre mid mid' post : List Block) (hH : 0 < H) (hspan : span H mid' = span H mid) (hpos : 0 < span H mid)
    (hold : ∀ z t, (z, t) ∈ used H (a + span H pre) mid → z = a + span H pre)
    (hnew : used H (a + span H pre) mid' = []) :
    Drops H a (pre ++ mid ++ post) (pre ++ mid' ++ post) (a + span H pre) := by
  have hnone : ∀ z t, (z, t) ∉ used H (a + span H pre) mid' := by
    intro z t h
    rw [hnew] at h
    cases h
  intro z t
  by_cases hz : z = a + span H pre
  · subst hz
    refine ⟨?_, fun h => absurd rfl h.2⟩
    intro h
    rcases used_middle h with h | h | h
    · exact absurd h (hnone _ _)
    · omega
    · omega
  · rw [mem_used_replace hspan hold (fun z t h => absurd h (hnone z t)) hz]
    simp [hz]

end Replace

/-! ## Cutting -/

theorem span_carve : span H (carve H U n f b) = H + b.size := by
  unfold carve
  split
  · simp only [span]
    omega
  · simp only [span]
    omega

/-- The size of the block that is cut. -/
def cut (H U n : Nat) (b : Block) : Nat := if n + H + U ≤ b.size then n else b.size

/-- What is cut off, whatever the flag of the block that stays. -/
theorem carve_eq (H U n : Nat) (b : Block) : ∃ cs, ∀ f, carve H U n f b = ⟨cut H U n b, f⟩ :: cs := by
  unfold carve cut
  split
  · exact ⟨_, fun f => rfl⟩
  · exact ⟨_, fun f => rfl⟩

theorem le_cut (h : n ≤ b.size) : n ≤ cut H U n b := by
  unfold cut
  split <;> omega

theorem used_carve : used H a (carve H U n false b) = [(a, cut H U n b)] := by
  unfold carve cut
  split <;> rfl

/-! ## Joining -/

theorem span_join : span H (join H b bs) = H + b.size + span H bs := by
  cases bs with
  | nil => rfl
  | cons c bs =>
    simp only [join]
    split
    · simp only [span]
      omega
    · rfl

theorem used_join : used H a (join H b bs) = used H a (b :: bs) := by
  cases bs with
  | nil => rfl
  | cons c bs =>
    simp only [join]
    split
    · rename_i h
      rw [Bool.and_eq_true] at h
      simp only [used, h.1, h.2, if_true]
      rw [show a + H + (b.size + (H + c.size)) = a + H + b.size + H + c.size by omega]
    · rfl

theorem span_coalesce : span H (coalesce H bs) = span H bs := by
  induction bs with
  | nil => rfl
  | cons b bs ih => rw [coalesce, span_join, ih, span]

/-- The used blocks stay where they are. -/
theorem used_coalesce : used H a (coalesce H bs) = used H a bs := by
  induction bs generalizing a with
  | nil => rfl
  | cons b bs ih =>
    rw [coalesce, used_join]
    simp only [used, ih]

/-- Joining the second block to the first changes nothing. -/
theorem coalesce_join (hb : b.free = true) (hc : c.free = true) :
    coalesce H (⟨b.size + (H + c.size), true⟩ :: bs) = coalesce H (b :: c :: bs) := by
  simp only [coalesce]
  cases coalesce H bs with
  | nil => simp [join, hb, hc]
  | cons d ds =>
    cases hd : d.free with
    | true =>
      simp only [join, hb, hc, hd, Bool.and_self, if_true]
      rw [show b.size + (H + c.size) + (H + d.size) = b.size + (H + (c.size + (H + d.size))) by omega]
    | false => simp [join, hb, hc, hd]

theorem join_of_used (h : b.free = false) : join H b bs = b :: bs := by
  cases bs with
  | nil => rfl
  | cons c bs => simp [join, h]

/-- A free block before a used one, or before nothing, is joined to none. -/
theorem coalesce_cons (h : ∀ c ∈ bs.head?, c.free = false) : coalesce H (b :: bs) = b :: coalesce H bs := by
  cases bs with
  | nil => rfl
  | cons c cs =>
    have hc : c.free = false := h c rfl
    rw [coalesce, coalesce, join_of_used hc]
    simp only [join, hc, Bool.and_false, Bool.false_eq_true, if_false]

theorem coalesce_eq_nil : coalesce H bs = [] ↔ bs = [] := by
  cases bs with
  | nil => exact ⟨fun _ => rfl, fun _ => rfl⟩
  | cons b bs =>
    refine ⟨?_, fun h => by cases h⟩
    intro h
    rw [coalesce] at h
    unfold join at h
    split at h
    · cases h
    · split at h <;> cases h

/-! ## What an allocator does -/

section Carve

variable {pre post : List Block}

theorem used_singleton (h : (z, s) ∈ used H a [b]) : z = a := by
  have hin := mem_used.mp h
  simp only [placed, List.mem_singleton, Prod.mk.injEq] at hin
  exact hin.1

theorem used_pair (hc : c.free = true) (h : (z, s) ∈ used H a [b, c]) : z = a := by
  simp only [used, hc, if_true] at h
  split at h
  · cases h
  · rw [List.mem_singleton, Prod.mk.injEq] at h
    exact h.1

/-- A block, free or used, is cut and used. -/
theorem grants_carve (hH : 0 < H) :
    Grants H a (pre ++ b :: post) (pre ++ carve H U n false b ++ post) (a + span H pre) (cut H U n b) := by
  have hg := grants_replace a pre [b] (carve H U n false b) post hH
    (by rw [span_carve]; rfl) (fun z t h => used_singleton h) used_carve
  rwa [List.append_assoc, List.singleton_append] at hg

/-- A used block takes in the free one after it, and the two are cut. -/
theorem grants_grow (hH : 0 < H) (hc : c.free = true) : Grants H a (pre ++ b :: c :: post)
    (pre ++ carve H U n false ⟨b.size + (H + c.size), false⟩ ++ post) (a + span H pre)
    (cut H U n ⟨b.size + (H + c.size), false⟩) := by
  have hg := grants_replace a pre [b, c] (carve H U n false ⟨b.size + (H + c.size), false⟩) post hH
    (by rw [span_carve]; simp only [span]; omega) (fun z t h => used_pair hc h) used_carve
  rw [List.append_assoc] at hg
  exact hg

/-- A used block becomes free. -/
theorem drops_free (hH : 0 < H) :
    Drops H a (pre ++ b :: post) (coalesce H (pre ++ ⟨b.size, true⟩ :: post)) (a + span H pre) := by
  have hd := drops_replace a pre [b] [⟨b.size, true⟩] post hH rfl
    (by simp only [span]; omega) (fun z t h => used_singleton h) rfl
  intro z t
  rw [used_coalesce]
  have := hd z t
  rwa [List.append_assoc, List.append_assoc, List.singleton_append, List.singleton_append] at this

end Carve

/-! ### Sizes -/

/-- A positive multiple of `U`. -/
def Block.Whole (U : Nat) (b : Block) : Prop := 0 < b.size ∧ b.size % U = 0

/-- Blocks of whole sizes start at multiples of `U`. -/
theorem placed_mod (h : ∀ c ∈ bs, c.Whole U) (hH : H % U = 0) (ha : a % U = 0) (hy : (y, b) ∈ placed H a bs) :
    y % U = 0 := by
  induction bs generalizing a with
  | nil => cases hy
  | cons c cs ih =>
    simp only [placed, List.mem_cons, Prod.mk.injEq] at hy
    rcases hy with ⟨rfl, -⟩ | hy
    · exact ha
    · have hc := (h c List.mem_cons_self).2
      refine ih (fun d hd => h d (List.mem_cons_of_mem _ hd)) ?_ hy
      exact Nat.mod_eq_zero_of_dvd (Nat.dvd_add (Nat.dvd_add (Nat.dvd_of_mod_eq_zero ha) (Nat.dvd_of_mod_eq_zero hH))
        (Nat.dvd_of_mod_eq_zero hc))

theorem whole_carve (hb : b.Whole U) (hn : 0 < n ∧ n % U = 0) (hU : 0 < U) (hH : H % U = 0) :
    ∀ c ∈ carve H U n f b, c.Whole U := by
  intro c hc
  unfold carve at hc
  split at hc
  · rename_i hsize
    rcases List.mem_cons.mp hc with rfl | hc
    · exact hn
    · rw [List.mem_singleton] at hc
      subst hc
      have hsub : (b.size - n - H) % U = 0 := by
        rw [Nat.sub_sub]
        exact Nat.sub_mod_eq_zero_of_mod_eq (by rw [hb.2, Nat.add_mod, hn.2, hH, Nat.zero_add, Nat.zero_mod])
      exact ⟨by simp only; omega, hsub⟩
  · rw [List.mem_singleton] at hc
    rw [hc]
    exact hb

theorem whole_merge (hH : H % U = 0) (hb : b.Whole U) (hc : c.Whole U) :
    (⟨b.size + (H + c.size), f⟩ : Block).Whole U := by
  refine ⟨by have := hb.1; simp only; omega, ?_⟩
  exact Nat.mod_eq_zero_of_dvd (Nat.dvd_add (Nat.dvd_of_mod_eq_zero hb.2)
    (Nat.dvd_add (Nat.dvd_of_mod_eq_zero hH) (Nat.dvd_of_mod_eq_zero hc.2)))

theorem whole_join (hH : H % U = 0) (hb : b.Whole U) (h : ∀ c ∈ bs, c.Whole U) : ∀ c ∈ join H b bs, c.Whole U := by
  cases bs with
  | nil => simpa [join] using hb
  | cons d ds =>
    have hd := h d List.mem_cons_self
    simp only [join]
    split
    · intro c hc
      rcases List.mem_cons.mp hc with rfl | hc
      · exact whole_merge hH hb hd
      · exact h c (List.mem_cons_of_mem _ hc)
    · intro c hc
      rcases List.mem_cons.mp hc with rfl | hc
      · exact hb
      · exact h c hc

theorem whole_coalesce (hH : H % U = 0) (h : ∀ c ∈ bs, c.Whole U) : ∀ c ∈ coalesce H bs, c.Whole U := by
  induction bs with
  | nil => exact h
  | cons b bs ih =>
    exact whole_join hH (h b List.mem_cons_self) (ih fun c hc => h c (List.mem_cons_of_mem _ hc))

/-! ## No free pair -/

theorem noFreePair_join (h : NoFreePair bs) : NoFreePair (join H b bs) := by
  cases bs with
  | nil => exact List.isChain_singleton _
  | cons c bs =>
    simp only [join]
    split
    · rename_i hbc
      rw [Bool.and_eq_true] at hbc
      cases bs with
      | nil => exact List.isChain_singleton _
      | cons d bs =>
        obtain ⟨hcd, hrest⟩ := List.isChain_cons_cons.mp h
        exact List.isChain_cons_cons.mpr ⟨fun _ => hcd hbc.2, hrest⟩
    · rename_i hbc
      refine List.isChain_cons_cons.mpr ⟨fun hb => ?_, h⟩
      simpa [hb] using hbc

theorem noFreePair_coalesce : NoFreePair (coalesce H bs) := by
  induction bs with
  | nil => exact List.isChain_nil
  | cons b bs ih => exact noFreePair_join ih

/-- Cutting a block leaves no free pair unless its rest meets a free block. -/
theorem noFreePair_carve (h : NoFreePair (bs ++ b :: cs))
    (hnext : n + H + U ≤ b.size → ∀ c ∈ cs.head?, c.free = false) :
    NoFreePair (bs ++ carve H U n false b ++ cs) := by
  obtain ⟨hbs, hbcs, -⟩ := List.isChain_append.mp h
  have hcs : NoFreePair cs := (List.isChain_cons.mp hbcs).2
  rw [List.append_assoc]
  refine List.isChain_append.mpr ⟨hbs, ?_, ?_⟩
  · unfold carve
    split
    · rename_i hsize
      refine List.isChain_cons_cons.mpr ⟨fun hf => absurd hf Bool.false_ne_true, List.isChain_cons.mpr ⟨fun c hc _ => ?_, hcs⟩⟩
      exact hnext hsize c hc
    · exact List.isChain_cons.mpr ⟨fun c _ hf => absurd hf Bool.false_ne_true, hcs⟩
  · intro x _ y hy _
    unfold carve at hy
    split at hy
    · simp only [List.cons_append, List.head?_cons, Option.mem_some_iff] at hy
      rw [← hy]
    · simp only [List.cons_append, List.head?_cons, Option.mem_some_iff] at hy
      rw [← hy]

theorem not_noFreePair_carve (hsize : n + H + U ≤ b.size) (hc : c.free = true) :
    ¬ NoFreePair (bs ++ carve H U n false b ++ c :: cs) := by
  intro h
  unfold carve at h
  rw [if_pos hsize, List.append_assoc] at h
  obtain ⟨-, h, -⟩ := List.isChain_append.mp h
  have hpair := (List.isChain_cons_cons.mp (List.isChain_cons_cons.mp h).2).1
  rw [hpair rfl] at hc
  cases hc

/-- Exactly when cutting a used block leaves a free pair. -/
theorem noFreePair_carve_iff (h : NoFreePair (bs ++ b :: cs)) : NoFreePair (bs ++ carve H U n false b ++ cs) ↔
    ¬ (n + H + U ≤ b.size ∧ ∃ c ∈ cs.head?, c.free = true) := by
  constructor
  · intro hpairs hcut
    obtain ⟨hsize, c, hc, hfree⟩ := hcut
    obtain ⟨cs, rfl⟩ := List.head?_eq_some_iff.mp hc
    exact not_noFreePair_carve hsize hfree hpairs
  · intro hno
    refine noFreePair_carve h ?_
    intro hsize c hc
    cases hfree : c.free with
    | false => rfl
    | true => exact absurd ⟨hsize, c, hc, hfree⟩ hno

/-- The block after a free one is used. -/
theorem NoFreePair.next (h : NoFreePair (bs ++ b :: cs)) (hb : b.free = true) : ∀ c ∈ cs.head?, c.free = false := by
  intro c hc
  obtain ⟨-, h, -⟩ := List.isChain_append.mp h
  exact (List.isChain_cons.mp h).1 c hc hb

/-- A used block takes the place of itself and the next. -/
theorem NoFreePair.absorb (h : NoFreePair (bs ++ b :: c :: cs)) : NoFreePair (bs ++ ⟨s, false⟩ :: cs) := by
  obtain ⟨hbs, hbcs, -⟩ := List.isChain_append.mp h
  have hcs : NoFreePair cs := (List.isChain_cons.mp (List.isChain_cons.mp hbcs).2).2
  refine List.isChain_append.mpr ⟨hbs, List.isChain_cons.mpr ⟨fun d _ hf => absurd hf Bool.false_ne_true, hcs⟩, ?_⟩
  intro x _ y hy _
  simp only [List.head?_cons, Option.mem_some_iff] at hy
  rw [← hy]

/-- Where nothing is used there is one block at most. -/
theorem NoFreePair.single (h : NoFreePair bs) (hused : used H a bs = []) (hne : bs ≠ []) : ∃ s, bs = [⟨s, true⟩] := by
  cases bs with
  | nil => exact absurd rfl hne
  | cons b bs =>
    have hb : b.free = true := by
      by_contra hb
      simp [used, hb] at hused
    cases bs with
    | nil => exact ⟨b.size, by rw [← hb]⟩
    | cons c bs =>
      -- The next block would be used.
      have hc : c.free = false := (List.isChain_cons_cons.mp h).1 hb
      simp [used, hb, hc] at hused

/-! ## Gaps -/

/-- The `l` bytes from `x` are covered, and in no used block. -/
structure Gap (H a : Nat) (bs : List Block) (x l : Nat) : Prop where
  inside : a ≤ x ∧ x + l ≤ a + span H bs
  apart : ∀ y s, (y, s) ∈ used H a bs → y + H + s ≤ x ∨ x + l ≤ y

/-- A gap past the first block is one of the others. -/
theorem Gap.tail (hg : Gap H a (b :: bs) x l) (hx : a + H + b.size ≤ x) : Gap H (a + H + b.size) bs x l := by
  have hin := hg.inside
  simp only [span] at hin
  refine ⟨by omega, fun y s hy => hg.apart y s ?_⟩
  unfold used
  split
  · exact hy
  · exact List.mem_cons_of_mem _ hy

/-- A gap is in one free block. -/
theorem NoFreePair.gap (h : NoFreePair bs) (hH : 0 < H) (hl : 0 < l) (hg : Gap H a bs x l) :
    ∃ y b, (y, b) ∈ placed H a bs ∧ b.free = true ∧ y ≤ x ∧ x + l ≤ y + H + b.size := by
  induction bs generalizing a with
  | nil =>
    have := hg.inside
    simp only [span] at this
    omega
  | cons b bs ih =>
    have hin := hg.inside
    simp only [span] at hin
    have hrest : NoFreePair bs := (List.isChain_cons.mp h).2
    have hlater : a + H + b.size ≤ x →
        ∃ y c, (y, c) ∈ placed H a (b :: bs) ∧ c.free = true ∧ y ≤ x ∧ x + l ≤ y + H + c.size := by
      intro hx
      obtain ⟨y, c, hc, hrest⟩ := ih hrest (hg.tail hx)
      exact ⟨y, c, List.mem_cons_of_mem _ hc, hrest⟩
    cases hb : b.free with
    | false =>
      have hused : (a, b.size) ∈ used H a (b :: bs) := by simp [used, hb]
      have := hg.apart a b.size hused
      exact hlater (by omega)
    | true =>
      by_cases hx : a + H + b.size ≤ x
      · exact hlater hx
      · by_cases hend : x + l ≤ a + H + b.size
        · exact ⟨a, b, by simp [placed], hb, by omega, hend⟩
        · -- The gap goes on into the next block, which is used.
          cases bs with
          | nil =>
            simp only [span] at hin
            omega
          | cons c cs =>
            have hc : c.free = false := (List.isChain_cons_cons.mp h).1 hb
            have hused : (a + H + b.size, c.size) ∈ used H a (b :: c :: cs) := by simp [used, hb, hc]
            have := hg.apart _ _ hused
            omega

end Tiling
