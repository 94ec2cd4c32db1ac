/-
Radix trees kept in a store of tables: an entry ends a walk, names the next
table, or is blank. The tables a root reaches by paths shorter than `n` form
a tree when no two paths reach the same one (`Tree`).

Three updates keep a tree: filling a table no path reaches
(`Tree.fill`), writing an entry of a last table (`Tree.set_last`), and
linking an unreached blank table under a blank entry (`Tree.link`). Each
comes with what it does to the tables reached (`descend_`) and to the walks
(`walk_`): a written entry is seen by the paths through it and by no other.
One entry of the tree names each table but the root (`Tree.named_once`).
-/
import Mathlib.Data.List.Infix
import Mathlib.Tactic.ByContra

namespace Radix

/-- The entries of the tables, by table and index. -/
abbrev Store (F ι E : Type) := F → ι → E

def Store.set {F ι E : Type} [DecidableEq F] [DecidableEq ι] (m : Store F ι E) (t : F) (i : ι) (e : E) :
    Store F ι E := fun t' i' => if t' = t ∧ i' = i then e else m t' i'

def Store.fill {F ι E : Type} [DecidableEq F] (m : Store F ι E) (t : F) (e : E) : Store F ι E :=
  fun t' i' => if t' = t then e else m t' i'

/-- How a walk reads an entry: the table it names, and whether it ends a walk
with `k` indices still to come. Only with none to come can it do both. -/
structure Format (F E : Type) where
  next : E → Option F
  leaf : Nat → E → Bool
  next_of_leaf : ∀ k e, leaf (k + 1) e = true → next e = none

/-- Where a walk ended: the entry, its place, and the indices not used. -/
structure Leaf (F ι E : Type) where
  table : F
  index : ι
  left : Nat
  entry : E
deriving DecidableEq

variable {F ι E : Type} (fmt : Format F E)

/-- An entry that ends no walk and names no table. -/
structure Format.Blank (e : E) : Prop where
  next : fmt.next e = none
  leaf : ∀ k, fmt.leaf k e = false

/-- The table reached by a path. -/
def descend (m : Store F ι E) (t : F) : List ι → Option F
  | [] => some t
  | i :: p => (fmt.next (m t i)).bind fun f => descend m f p

/-- The entry that ends the walk of a path. -/
def walk (m : Store F ι E) (t : F) : List ι → Option (Leaf F ι E)
  | [] => none
  | i :: p =>
    if fmt.leaf p.length (m t i) then some ⟨t, i, p.length, m t i⟩
    else (fmt.next (m t i)).bind fun f => walk m f p

/-- The entries that the walk of a path reads, if one of them ends it. -/
def trail (m : Store F ι E) (t : F) : List ι → Option (List E)
  | [] => none
  | i :: p =>
    if fmt.leaf p.length (m t i) then some [m t i]
    else (fmt.next (m t i)).bind fun f => (trail m f p).map (m t i :: ·)

variable {fmt} {m m' : Store F ι E} {t f root : F} {i j : ι} {e z : E} {p q : List ι} {n : Nat}

theorem descend_append :
    descend fmt m t (p ++ q) = (descend fmt m t p).bind fun f => descend fmt m f q := by
  induction p generalizing t with
  | nil => rfl
  | cons i p ih =>
    simp only [List.cons_append, descend, Option.bind_assoc]
    congr 1
    funext f
    exact ih

theorem descend_snoc : descend fmt m t (p ++ [i]) = (descend fmt m t p).bind fun f => fmt.next (m f i) := by
  rw [descend_append]
  congr 1
  funext f
  simp only [descend, Option.bind_fun_some]

/-- An entry that names a table ends no walk with indices to come. -/
theorem leaf_of_next (h : fmt.next e = some f) (hp : p ≠ []) : fmt.leaf p.length e = false := by
  obtain ⟨k, hk⟩ : ∃ k, p.length = k + 1 := Nat.exists_eq_add_one.mpr (List.length_pos_iff.mpr hp)
  rw [hk]
  by_contra hl
  rw [fmt.next_of_leaf k e (by simpa using hl)] at h
  cases h

theorem walk_append (h : descend fmt m t p = some f) (hq : q ≠ []) :
    walk fmt m t (p ++ q) = walk fmt m f q := by
  induction p generalizing t with
  | nil =>
    simp only [descend, Option.some.injEq] at h
    rw [h, List.nil_append]
  | cons i p ih =>
    simp only [descend, Option.bind_eq_some_iff] at h
    obtain ⟨g, hg, hf⟩ := h
    have hleaf : fmt.leaf (p ++ q).length (m t i) = false := leaf_of_next hg (by simp [hq])
    simp only [List.cons_append, walk, hleaf, hg, Option.bind_some, Bool.false_eq_true, if_false]
    exact ih hf

/-- A walk that ends has a trail. -/
theorem trail_eq_none_iff : trail fmt m t p = none ↔ walk fmt m t p = none := by
  induction p generalizing t with
  | nil => simp [trail, walk]
  | cons i p ih =>
    simp only [trail, walk]
    split
    · simp
    · cases fmt.next (m t i) with
      | none => simp
      | some f => simpa using ih

/-- The entry a walk ends at is the one in its place. -/
theorem walk_entry {l : Leaf F ι E} (h : walk fmt m t p = some l) : m l.table l.index = l.entry := by
  induction p generalizing t with
  | nil => cases h
  | cons i p ih =>
    simp only [walk] at h
    split at h
    · rw [← Option.some.inj h]
    · obtain ⟨f, -, hf⟩ := Option.bind_eq_some_iff.mp h
      exact ih hf

/-- A walk ends at nothing where the way stops at a blank entry. -/
theorem walk_eq_none (hnone : descend fmt m t p = none)
    (hplain : ∀ r i f, r ++ [i] <+: p → descend fmt m t r = some f → fmt.Blank (m f i) ∨ ∃ g, fmt.next (m f i) = some g) :
    walk fmt m t (p ++ q) = none := by
  induction p generalizing t with
  | nil => simp [descend] at hnone
  | cons i p ih =>
    rcases hplain [] i t (by simp) rfl with hb | ⟨g, hg⟩
    · simp only [List.cons_append, walk, hb.leaf, hb.next, Bool.false_eq_true, if_false, Option.bind_none]
    · simp only [descend, hg, Option.bind_some] at hnone
      rw [← List.singleton_append, List.append_assoc]
      by_cases hq : p ++ q = []
      · simp only [List.append_eq_nil_iff] at hq
        rw [hq.1] at hnone
        cases hnone
      · have hd : descend fmt m t [i] = some g := by simp only [descend, hg, Option.bind_some]
        rw [walk_append hd hq]
        refine ih hnone fun r j f hr hf => hplain (i :: r) j f (by simpa using hr) ?_
        simp only [descend, hg, Option.bind_some]
        exact hf

/-! ## What a path reads -/

/-- The path `q` reads entry `(f, j)`. -/
def Reads (fmt : Format F E) (m : Store F ι E) (t : F) (q : List ι) (f : F) (j : ι) : Prop :=
  ∃ p, p ++ [j] <+: q ∧ descend fmt m t p = some f

theorem Reads.cons (hn : fmt.next (m t i) = some f) {g} (h : Reads fmt m f q g j) :
    Reads fmt m t (i :: q) g j := by
  obtain ⟨p, hp, hd⟩ := h
  exact ⟨i :: p, by simpa using hp, by simp [descend, hn, hd]⟩

theorem Reads.head : Reads fmt m t (i :: q) t i := ⟨[], by simp, rfl⟩

theorem descend_congr (h : ∀ f j, Reads fmt m t q f j → m' f j = m f j) :
    descend fmt m' t q = descend fmt m t q := by
  induction q generalizing t with
  | nil => rfl
  | cons i q ih =>
    simp only [descend, h t i .head]
    cases hn : fmt.next (m t i) with
    | none => rfl
    | some f => exact ih fun g j hr => h g j (.cons hn hr)

theorem walk_congr (h : ∀ f j, Reads fmt m t q f j → m' f j = m f j) :
    walk fmt m' t q = walk fmt m t q := by
  induction q generalizing t with
  | nil => rfl
  | cons i q ih =>
    simp only [walk, h t i .head]
    split
    · rfl
    · cases hn : fmt.next (m t i) with
      | none => rfl
      | some f => exact ih fun g j hr => h g j (.cons hn hr)

theorem trail_congr (h : ∀ f j, Reads fmt m t q f j → m' f j = m f j) :
    trail fmt m' t q = trail fmt m t q := by
  induction q generalizing t with
  | nil => rfl
  | cons i q ih =>
    simp only [trail, h t i .head]
    split
    · rfl
    · cases hn : fmt.next (m t i) with
      | none => rfl
      | some f => simp only [Option.bind_some, ih fun g j hr => h g j (.cons hn hr)]

/-- The way to a table is the head of every trail through it. -/
theorem trail_append (h : descend fmt m t p = some f) (hq : q ≠ []) :
    ∃ es, es.length = p.length ∧ trail fmt m t (p ++ q) = (trail fmt m f q).map (es ++ ·) ∧
      ∀ e ∈ es, ∃ r g j, r.length < p.length ∧ descend fmt m t r = some g ∧ e = m g j ∧ ∃ g', fmt.next e = some g' := by
  induction p generalizing t with
  | nil =>
    simp only [descend, Option.some.injEq] at h
    exact ⟨[], rfl, by simp [h], nofun⟩
  | cons i p ih =>
    simp only [descend, Option.bind_eq_some_iff] at h
    obtain ⟨g, hg, hf⟩ := h
    obtain ⟨es, hlen, htrail, hes⟩ := ih hf
    have hleaf : fmt.leaf (p ++ q).length (m t i) = false := leaf_of_next hg (by simp [hq])
    refine ⟨m t i :: es, by simp [hlen], ?_, ?_⟩
    · simp only [List.cons_append, trail, hleaf, hg, Bool.false_eq_true, if_false, Option.bind_some, htrail,
        Option.map_map]
      rfl
    · intro e he
      rcases List.mem_cons.mp he with rfl | he
      · exact ⟨[], t, i, by simp, rfl, rfl, g, hg⟩
      · obtain ⟨r, g₁, j, hr, hd, hej, hn⟩ := hes e he
        exact ⟨i :: r, g₁, j, by simpa using hr, by simp [descend, hg, hd], hej, hn⟩

/-! ## Trees -/

/-- No two paths shorter than `n` reach the same table. -/
def Tree (fmt : Format F E) (m : Store F ι E) (root : F) (n : Nat) : Prop :=
  ∀ p q f, p.length < n → q.length < n → descend fmt m root p = some f → descend fmt m root q = some f → p = q

/-- A path through an entry is longer than the way to its table. -/
theorem length_of_through (h : p ++ [i] <+: q) : p.length < q.length := by
  have hlen := h.length_le
  rw [List.length_append, List.length_singleton] at hlen
  omega

theorem Reads.through (hT : Tree fmt m root n) (hp : descend fmt m root p = some t) (hpn : p.length < n)
    (hq : q.length ≤ n) (h : Reads fmt m root q t i) : p ++ [i] <+: q := by
  obtain ⟨p', hp', hd⟩ := h
  have hlen := length_of_through hp'
  rw [hT p p' t hpn (by omega) hp hd]
  exact hp'

/-- What a path reads is in tables reached by shorter paths. -/
theorem Reads.reached (hq : q.length ≤ n) (h : Reads fmt m root q f j) :
    ∃ p, p.length < n ∧ descend fmt m root p = some f := by
  obtain ⟨p, hp, hd⟩ := h
  have hlen := length_of_through hp
  exact ⟨p, by omega, hd⟩

/-- Entry `i` of the table `t`, which is not one of the last, names the table `f`. -/
def Names (fmt : Format F E) (m : Store F ι E) (root : F) (n : Nat) (t : F) (i : ι) (f : F) : Prop :=
  ∃ p, p.length + 1 < n ∧ descend fmt m root p = some t ∧ fmt.next (m t i) = some f

/-- A table other than the root is named. -/
theorem names_of_reached (hp : p ≠ []) (hlen : p.length < n) (hf : descend fmt m root p = some f) :
    ∃ t i, Names fmt m root n t i f := by
  obtain ⟨q, i, rfl⟩ : ∃ q i, p = q ++ [i] := ⟨p.dropLast, p.getLast hp, (List.dropLast_append_getLast hp).symm⟩
  rw [descend_snoc, Option.bind_eq_some_iff] at hf
  obtain ⟨t, ht, hn⟩ := hf
  simp only [List.length_append, List.length_singleton] at hlen
  exact ⟨t, i, q, hlen, ht, hn⟩

theorem Names.descend (h : Names fmt m root n t i f) :
    ∃ p, p.length + 1 < n ∧ descend fmt m root p = some t ∧ descend fmt m root (p ++ [i]) = some f := by
  obtain ⟨p, hp, ht, hn⟩ := h
  exact ⟨p, hp, ht, by rw [descend_snoc, ht, Option.bind_some, hn]⟩

/-- In a tree one entry names a table. -/
theorem Tree.named_once {t' : F} {i' : ι} (hT : Tree fmt m root n) (h : Names fmt m root n t i f)
    (h' : Names fmt m root n t' i' f) : t = t' ∧ i = i' := by
  obtain ⟨p, hp, ht, hf⟩ := h.descend
  obtain ⟨q, hq, ht', hf'⟩ := h'.descend
  have he := hT _ _ f (by simpa using hp) (by simpa using hq) hf hf'
  obtain ⟨rfl, hi⟩ := List.append_inj' he rfl
  exact ⟨Option.some.inj (ht.symm.trans ht'), List.singleton_inj.mp hi⟩

theorem Tree.root_not_named (hT : Tree fmt m root n) : ¬ Names fmt m root n t i root := by
  intro h
  obtain ⟨p, hp, -, hf⟩ := h.descend
  have he := hT _ [] root (by simpa using hp) (by simp only [List.length_nil]; omega) hf rfl
  simp at he

/-- What linking the blank table `f` by entry `e` at `(t, i)` needs. -/
structure Links (fmt : Format F E) (m : Store F ι E) (root : F) (n : Nat) (p : List ι) (t : F) (i : ι)
    (e : E) (f : F) : Prop where
  tree : Tree fmt m root n
  parent : descend fmt m root p = some t
  short : p.length + 1 < n
  was : fmt.Blank (m t i)
  names : fmt.next e = some f
  fresh : ∀ q, q.length < n → descend fmt m root q ≠ some f
  blank : ∀ j, fmt.Blank (m f j)

theorem Links.ne (h : Links fmt m root n p t i e f) : f ≠ t := fun he =>
  h.fresh p (by have := h.short; omega) (he ▸ h.parent)

/-- Before, no walk ended below the entry. -/
theorem Links.walk_through (h : Links fmt m root n p t i e f) (r : List ι) : walk fmt m root (p ++ [i] ++ r) = none := by
  rw [List.append_assoc, walk_append h.parent (by simp), List.singleton_append, walk, h.was.leaf, h.was.next]
  rfl

/-- All paths of length `n` end in `m'` where they do in `m`, by the same entries. -/
def Alike (fmt : Format F E) (m m' : Store F ι E) (root : F) (n : Nat) : Prop :=
  ∀ q, q.length = n → walk fmt m' root q = walk fmt m root q ∧ trail fmt m' root q = trail fmt m root q

/-! ## Filling a table -/

section Fill

variable [DecidableEq F]

theorem fill_ne (h : f ≠ t) : m.fill t e f j = m f j := by simp [Store.fill, h]

theorem fill_agrees (hfresh : ∀ q, q.length < n → descend fmt m root q ≠ some f) (hq : q.length ≤ n) :
    ∀ g j, Reads fmt m root q g j → m.fill f z g j = m g j := by
  intro g j hr
  apply fill_ne
  rintro rfl
  obtain ⟨p, hp, hd⟩ := hr.reached hq
  exact hfresh p hp hd

theorem descend_fill (hfresh : ∀ q, q.length < n → descend fmt m root q ≠ some f) (hq : q.length ≤ n) :
    descend fmt (m.fill f z) root q = descend fmt m root q :=
  descend_congr (fill_agrees hfresh hq)

theorem walk_fill (hfresh : ∀ q, q.length < n → descend fmt m root q ≠ some f) (hq : q.length ≤ n) :
    walk fmt (m.fill f z) root q = walk fmt m root q :=
  walk_congr (fill_agrees hfresh hq)

theorem Tree.fill (hT : Tree fmt m root n) (hfresh : ∀ q, q.length < n → descend fmt m root q ≠ some f) :
    Tree fmt (m.fill f z) root n := by
  intro p q g hp hq hdp hdq
  rw [descend_fill hfresh hp.le] at hdp
  rw [descend_fill hfresh hq.le] at hdq
  exact hT p q g hp hq hdp hdq

end Fill

/-! ## Writing an entry -/

section Set

variable [DecidableEq F] [DecidableEq ι]

@[simp] theorem set_self : m.set t i e t i = e := by simp [Store.set]

theorem set_ne (h : ¬ (f = t ∧ j = i)) : m.set t i e f j = m f j := by simp only [Store.set, h, if_false]

/-- Writing all entries of a table fills it. -/
theorem foldl_set (is : List ι) : is.foldl (fun m i => m.set f i z) m =
    fun g j => if g = f ∧ j ∈ is then z else m g j := by
  induction is generalizing m with
  | nil => simp
  | cons i is ih =>
    rw [List.foldl_cons, ih]
    funext g j
    by_cases hg : g = f <;> by_cases hj : j = i <;> simp [Store.set, hg, hj]

/-- Writing in a table no path reaches shows on no path. -/
theorem set_unreached (hfresh : ∀ q, q.length < n → descend fmt m root q ≠ some f) (hq : q.length ≤ n) :
    ∀ g j, Reads fmt m root q g j → m.set f i e g j = m g j := by
  intro g j hr
  apply set_ne
  rintro ⟨rfl, rfl⟩
  obtain ⟨p, hp, hd⟩ := hr.reached hq
  exact hfresh p hp hd

theorem alike_set_unreached (hfresh : ∀ q, q.length < n → descend fmt m root q ≠ some f) :
    Alike fmt m (m.set f i e) root n := fun _ hq =>
  ⟨walk_congr (set_unreached hfresh hq.le), trail_congr (set_unreached hfresh hq.le)⟩

theorem set_agrees (hT : Tree fmt m root n) (hp : descend fmt m root p = some t) (hpn : p.length < n)
    (hq : q.length ≤ n) (hne : ¬ p ++ [i] <+: q) :
    ∀ f j, Reads fmt m root q f j → m.set t i e f j = m f j := by
  intro f j hr
  apply set_ne
  rintro ⟨rfl, rfl⟩
  exact hne (hr.through hT hp hpn hq)

/-- A path not through a written entry reaches what it did. -/
theorem descend_set (hT : Tree fmt m root n) (hp : descend fmt m root p = some t) (hpn : p.length < n)
    (hq : q.length ≤ n) (hne : ¬ p ++ [i] <+: q) :
    descend fmt (m.set t i e) root q = descend fmt m root q :=
  descend_congr (set_agrees hT hp hpn hq hne)

theorem walk_set (hT : Tree fmt m root n) (hp : descend fmt m root p = some t) (hpn : p.length < n)
    (hq : q.length ≤ n) (hne : ¬ p ++ [i] <+: q) :
    walk fmt (m.set t i e) root q = walk fmt m root q :=
  walk_congr (set_agrees hT hp hpn hq hne)

/-- The way to a written entry is not changed by it. -/
theorem descend_set_self (hT : Tree fmt m root n) (hp : descend fmt m root p = some t) (hpn : p.length < n) :
    descend fmt (m.set t i e) root p = some t := by
  rw [descend_set hT hp hpn hpn.le, hp]
  intro h
  exact absurd (length_of_through h) (lt_irrefl _)

/-- Naming an unreached table leads to it, whatever is then written in it. -/
theorem descend_relink (hT : Tree fmt m root n) (hp : descend fmt m root p = some t) (hpn : p.length < n)
    (hfresh : ∀ q, q.length < n → descend fmt m root q ≠ some f) (hn : fmt.next e = some f) :
    descend fmt ((m.set t i e).set f j z) root (p ++ [i]) = some f := by
  have htf : t ≠ f := fun he => hfresh p hpn (he ▸ hp)
  have hway : descend fmt ((m.set t i e).set f j z) root p = some t := by
    rw [← descend_set_self (i := i) (e := e) hT hp hpn]
    refine descend_congr fun g k hg => set_ne ?_
    intro he
    obtain ⟨q, hq, hd⟩ := hg.reached (le_refl p.length)
    have hnot : ¬ p ++ [i] <+: q := by
      intro hpq
      have := length_of_through hpq
      omega
    rw [descend_set hT hp hpn (by omega) hnot] at hd
    exact hfresh q (by omega) (he.1 ▸ hd)
  rw [descend_snoc, hway, Option.bind_some, set_ne fun he => htf he.1, set_self, hn]

/-! ### The last tables -/

theorem descend_set_last (hT : Tree fmt m root n) (hp : descend fmt m root p = some t) (hlen : p.length + 1 = n)
    (hq : q.length < n) : descend fmt (m.set t i e) root q = descend fmt m root q := by
  apply descend_set hT hp (by omega) hq.le
  intro h
  have := length_of_through h
  omega

theorem Tree.set_last (hT : Tree fmt m root n) (hp : descend fmt m root p = some t) (hlen : p.length + 1 = n) :
    Tree fmt (m.set t i e) root n := by
  intro q r f hq hr hdq hdr
  rw [descend_set_last hT hp hlen hq] at hdq
  rw [descend_set_last hT hp hlen hr] at hdr
  exact hT q r f hq hr hdq hdr

theorem walk_set_last (hT : Tree fmt m root n) (hp : descend fmt m root p = some t) (hlen : p.length + 1 = n) :
    walk fmt (m.set t i e) root (p ++ [i]) = if fmt.leaf 0 e then some ⟨t, i, 0, e⟩ else none := by
  have hd := descend_set_self (i := i) (e := e) hT hp (by omega)
  rw [walk_append hd (by simp)]
  simp only [walk, List.length_nil, set_self]
  split
  · rfl
  · cases fmt.next e <;> rfl

theorem trail_set_last (hT : Tree fmt m root n) (hp : descend fmt m root p = some t) (hlen : p.length + 1 = n)
    (he : fmt.leaf 0 e = true) : ∃ es, es.length = p.length ∧ trail fmt (m.set t i e) root (p ++ [i]) = some (es ++ [e]) ∧
      ∀ x ∈ es, ∃ r g j, r.length < p.length ∧ descend fmt (m.set t i e) root r = some g ∧ x = m.set t i e g j ∧
        ∃ g', fmt.next x = some g' := by
  have hd := descend_set_self (i := i) (e := e) hT hp (by omega)
  obtain ⟨es, hes, htrail, hall⟩ := trail_append hd (q := [i]) (by simp)
  exact ⟨es, hes, by simp [htrail, trail, he], hall⟩

/-- A path not through a written entry ends where it did. -/
theorem ends_set (hT : Tree fmt m root n) (hp : descend fmt m root p = some t) (hpn : p.length < n)
    (hq : q.length ≤ n) (hne : ¬ p ++ [i] <+: q) : walk fmt (m.set t i e) root q = walk fmt m root q ∧
      trail fmt (m.set t i e) root q = trail fmt m root q :=
  ⟨walk_set hT hp hpn hq hne, trail_congr (set_agrees hT hp hpn hq hne)⟩

/-! ### Linking -/

variable (h : Links fmt m root n p t i e f)
include h

theorem Links.descend_link : descend fmt (m.set t i e) root (p ++ [i]) = some f := by
  have hshort := h.short
  rw [descend_snoc, descend_set_self h.tree h.parent (by omega), Option.bind_some, set_self, h.names]

/-- Below the linked table nothing is reached, and nothing was. -/
theorem Links.descend_below (r : List ι) (j : ι) :
    descend fmt (m.set t i e) root (p ++ [i] ++ j :: r) = none ∧
      descend fmt m root (p ++ [i] ++ j :: r) = none := by
  constructor
  · rw [descend_append, h.descend_link, Option.bind_some, descend, set_ne (fun he => h.ne he.1), (h.blank j).next]
    rfl
  · rw [descend_append, descend_snoc, h.parent, Option.bind_some, h.was.next]
    rfl

/-- Linking reaches the new table, and no other path changes. -/
theorem Links.descend_eq (hq : q.length ≤ n) :
    (q = p ++ [i] ∧ descend fmt (m.set t i e) root q = some f) ∨
      (q ≠ p ++ [i] ∧ descend fmt (m.set t i e) root q = descend fmt m root q) := by
  have hshort := h.short
  by_cases hthrough : p ++ [i] <+: q
  · obtain ⟨r, rfl⟩ := hthrough
    cases r with
    | nil => exact .inl ⟨by simp, by rw [List.append_nil]; exact h.descend_link⟩
    | cons j r =>
      obtain ⟨h1, h2⟩ := h.descend_below r j
      exact .inr ⟨by simp, h1.trans h2.symm⟩
  · refine .inr ⟨fun he => hthrough (he ▸ List.prefix_rfl), ?_⟩
    exact descend_set h.tree h.parent (by omega) hq hthrough

theorem Tree.link : Tree fmt (m.set t i e) root n := by
  intro q r g hq hr hdq hdr
  rcases h.descend_eq hq.le with ⟨rfl, hq'⟩ | ⟨_, hq'⟩ <;> rcases h.descend_eq hr.le with ⟨rfl, hr'⟩ | ⟨_, hr'⟩
  · rfl
  · rw [hq'] at hdq
    rw [hr', ← hdq] at hdr
    exact absurd hdr (h.fresh r hr)
  · rw [hr'] at hdr
    rw [hq', ← hdr] at hdq
    exact absurd hdq (h.fresh q hq)
  · rw [hq'] at hdq
    rw [hr'] at hdr
    exact h.tree q r g hq hr hdq hdr

/-- Linking a blank table changes no full walk. -/
theorem Links.walk_eq (hq : q.length = n) : walk fmt (m.set t i e) root q = walk fmt m root q := by
  have hshort := h.short
  by_cases hthrough : p ++ [i] <+: q
  · obtain ⟨r, rfl⟩ := hthrough
    cases r with
    | nil => simp only [List.length_append, List.length_singleton, List.append_nil] at hq; omega
    | cons j r =>
      have hnew : walk fmt (m.set t i e) root (p ++ [i] ++ j :: r) = none := by
        rw [walk_append h.descend_link (by simp), walk, set_ne (fun he => h.ne he.1), (h.blank j).leaf,
          (h.blank j).next]
        rfl
      rw [hnew, h.walk_through]
  · exact walk_set h.tree h.parent (by omega) hq.le hthrough

/-- Nor a trail. -/
theorem Links.alike : Alike fmt m (m.set t i e) root n := by
  have hshort := h.short
  intro q hq
  refine ⟨h.walk_eq hq, ?_⟩
  by_cases hthrough : p ++ [i] <+: q
  · obtain ⟨r, rfl⟩ := hthrough
    rw [trail_eq_none_iff.mpr (h.walk_through r), trail_eq_none_iff, h.walk_eq hq, h.walk_through r]
  · exact (ends_set h.tree h.parent (by omega) hq.le hthrough).2

end Set

end Radix
