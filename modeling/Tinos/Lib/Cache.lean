/-
A cache of what a lookup in a memory answers, filled at any moment.

A program's effects change the memory or drop cached keys, one after the
other; before, between and after them the cache may take in what the lookup
answers at that moment (`Executes`). `Keeps` is a logic of what is coherent
before and after a list of effects: `Keeps.executes` says it holds of every
execution, `Quiet.keeps` that effects which change no answer keep all there
is, and `keeps_update` that a key whose answer changes is coherent again once
it is dropped.
-/
import Mathlib.Logic.Function.Basic

namespace Cache

/-- What the lookup answers, and what an effect does to the memory and to the
cache. -/
structure Spec (M K V E : Type) where
  look : M → K → Option V
  write : E → M → M
  drops : E → K → Bool

structure State (M K V : Type) where
  mem : M
  cached : K → Option V

variable {M K V E : Type} (spec : Spec M K V E)

def State.effect (c : State M K V) (e : E) : State M K V :=
  ⟨spec.write e c.mem, fun k => if spec.drops e k then none else c.cached k⟩

def State.fill [DecidableEq K] (c : State M K V) (k : K) (v : V) : State M K V :=
  { c with cached := Function.update c.cached k (some v) }

/-- The effects take place in order, with any fills around them. -/
inductive Executes [DecidableEq K] : State M K V → List E → State M K V → Prop
  | done : Executes c [] c
  | fill : spec.look c.mem k = some v → Executes (c.fill k v) es c' → Executes c es c'
  | effect : Executes (c.effect spec e) es c' → Executes c (e :: es) c'

/-- What is cached of the keys of `P` is what the lookup answers. -/
def Coherent (P : K → Prop) (c : State M K V) : Prop :=
  ∀ k v, P k → c.cached k = some v → spec.look c.mem k = some v

/-- The effects lead from `m` to `m'`, and from coherence of the keys of `P`
to that of the keys of `Q`. -/
inductive Keeps : M → (K → Prop) → List E → (K → Prop) → M → Prop
  | nil : Keeps m P [] P m
  | cons : (∀ k, Q k → spec.drops e k = true ∨ P k ∧ spec.look (spec.write e m) k = spec.look m k) →
      Keeps (spec.write e m) Q es R m' → Keeps m P (e :: es) R m'

/-- The effects lead from `m` to `m'`, and none of them changes an answer. -/
inductive Quiet : M → List E → M → Prop
  | nil : Quiet m [] m
  | cons : (∀ k, spec.look (spec.write e m) k = spec.look m k) → Quiet (spec.write e m) es m' → Quiet m (e :: es) m'

variable {spec} {m m' m'' : M} {P Q R : K → Prop} {es fs : List E} {e f : E} {k : K} {v : V} {c c' : State M K V}

/-! ## Executions -/

theorem Coherent.effect (h : Coherent spec P c)
    (hQ : ∀ k, Q k → spec.drops e k = true ∨ P k ∧ spec.look (spec.write e c.mem) k = spec.look c.mem k) :
    Coherent spec Q (c.effect spec e) := by
  intro k v hk hv
  simp only [State.effect] at hv ⊢
  rcases hQ k hk with hdrop | ⟨hP, hlook⟩
  · rw [if_pos hdrop] at hv
    cases hv
  · split at hv
    · cases hv
    · rw [hlook]
      exact h k v hP hv

theorem Coherent.fill [DecidableEq K] (h : Coherent spec P c) (hv : spec.look c.mem k = some v) :
    Coherent spec P (c.fill k v) := by
  intro j w hj hw
  simp only [State.fill, Function.update_apply] at hw ⊢
  by_cases hjk : j = k
  · rw [if_pos hjk] at hw
    rw [hjk, hv, hw]
  · rw [if_neg hjk] at hw
    exact h j w hj hw

/-- The rule of the logic: however the cache is filled. -/
theorem Keeps.executes [DecidableEq K] (h : Executes spec c es c') (hk : Keeps spec c.mem P es Q m')
    (hc : Coherent spec P c) : c'.mem = m' ∧ Coherent spec Q c' := by
  induction h generalizing P with
  | done =>
    cases hk with
    | nil => exact ⟨rfl, hc⟩
  | fill hv _ ih => exact ih hk (hc.fill hv)
  | effect _ ih =>
    cases hk with
    | cons hQ hrest => exact ih hrest (hc.effect hQ)

/-- The effects can take place, with no fill at all. -/
theorem exists_executes [DecidableEq K] (spec : Spec M K V E) (es : List E) (c : State M K V) :
    ∃ c', Executes spec c es c' := by
  induction es generalizing c with
  | nil => exact ⟨c, .done⟩
  | cons e es ih =>
    obtain ⟨c', h⟩ := ih (c.effect spec e)
    exact ⟨c', .effect h⟩

/-! ## Lists of effects -/

theorem Keeps.append (h : Keeps spec m P es Q m') (h' : Keeps spec m' Q fs R m'') : Keeps spec m P (es ++ fs) R m'' := by
  induction h with
  | nil => exact h'
  | cons hQ _ ih => exact .cons hQ (ih h')

theorem Quiet.append (h : Quiet spec m es m') (h' : Quiet spec m' fs m'') : Quiet spec m (es ++ fs) m'' := by
  induction h with
  | nil => exact h'
  | cons hlook _ ih => exact .cons hlook (ih h')

theorem Quiet.look_eq (h : Quiet spec m es m') (k : K) : spec.look m' k = spec.look m k := by
  induction h with
  | nil => rfl
  | cons hlook _ ih => exact ih.trans (hlook k)

theorem Quiet.keeps (h : Quiet spec m es m') : Keeps spec m P es P m' := by
  induction h with
  | nil => exact .nil
  | cons hlook _ ih => exact .cons (fun k hk => .inr ⟨hk, hlook k⟩) ih

/-- One key's answer changes, and then the key is dropped. -/
theorem keeps_update (k : K) (hothers : ∀ j, j ≠ k → spec.look (spec.write e m) j = spec.look m j)
    (hdrop : spec.drops f k = true) (hmem : ∀ m, spec.write f m = m) :
    Keeps spec m (fun _ => True) [e, f] (fun _ => True) (spec.write e m) := by
  refine .cons (Q := (· ≠ k)) (fun j hj => .inr ⟨trivial, hothers j hj⟩) (.cons (Q := fun _ => True) ?_ ?_)
  · intro j _
    by_cases hj : j = k
    · exact .inl (hj ▸ hdrop)
    · exact .inr ⟨hj, by rw [hmem]⟩
  · rw [hmem]
    exact .nil

end Cache
