/-
Runs of a labelled transition relation, and the rules a proof about whole
runs uses: what every step keeps holds at the end of every run
(`Steps.invariant`), a run of one system is explained by a run of another
(`Steps.simulate`), a loop or list of calls none of which fails does not fail
(`foldlM_total`), and calls that are steps make a run (`foldlM_steps`).

`outputs` is what a machine answers, call by call, and `outputs_cons_iff` how
two machines are compared that answer the same.
-/
import Mathlib.Data.List.Induction

namespace Runs

variable {σ τ α β : Type}

/-- `as`, taken in order from `s`, can end in `s'`. -/
inductive Steps (step : σ → α → σ → Prop) (s : σ) : List α → σ → Prop
  | nil : Steps step s [] s
  | snoc : Steps step s as t → step t a u → Steps step s (as ++ [a]) u

variable {step : σ → α → σ → Prop} {astep : τ → β → τ → Prop} {s s' : σ} {as : List α}

/-- What holds at the start and is kept by each step holds after every run. -/
theorem Steps.invariant (I : σ → Prop) (h : Steps step s as s') (h0 : I s)
    (hstep : ∀ t a u, I t → step t a u → I u) : I s' := by
  induction h with
  | nil => exact h0
  | snoc _ ha ih => exact hstep _ _ _ ih ha

/-- A run of steps that all have `P` keeps what such steps keep. -/
theorem Steps.invariant_of (I : σ → Prop) {P : σ → α → Prop}
    (h : Steps (fun t a u => P t a ∧ step t a u) s as s') (h0 : I s)
    (hstep : ∀ t a u, I t → P t a → step t a u → I u) : I s' :=
  h.invariant I h0 fun t a u ht hu => hstep t a u ht hu.1 hu.2

theorem Steps.mono {step' : σ → α → σ → Prop} (h : Steps step s as s') (hstep : ∀ t a u, step t a u → step' t a u) :
    Steps step' s as s' := by
  induction h with
  | nil => exact .nil
  | snoc _ ha ih => exact .snoc ih (hstep _ _ _ ha)

theorem Steps.of_snoc {a : α} {u : σ} (h : Steps step s (as ++ [a]) u) : ∃ t, Steps step s as t ∧ step t a u := by
  generalize hes : as ++ [a] = es at h
  cases h with
  | nil => simp at hes
  | @snoc es t b u hrun hb =>
    obtain ⟨rfl, hab⟩ := List.append_inj' hes rfl
    obtain rfl : a = b := List.singleton_inj.mp hab
    exact ⟨t, hrun, hb⟩

/-- A run passes through the state in which each of its steps was taken. -/
theorem Steps.at {a : α} {bs : List α} {u : σ} (h : Steps step s (as ++ a :: bs) u) :
    ∃ t t', Steps step s as t ∧ step t a t' := by
  induction bs using List.reverseRecOn generalizing u with
  | nil =>
    obtain ⟨t, ht, ha⟩ := h.of_snoc
    exact ⟨t, u, ht, ha⟩
  | append_singleton bs b ih =>
    rw [← List.cons_append, ← List.append_assoc] at h
    obtain ⟨t, ht, -⟩ := h.of_snoc
    exact ih ht

/-- A forward simulation: each step is matched by a step of the other system
under the label `f` gives it, and so is each run. -/
theorem Steps.simulate (R : σ → τ → Prop) (f : α → β) (h : Steps step s as s') {t : τ} (h0 : R s t)
    (hstep : ∀ x y a x', R x y → step x a x' → ∃ y', astep y (f a) y' ∧ R x' y') :
    ∃ t', Steps astep t (as.map f) t' ∧ R s' t' := by
  induction h with
  | nil => exact ⟨t, .nil, h0⟩
  | snoc _ ha ih =>
    obtain ⟨y, hy, hR⟩ := ih
    obtain ⟨y', hy', hR'⟩ := hstep _ _ _ _ hR ha
    exact ⟨y', by rw [List.map_append]; exact .snoc hy hy', hR'⟩

/-- A list of calls, each of which returns and keeps `I` from any state with
`I`, returns and keeps `I`. -/
theorem foldlM_total (I : σ → Prop) {f : σ → α → Option σ} :
    ∀ {as : List α} {s : σ}, I s → (∀ a ∈ as, ∀ s, I s → ∃ s', f s a = some s' ∧ I s') →
      ∃ s', as.foldlM f s = some s' ∧ I s'
  | [], s, h, _ => ⟨s, rfl, h⟩
  | a :: as, s, h, hf => by
    obtain ⟨t, ht, hI⟩ := hf a (by simp) s h
    obtain ⟨u, hu, hI'⟩ := foldlM_total I hI fun b hb => hf b (List.mem_cons_of_mem a hb)
    refine ⟨u, ?_, hI'⟩
    rw [List.foldlM_cons, ht]
    exact hu

/-- A list of calls that returns is a run, where each call is a step. -/
theorem foldlM_steps {f : σ → α → Option σ} (hf : ∀ s a s', f s a = some s' → step s a s')
    (h : as.foldlM f s = some s') : Steps step s as s' := by
  induction as using List.reverseRecOn generalizing s' with
  | nil => rw [← Option.some.inj h]; exact .nil
  | append_singleton as a ih =>
    rw [List.foldlM_append, Option.bind_eq_bind, Option.bind_eq_some_iff] at h
    obtain ⟨t, ht, ha⟩ := h
    rw [List.foldlM_cons, Option.bind_eq_bind, Option.bind_eq_some_iff] at ha
    obtain ⟨u, hu, hs'⟩ := ha
    rw [List.foldlM_nil] at hs'
    exact .snoc (ih ht) (hf _ _ _ (hu.trans hs'))

/-- A counting loop whose every pass is known goes from the first state to the
last. -/
theorem foldlM_range' {f : σ → Nat → Option σ} (P : Nat → σ) {a n : Nat}
    (h : ∀ k, a ≤ k → k < a + n → f (P k) k = some (P (k + 1))) :
    (List.range' a n).foldlM f (P a) = some (P (a + n)) := by
  induction n generalizing a with
  | zero => rfl
  | succ n ih =>
    rw [List.range'_succ, List.foldlM_cons, h a (Nat.le_refl a) (by omega)]
    exact (ih fun k hk hk' => h k (by omega) (by omega)).trans (by rw [Nat.add_right_comm, Nat.add_assoc])

theorem foldlM_range {f : σ → Nat → Option σ} (P : Nat → σ) {n : Nat}
    (h : ∀ k, k < n → f (P k) k = some (P (k + 1))) : (List.range n).foldlM f (P 0) = some (P n) := by
  have hloop := foldlM_range' P (a := 0) (n := n) fun k _ hk => h k (by omega)
  rwa [Nat.zero_add, ← List.range_eq_range'] at hloop

/-! ## Answers -/

/-- What a machine answers to each call in turn. -/
def outputs {γ : Type} (f : σ → α → γ × σ) (s : σ) : List α → List γ
  | [] => []
  | a :: as => (f s a).1 :: outputs f (f s a).2 as

/-- Two machines answer alike if they answer the first call alike, and then
the rest. -/
theorem outputs_cons_iff {γ : Type} {f : σ → α → γ × σ} {g : τ → α → γ × τ} {t : τ} {a : α} :
    outputs f s (a :: as) = outputs g t (a :: as) ↔
      (f s a).1 = (g t a).1 ∧ outputs f (f s a).2 as = outputs g (g t a).2 as :=
  List.cons_eq_cons

end Runs
