import Mathlib.Data.List.Basic

/-!
# Cells under keys

A system holds one cell for each key, and an input has a key. `Cells` says that
a step on an input is a step of the cell under its key, which reads nothing but
this cell, and that the other cells stay.

* `run_filter`: the run over the inputs with one key alone leaves the same cell
  under it and gives the same outputs for it;
* `run_absent`: a cell whose key does not occur stays.
-/

namespace Tfcgi.Keyed

/-- A system of cells of type `τ`; a step that is `none` ends the run. -/
structure Cells (ι κ σ τ ω : Type) where
  key : ι → κ
  view : σ → κ → τ
  step : σ → ι → Option (σ × ω)
  /-- the step of one cell -/
  cell : τ → ι → Option (τ × ω)
  own : ∀ s x, (step s x).map (fun r => (view r.1 (key x), r.2)) = cell (view s (key x)) x
  other : ∀ {s x s' o}, step s x = some (s', o) → ∀ k, k ≠ key x → view s' k = view s k

namespace Cells

variable {ι κ σ τ ω : Type} [DecidableEq κ] (K : Cells ι κ σ τ ω)

/-- The last state and the outputs, each with its key. -/
def run : σ → List ι → Option (σ × List (κ × ω))
  | s, [] => some (s, [])
  | s, x :: xs =>
    (K.step s x).bind fun r => (run r.1 xs).map fun q => (q.1, (K.key x, r.2) :: q.2)

/-- The inputs with the key `k`. -/
def only (k : κ) (xs : List ι) : List ι := xs.filter fun x => K.key x = k

/-- The outputs for the key `k`. -/
def outputs (k : κ) (os : List (κ × ω)) : List ω :=
  os.filterMap fun o => if o.1 = k then some o.2 else none

omit [DecidableEq κ] in
theorem run_cons {s s' : σ} {x : ι} {xs : List ι} {os : List (κ × ω)} :
    K.run s (x :: xs) = some (s', os) ↔ ∃ s₁ o os₁, K.step s x = some (s₁, o) ∧
      K.run s₁ xs = some (s', os₁) ∧ os = (K.key x, o) :: os₁ := by
  simp only [run, Option.bind_eq_some_iff, Option.map_eq_some_iff, Prod.mk.injEq, Prod.exists]
  constructor
  · rintro ⟨s₁, o, hs, s₂, os₁, hr, rfl, rfl⟩
    exact ⟨s₁, o, os₁, hs, hr, rfl⟩
  · rintro ⟨s₁, o, os₁, hs, hr, rfl⟩
    exact ⟨s₁, o, hs, s', os₁, hr, rfl, rfl⟩

omit [DecidableEq κ] in
/-- Equal cells move alike, whatever else the states hold. -/
theorem step_view {s s₁ t : σ} {x : ι} {o : ω} (h : K.step s x = some (s₁, o))
    (hv : K.view s (K.key x) = K.view t (K.key x)) :
    ∃ t₁, K.step t x = some (t₁, o) ∧ K.view t₁ (K.key x) = K.view s₁ (K.key x) := by
  have hs := K.own s x
  have ht := K.own t x
  rw [h, Option.map_some, hv, ← ht] at hs
  obtain ⟨⟨t₁, o'⟩, hstep, he⟩ := Option.map_eq_some_iff.mp hs.symm
  simp only [Prod.mk.injEq] at he
  obtain ⟨hview, rfl⟩ := he
  exact ⟨t₁, hstep, hview⟩

/-- **Cells do not disturb one another.** -/
theorem run_filter (k : κ) {xs : List ι} : ∀ {s s' t : σ} {os : List (κ × ω)},
    K.run s xs = some (s', os) → K.view s k = K.view t k →
      ∃ t' os', K.run t (K.only k xs) = some (t', os') ∧ K.view t' k = K.view s' k ∧
        outputs k os' = outputs k os := by
  induction xs with
  | nil =>
    intro s s' t os h hv
    cases h
    exact ⟨t, [], rfl, hv.symm, rfl⟩
  | cons x xs ih =>
    intro s s' t os h hv
    obtain ⟨s₁, o, os₁, hs, hr, rfl⟩ := K.run_cons.mp h
    by_cases hk : K.key x = k
    · subst hk
      obtain ⟨t₁, ht, hv₁⟩ := K.step_view hs hv
      obtain ⟨t', os', hrun, hv', hos⟩ := ih hr hv₁.symm
      refine ⟨t', (K.key x, o) :: os', ?_, hv', ?_⟩
      · rw [only, List.filter_cons_of_pos (by simp)]
        exact K.run_cons.mpr ⟨t₁, o, os', ht, hrun, rfl⟩
      · simp only [outputs, List.filterMap_cons, if_true] at hos ⊢
        rw [hos]
    · have hv₁ : K.view s₁ k = K.view t k := by
        rw [K.other hs k (Ne.symm hk), hv]
      obtain ⟨t', os', hrun, hv', hos⟩ := ih hr hv₁
      refine ⟨t', os', ?_, hv', ?_⟩
      · rw [only, List.filter_cons_of_neg (by simpa using hk)]
        exact hrun
      · rw [hos]
        simp only [outputs, List.filterMap_cons, hk, if_false]

omit [DecidableEq κ] in
theorem run_absent (k : κ) {xs : List ι} (hk : ∀ x ∈ xs, K.key x ≠ k) :
    ∀ {s s' : σ} {os : List (κ × ω)}, K.run s xs = some (s', os) → K.view s' k = K.view s k := by
  induction xs with
  | nil =>
    intro s s' os h
    cases h
    rfl
  | cons x xs ih =>
    intro s s' os h
    simp only [List.mem_cons, forall_eq_or_imp] at hk
    obtain ⟨s₁, o, os₁, hs, hr, rfl⟩ := K.run_cons.mp h
    rw [ih hk.2 hr, K.other hs k (Ne.symm hk.1)]

end Cells

end Tfcgi.Keyed
