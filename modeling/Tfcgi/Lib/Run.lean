import Mathlib.Data.List.Basic

/-!
# Runs of a partial step function

`step s a` is the state after action `a`, or `none` when `a` is not enabled in
`s`. A run is a list of actions; an interleaving of several threads is a run
whose actions name the thread that moves.

* `run_invariant`: what holds at the start and is kept by every step holds at
  the end of every run;
* `run_invariant_of_meets`: the same when only the steps that meet a condition
  keep it;
* `meets_congr`: conditions that agree on the steps that can be taken;
* `meets_of_checks`: a condition that can be computed;
* `holds_iff_meets`: when each step keeps a property exactly if it meets a
  condition, a run ends with the property exactly if all its steps meet it;
* `states_iff_meets`: the same for a property that may be regained and all states
  of the run.
-/

namespace Tfcgi.Run

section
variable {σ α : Type} (step : σ → α → Option σ)

def run (s : σ) : List α → Option σ
  | [] => some s
  | a :: as => (step s a).bind fun s' => run s' as

/-- Every step of the run of `as` from `s` is taken in a state that meets `C`. -/
def Meets (C : σ → α → Prop) (s : σ) : List α → Prop
  | [] => True
  | a :: as => C s a ∧ ∀ s', step s a = some s' → Meets C s' as

variable {step}

theorem run_cons {s t : σ} {a : α} {as : List α} (h : run step s (a :: as) = some t) :
    ∃ s', step s a = some s' ∧ run step s' as = some t := by
  simpa [run, Option.bind_eq_some_iff] using h

theorem run_append {s t : σ} {as bs : List α} :
    run step s (as ++ bs) = some t ↔ ∃ m, run step s as = some m ∧ run step m bs = some t := by
  induction as generalizing s with
  | nil => simp [run]
  | cons a as ih =>
    simp only [List.cons_append, run, Option.bind_eq_some_iff, ih]
    constructor
    · rintro ⟨s', hs, m, hm, ht⟩
      exact ⟨m, ⟨s', hs, hm⟩, ht⟩
    · rintro ⟨m, ⟨s', hs, hm⟩, ht⟩
      exact ⟨s', hs, m, hm, ht⟩

theorem run_invariant {I : σ → Prop} {s t : σ} {as : List α} (h0 : I s)
    (hstep : ∀ s a s', I s → step s a = some s' → I s') (h : run step s as = some t) : I t := by
  induction as generalizing s with
  | nil => simp only [run, Option.some.injEq] at h; exact h ▸ h0
  | cons a as ih =>
    obtain ⟨s', hs, ht⟩ := run_cons h
    exact ih (hstep s a s' h0 hs) ht

theorem run_invariant_of_meets {I : σ → Prop} {C : σ → α → Prop} {s t : σ} {as : List α}
    (h0 : I s) (hstep : ∀ s a s', I s → C s a → step s a = some s' → I s')
    (hm : Meets step C s as) (h : run step s as = some t) : I t := by
  induction as generalizing s with
  | nil => simp only [run, Option.some.injEq] at h; exact h ▸ h0
  | cons a as ih =>
    obtain ⟨s', hs, ht⟩ := run_cons h
    exact ih (hstep s a s' h0 hm.1 hs) (hm.2 s' hs) ht

/-- Two conditions that agree on each step that can be taken are met by the same
runs. -/
theorem meets_congr {C D : σ → α → Prop} (hstep : ∀ s a s', step s a = some s' → (C s a ↔ D s a))
    {s t : σ} {as : List α} (h : run step s as = some t) :
    Meets step C s as ↔ Meets step D s as := by
  induction as generalizing s with
  | nil => rfl
  | cons a as ih =>
    obtain ⟨s', hs, ht⟩ := run_cons h
    simp only [Meets, hs, Option.some.injEq, forall_eq', hstep s a s' hs, ih ht]

theorem Meets.last {C : σ → α → Prop} {s t : σ} {as : List α} {a : α}
    (hm : Meets step C s (as ++ [a])) (h : run step s as = some t) : C t a := by
  induction as generalizing s with
  | nil =>
    cases h
    exact hm.1
  | cons b as ih =>
    obtain ⟨s', hs, ht⟩ := run_cons h
    exact ih (hm.2 s' hs) ht

/-- `check` holds at every step of the run. -/
def checks (step : σ → α → Option σ) (check : σ → α → Bool) (s : σ) : List α → Bool
  | [] => true
  | a :: as => check s a && (step s a).all fun s' => checks step check s' as

theorem meets_of_checks {C : σ → α → Prop} {check : σ → α → Bool} {s : σ} {as : List α}
    (h : ∀ s, ∀ a ∈ as, check s a = true → C s a) (hc : checks step check s as = true) :
    Meets step C s as := by
  induction as generalizing s with
  | nil => trivial
  | cons a as ih =>
    rw [checks, Bool.and_eq_true] at hc
    refine ⟨h s a List.mem_cons_self hc.1, ?_⟩
    intro s' hs
    rw [hs] at hc
    exact ih (fun t b hb => h t b (List.mem_cons_of_mem a hb)) hc.2

/-- `Inv` is an invariant of all steps; under it a step keeps `Good` exactly if
it meets `C`, and `Good` is never regained. -/
theorem holds_iff_meets {Inv Good : σ → Prop} {C : σ → α → Prop}
    (hinv : ∀ s a s', Inv s → step s a = some s' → Inv s')
    (hgood : ∀ s a s', Inv s → step s a = some s' → (Good s' ↔ Good s ∧ C s a))
    {s t : σ} {as : List α} (h0 : Inv s) (h : run step s as = some t) :
    Good t ↔ Good s ∧ Meets step C s as := by
  induction as generalizing s with
  | nil =>
    simp only [run, Option.some.injEq] at h
    simp [Meets, h]
  | cons a as ih =>
    obtain ⟨s', hs, ht⟩ := run_cons h
    rw [ih (hinv s a s' h0 hs) ht, hgood s a s' h0 hs]
    simp only [Meets, hs, Option.some.injEq, forall_eq', and_assoc]

/-- When each step out of a good state leads to a good one exactly if it meets `C`, all
states of a run are good exactly if all its steps meet `C`. -/
theorem states_iff_meets {Good : σ → Prop} {C : σ → α → Prop}
    (hgood : ∀ s a s', Good s → step s a = some s' → (Good s' ↔ C s a))
    {s t : σ} {as : List α} (h0 : Good s) (h : run step s as = some t) :
    (∀ as₁ as₂ m, as = as₁ ++ as₂ → run step s as₁ = some m → Good m) ↔ Meets step C s as := by
  induction as generalizing s with
  | nil =>
    simp only [Meets, iff_true]
    intro as₁ as₂ m has hm
    obtain rfl : as₁ = [] := (List.append_eq_nil_iff.mp has.symm).1
    cases hm
    exact h0
  | cons a as ih =>
    obtain ⟨s', hs, ht⟩ := run_cons h
    simp only [Meets, hs, Option.some.injEq, forall_eq']
    constructor
    · intro hall
      have hs' : Good s' := hall [a] as s' rfl (by simp [run, hs])
      refine ⟨(hgood s a s' h0 hs).mp hs', (ih hs' ht).mp ?_⟩
      rintro as₁ as₂ m rfl hm
      exact hall (a :: as₁) as₂ m rfl (by simp [run, hs, hm])
    · rintro ⟨hc, hm⟩ as₁ as₂ m has hrun
      cases as₁ with
      | nil =>
        cases hrun
        exact h0
      | cons b as₁ =>
        simp only [List.cons_append, List.cons.injEq] at has
        obtain ⟨rfl, rfl⟩ := has
        simp only [run, hs, Option.bind_some] at hrun
        exact (ih ((hgood s a s' h0 hs).mpr hc) ht).mpr hm as₁ as₂ m rfl hrun

end

end Tfcgi.Run
