import Tfcgi.Lib.Run

/-!
# What runs show

* `run_matched`: where each step of a system is matched by a run of another one that
  shows the same, so is each run.
-/

namespace Tfcgi.Lib

open Tfcgi.Run

variable {σ τ α β ω : Type}

/-- What the steps of a run show, in order. -/
def trace (step : σ → α → Option σ) (shows : σ → α → List ω) : σ → List α → List ω
  | _, [] => []
  | s, a :: as =>
    match step s a with
    | none => []
    | some s' => shows s a ++ trace step shows s' as

variable {step : σ → α → Option σ} {shows : σ → α → List ω}
variable {step' : τ → β → Option τ} {shows' : τ → β → List ω} {R : σ → τ → Prop}

theorem trace_cons {s s' : σ} {a : α} (h : step s a = some s') (as : List α) :
    trace step shows s (a :: as) = shows s a ++ trace step shows s' as := by
  simp only [trace, h]

theorem trace_append {s s' : σ} {as : List α} (h : run step s as = some s') (bs : List α) :
    trace step shows s (as ++ bs) = trace step shows s as ++ trace step shows s' bs := by
  induction as generalizing s with
  | nil =>
    cases h
    rfl
  | cons a as ih =>
    obtain ⟨s₁, hs, hrest⟩ := run_cons h
    rw [List.cons_append, trace_cons hs, trace_cons hs, ih hrest, List.append_assoc]

theorem run_matched
    (hstep : ∀ s t a s', R s t → step s a = some s' → ∃ bs t', run step' t bs = some t' ∧
      R s' t' ∧ trace step' shows' t bs = shows s a)
    {s u : σ} {t : τ} {as : List α} (hr : R s t) (h : run step s as = some u) :
    ∃ bs v, run step' t bs = some v ∧ R u v ∧
      trace step' shows' t bs = trace step shows s as := by
  induction as generalizing s t with
  | nil =>
    cases h
    exact ⟨[], t, rfl, hr, rfl⟩
  | cons a as ih =>
    obtain ⟨s', hs, hrest⟩ := run_cons h
    obtain ⟨bs, t', ht, hr', htrace⟩ := hstep s t a s' hr hs
    obtain ⟨bs', v, hv, hr'', htrace'⟩ := ih hr' hrest
    refine ⟨bs ++ bs', v, run_append.mpr ⟨t', ht, hv⟩, hr'', ?_⟩
    rw [trace_append ht, trace_cons hs, htrace, htrace']

end Tfcgi.Lib
