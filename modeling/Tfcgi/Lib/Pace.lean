import Tfcgi.Lib.Run

/-!
# Runs at another pace

Two runs of one step function take some actions together and others one before the
other. `x` says by how much the second run is ahead of the first.

* `run_paced`: where each kind of action keeps a relation between the two states, the
  second list of actions is a run and ends in a state that is related.
-/

namespace Tfcgi.Lib

open Tfcgi.Run

variable {σ α χ : Type}

/-- `Both`, `Early` and `Late` say how the lead changes when both runs take an action,
the second alone or the first alone; `z` is the lead at the end. -/
inductive Paced (Both Early Late : χ → α → χ → Prop) (z : χ) : χ → List α → List α → Prop where
  | done : Paced Both Early Late z z [] []
  | both {x y : χ} {as bs : List α} (a : α) (moves : Both x a y)
      (rest : Paced Both Early Late z y as bs) : Paced Both Early Late z x (a :: as) (a :: bs)
  | early {x y : χ} {as bs : List α} (b : α) (moves : Early x b y)
      (rest : Paced Both Early Late z y as bs) : Paced Both Early Late z x as (b :: bs)
  | late {x y : χ} {as bs : List α} (a : α) (moves : Late x a y)
      (rest : Paced Both Early Late z y as bs) : Paced Both Early Late z x (a :: as) bs

variable {step : σ → α → Option σ} {R : χ → σ → σ → Prop} {Both Early Late : χ → α → χ → Prop}

theorem Paced.same {x : χ} {as : List α} (h : ∀ a ∈ as, Both x a x) :
    Paced Both Early Late x x as as := by
  induction as with
  | nil => exact .done
  | cons a as ih =>
    rw [List.forall_mem_cons] at h
    exact .both a h.1 (ih h.2)

/-- In the second run an action may depend on what is still to come in the first. -/
theorem run_paced {z : χ}
    (hboth : ∀ x y a s t s', R x s t → Both x a y → step s a = some s' →
      ∃ t', step t a = some t' ∧ R y s' t')
    (hearly : ∀ x y b s t u as bs, R x s t → Early x b y → Paced Both Early Late z y as bs →
      run step s as = some u → ∃ t', step t b = some t' ∧ R y s t')
    (hlate : ∀ x y a s t s', R x s t → Late x a y → step s a = some s' → R y s' t)
    {x : χ} {as bs : List α} (h : Paced Both Early Late z x as bs) {s t u : σ} (hr : R x s t)
    (hs : run step s as = some u) : ∃ v, run step t bs = some v ∧ R z u v := by
  induction h generalizing s t with
  | done =>
    cases hs
    exact ⟨t, rfl, hr⟩
  | both a moves rest ih =>
    obtain ⟨s', hstep, hrest⟩ := run_cons hs
    obtain ⟨t', ht, hr'⟩ := hboth _ _ a s t s' hr moves hstep
    obtain ⟨v, hv, hz⟩ := ih hr' hrest
    exact ⟨v, by rw [run, ht, Option.bind_some, hv], hz⟩
  | early b moves rest ih =>
    obtain ⟨t', ht, hr'⟩ := hearly _ _ b s t u _ _ hr moves rest hs
    obtain ⟨v, hv, hz⟩ := ih hr' hs
    exact ⟨v, by rw [run, ht, Option.bind_some, hv], hz⟩
  | late a moves rest ih =>
    obtain ⟨s', hstep, hrest⟩ := run_cons hs
    exact ih (hlate _ _ a s t s' hr moves hstep) hrest

end Tfcgi.Lib
