import Tfcgi.Lib.Run

/-!
# Runs that come to rest

A run whose steps all meet a condition is finite when each such step lowers a rank.
`Rests` are the states in which none of these steps is enabled.

* `length_le_rank`: the rank bounds the length of the run;
* `exists_rest`: every state can be brought to rest.
-/

namespace Tfcgi.Descent

open Tfcgi.Run

variable {σ α : Type} {step : σ → α → Option σ} {C : σ → α → Prop} {I : σ → Prop} {rank : σ → Nat}

/-- No action that meets `C` is enabled. -/
def Rests (step : σ → α → Option σ) (C : σ → α → Prop) (s : σ) : Prop :=
  ∀ a, C s a → step s a = none

theorem length_le_rank (hinv : ∀ s a s', I s → C s a → step s a = some s' → I s')
    (hrank : ∀ s a s', I s → C s a → step s a = some s' → rank s' < rank s)
    {s t : σ} {as : List α} (h0 : I s) (hm : Meets step C s as) (h : run step s as = some t) :
    as.length + rank t ≤ rank s := by
  induction as generalizing s with
  | nil =>
    cases h
    simp
  | cons a as ih =>
    obtain ⟨s', hs, ht⟩ := run_cons h
    have hlt := hrank s a s' h0 hm.1 hs
    have hle := ih (hinv s a s' h0 hm.1 hs) (hm.2 s' hs) ht
    simp only [List.length_cons]
    omega

theorem exists_rest (hinv : ∀ s a s', I s → C s a → step s a = some s' → I s')
    (hrank : ∀ s a s', I s → C s a → step s a = some s' → rank s' < rank s) {s : σ} (h0 : I s) :
    ∃ as t, Meets step C s as ∧ run step s as = some t ∧ Rests step C t := by
  induction hn : rank s using Nat.strongRecOn generalizing s with
  | ind n ih =>
    by_cases hr : Rests step C s
    · exact ⟨[], s, trivial, rfl, hr⟩
    · simp only [Rests, not_forall] at hr
      obtain ⟨a, hc, hs⟩ := hr
      obtain ⟨s', hs⟩ := Option.ne_none_iff_exists'.mp hs
      have hlt := hrank s a s' h0 hc hs
      obtain ⟨as, t, hm, ht, hrest⟩ := ih (rank s') (hn ▸ hlt) (hinv s a s' h0 hc hs) rfl
      refine ⟨a :: as, t, ⟨hc, ?_⟩, ?_, hrest⟩
      · intro s'' hs''
        rw [hs] at hs''
        cases hs''
        exact hm
      · rw [run, hs, Option.bind_some, ht]

end Tfcgi.Descent
