import Tfcgi.Iostream

/-!
# Code that sends the same

* `Maps`: two pieces of code with the same sends, whose results a function connects.
-/

namespace Tfcgi.Sends

open Tfcgi.Iostream

/-- The same sends, and a result that `f` changes. -/
def Maps {α β : Type} (f : α → β) (m : Tx α) (m' : Tx β) : Prop :=
  ∀ φ, m' φ = ((m φ).1.map f, (m φ).2)

namespace Maps

variable {α β γ : Type}

theorem pure {f : α → β} {a : α} {b : β} (h : b = f a) :
    Maps f (Pure.pure a : Tx α) (Pure.pure b : Tx β) := by
  intro φ
  rw [h]
  rfl

theorem crash (f : α → β) (c : Crash) : Maps f (Tx.crash c) (Tx.crash c) := fun _ => rfl

theorem bind {f : α → β} (m : Tx γ) {g : γ → Tx α} {g' : γ → Tx β} (h : ∀ x, Maps f (g x) (g' x)) :
    Maps f (m >>= g) (m >>= g') := by
  intro φ
  cases hm : m φ with
  | mk result es =>
    cases result with
    | error c =>
      rw [Tx.bind_error hm, Tx.bind_error hm]
      rfl
    | ok x =>
      rw [Tx.bind_ok hm, Tx.bind_ok hm, h x]

theorem comp {f : α → β} {m : Tx α} {m' : Tx β} {δ : Type} {f' : γ → δ} {g : α → Tx γ}
    {g' : β → Tx δ}
    (hm : Maps f m m') (h : ∀ x, Maps f' (g x) (g' (f x))) : Maps f' (m >>= g) (m' >>= g') := by
  intro φ
  have hφ := hm φ
  cases hm : m φ with
  | mk result es =>
    rw [hm] at hφ
    cases result with
    | error c =>
      rw [Tx.bind_error hm, Tx.bind_error hφ]
      rfl
    | ok x =>
      rw [Tx.bind_ok hm, Tx.bind_ok hφ, h x]

theorem after {f : α → β} (m : Tx α) {g : α → Tx β} (h : ∀ x, g x = Pure.pure (f x)) :
    Maps f m (m >>= g) := by
  intro φ
  cases hm : m φ with
  | mk result es =>
    cases result with
    | error c =>
      rw [Tx.bind_error hm]
      rfl
    | ok x =>
      rw [Tx.bind_ok hm, h x]
      exact congrArg (Prod.mk _) (List.append_nil es)

theorem ok {f : α → β} {m : Tx α} {m' : Tx β} (h : Maps f m m') {φ : Fate} {a : α}
    {log : List Event} (hm : m φ = (.ok a, log)) : m' φ = (.ok (f a), log) := by
  rw [h φ, hm]
  rfl

theorem error {f : α → β} {m : Tx α} {m' : Tx β} (h : Maps f m m') {φ : Fate}
    {c : Crash} {log : List Event} (hm : m φ = (.error c, log)) : m' φ = (.error c, log) := by
  rw [h φ, hm]
  rfl

end Maps

end Tfcgi.Sends
