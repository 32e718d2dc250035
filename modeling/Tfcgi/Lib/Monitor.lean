import Mathlib.Data.List.Basic

/-!
# A queue under a mutex with a condition variable

Producers push with the mutex held and notify one waiter. Consumers take the head
with the mutex held, and wait while the queue is empty. A waiter leaves the wait
when it is notified or for no reason, and takes the mutex again. `notified` counts
the consumers that were notified and do not have the mutex yet.

* `fifo`: what is taken is what was pushed, in the same order;
* `run_awake`: while a consumer waits, the notified ones are enough for the queue.
-/

namespace Tfcgi.Monitor

variable {α ω : Type}

structure State (α : Type) where
  queue : List α
  waiting : Nat
  notified : Nat

/-- `resumed` says that the consumer was notified before. -/
inductive Op (α ω : Type) where
  | push (a : α)
  | take (w : ω) (a : α) (resumed : Bool)
  | park (w : ω) (resumed : Bool)
  /-- a spurious wake-up -/
  | wake (w : ω)

inductive Step (s : State α) : Op α ω → State α → Prop where
  | push_none (a : α) (none : s.waiting = 0) :
      Step s (.push a) { s with queue := s.queue ++ [a] }
  | push_one (a : α) (waiting : Nat) (some : s.waiting = waiting + 1) :
      Step s (.push a) ⟨s.queue ++ [a], waiting, s.notified + 1⟩
  | take (w : ω) (a : α) (resumed : Bool) (queue : List α) (notified : Nat)
      (head : s.queue = a :: queue) (resumes : s.notified = notified + resumed.toNat) :
      Step s (.take w a resumed) ⟨queue, s.waiting, notified⟩
  | park (w : ω) (resumed : Bool) (notified : Nat) (empty : s.queue = [])
      (resumes : s.notified = notified + resumed.toNat) :
      Step s (.park w resumed) ⟨[], s.waiting + 1, notified⟩
  | wake (w : ω) (waiting : Nat) (some : s.waiting = waiting + 1) :
      Step s (.wake w) { s with waiting := waiting }

inductive Steps : State α → List (Op α ω) → State α → Prop where
  | nil (s : State α) : Steps s [] s
  | cons {s s' t : State α} {o : Op α ω} {os : List (Op α ω)} (step : Step s o s')
      (steps : Steps s' os t) : Steps s (o :: os) t

def pushed (os : List (Op α ω)) : List α := os.filterMap fun
  | .push a => some a
  | _ => none

/-- What was taken, and by whom. -/
def taken (os : List (Op α ω)) : List (ω × α) := os.filterMap fun
  | .take w a _ => some (w, a)
  | _ => none

theorem step_fifo {s s' : State α} {o : Op α ω} (h : Step s o s') :
    s.queue ++ pushed [o] = (taken [o]).map Prod.snd ++ s'.queue := by
  cases h with
  | push_none a none => rfl
  | push_one a waiting some => rfl
  | take w a resumed queue notified head resumes => simp [pushed, taken, head]
  | park w resumed notified empty resumes => simp [pushed, taken, empty]
  | wake w waiting some => simp [pushed, taken]

theorem fifo {s t : State α} {os : List (Op α ω)} (h : Steps s os t) :
    s.queue ++ pushed os = (taken os).map Prod.snd ++ t.queue := by
  induction h with
  | nil s => simp [pushed, taken]
  | @cons s s' t o os step steps ih =>
    have hp : pushed (o :: os) = pushed [o] ++ pushed os := List.filterMap_append (l := [o])
    have ht : taken (o :: os) = taken [o] ++ taken os := List.filterMap_append (l := [o])
    rw [hp, ht, ← List.append_assoc, step_fifo step, List.append_assoc, ih, List.map_append,
      List.append_assoc]

/-- No wake-up is lost. -/
def Awake (s : State α) : Prop := 0 < s.waiting → s.queue.length ≤ s.notified

theorem step_awake {s s' : State α} {o : Op α ω} (hi : Awake s) (h : Step s o s') : Awake s' := by
  unfold Awake at hi ⊢
  cases h with
  | push_none a none => exact fun hw => absurd none (Nat.ne_of_gt hw)
  | push_one a waiting some =>
    intro _
    have := hi (by omega)
    simp only [List.length_append, List.length_singleton]
    omega
  | take w a resumed queue notified head resumes =>
    intro hw
    have hlen := hi hw
    have hone := Bool.toNat_le resumed
    rw [head, List.length_cons, resumes] at hlen
    show queue.length ≤ notified
    omega
  | park w resumed notified empty resumes => exact fun _ => Nat.zero_le _
  | wake w waiting some => exact fun hw => hi (by omega)

theorem run_awake {s t : State α} {os : List (Op α ω)} (hi : Awake s) (h : Steps s os t) :
    Awake t := by
  induction h with
  | nil s => exact hi
  | cons step steps ih => exact ih (step_awake hi step)

end Tfcgi.Monitor
