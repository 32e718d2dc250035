import Tfcgi.NoneLost

/-!
# `main` and the callbacks of the application

`main` step by step: the callbacks, `accept` with its errors and the closing of the
listening socket. The threads move as they do in `Sys.step`.

* `refines`: what this does to the process is a run of `Sys.step`;
* `main_protocol`: the callbacks come in order, `shutdown` when all work is over, and no
  passing error of `accept` ends the service.
-/

namespace Tfcgi.Process

open Tfcgi.Run Tfcgi.Protocol Tfcgi.Socket Tfcgi.Iostream Tfcgi.RequestSlot
open Tfcgi.ConnectionThread Tfcgi.System Tfcgi.History Tfcgi.Accounting Tfcgi.Reuse Tfcgi.Owner
open Tfcgi.Threads Tfcgi.Shutdown Tfcgi.NoneLost

/-- An `errno` of `accept(2)`. -/
inductive AcceptErrno where
  | emfile
  | enfile
  | eagain
  | econnaborted
  | eintr
  | other (n : Nat)
  deriving DecidableEq, Repr

inductive AcceptResult where
  | socket (junk : Junk)
  | error (e : AcceptErrno)

/-- `errno` after `close(0)`. -/
inductive CloseResult where
  | closed
  /-- `EINTR` -/
  | interrupted
  | failed (errno : Nat)
  deriving DecidableEq, Repr

/-- A call of the application, with its result. -/
inductive Callback where
  | startup (result : Int)
  | beginShutdown (quick : Bool)
  | shutdown (quick : Bool) (result : Int)
  deriving DecidableEq, Repr

/-- Where `main` stands. -/
inductive MainAt where
  /-- before `fcgi::startup` -/
  | starting
  /-- at the loop condition -/
  | looking
  | accepting
  /-- for 100 ms, when descriptors ran out -/
  | sleeping
  /-- in the loop of `close_listening_socket` -/
  | closing
  /-- before `fcgi::begin_shutdown` -/
  | leaving
  | joining
  /-- before `fcgi::shutdown` -/
  | stopping
  | returned (status : Int)
  deriving DecidableEq, Repr

structure Proc where
  sys : Sys
  place : MainAt
  calls : List Callback
  /-- what the last `close(0)` gave -/
  closed : Option CloseResult

/-- `std::thread::hardware_concurrency() * 5`. -/
def workers (p : Params) : Nat := p.hardwareConcurrency * 5 % 4294967296

def Proc.init (p : Params) : Proc where
  sys := .init (workers p)
  place := .starting
  calls := []
  closed := none

inductive Act where
  | startup (result : Int)
  | look
  | accept (r : AcceptResult)
  | wakeUp
  /-- `close(0)` returns -/
  | close (r : CloseResult)
  | beginShutdown
  | join
  | shutdown (result : Int)
  /-- a thread moves, or the network -/
  | thread (a : System.Act)

/-- Steps of `main` are not steps of a thread. -/
def isThread : System.Act → Bool
  | .accept _ => false
  | .closeListening => false
  | .leaveLoop => false
  | .join => false
  | _ => true

/-- The threads run. -/
def running : MainAt → Bool
  | .starting => false
  | .returned _ => false
  | _ => true

/-- `create_connection`. -/
def createConnection (p : Params) (s : Sys) (junk : Junk) : Sys :=
  { s with
    conns := s.conns ++ [⟨.new p junk, .reading⟩]
    socketActive := incr s.socketActive }

/-- `close_listening_socket` up to its loop. -/
def closeListeningSocket (P : Proc) : Proc :=
  if P.sys.socketListening then
    { P with sys := { P.sys with socketListening := false }, place := .closing }
  else { P with place := .looking }

/-- The `switch` on `errno`. -/
def acceptFailed (P : Proc) : AcceptErrno → Proc
  | .emfile => { P with place := .sleeping }
  | .enfile => { P with place := .sleeping }
  | .eagain => { P with place := .looking }
  | .econnaborted => { P with place := .looking }
  | .eintr => { P with place := .looking }
  | .other _ => closeListeningSocket P

/-- `quick_shutdown`, which nothing sets. -/
def quickShutdown : Bool := false

def mainStep (p : Params) (P : Proc) : Act → Option Proc
  | .startup result =>
    if P.place = .starting then
      some { P with
        place := if result ≠ 0 then .returned result else .looking
        calls := P.calls ++ [.startup result] }
    else none
  | .look =>
    if P.place = .looking then
      some { P with place := if P.sys.socketListening then .accepting else .leaving }
    else none
  | .accept (.socket junk) =>
    if P.place = .accepting ∧ P.sys.live < 2147483648 then
      some { P with sys := createConnection p P.sys junk, place := .looking }
    else none
  | .accept (.error e) => if P.place = .accepting then some (acceptFailed P e) else none
  | .wakeUp => if P.place = .sleeping then some { P with place := .looking } else none
  | .close r =>
    if P.place = .closing then
      -- another error is a warning in the log
      some { P with place := if r = .interrupted then .closing else .looking, closed := some r }
    else none
  | .beginShutdown =>
    if P.place = .leaving then
      some { P with
        sys := { P.sys with main := .joining }
        place := .joining
        calls := P.calls ++ [.beginShutdown quickShutdown] }
    else none
  | .join =>
    if P.place = .joining ∧ ∀ pc ∈ P.sys.workers, pc = .exited then
      some { P with sys := { P.sys with main := .ended }, place := .stopping }
    else none
  | .shutdown result =>
    if P.place = .stopping then
      some { P with
        place := .returned result
        calls := P.calls ++ [.shutdown quickShutdown result] }
    else none
  | .thread a =>
    if isThread a ∧ running P.place then
      (Sys.step p P.sys a).map fun s => { P with sys := s }
    else none

def step (p : Params) (P : Proc) (a : Act) : Option Proc :=
  if P.sys.down.isSome then none else mainStep p P a

/-! ## What the threads leave alone -/

variable {p : Params} {s s' : Sys}

/-- The state of `main` stays. -/
structure Apart (s s' : Sys) : Prop where
  main : s'.main = s.main
  listening : s'.socketListening = s.socketListening

theorem notifyOne_apart {notified : Option Nat} (h : s.notifyOne notified = some s') :
    Apart s s' := by
  unfold Sys.notifyOne at h
  split at h
  · split at h
    · cases h
    · cases h
      exact ⟨rfl, rfl⟩
  · split at h
    · cases h
      exact ⟨rfl, rfl⟩
    · cases h

theorem reading_apart {i : Nat} {n : Conn} {junk : Junk} {φ : Fate}
    (h : s.reading p i n junk φ = some s') : Apart s s' := by
  unfold Sys.reading at h
  split at h
  · split at h
    · cases h
    · cases h
      exact ⟨rfl, rfl⟩
    · cases h
      exact ⟨rfl, rfl⟩
    · cases h
      unfold Sys.afterTurn
      split <;> exact ⟨rfl, rfl⟩
  · cases h
    exact ⟨rfl, rfl⟩

theorem connStep_apart {i : Nat} {n : Conn} {junk : Junk} {φ : Fate} {notified : Option Nat}
    (h : s.connStep p i n junk φ notified = some s') : Apart s s' := by
  obtain ⟨c, pc⟩ := n
  cases pc with
  | reading => exact reading_apart h
  | pushing ref | resetting ref =>
    cases h
    exact ⟨rfl, rfl⟩
  | locking ref =>
    obtain ⟨hmain, hlistening⟩ := notifyOne_apart h
    exact ⟨hmain, hlistening⟩
  | tearingDown k =>
    cases h
    unfold Sys.tearingDown
    split
    · split <;> exact ⟨rfl, rfl⟩
    · exact ⟨rfl, rfl⟩
  | waiting =>
    simp only [Sys.connStep] at h
    split at h
    · cases h
      exact ⟨rfl, rfl⟩
    · cases h
  | clearing k =>
    cases h
    unfold Sys.clearing
    split
    · split <;> exact ⟨rfl, rfl⟩
    · split <;> exact ⟨rfl, rfl⟩
  | gone => cases h

theorem useRequest_apart {w : Nat} {ref : Ref} {φ : Fate}
    {use : Request → Option (Tx (Request × WorkerPc × Option Int))}
    (h : s.useRequest w ref φ use = some s') : Apart s s' := by
  have hset : ∀ r, Apart s (s.setRequest ref r) := by
    intro r
    unfold Sys.setRequest
    split <;> exact ⟨rfl, rfl⟩
  unfold Sys.useRequest at h
  split at h
  · cases h
    exact ⟨rfl, rfl⟩
  · split at h
    · cases h
    · split at h
      · cases h
        exact ⟨rfl, rfl⟩
      · cases h
        exact ⟨(hset _).main, (hset _).listening⟩

theorem workerStep_apart {w : Nat} {pc : WorkerPc} {φ : Fate}
    (h : s.workerStep p w pc φ = some s') : Apart s s' := by
  rcases Sys.workerStep_cases h with ⟨-, rfl⟩ | ⟨-, rfl⟩ | ⟨-, rfl⟩ | ⟨ref, -, hu⟩ | ⟨ref, -, rfl⟩
  · exact ⟨rfl, rfl⟩
  · exact ⟨rfl, rfl⟩
  · unfold Sys.pop
    split <;> exact ⟨rfl, rfl⟩
  · exact useRequest_apart hu
  · unfold Sys.decrement
    split
    · exact ⟨rfl, rfl⟩
    · split <;> exact ⟨rfl, rfl⟩

theorem step_apart {a : System.Act} (ha : isThread a = true) (h : Sys.step p s a = some s') :
    Apart s s' := by
  unfold Sys.step at h
  split at h
  · cases h
  · cases a with
    | accept | closeListening | leaveLoop | join => cases ha
    | arrive i r =>
      simp only at h
      split at h
      · cases h
      · split at h
        · cases h
        · cases h
          exact ⟨rfl, rfl⟩
    | conn i junk φ notified =>
      simp only at h
      split at h
      · cases h
      · exact connStep_apart h
    | worker w φ =>
      simp only at h
      split at h
      · cases h
      · exact workerStep_apart h
    | wake w =>
      simp only at h
      split at h
      · cases h
        exact ⟨rfl, rfl⟩
      · cases h
    | app w op φ | finish w how φ =>
      simp only at h
      split at h
      · exact useRequest_apart h
      · cases h

/-! ## What `main` does to the process -/

theorem step_accept (hd : s.down = none) (hm : s.main = .accepting)
    (hl : s.socketListening = true) (hlive : s.live < 2147483648) (junk : Junk) :
    Sys.step p s (.accept junk) = some (createConnection p s junk) := by
  simp [Sys.step, createConnection, hd, hm, hl, hlive]

theorem step_close (hd : s.down = none) (hm : s.main = .accepting)
    (hl : s.socketListening = true) :
    Sys.step p s .closeListening = some { s with socketListening := false } := by
  simp [Sys.step, hd, hm, hl]

theorem step_leave (hd : s.down = none) (hm : s.main = .accepting)
    (hl : s.socketListening = false) :
    Sys.step p s .leaveLoop = some { s with main := .joining } := by
  simp [Sys.step, hd, hm, hl]

theorem step_join (hd : s.down = none) (hm : s.main = .joining)
    (hall : ∀ pc ∈ s.workers, pc = .exited) :
    Sys.step p s .join = some { s with main := .ended } := by
  have hgo : s.main = .joining ∧ ∀ pc ∈ s.workers, pc = .exited := ⟨hm, hall⟩
  simp only [Sys.step, hd]
  exact if_pos hgo

/-! ## Where `main` stands -/

/-- The callbacks of a whole run. -/
def script (result status : Int) : List Callback :=
  if result = 0 then
    [.startup 0, .beginShutdown quickShutdown, .shutdown quickShutdown status]
  else [.startup result]

def exitStatus (result status : Int) : Int := if result = 0 then status else result

/-- `close_listening_socket` has left its loop. -/
def settled : Option CloseResult → Bool
  | none => false
  | some .interrupted => false
  | some .closed => true
  | some (.failed _) => true

/-- `main` is in its loop, or behind it. -/
structure Started (P : Proc) (calls : List Callback) (main : MainPc) (listening closed : Bool) :
    Prop where
  calls : P.calls = calls
  main : P.sys.main = main
  listening : P.sys.socketListening = listening
  closed : settled P.closed = closed

def Stands (p : Params) (P : Proc) : Prop :=
  match P.place with
  | .starting => P = .init p
  | .looking => ∃ listening, Started P [.startup 0] .accepting listening !listening
  | .accepting => Started P [.startup 0] .accepting true false
  | .sleeping => Started P [.startup 0] .accepting true false
  | .closing => Started P [.startup 0] .accepting false false
  | .leaving => Started P [.startup 0] .accepting false true
  | .joining => Started P [.startup 0, .beginShutdown quickShutdown] .joining false true
  | .stopping => Started P [.startup 0, .beginShutdown quickShutdown] .ended false true
  | .returned v => v ≠ 0 ∧ P.calls = script v 0 ∧ P.sys = .init (workers p) ∨
      Started P (script 0 v) .ended false true

theorem Started.thread {P : Proc} {calls : List Callback} {main : MainPc} {listening closed : Bool}
    (h : Started P calls main listening closed) {s : Sys} (hs : Apart P.sys s) :
    Started { P with sys := s } calls main listening closed :=
  ⟨h.calls, hs.main.trans h.main, hs.listening.trans h.listening, h.closed⟩

/-- What a step keeps, and the steps of the process that it stands for. -/
def Stepped (p : Params) (P P' : Proc) : Prop :=
  Stands p P' ∧ ∃ bs, run (Sys.step p) P.sys bs = some P'.sys

theorem Stepped.still {P P' : Proc} (h : Stands p P') (hs : P'.sys = P.sys) : Stepped p P P' :=
  ⟨h, [], by rw [hs]; rfl⟩

theorem Stepped.one {P P' : Proc} (h : Stands p P') {b : System.Act}
    (hb : Sys.step p P.sys b = some P'.sys) : Stepped p P P' := by
  refine ⟨h, [b], ?_⟩
  rw [run, hb]
  rfl

theorem thread_stepped {P : Proc} (h : Stands p P) {a : System.Act} (ha : isThread a = true)
    (hr : running P.place = true) {s : Sys} (hs : Sys.step p P.sys a = some s) :
    Stepped p P { P with sys := s } := by
  refine .one ?_ hs
  have hapart := step_apart ha hs
  obtain ⟨sys, place, calls, closed⟩ := P
  cases place with
  | starting | returned v => cases hr
  | looking =>
    obtain ⟨listening, h⟩ := h
    exact ⟨listening, h.thread hapart⟩
  | accepting | sleeping | closing | leaving | joining | stopping => exact Started.thread h hapart

theorem failed_stepped {P : Proc} (hd : P.sys.down = none)
    (h : Started P [.startup 0] .accepting true false) (e : AcceptErrno) :
    Stepped p P (acceptFailed P e) := by
  obtain ⟨hcalls, hmain, hlistening, hclosed⟩ := h
  cases e with
  | emfile | enfile =>
    have hsleeping : Stands p { P with place := .sleeping } := ⟨hcalls, hmain, hlistening, hclosed⟩
    exact .still hsleeping rfl
  | eagain | econnaborted | eintr =>
    have hlooking : Stands p { P with place := .looking } :=
      ⟨true, hcalls, hmain, hlistening, hclosed⟩
    exact .still hlooking rfl
  | other n =>
    have hclosing : Stands p
        { P with sys := { P.sys with socketListening := false }, place := .closing } :=
      ⟨hcalls, hmain, rfl, hclosed⟩
    unfold acceptFailed closeListeningSocket
    rw [if_pos hlistening]
    exact .one hclosing (step_close hd hmain hlistening)

theorem mainStep_stepped {P P' : Proc} (hd : P.sys.down = none) (h : Stands p P) {a : Act}
    (hs : mainStep p P a = some P') : Stepped p P P' := by
  obtain ⟨sys, place, calls, closed⟩ := P
  cases a with
  | startup result =>
    simp only [mainStep] at hs
    split at hs
    · rename_i hp
      subst hp
      cases hs
      cases h
      refine .still ?_ rfl
      by_cases hresult : result = 0
      · subst hresult
        exact ⟨true, rfl, rfl, rfl, rfl⟩
      · rw [if_pos hresult]
        refine Or.inl ⟨hresult, ?_, rfl⟩
        rw [script, if_neg hresult]
        rfl
    · cases hs
  | look =>
    simp only [mainStep] at hs
    split at hs
    · rename_i hp
      subst hp
      cases hs
      obtain ⟨listening, hcalls, hmain, hlistening, hclosed⟩ := h
      refine .still ?_ rfl
      cases listening with
      | true =>
        rw [if_pos hlistening]
        exact ⟨hcalls, hmain, hlistening, hclosed⟩
      | false =>
        rw [if_neg (by rw [show sys.socketListening = _ from hlistening]; decide)]
        exact ⟨hcalls, hmain, hlistening, hclosed⟩
    · cases hs
  | accept r =>
    cases r with
    | socket junk =>
      simp only [mainStep] at hs
      split at hs
      · rename_i hp
        obtain ⟨hp, hlive⟩ := hp
        subst hp
        cases hs
        obtain ⟨hcalls, hmain, hlistening, hclosed⟩ := h
        have hlooking : Stands p ⟨createConnection p sys junk, .looking, calls, closed⟩ :=
          ⟨true, hcalls, hmain, hlistening, hclosed⟩
        exact .one hlooking (step_accept hd hmain hlistening hlive junk)
      · cases hs
    | error e =>
      simp only [mainStep] at hs
      split at hs
      · rename_i hp
        subst hp
        cases hs
        exact failed_stepped hd h e
      · cases hs
  | wakeUp =>
    simp only [mainStep] at hs
    split at hs
    · rename_i hp
      subst hp
      cases hs
      obtain ⟨hcalls, hmain, hlistening, hclosed⟩ := h
      have hlooking : Stands p ⟨sys, .looking, calls, closed⟩ :=
        ⟨true, hcalls, hmain, hlistening, hclosed⟩
      exact .still hlooking rfl
    · cases hs
  | close r =>
    simp only [mainStep] at hs
    split at hs
    · rename_i hp
      subst hp
      cases hs
      obtain ⟨hcalls, hmain, hlistening, hclosed⟩ := h
      refine .still ?_ rfl
      cases r with
      | interrupted => exact ⟨hcalls, hmain, hlistening, rfl⟩
      | closed | failed n => exact ⟨false, hcalls, hmain, hlistening, rfl⟩
    · cases hs
  | beginShutdown =>
    simp only [mainStep] at hs
    split at hs
    · rename_i hp
      subst hp
      cases hs
      obtain ⟨hcalls, hmain, hlistening, hclosed⟩ := h
      have hjoining : Stands p ⟨{ sys with main := .joining }, .joining,
          calls ++ [.beginShutdown quickShutdown], closed⟩ :=
        ⟨by rw [show calls = _ from hcalls]; rfl, rfl, hlistening, hclosed⟩
      exact .one hjoining (step_leave hd hmain hlistening)
    · cases hs
  | join =>
    simp only [mainStep] at hs
    split at hs
    · rename_i hp
      obtain ⟨hp, hall⟩ := hp
      subst hp
      cases hs
      obtain ⟨hcalls, hmain, hlistening, hclosed⟩ := h
      have hstopping : Stands p ⟨{ sys with main := .ended }, .stopping, calls, closed⟩ :=
        ⟨hcalls, rfl, hlistening, hclosed⟩
      exact .one hstopping (step_join hd hmain hall)
    · cases hs
  | shutdown result =>
    simp only [mainStep] at hs
    split at hs
    · rename_i hp
      subst hp
      cases hs
      obtain ⟨hcalls, hmain, hlistening, hclosed⟩ := h
      refine .still (Or.inr ⟨?_, hmain, hlistening, hclosed⟩) rfl
      rw [show calls = _ from hcalls]
      rfl
    · cases hs
  | thread a =>
    simp only [mainStep] at hs
    split at hs
    · rename_i hrun
      obtain ⟨s, hstep, rfl⟩ := Option.map_eq_some_iff.mp hs
      exact thread_stepped h hrun.1 hrun.2 hstep
    · cases hs

theorem step_stepped {P P' : Proc} (h : Stands p P) {a : Act} (hs : step p P a = some P') :
    Stepped p P P' := by
  unfold step at hs
  split at hs
  · cases hs
  · rename_i hd
    exact mainStep_stepped (by simpa using hd) h hs

theorem init_stands (p : Params) : Stands p (.init p) := rfl

/-- The process below `main` runs as `Sys.step` lets it. -/
theorem refines {P : Proc} {as : List Act} (h : run (step p) (.init p) as = some P) :
    Stands p P ∧ ∃ bs, run (Sys.step p) (.init (workers p)) bs = some P.sys := by
  have hinit : Stands p (.init p) ∧
      ∃ bs, run (Sys.step p) (.init (workers p)) bs = some (Proc.init p).sys :=
    ⟨init_stands p, [], rfl⟩
  refine run_invariant (I := fun P => Stands p P ∧
    ∃ bs, run (Sys.step p) (.init (workers p)) bs = some P.sys) hinit ?_ h
  rintro P a P' ⟨hstands, bs, hbs⟩ hs
  obtain ⟨hstands', bs', hbs'⟩ := step_stepped hstands hs
  exact ⟨hstands', bs ++ bs', run_append.mpr ⟨P.sys, hbs, hbs'⟩⟩

/-! ## Errors of `accept` -/

/-- `accept` fails for good. -/
def fatal : Act → Bool
  | .accept (.error (.other _)) => true
  | _ => false

theorem step_listening {P P' : Proc} {a : Act} (ha : fatal a = false) (hs : step p P a = some P') :
    P'.sys.socketListening = P.sys.socketListening := by
  unfold step at hs
  split at hs
  · cases hs
  · cases a with
    | accept r =>
      cases r with
      | socket junk =>
        simp only [mainStep] at hs
        split at hs <;> cases hs
        rfl
      | error e =>
        simp only [mainStep] at hs
        split at hs
        · cases hs
          cases e with
          | other n => cases ha
          | _ => rfl
        · cases hs
    | thread a =>
      simp only [mainStep] at hs
      split at hs
      · rename_i hrun
        obtain ⟨s, hstep, rfl⟩ := Option.map_eq_some_iff.mp hs
        exact (step_apart hrun.1 hstep).listening
      · cases hs
    | _ =>
      simp only [mainStep] at hs
      split at hs <;> cases hs
      rfl

/-- The service ends by a fatal error of `accept` only. -/
theorem closed_fatal {P : Proc} {as : List Act} (h : run (step p) (.init p) as = some P)
    (hl : P.sys.socketListening = false) : ∃ n, .accept (.error (.other n)) ∈ as := by
  by_contra hnone
  have hall : ∀ a ∈ as, fatal a = false := by
    intro a ha
    cases hf : fatal a with
    | false => rfl
    | true =>
      unfold fatal at hf
      split at hf
      · exact absurd ⟨_, ha⟩ hnone
      · cases hf
  have hlistening : ∀ {P P' : Proc} {as : List Act}, (∀ a ∈ as, fatal a = false) →
      run (step p) P as = some P' → P'.sys.socketListening = P.sys.socketListening := by
    intro P P' as
    induction as generalizing P with
    | nil =>
      rintro - ⟨⟩
      rfl
    | cons a as ih =>
      intro hall h
      rw [List.forall_mem_cons] at hall
      obtain ⟨P₁, hs, hrest⟩ := run_cons h
      rw [ih hall.2 hrest, step_listening hall.1 hs]
  rw [hlistening hall h] at hl
  cases hl

theorem acceptFailed_closed (P : Proc) (e : AcceptErrno) :
    (acceptFailed P e).closed = P.closed := by
  cases e with
  | other n =>
    unfold acceptFailed closeListeningSocket
    by_cases hl : P.sys.socketListening = true
    · rw [if_pos hl]
    · rw [if_neg hl]
  | _ => rfl

theorem step_closed {P P' : Proc} {a : Act} (hs : step p P a = some P') :
    P'.closed = P.closed ∨ ∃ r, a = .close r ∧ P'.closed = some r := by
  unfold step at hs
  split at hs
  · cases hs
  · cases a with
    | close r =>
      simp only [mainStep] at hs
      split at hs <;> cases hs
      exact Or.inr ⟨r, rfl, rfl⟩
    | accept r =>
      refine Or.inl ?_
      cases r with
      | socket junk =>
        simp only [mainStep] at hs
        split at hs <;> cases hs
        rfl
      | error e =>
        simp only [mainStep] at hs
        split at hs <;> cases hs
        exact acceptFailed_closed P e
    | thread a =>
      simp only [mainStep] at hs
      split at hs
      · obtain ⟨s, -, rfl⟩ := Option.map_eq_some_iff.mp hs
        exact Or.inl rfl
      · cases hs
    | _ =>
      simp only [mainStep] at hs
      split at hs <;> cases hs
      exact Or.inl rfl

/-- What `close(0)` gave it gave in the run. -/
theorem run_closed {P P' : Proc} {as : List Act} {r : CloseResult}
    (h : run (step p) P as = some P') (hr : P'.closed = some r) :
    P.closed = some r ∨ .close r ∈ as := by
  induction as generalizing P with
  | nil =>
    cases h
    exact Or.inl hr
  | cons a as ih =>
    obtain ⟨P₁, hs, hrest⟩ := run_cons h
    rcases ih hrest with hclosed | hmem
    · rcases step_closed hs with hkept | ⟨r', rfl, hr'⟩
      · exact Or.inl (hkept ▸ hclosed)
      · rw [hr'] at hclosed
        cases hclosed
        exact Or.inr List.mem_cons_self
    · exact Or.inr (List.mem_cons_of_mem a hmem)

theorem run_settled {P : Proc} {as : List Act} (h : run (step p) (.init p) as = some P)
    (hs : settled P.closed = true) :
    P.closed = some .closed ∨ ∃ n, P.closed = some (.failed n) ∧ .close (.failed n) ∈ as := by
  unfold settled at hs
  split at hs
  · cases hs
  · cases hs
  · rename_i hclosed
    exact Or.inl hclosed
  · rename_i n hclosed
    rcases run_closed h hclosed with hnone | hmem
    · cases hnone
    · exact Or.inr ⟨n, hclosed, hmem⟩

/-! ## The result -/

/-- What the application and the peers may rely on. -/
structure Lifecycle (p : Params) (as : List Act) (P : Proc) : Prop where
  /-- the callbacks come in order, and their results make the exit status -/
  callbacks : ∃ result status, P.calls <+: script result status ∧
    ∀ v, P.place = .returned v → P.calls = script result status ∧ v = exitStatus result status
  /-- when `startup` fails nothing is served -/
  failed : ∀ result, result ≠ 0 → .startup result ∈ P.calls → P.sys = .init (workers p)
  /-- at `begin_shutdown` the listening socket is closed, unless `close` failed -/
  begun : .beginShutdown quickShutdown ∈ P.calls → P.sys.socketListening = false ∧
    (P.closed = some .closed ∨ ∃ n, P.closed = some (.failed n) ∧ .close (.failed n) ∈ as)
  /-- at `shutdown` all workers have exited -/
  exited : ∀ v, .shutdown quickShutdown v ∈ P.calls → ∀ pc ∈ P.sys.workers, pc = .exited
  /-- and there is no connection, no request is left and all were answered -/
  done : ∀ v, .shutdown quickShutdown v ∈ P.calls → 0 < workers p →
    Stopped P.sys ∧ (∀ n ∈ P.sys.conns, n.pc = .gone) ∧
      ∀ ref, .dispatched ∈ marksOf P.sys ref → EndNow P.sys ref
  /-- the service ends by a fatal error of `accept` only -/
  fatal : P.sys.socketListening = false → ∃ n, .accept (.error (.other n)) ∈ as

theorem ended_done {workers : Nat} (hpos : 0 < workers) {as : List System.Act} {s : Sys}
    (h : run (Sys.step p) (.init workers) as = some s) (hend : s.main = .ended) :
    Stopped s ∧ (∀ n ∈ s.conns, n.pc = .gone) ∧
      ∀ ref, .dispatched ∈ marksOf s ref → EndNow s ref := by
  obtain ⟨hjoined, hlen⟩ := run_control h
  obtain ⟨pc, hpc⟩ := List.exists_mem_of_length_pos (l := s.workers) (by omega)
  obtain rfl := hjoined hend pc hpc
  have hi := run_inv h
  have hc := run_counted h
  have hstopped := stopped_of_exited hi hc hpc
  refine ⟨hstopped, (no_refs hi hc hstopped.active).1, ?_⟩
  intro ref hd
  refine ((run_answered h ref).kept hd).resolve_left ?_
  rw [ended_no_refs hpos h hend]
  exact List.not_mem_nil

theorem prefix_of_eq {l l' : List Callback} (h : l = l') : l <+: l' :=
  ⟨[], by rw [List.append_nil, h]⟩

/-- Before the end, `main` has called nothing but `startup`, or `begin_shutdown` too. -/
theorem stands_cases {P : Proc} (h : Stands p P) :
    (∃ v, v ≠ 0 ∧ P.place = .returned v ∧ P.calls = script v 0 ∧ P.sys = .init (workers p)) ∨
      (∃ v, P.place = .returned v ∧ Started P (script 0 v) .ended false true) ∨
      (∀ v, P.place ≠ .returned v) ∧ (P.calls <+: [.startup 0] ∨
        P.calls = [.startup 0, .beginShutdown quickShutdown] ∧ P.sys.socketListening = false ∧
          settled P.closed = true) := by
  obtain ⟨sys, place, calls, closed⟩ := P
  cases place with
  | starting =>
    cases h
    exact Or.inr (Or.inr ⟨nofun, Or.inl List.nil_prefix⟩)
  | looking =>
    obtain ⟨listening, hcalls, -⟩ := h
    exact Or.inr (Or.inr ⟨nofun, Or.inl (prefix_of_eq hcalls)⟩)
  | accepting | sleeping | closing | leaving =>
    obtain ⟨hcalls, -⟩ := h
    exact Or.inr (Or.inr ⟨nofun, Or.inl (prefix_of_eq hcalls)⟩)
  | joining | stopping =>
    obtain ⟨hcalls, -, hlistening, hclosed⟩ := h
    exact Or.inr (Or.inr ⟨nofun, Or.inr ⟨hcalls, hlistening, hclosed⟩⟩)
  | returned v =>
    rcases h with ⟨hv, hcalls, hsys⟩ | h
    · exact Or.inl ⟨v, hv, rfl, hcalls, hsys⟩
    · exact Or.inr (Or.inl ⟨v, rfl, h⟩)

/-- **The life of the process.** -/
theorem main_protocol {P : Proc} {as : List Act} (h : run (step p) (.init p) as = some P) :
    Lifecycle p as P := by
  obtain ⟨hstands, bs, hbs⟩ := refines h
  have hscript : ∀ v, script 0 v = [.startup 0, .beginShutdown quickShutdown,
    .shutdown quickShutdown v] := fun v => if_pos rfl
  rcases stands_cases hstands with ⟨v, hv, hplace, hcalls, hsys⟩ | ⟨v, hplace, hend⟩ | ⟨hgo, hcalls⟩
  · have hfail : P.calls = [.startup v] := by rw [hcalls, script, if_neg hv]
    refine ⟨⟨v, 0, prefix_of_eq hcalls, ?_⟩, fun _ _ _ => hsys, ?_, ?_, ?_, closed_fatal h⟩
    · intro v' hv'
      rw [hplace] at hv'
      cases hv'
      exact ⟨hcalls, (if_neg hv).symm⟩
    · intro hb
      simp [hfail] at hb
    · intro v' hb
      simp [hfail] at hb
    · intro v' hb
      simp [hfail] at hb
  · have hcalls := hend.calls
    refine ⟨⟨0, v, prefix_of_eq hcalls, ?_⟩, ?_,
      fun _ => ⟨hend.listening, run_settled h hend.closed⟩,
      fun _ _ => (run_control hbs).1 hend.main,
      fun _ _ hpos => ended_done hpos hbs hend.main, closed_fatal h⟩
    · intro v' hv'
      rw [hplace] at hv'
      cases hv'
      exact ⟨hcalls, (if_pos rfl).symm⟩
    · intro result hresult hmem
      rw [hcalls, hscript] at hmem
      simp [hresult] at hmem
  · have hprefix : P.calls <+: [.startup 0, .beginShutdown quickShutdown] := by
      rcases hcalls with hcalls | ⟨hcalls, -⟩
      · exact hcalls.trans (List.prefix_append [_] [_])
      · exact prefix_of_eq hcalls
    have hmem : ∀ call ∈ P.calls, call = .startup 0 ∨ call = .beginShutdown quickShutdown := by
      intro call hc
      simpa using hprefix.subset hc
    refine ⟨⟨0, 0, ?_, fun v hv => absurd hv (hgo v)⟩, ?_, ?_, ?_, ?_, closed_fatal h⟩
    · rw [hscript]
      exact hprefix.trans (List.prefix_append [_, _] [_])
    · intro result hresult hstartup
      have := hmem _ hstartup
      simp [hresult] at this
    · intro hbegun
      rcases hcalls with hcalls | ⟨-, hlistening, hclosed⟩
      · have := hcalls.subset hbegun
        simp at this
      · exact ⟨hlistening, run_settled h hclosed⟩
    · intro v hv
      have := hmem _ hv
      simp at this
    · intro v hv
      have := hmem _ hv
      simp at this

/-- Five workers. -/
def small : Params := { Params.standard with hardwareConcurrency := 1 }

/-- A connection on which one request is served. -/
def oneServed : List System.Act :=
  [.arrive 0 beginRecord, .arrive 0 paramsEnd] ++ connMoves 5 ++ workerMoves 3 ++
    [.finish 0 (.returns 0) Fate.sent] ++ workerMoves 4 ++ [.arrive 0 .eof] ++ connMoves 6

/-- `accept` is interrupted, gives that connection and fails for good. -/
def lived : List Act :=
  [.startup 0, .look, .accept (.error .eintr), .look, .accept (.socket .zeros)] ++
    oneServed.map .thread ++
    [.look, .accept (.error (.other 9)), .close .interrupted, .close .closed, .look] ++
    ((List.range 5).flatMap fun w =>
      [.thread (.worker w Fate.sent), .thread (.worker w Fate.sent)]) ++
    [.beginShutdown, .join, .shutdown 7]

theorem main_protocol_lived : ∃ P, run (step small) (.init small) lived = some P ∧
    P.place = .returned 7 ∧ P.closed = some .closed ∧ (∀ pc ∈ P.sys.workers, pc = .exited) ∧
      EndNow P.sys ⟨0, 0⟩ := by
  have hrun : (run (step small) (.init small) lived).any (fun P =>
      decide (P.place = .returned 7) && decide (.shutdown quickShutdown 7 ∈ P.calls) &&
        decide (.beginShutdown quickShutdown ∈ P.calls) &&
        decide (.dispatched ∈ marksOf P.sys ⟨0, 0⟩)) = true := by
    decide +kernel
  obtain ⟨P, hP, hcheck⟩ := (Option.any_eq_true _ _).mp hrun
  simp only [Bool.and_eq_true, decide_eq_true_eq] at hcheck
  obtain ⟨⟨⟨hplace, hshutdown⟩, hbegun⟩, hd⟩ := hcheck
  have hlife := main_protocol hP
  refine ⟨P, hP, hplace, (hlife.begun hbegun).2.resolve_right ?_, hlife.exited 7 hshutdown,
    (hlife.done 7 hshutdown (by decide)).2.2 _ hd⟩
  rintro ⟨n, -, hmem⟩
  simp [lived] at hmem

end Tfcgi.Process
