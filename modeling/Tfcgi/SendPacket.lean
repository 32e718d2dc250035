import Tfcgi.Lib.Run
import Tfcgi.Protocol

/-!
# `Connection::send_packet`

The loop of `send_packet` as a function of the `send(2)` results, and as a step
relation of any number of threads that contend for `out_mutex`. `Output.left`
keeps the calls that have returned or thrown, in the order they took the mutex,
each with the number of bytes that the socket accepted from it.

* `sendPacket_realizes`: every outcome of a call comes from some results;
* `run_sendPacket`: a thread that holds the mutex does what the function says;
* `integrity_iff_meets`: the accepted bytes are whole packets with only the last
  one cut, exactly when the socket accepts nothing after a call was left in the
  middle of its packet.
-/

namespace Tfcgi.SendPacket

open Tfcgi.HostOrder Tfcgi.Protocol Tfcgi.Run

/-- The `errno` values that the sources tell apart. -/
inductive Errno where
  | enobufs
  | enetunreach
  | enetdown
  | eintr
  | eagain
  | econnreset
  | epipe
  | other (n : Nat)
  deriving DecidableEq, Repr

/-- What `send(2)` gives for a non-empty buffer. -/
inductive SendResult where
  | sent (n : Nat)
  | error (e : Errno)
  deriving DecidableEq, Repr

/-- How a call of `send_packet` ends. -/
inductive SendOutcome where
  | sent
  /-- the silent returns on `ECONNRESET` and `EPIPE` -/
  | gone
  /-- `std::system_error` -/
  | failed (e : Errno)
  deriving DecidableEq, Repr

inductive Turn where
  | more (rest : List Byte)
  | leave (outcome : SendOutcome)
  deriving DecidableEq, Repr

/-- One pass of the loop with `rest` left. -/
def turn (rest : List Byte) : SendResult → Turn
  | .sent n => .more (rest.drop n)
  | .error .enobufs => .more rest
  | .error .enetunreach => .more rest
  | .error .enetdown => .more rest
  | .error .eintr => .more rest
  | .error .econnreset => .leave .gone
  | .error .epipe => .leave .gone
  | .error e => .leave (.failed e)

/-- The number of bytes that were accepted and the end of the call; `none` while
`send(2)` has not answered. -/
def sendPacket : List Byte → List SendResult → Option (Nat × SendOutcome)
  | [], _ => some (0, .sent)
  | _ :: _, [] => none
  | b :: rest, r :: rs =>
    match turn (b :: rest) r with
    | .more rest' =>
      (sendPacket rest' rs).map fun x => (x.1 + ((b :: rest).length - rest'.length), x.2)
    | .leave outcome => some (0, outcome)

theorem turn_more {rest rest' : List Byte} {r : SendResult} (h : turn rest r = .more rest') :
    (∃ n, r = .sent n ∧ rest' = rest.drop n) ∨ (∃ e, r = .error e) ∧ rest' = rest := by
  cases r with
  | sent n =>
    cases h
    exact Or.inl ⟨n, rfl, rfl⟩
  | error e => cases e <;> cases h <;> exact Or.inr ⟨⟨_, rfl⟩, rfl⟩

theorem turn_more_suffix {rest rest' : List Byte} {r : SendResult}
    (h : turn rest r = .more rest') : rest' <:+ rest := by
  rcases turn_more h with ⟨n, -, rfl⟩ | ⟨-, rfl⟩
  · exact List.drop_suffix n rest
  · exact List.suffix_refl rest'

theorem turn_leave {rest : List Byte} {r : SendResult} {outcome : SendOutcome}
    (h : turn rest r = .leave outcome) : (∃ e, r = .error e) ∧ outcome ≠ .sent := by
  cases r with
  | sent n => cases h
  | error e => cases e <;> cases h <;> exact ⟨⟨_, rfl⟩, SendOutcome.noConfusion⟩

/-- A call that comes to its end normally has had every byte accepted. -/
theorem sendPacket_sent {rest : List Byte} {rs : List SendResult} {n : Nat}
    (h : sendPacket rest rs = some (n, .sent)) : n = rest.length := by
  induction rs generalizing rest n with
  | nil =>
    cases rest with
    | nil => simp only [sendPacket, Option.some.injEq, Prod.mk.injEq] at h; exact h.1.symm
    | cons b rest => simp [sendPacket] at h
  | cons r rs ih =>
    cases rest with
    | nil => simp only [sendPacket, Option.some.injEq, Prod.mk.injEq] at h; exact h.1.symm
    | cons b rest =>
      simp only [sendPacket] at h
      split at h
      · rename_i rest' ht
        obtain ⟨x, hx, he⟩ := Option.map_eq_some_iff.mp h
        obtain ⟨m, outcome⟩ := x
        simp only [Prod.mk.injEq] at he
        obtain ⟨rfl, rfl⟩ := he
        have hm := ih hx
        have hle := (turn_more_suffix ht).length_le
        omega
      · rename_i outcome ht
        simp only [Option.some.injEq, Prod.mk.injEq] at h
        exact absurd h.2 (turn_leave ht).2

/-- Every outcome is possible, the thrown one for each `errno` without a case of
its own. -/
theorem sendPacket_realizes (b : Byte) (rest : List Byte) (outcome : SendOutcome)
    (h : ∀ e, outcome = .failed e → turn (b :: rest) (.error e) = .leave (.failed e)) :
    ∃ rs n, sendPacket (b :: rest) rs = some (n, outcome) := by
  cases outcome with
  | sent =>
    refine ⟨[.sent (rest.length + 1)], rest.length + 1, ?_⟩
    simp [sendPacket, turn]
  | gone => exact ⟨[.error .epipe], 0, rfl⟩
  | failed e => exact ⟨[.error e], 0, by simp only [sendPacket, h e rfl]⟩

/-! ## Any number of threads -/

/-- A call and how much of its packet the socket has accepted. -/
structure Call where
  packet : List Byte
  accepted : Nat
  accepted_le : accepted ≤ packet.length
  deriving DecidableEq

namespace Call

def start (packet : List Byte) : Call := ⟨packet, 0, Nat.zero_le _⟩

def bytes (c : Call) : List Byte := c.packet.take c.accepted

def rest (c : Call) : List Byte := c.packet.drop c.accepted

/-- The socket accepts up to `n` more bytes. -/
def accept (c : Call) (n : Nat) : Call where
  packet := c.packet
  accepted := min (c.accepted + n) c.packet.length
  accepted_le := Nat.min_le_right _ _

def Whole (c : Call) : Prop := c.accepted = c.packet.length

/-- The socket has accepted a byte of the packet. -/
def Reached (c : Call) : Prop := 0 < c.accepted

instance (c : Call) : Decidable c.Whole := inferInstanceAs (Decidable (_ = _))

instance (c : Call) : Decidable c.Reached := inferInstanceAs (Decidable (_ < _))

theorem bytes_accept (c : Call) (n : Nat) : (c.accept n).bytes = c.bytes ++ c.rest.take n := by
  have h := c.accepted_le
  simp only [bytes, accept, rest]
  rw [List.take_eq_take_min, Nat.min_assoc, Nat.min_self, ← List.take_eq_take_min, List.take_add]

theorem rest_accept (c : Call) (n : Nat) : (c.accept n).rest = c.rest.drop n := by
  simp only [accept, rest, List.drop_drop]
  by_cases h : c.accepted + n ≤ c.packet.length
  · rw [Nat.min_eq_left h]
  · rw [Nat.min_eq_right (by omega), List.drop_of_length_le (Nat.le_refl _),
      List.drop_of_length_le (by omega)]

theorem reached_accept {c : Call} (h : c.rest ≠ []) {n : Nat} (hn : 0 < n) :
    (c.accept n).Reached := by
  have hlt : ¬ c.packet.length ≤ c.accepted := by
    simpa only [rest, ne_eq, List.drop_eq_nil_iff] using h
  simp only [Reached, accept]
  omega

/-- `send(2)` does not accept more than it is given. -/
theorem accept_length_sub (c : Call) (n : Nat) :
    c.accept (c.rest.length - (c.rest.drop n).length) = c.accept n ∧
      c.rest.take (c.rest.length - (c.rest.drop n).length) = c.rest.take n := by
  have hle := c.accepted_le
  have hmin : c.rest.length - (c.rest.drop n).length = min n c.rest.length := by
    rw [List.length_drop]
    omega
  rw [hmin]
  refine ⟨?_, (List.take_eq_take_min ..).symm⟩
  simp only [accept, rest, List.length_drop, Call.mk.injEq, true_and]
  omega

theorem accept_accept (c : Call) (n m : Nat) : (c.accept n).accept m = c.accept (n + m) := by
  simp only [accept, Call.mk.injEq, true_and]
  omega

theorem accept_zero (c : Call) : c.accept 0 = c := by
  obtain ⟨packet, accepted, h⟩ := c
  simp [accept, h]

end Call

/-- Where a thread stands in `send_packet`. -/
inductive Caller where
  | idle
  | waiting (packet : List Byte)
  | sending (c : Call)

structure Output where
  callers : Nat → Caller
  /-- the thread that holds `out_mutex` -/
  outMutex : Option Nat
  left : List Call
  wire : List Byte

def Output.init : Output := ⟨fun _ => .idle, none, [], []⟩

inductive Act where
  | call (t : Nat) (packet : List Byte)
  | lock (t : Nat)
  | send (t : Nat) (r : SendResult)
  /-- `while (size)` has ended -/
  | unlock (t : Nat)

namespace Output

def setCaller (s : Output) (t : Nat) (c : Caller) : Output :=
  { s with callers := Function.update s.callers t c }

/-- The socket accepts `n` bytes of the call of thread `t`. -/
def accept (s : Output) (t : Nat) (c : Call) (n : Nat) : Output :=
  { s.setCaller t (.sending (c.accept n)) with wire := s.wire ++ c.rest.take n }

/-- The `lock_guard` goes out of scope, by a return or by an exception. -/
def leave (s : Output) (t : Nat) (c : Call) : Output :=
  { s.setCaller t .idle with outMutex := none, left := s.left ++ [c] }

def step (s : Output) : Act → Option Output
  | .call t packet =>
    match s.callers t with
    | .idle => some (s.setCaller t (.waiting packet))
    | _ => none
  | .lock t =>
    match s.callers t, s.outMutex with
    | .waiting packet, none => some { s.setCaller t (.sending (.start packet)) with outMutex := t }
    | _, _ => none
  | .send t r =>
    match s.callers t with
    | .sending c =>
      if c.rest = [] then none
      else match turn c.rest r with
        | .more rest => some (s.accept t c (c.rest.length - rest.length))
        | .leave _ => some (s.leave t c)
    | _ => none
  | .unlock t =>
    match s.callers t with
    | .sending c => if c.rest = [] then some (s.leave t c) else none
    | _ => none

/-- The call that holds the mutex. -/
def current (s : Output) : Option Call :=
  match s.outMutex with
  | none => none
  | some t =>
    match s.callers t with
    | .sending c => some c
    | _ => none

/-- All calls that took the mutex, in that order. -/
def calls (s : Output) : List Call := s.left ++ s.current.toList

theorem calls_some {s : Output} {c : Call} (h : s.current = some c) : s.calls = s.left ++ [c] := by
  simp only [calls, h, Option.toList_some]

theorem calls_none {s : Output} (h : s.current = none) : s.calls = s.left := by
  simp only [calls, h, Option.toList_none, List.append_nil]

structure Inv (s : Output) : Prop where
  /-- only the thread that holds the mutex is past the `lock_guard` -/
  owner : ∀ t c, s.callers t = .sending c → s.outMutex = some t
  held : ∀ t, s.outMutex = some t → ∃ c, s.callers t = .sending c
  wire : s.wire = s.calls.flatMap Call.bytes

theorem init_inv : init.Inv := by
  refine ⟨?_, ?_, rfl⟩
  · intro t c h
    cases h
  · intro t h
    cases h

theorem current_of_sending {s : Output} (hi : s.Inv) {t : Nat} {c : Call}
    (h : s.callers t = .sending c) : s.current = some c := by
  simp only [current, hi.owner t c h, h]

/-- What a step does to the calls and to the wire. -/
inductive Effect (s s' : Output) : Act → Prop where
  /-- nothing, as for a `send(2)` that is tried again -/
  | quiet (a : Act) (retry : ∀ t n, a ≠ .send t (.sent n)) (calls : s'.calls = s.calls)
      (left : s'.left = s.left) (wire : s'.wire = s.wire) : Effect s s' a
  | enter (t : Nat) (packet : List Byte) (free : s.current = none) (left : s'.left = s.left)
      (current : s'.current = some (.start packet)) (wire : s'.wire = s.wire) :
      Effect s s' (.lock t)
  | accept (t n : Nat) (c : Call) (more : c.rest ≠ []) (current : s.current = some c)
      (left : s'.left = s.left) (current' : s'.current = some (c.accept n))
      (wire : s'.wire = s.wire ++ c.rest.take n) : Effect s s' (.send t (.sent n))
  | leave (a : Act) (c : Call) (retry : ∀ t n, a ≠ .send t (.sent n)) (current : s.current = some c)
      (left : s'.left = s.left ++ [c]) (current' : s'.current = none) (wire : s'.wire = s.wire) :
      Effect s s' a

theorem setCaller_same (s : Output) (t : Nat) (c : Caller) : (s.setCaller t c).callers t = c :=
  Function.update_self ..

theorem setCaller_ne (s : Output) {t u : Nat} (c : Caller) (h : u ≠ t) :
    (s.setCaller t c).callers u = s.callers u := Function.update_of_ne h ..

/-- A thread that does not hold the mutex moves. -/
theorem setCaller_keeps {s : Output} {t : Nat} {c : Caller} (hi : s.Inv)
    (ht : s.outMutex ≠ some t) (hc : ∀ x, c ≠ .sending x) :
    (s.setCaller t c).current = s.current ∧
      (∀ u x, (s.setCaller t c).callers u = .sending x → s.outMutex = some u) ∧
      ∀ u, s.outMutex = some u → ∃ x, (s.setCaller t c).callers u = .sending x := by
  have hcallers : ∀ u, s.outMutex = some u → (s.setCaller t c).callers u = s.callers u := by
    intro u hu
    apply setCaller_ne
    rintro rfl
    exact ht hu
  refine ⟨?_, ?_, ?_⟩
  · have hm : (s.setCaller t c).outMutex = s.outMutex := rfl
    cases hu : s.outMutex with
    | none => simp only [current, hm, hu]
    | some u => simp only [current, hm, hu, hcallers u hu]
  · intro u x hx
    by_cases hut : u = t
    · rw [hut, setCaller_same] at hx
      exact absurd hx (hc x)
    · rw [setCaller_ne s c hut] at hx
      exact hi.owner u x hx
  · intro u hu
    obtain ⟨x, hx⟩ := hi.held u hu
    exact ⟨x, by rw [hcallers u hu, hx]⟩

theorem sending_unique {s : Output} (hi : s.Inv) {t u : Nat} {c x : Call}
    (h : s.callers t = .sending c) (hu : s.callers u = .sending x) : u = t :=
  Option.some.inj ((hi.owner u x hu).symm.trans (hi.owner t c h))

theorem leave_effect {s : Output} (hi : s.Inv) {t : Nat} {c : Call}
    (h : s.callers t = .sending c) (a : Act) (ha : ∀ t n, a ≠ .send t (.sent n)) :
    Effect s (s.leave t c) a ∧ (∀ u x, (s.leave t c).callers u ≠ .sending x) ∧
      (s.leave t c).outMutex = none := by
  refine ⟨.leave a c ha (current_of_sending hi h) rfl rfl rfl, ?_, rfl⟩
  intro u x hx
  by_cases hut : u = t
  · rw [hut, leave, setCaller_same] at hx
    cases hx
  · rw [leave, setCaller_ne _ _ hut] at hx
    exact hut (sending_unique hi h hx)

/-- The thread that holds the mutex goes on with its call. -/
theorem accept_keeps {s : Output} (hi : s.Inv) {t : Nat} {c : Call}
    (h : s.callers t = .sending c) (n : Nat) :
    (s.accept t c n).current = some (c.accept n) ∧
      (∀ u x, (s.accept t c n).callers u = .sending x → s.outMutex = some u) ∧
      ∀ u, s.outMutex = some u → ∃ x, (s.accept t c n).callers u = .sending x := by
  have hown := hi.owner t c h
  have hsame : (s.accept t c n).callers t = .sending (c.accept n) := setCaller_same ..
  refine ⟨?_, ?_, ?_⟩
  · have hm : (s.accept t c n).outMutex = some t := hown
    simp only [current, hm, hsame]
  · intro u x hx
    by_cases hut : u = t
    · rw [hut, hown]
    · rw [accept, setCaller_ne _ _ hut] at hx
      exact hi.owner u x hx
  · intro u hu
    have hut : u = t := Option.some.inj (hu.symm.trans hown)
    exact ⟨c.accept n, by rw [hut, hsame]⟩

theorem step_effect {s s' : Output} {a : Act} (hi : s.Inv) (h : step s a = some s') :
    Effect s s' a ∧ (∀ u x, s'.callers u = .sending x → s'.outMutex = some u) ∧
      ∀ u, s'.outMutex = some u → ∃ x, s'.callers u = .sending x := by
  cases a with
  | call t packet =>
    simp only [step] at h
    split at h
    · rename_i hidle
      cases h
      have hne : s.outMutex ≠ some t := by
        intro ht
        obtain ⟨c, hc⟩ := hi.held t ht
        rw [hidle] at hc
        cases hc
      obtain ⟨hcur, ho, hh⟩ := setCaller_keeps hi hne (c := .waiting packet)
        (fun _ => Caller.noConfusion)
      refine ⟨.quiet _ (fun _ _ => Act.noConfusion) ?_ rfl rfl, ho, hh⟩
      simp only [calls, hcur]
      rfl
    · cases h
  | lock t =>
    simp only [step] at h
    split at h
    · rename_i packet hw hfree
      cases h
      have hcur : s.current = none := by simp only [current, hfree]
      refine ⟨.enter t packet hcur rfl ?_ rfl, ?_, ?_⟩
      · simp only [current, setCaller_same]
      · intro u x hx
        by_cases hut : u = t
        · rw [hut]
        · have hx' : s.callers u = .sending x := by rw [← hx]; exact (setCaller_ne s _ hut).symm
          have hu := hi.owner u x hx'
          rw [hfree] at hu
          cases hu
      · intro u hu
        cases hu
        exact ⟨_, setCaller_same ..⟩
    · cases h
  | send t r =>
    simp only [step] at h
    split at h
    · rename_i c hc
      split at h
      · cases h
      · rename_i hne
        split at h
        · rename_i rest ht
          cases h
          obtain ⟨hcur', ho, hh⟩ := accept_keeps hi hc (c.rest.length - rest.length)
          refine ⟨?_, ho, hh⟩
          rcases turn_more ht with ⟨n, rfl, rfl⟩ | ⟨⟨e, rfl⟩, rfl⟩
          · obtain ⟨ha, hw⟩ := c.accept_length_sub n
            refine .accept t n c hne (current_of_sending hi hc) rfl ?_ ?_
            · rw [hcur', ha]
            · rw [accept, hw]
          · rw [Nat.sub_self] at hcur' ⊢
            refine .quiet _ (by simp) ?_ rfl (by simp [accept])
            rw [calls_some hcur', calls_some (current_of_sending hi hc), Call.accept_zero]
            rfl
        · rename_i outcome ht
          cases h
          obtain ⟨⟨e, rfl⟩, -⟩ := turn_leave ht
          obtain ⟨he, hs, hm⟩ := leave_effect hi hc (.send t (.error e)) (by simp)
          exact ⟨he, fun u x hx => absurd hx (hs u x), fun u hu => by rw [hm] at hu; cases hu⟩
    · cases h
  | unlock t =>
    simp only [step] at h
    split at h
    · rename_i c hc
      split at h
      · cases h
        obtain ⟨he, hs, hm⟩ := leave_effect hi hc (.unlock t) (by simp)
        exact ⟨he, fun u x hx => absurd hx (hs u x), fun u hu => by rw [hm] at hu; cases hu⟩
      · cases h
    · cases h

theorem run_leave {s : Output} {t : Nat} {c : Call} (as : List Act)
    (h : run step s as = some (s.leave t c)) :
    ∃ as s', run step s as = some s' ∧ s'.left = s.left ++ [c.accept 0] ∧
      s'.wire = s.wire ++ c.rest.take 0 ∧ s'.callers t = .idle := by
  refine ⟨as, s.leave t c, h, ?_, ?_, setCaller_same ..⟩
  · rw [Call.accept_zero]
    rfl
  · rw [List.take_zero, List.append_nil]
    rfl

/-- From the `lock_guard` on, a thread does what `sendPacket` says of the same
`send(2)` results. -/
theorem run_sendPacket {rs : List SendResult} {s : Output} {t : Nat} {c : Call} {n : Nat}
    {outcome : SendOutcome} (hc : s.callers t = .sending c)
    (h : sendPacket c.rest rs = some (n, outcome)) :
    ∃ as s', run step s as = some s' ∧ s'.left = s.left ++ [c.accept n] ∧
      s'.wire = s.wire ++ c.rest.take n ∧ s'.callers t = .idle := by
  induction rs generalizing s c n with
  | nil =>
    by_cases hne : c.rest = []
    · rw [hne] at h
      cases h
      exact run_leave [.unlock t] (by simp [run, step, hc, hne])
    · obtain ⟨b, rest, hr⟩ := List.exists_cons_of_ne_nil hne
      simp [hr, sendPacket] at h
  | cons r rs ih =>
    by_cases hne : c.rest = []
    · rw [hne] at h
      cases h
      exact run_leave [.unlock t] (by simp [run, step, hc, hne])
    obtain ⟨b, rest, hr⟩ := List.exists_cons_of_ne_nil hne
    rw [hr, sendPacket, ← hr] at h
    split at h
    · rename_i rest' ht
      obtain ⟨⟨m, outcome'⟩, hm, he⟩ := Option.map_eq_some_iff.mp h
      simp only [Prod.mk.injEq] at he
      obtain ⟨rfl, rfl⟩ := he
      have hdrop := (List.suffix_iff_eq_drop.mp (turn_more_suffix ht)).symm
      have hrest : (c.accept (c.rest.length - rest'.length)).rest = rest' := by
        rw [Call.rest_accept, hdrop]
      obtain ⟨as, s', hrun, hl, hw, hidle⟩ := ih
        (s := s.accept t c (c.rest.length - rest'.length)) (setCaller_same ..)
        (by rw [hrest]; exact hm)
      refine ⟨.send t r :: as, s', ?_, ?_, ?_, hidle⟩
      · simp only [run, step, hc, hne, if_false, ht, Option.bind_some]
        exact hrun
      · rw [hl, Call.accept_accept, Nat.add_comm m]
        rfl
      · rw [hw, hrest, Nat.add_comm m, List.take_add, hdrop]
        exact List.append_assoc ..
    · rename_i outcome' ht
      cases h
      exact run_leave [.send t r] (by simp [run, step, hc, hne, ht])

/-! ## Wire integrity -/

/-- The calls that got a byte to the socket, in order. -/
def reached (l : List Call) : List Call := l.filter fun c => c.Reached

/-- The accepted bytes are whole packets, one for each call that reached the
socket and in that order, and a part of the packet of the last such call. -/
def Integrity (s : Output) : Prop :=
  ∃ whole cut, reached s.calls = whole ++ cut ∧ cut.length ≤ 1 ∧ (∀ c ∈ whole, c.Whole) ∧
    s.wire = whole.flatMap Call.packet ++ cut.flatMap Call.bytes

def OnlyLastCut (l : List Call) : Prop := ∀ c ∈ (reached l).dropLast, c.Whole

instance (l : List Call) : Decidable (OnlyLastCut l) :=
  inferInstanceAs (Decidable (∀ c ∈ (reached l).dropLast, c.Whole))

/-- A call was left in the middle of its packet. -/
def Torn (s : Output) : Prop := ∃ c ∈ s.left, c.Reached ∧ ¬ c.Whole

/-- The socket accepts nothing once a call was left in the middle of its packet. -/
def Mute (s : Output) (a : Act) : Prop :=
  ∀ t n, a = .send t (.sent n) → 0 < n → ¬ s.Torn

theorem mem_reached {l : List Call} {c : Call} : c ∈ reached l ↔ c ∈ l ∧ c.Reached := by
  simp only [reached, List.mem_filter, decide_eq_true_eq]

theorem reached_append (l m : List Call) : reached (l ++ m) = reached l ++ reached m :=
  List.filter_append ..

theorem flatMap_reached (l : List Call) :
    (reached l).flatMap Call.bytes = l.flatMap Call.bytes := by
  induction l with
  | nil => rfl
  | cons c l ih =>
    by_cases hc : c.Reached
    · simp only [reached, List.filter_cons, hc, decide_true, if_true, List.flatMap_cons] at ih ⊢
      rw [ih]
    · have hz : c.bytes = [] := by
        have : c.accepted = 0 := by simpa [Call.Reached] using hc
        simp [Call.bytes, this]
      simp only [reached, List.filter_cons, hc, decide_false, List.flatMap_cons, hz] at ih ⊢
      exact ih

theorem flatMap_whole {l : List Call} (h : ∀ c ∈ l, c.Whole) :
    l.flatMap Call.bytes = l.flatMap Call.packet := by
  induction l with
  | nil => rfl
  | cons c l ih =>
    simp only [List.mem_cons, forall_eq_or_imp] at h
    have hc : c.bytes = c.packet := by rw [Call.bytes, h.1, List.take_length]
    rw [List.flatMap_cons, List.flatMap_cons, ih h.2, hc]

theorem dropLast_append_getLast (l : List Call) : l.dropLast ++ l.getLast?.toList = l := by
  cases hl : l.getLast? with
  | none => simp [List.getLast?_eq_none_iff.mp hl]
  | some c => exact List.dropLast_append_getLast? c hl

theorem integrity_iff {s : Output} (hi : s.Inv) : s.Integrity ↔ OnlyLastCut s.calls := by
  constructor
  · rintro ⟨whole, cut, hr, hl, hw, -⟩ c hc
    rw [hr] at hc
    cases cut with
    | nil => exact hw c (List.dropLast_subset _ (by simpa using hc))
    | cons x cut =>
      obtain rfl : cut = [] := by simpa using hl
      rw [List.dropLast_concat] at hc
      exact hw c hc
  · intro h
    refine ⟨(reached s.calls).dropLast, (reached s.calls).getLast?.toList, ?_, ?_, h, ?_⟩
    · exact (dropLast_append_getLast _).symm
    · cases (reached s.calls).getLast? <;> simp
    · rw [hi.wire, ← flatMap_reached]
      conv_lhs => rw [← dropLast_append_getLast (reached s.calls)]
      rw [List.flatMap_append, flatMap_whole h]

theorem onlyLastCut_left {s : Output} {c : Call} (hc : c.Reached) :
    OnlyLastCut (s.left ++ [c]) ↔ ¬ s.Torn := by
  have hr : (reached (s.left ++ [c])).dropLast = reached s.left := by
    rw [reached_append]
    simp only [reached, List.filter_cons, hc, decide_true, if_true, List.filter_nil,
      List.dropLast_concat]
  rw [OnlyLastCut, hr]
  simp only [Torn, not_exists, not_and, mem_reached, not_not, and_imp]

theorem onlyLastCut_of_not_torn {s : Output} (h : ¬ s.Torn) (c : Call) :
    OnlyLastCut (s.left ++ [c]) := by
  by_cases hc : c.Reached
  · exact (onlyLastCut_left hc).mpr h
  · intro x hx
    have hx' := List.dropLast_subset _ hx
    simp only [mem_reached, List.mem_append, List.mem_singleton] at hx'
    obtain ⟨hx' | rfl, hr⟩ := hx'
    · by_contra hw
      exact h ⟨x, hx', hr, hw⟩
    · exact absurd hr hc

theorem step_inv {s s' : Output} {a : Act} (hi : s.Inv) (h : step s a = some s') : s'.Inv := by
  obtain ⟨he, ho, hh⟩ := step_effect hi h
  refine ⟨ho, hh, ?_⟩
  cases he with
  | quiet _ _ hc _ hw => rw [hw, hc, hi.wire]
  | enter t packet hf hl hc hw =>
    rw [hw, calls_some hc, hl, hi.wire, calls_none hf]
    simp [Call.bytes, Call.start]
  | accept t n c _ hc hl hc' hw =>
    rw [hw, calls_some hc', hl, hi.wire, calls_some hc]
    simp [Call.bytes_accept]
  | leave _ c _ hc hl hc' hw => rw [hw, calls_none hc', hl, hi.wire, calls_some hc]

theorem step_onlyLastCut {s s' : Output} {a : Act} (hi : s.Inv) (h : step s a = some s') :
    OnlyLastCut s'.calls ↔ OnlyLastCut s.calls ∧ s.Mute a := by
  obtain ⟨he, -, -⟩ := step_effect hi h
  have hmute : (∀ t n, a ≠ .send t (.sent n)) → s.Mute a := fun ha t n hs => absurd hs (ha t n)
  cases he with
  | quiet _ ha hc _ _ => rw [hc]; exact ⟨fun h => ⟨h, hmute ha⟩, And.left⟩
  | enter t packet hf hl hc _ =>
    have hr : reached s'.calls = reached s.calls := by
      rw [calls_some hc, hl, calls_none hf, reached_append]
      simp [reached, Call.Reached, Call.start]
    simp only [OnlyLastCut, hr]
    exact ⟨fun h => ⟨h, hmute (by simp)⟩, And.left⟩
  | accept t n c hne hc hl hc' _ =>
    rw [calls_some hc', hl, calls_some hc]
    by_cases hn : 0 < n
    · have hm : s.Mute (.send t (.sent n)) ↔ ¬ s.Torn :=
        ⟨fun h => h t n rfl hn, fun h _ _ _ _ => h⟩
      rw [onlyLastCut_left (Call.reached_accept hne hn), hm]
      exact ⟨fun h => ⟨onlyLastCut_of_not_torn h c, h⟩, And.right⟩
    · obtain rfl : n = 0 := by omega
      rw [Call.accept_zero]
      exact ⟨fun h => ⟨h, fun t' n' hs hn' => by cases hs; exact absurd hn' hn⟩, And.left⟩
  | leave _ c ha hc hl hc' _ =>
    rw [calls_none hc', hl, calls_some hc]
    exact ⟨fun h => ⟨h, hmute ha⟩, And.left⟩

/-- **Wire integrity**, for every run of any number of callers. -/
theorem integrity_iff_meets {as : List Act} {s : Output} (h : run step init as = some s) :
    s.Integrity ↔ Meets step Mute init as := by
  have hi : s.Inv := run_invariant init_inv (fun _ _ _ => step_inv) h
  have h0 : OnlyLastCut init.calls := fun c hc => by cases hc
  rw [integrity_iff hi, holds_iff_meets (fun _ _ _ => step_inv)
    (fun _ _ _ => step_onlyLastCut) init_inv h]
  exact ⟨And.right, fun hm => ⟨h0, hm⟩⟩

/-- `Mute`, computed. -/
def muteCheck (s : Output) : Act → Bool
  | .send _ (.sent n) => decide (n = 0 ∨ ∀ c ∈ s.left, c.Reached → c.Whole)
  | _ => true

theorem mute_of_check {s : Output} {a : Act} (h : muteCheck s a = true) : s.Mute a := by
  rintro t n rfl hn ⟨c, hc, hreached, hcut⟩
  rcases of_decide_eq_true h with hzero | hwhole
  · omega
  · exact hcut (hwhole c hc hreached)

/-- A STDERR record and the END_REQUEST record of request 1. -/
def stderrRecord : List Byte := (Packet.make .little .stderr 1 [110, 111]).bytes

def endRecord : List Byte :=
  (Packet.make .little .endRequest 1 (EndRequestBody.bytes ⟨⟨0, 0, 0, 0⟩, .requestComplete⟩)).bytes

/-- Three threads want to send. The first packet is taken in two parts, of the second one
three bytes are, and then the peer has gone. -/
def crowdedRun : List Act :=
  [.call 0 stderrRecord, .call 1 endRecord, .lock 1, .call 2 [1, 2, 3], .send 1 (.sent 7),
    .send 1 (.error .eintr), .send 1 (.sent 9), .unlock 1, .lock 0, .send 0 (.sent 3),
    .send 0 (.error .epipe), .lock 2, .send 2 (.error .epipe)]

theorem integrity_iff_meets_crowdedRun : ∃ s, run step init crowdedRun = some s ∧ s.Integrity ∧
    s.wire = endRecord ++ stderrRecord.take 3 := by
  have hmute : Meets step Mute init crowdedRun :=
    meets_of_checks (fun _ _ _ => mute_of_check) (by decide +kernel)
  obtain ⟨s, hs⟩ : ∃ s, run step init crowdedRun = some s := ⟨_, rfl⟩
  obtain rfl := Option.some.inj hs
  exact ⟨_, rfl, (integrity_iff_meets rfl).mpr hmute, by decide⟩

/-- `send(2)` takes three bytes of a record and fails for lack of memory; the
next record is sent whole behind them. -/
def tornRun : List Act :=
  [.call 0 stderrRecord, .lock 0, .send 0 (.sent 3), .send 0 (.error (.other 12)),
    .call 1 endRecord, .lock 1, .send 1 (.sent 16), .unlock 1]

theorem tornRun_not_integrity : ∃ s, run step init tornRun = some s ∧ ¬ s.Integrity ∧
    s.wire = stderrRecord.take 3 ++ endRecord := by
  obtain ⟨s, hs⟩ : ∃ s, run step init tornRun = some s := ⟨_, rfl⟩
  have hi : s.Inv := run_invariant init_inv (fun _ _ _ => step_inv) hs
  obtain rfl := Option.some.inj hs
  refine ⟨_, rfl, ?_, by decide⟩
  rw [integrity_iff hi]
  decide

end Output

end Tfcgi.SendPacket
