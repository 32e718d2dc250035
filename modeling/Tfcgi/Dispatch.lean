import Tfcgi.Threads

/-!
# The dispatch queue

`ops` lists what the threads of a run do with the queue. `monitor` forgets all but
the queue and the workers in the wait, and a run of the process is then a run of
`Monitor.Step`.

* `steps_ops`: this refinement;
* `dispatch`: requests are popped once and in order, no wake-up is lost, and
  `workers_backlog` counts modulo 2^32.
-/

namespace Tfcgi.Dispatch

open Tfcgi.Run Tfcgi.HostOrder Tfcgi.Protocol Tfcgi.Socket Tfcgi.Iostream Tfcgi.RequestSlot
open Tfcgi.ConnectionThread Tfcgi.System Tfcgi.Threads

def isParked (pc : WorkerPc) : Bool := pc = .parked

def isNotified (pc : WorkerPc) : Bool := pc = .notified

/-- Between the two parts of `push_request`. -/
def isLocking : ConnPc → Bool
  | .locking _ => true
  | _ => false

def monitor (t : Control) : Monitor.State Ref where
  queue := t.queue
  waiting := t.workers.countP isParked
  notified := t.workers.countP isNotified

theorem workerMove_waits {t : Control} {pc pc' : WorkerPc} (h : WorkerMove t pc pc') :
    isParked pc = false ∧ isParked pc' = false ∧ isNotified pc = false ∧
      isNotified pc' = false := by
  cases h with
  | works ref pc pc' held held' =>
    cases pc <;> cases held <;> cases pc' <;> cases held' <;> exact ⟨rfl, rfl, rfl, rfl⟩
  | _ => exact ⟨rfl, rfl, rfl, rfl⟩

theorem push_refines {t : Control} (ref : Ref) {workers : List WorkerPc}
    (h : Notifies t.workers workers) (places : List ConnPc) :
    Monitor.Step (monitor t) (.push ref : Monitor.Op Ref Nat)
      (monitor { t with places := places, queue := t.queue ++ [ref], workers := workers }) := by
  cases h with
  | none unheard =>
    apply Monitor.Step.push_none
    refine List.countP_eq_zero.mpr ?_
    intro pc hpc hp
    exact unheard (of_decide_eq_true hp ▸ hpc)
  | one w worker =>
    have hparked := Slots.countP_set_add isParked .notified worker
    have hnotified := Slots.countP_set_add isNotified .notified worker
    have hstep : Monitor.Step (monitor t) (.push ref : Monitor.Op Ref Nat)
        ⟨t.queue ++ [ref], (t.workers.set w .notified).countP isParked,
          t.workers.countP isNotified + 1⟩ :=
      .push_one ref _ hparked.symm
    have heq : (t.workers.set w .notified).countP isNotified = t.workers.countP isNotified + 1 :=
      hnotified
    simp only [monitor, heq]
    exact hstep

theorem looks_parked {pc : WorkerPc} (h : looks pc = true) : isParked pc = false := by
  cases pc <;> first | rfl | cases h

theorem move_refines {t t' : Control} {a : Act} {o : Option (Monitor.Op Ref Nat)}
    (h : Move t a o t') :
    o = none ∧ monitor t' = monitor t ∨
      ∃ x, o = some x ∧ Monitor.Step (monitor t) x (monitor t') := by
  cases h with
  | worker a w pc pc' worker moves =>
    obtain ⟨hp, hp', hn, hn'⟩ := workerMove_waits moves
    refine Or.inl ⟨rfl, ?_⟩
    simp only [monitor, Slots.countP_set_eq worker (hp'.trans hp.symm),
      Slots.countP_set_eq worker (hn'.trans hn.symm)]
  | push a i ref workers place notifies => exact Or.inr ⟨_, rfl, push_refines ref notifies _⟩
  | park w φ pc worker looking empty =>
    refine Or.inr ⟨_, rfl, ?_⟩
    have hparked := Slots.countP_set_add isParked .parked worker
    have hnotified := Slots.countP_set_add isNotified .parked worker
    rw [looks_parked looking] at hparked
    have hstep := Monitor.Step.park (s := monitor t) w (decide (pc = .notified))
      ((t.workers.set w .parked).countP isNotified) empty hnotified.symm
    have heq : (t.workers.set w .parked).countP isParked = t.workers.countP isParked + 1 := hparked
    simp only [monitor, heq, empty] at hstep ⊢
    exact hstep
  | take w φ pc ref queue worker looking head =>
    refine Or.inr ⟨_, rfl, ?_⟩
    have hnotified := Slots.countP_set_add isNotified (.popped ref) worker
    have hstep := Monitor.Step.take (s := monitor t) w ref (decide (pc = .notified)) queue
      ((t.workers.set w (.popped ref)).countP isNotified) head hnotified.symm
    have heq : (t.workers.set w (.popped ref)).countP isParked = t.workers.countP isParked :=
      Slots.countP_set_eq worker (looks_parked looking).symm
    simp only [monitor, heq] at hstep ⊢
    exact hstep
  | wake w worker =>
    refine Or.inr ⟨_, rfl, ?_⟩
    have hparked := Slots.countP_set_add isParked .woken worker
    have heq : (t.workers.set w .woken).countP isNotified = t.workers.countP isNotified :=
      Slots.countP_set_eq worker rfl
    have hstep := Monitor.Step.wake (s := monitor t) w ((t.workers.set w .woken).countP isParked)
      hparked.symm
    simp only [monitor, heq] at hstep ⊢
    exact hstep
  | _ => exact Or.inl ⟨rfl, rfl⟩

/-! ## Runs -/

/-- What the run of `as` from `s` does with the queue. -/
def ops (p : Params) : Sys → List Act → List (Monitor.Op Ref Nat)
  | _, [] => []
  | s, a :: as =>
    match Sys.step p s a with
    | none => []
    | some s' => (op (control s) a).toList ++ ops p s' as

/-- The requests that are pushed, in order. -/
def pushes (p : Params) (s : Sys) (as : List Act) : List Ref := Monitor.pushed (ops p s as)

/-- The requests that are popped, in order, with the worker that takes each. -/
def pops (p : Params) (s : Sys) (as : List Act) : List (Nat × Ref) := Monitor.taken (ops p s as)

theorem steps_ops {p : Params} {s t : Sys} {as : List Act} (h : run (Sys.step p) s as = some t) :
    Monitor.Steps (monitor (control s)) (ops p s as) (monitor (control t)) := by
  induction as generalizing s with
  | nil =>
    cases h
    exact .nil _
  | cons a as ih =>
    obtain ⟨s', hs, ht⟩ := run_cons h
    have hops : ops p s (a :: as) = (op (control s) a).toList ++ ops p s' as := by
      simp only [ops, hs]
    rw [hops]
    rcases move_refines (step_move hs) with ⟨ho, hm⟩ | ⟨x, ho, hstep⟩
    · rw [ho, ← hm]
      exact ih ht
    · rw [ho]
      exact .cons hstep (ih ht)

/-! ## `workers_backlog` -/

def Backlogged (t : Control) : Prop :=
  t.backlog = (t.queue.length + t.places.countP isLocking) % 4294967296

theorem incr_mod (n : Nat) : incr (n % 4294967296) = (n + 1) % 4294967296 := by
  unfold incr
  split <;> omega

theorem decr_mod (n : Nat) : decr ((n + 1) % 4294967296) = n % 4294967296 := by
  unfold decr
  split <;> omega

theorem plain_locking {pc : ConnPc} (h : plain pc = true) : isLocking pc = false := by
  cases pc <;> first | rfl | cases h

theorem move_backlogged {t t' : Control} {a : Act} {o : Option (Monitor.Op Ref Nat)}
    (hi : Backlogged t) (h : Move t a o t') : Backlogged t' := by
  unfold Backlogged at hi ⊢
  cases h with
  | accept junk accepting listening room =>
    simp only [List.countP_append, hi]
    rfl
  | goes a i pc pc' place from_plain to_plain =>
    simp only [Slots.countP_set_eq place
      ((plain_locking to_plain).trans (plain_locking from_plain).symm), hi]
  | backlog a i ref place =>
    have hcount : (t.places.set i (.locking ref)).countP isLocking =
      t.places.countP isLocking + 1 := Slots.countP_set_add isLocking (.locking ref) place
    simp only [hcount, hi, incr_mod]
    rfl
  | push a i ref workers place notifies =>
    have hcount : (t.places.set i (.resetting ref)).countP isLocking + 1 =
      t.places.countP isLocking := Slots.countP_set_add isLocking (.resetting ref) place
    simp only [List.length_append, List.length_singleton, hi, ← hcount]
    congr 1
    omega
  | erase i k junk φ notified place =>
    have hsame : isLocking .gone = isLocking (.clearing k) := rfl
    simp only [Slots.countP_set_eq place hsame, hi]
  | take w φ pc ref queue worker looking head =>
    simp only [hi, head, List.length_cons]
    rw [Nat.add_right_comm, decr_mod]
  | _ => exact hi

theorem init_backlogged (workers : Nat) : Backlogged (control (.init workers)) := rfl

theorem run_backlogged {p : Params} {workers : Nat} {as : List Act} {s : Sys}
    (h : run (Sys.step p) (.init workers) as = some s) : Backlogged (control s) :=
  run_invariant (I := fun s => Backlogged (control s)) (init_backlogged workers)
    (fun _ _ _ hi hs => move_backlogged hi (step_move hs)) h

/-! ## The result -/

/-- The requests that are queued or about to be, and counted. -/
def waitingRequests (s : Sys) : Nat := s.queue.length + (s.conns.map Conn.pc).countP isLocking

structure Dispatched (p : Params) (workers : Nat) (as : List Act) (s : Sys) : Prop where
  /-- the `k`-th request that is popped is the `k`-th that was pushed -/
  order : pushes p (.init workers) as = (pops p (.init workers) as).map Prod.snd ++ s.queue
  backlog : s.workersBacklog = waitingRequests s % 4294967296
  covers : waitingRequests s < 4294967296 → s.queue.length ≤ s.workersBacklog
  /-- the decrement of a pop is not made at zero -/
  positive : waitingRequests s < 4294967296 → ∀ a w ref resumed,
    op (control s) a = some (.take w ref resumed) → s.workersBacklog ≠ 0
  awake : .parked ∈ s.workers → s.queue.length ≤ s.workers.countP isNotified

/-- A request is taken from the head of the queue. -/
theorem op_take {t : Control} {a : Act} {w : Nat} {ref : Ref} {resumed : Bool}
    (h : op t a = some (.take w ref resumed)) : ∃ queue, t.queue = ref :: queue := by
  cases a with
  | conn i junk φ notified =>
    simp only [op] at h
    split at h <;> cases h
  | worker w φ =>
    simp only [op] at h
    split at h
    · split at h
      · cases hq : t.queue with
        | nil =>
          simp only [hq] at h
          cases h
        | cons ref queue =>
          simp only [hq] at h
          cases h
          exact ⟨queue, rfl⟩
      · cases h
    · cases h
  | _ => cases h

theorem init_awake (workers : Nat) : Monitor.Awake (monitor (control (.init workers))) :=
  fun _ => Nat.zero_le _

/-- **Dispatch queue**, in every run of any number of connections and workers. -/
theorem dispatch {p : Params} {workers : Nat} {as : List Act} {s : Sys}
    (h : run (Sys.step p) (.init workers) as = some s) : Dispatched p workers as s := by
  have hsteps := steps_ops h
  have hbacklog : s.workersBacklog = waitingRequests s % 4294967296 := run_backlogged h
  have hcovers : waitingRequests s < 4294967296 → s.queue.length ≤ s.workersBacklog := by
    intro hlt
    rw [hbacklog, Nat.mod_eq_of_lt hlt]
    exact Nat.le_add_right _ _
  refine ⟨Monitor.fifo hsteps, hbacklog, hcovers, ?_, ?_⟩
  · intro hlt a w ref resumed ho
    obtain ⟨queue, hq⟩ := op_take ho
    have hle := hcovers hlt
    have hlen : s.queue.length = queue.length + 1 := congrArg List.length hq
    omega
  · intro hp
    apply Monitor.run_awake (init_awake workers) hsteps
    exact List.countP_pos_iff.mpr ⟨_, hp, rfl⟩

theorem dispatch_served : ∃ s, run (Sys.step .standard) (.init 1) served = some s ∧
    Dispatched .standard 1 served s := by
  obtain ⟨s, hs⟩ := served_runs
  exact ⟨s, hs, dispatch hs⟩

/-! ## A flood -/

/-- Two records on one request, and the parser is reset behind the push. -/
def pass (c : Connection) : Option Connection :=
  if c.sock.insane then
    match c.turn .standard .zeros Fate.sent with
    | .handled _ c₁ (some (_, .accepted _)) _ =>
      if c₁.sock.insane then
        match c₁.turn .standard .zeros Fate.sent with
        | .handled _ c₂ (some (slot, .push _)) _ => some (Sys.resetParams c₂ slot)
        | _ => none
      else none
    | _ => none
  else none

def passes : Nat → Connection → Option Connection
  | 0, c => some c
  | m + 1, c => (pass c).bind (passes m)

/-- Main accepts, and nobody waits for a request. -/
structure Accepting (s : Sys) : Prop where
  up : s.down = none
  main : s.main = .accepting
  listening : s.socketListening = true
  unheard : .parked ∉ s.workers

/-- Connection `i` has queued `m` requests. -/
structure Queued (s s' : Sys) (i m : Nat) (c : Connection) : Prop where
  accepting : Accepting s'
  conns : s'.conns = s.conns.set i ⟨c, .reading⟩
  length : s'.queue.length = s.queue.length + m
  backlog : ∀ b, s.workersBacklog = b % 4294967296 → s'.workersBacklog = (b + m) % 4294967296

def moves (i m : Nat) : List Act := List.replicate m (.conn i .zeros Fate.sent none)

/-- The step of a connection thread, by where it stands. -/
theorem move_eq {s s' : Sys} (hup : s.down = none) {i : Nat} {n : Conn} (hn : s.conns[i]? = some n)
    (h : s.connStep .standard i n .zeros Fate.sent none = some s') :
    Sys.step .standard s (.conn i .zeros Fate.sent none) = some s' := by
  unfold Sys.step
  rw [if_neg (by rw [hup]; exact Bool.false_ne_true)]
  simp only [hn]
  exact h

theorem reading_eq {s : Sys} {i : Nat} {c c' : Connection} {header : Header}
    {did : Option (Nat × Handled)} {log : List Event} (hs : c.sock.insane = true)
    (h : c.turn .standard .zeros Fate.sent = .handled header c' did log) :
    s.connStep .standard i ⟨c, .reading⟩ .zeros Fate.sent none =
      some (s.afterTurn i c' log did) := by
  simp only [Sys.connStep, Sys.reading, hs, h, if_true]

/-- From the push to the next record. -/
theorem queues {s : Sys} (hup : s.down = none) (hw : .parked ∉ s.workers) {i slot : Nat}
    {c : Connection} (hn : s.conns[i]? = some ⟨c, .pushing ⟨i, slot⟩⟩) :
    run (Sys.step .standard) s (moves i 3) = some { s with
      conns := s.conns.set i ⟨Sys.resetParams c slot, .reading⟩
      queue := s.queue ++ [⟨i, slot⟩]
      workersBacklog := incr s.workersBacklog } := by
  have hlt := (List.getElem?_eq_some_iff.mp hn).1
  let s₁ : Sys := { s.setConn i ⟨c, .locking ⟨i, slot⟩⟩ with
    workersBacklog := incr s.workersBacklog }
  have hn₁ : s₁.conns[i]? = some ⟨c, .locking ⟨i, slot⟩⟩ := List.getElem?_set_self hlt
  let s₂ : Sys := { s₁.setConn i ⟨c, .resetting ⟨i, slot⟩⟩ with queue := s.queue ++ [⟨i, slot⟩] }
  have hn₂ : s₂.conns[i]? = some ⟨c, .resetting ⟨i, slot⟩⟩ :=
    List.getElem?_set_self (List.getElem?_eq_some_iff.mp hn₁).1
  have h₁ : Sys.step .standard s (.conn i .zeros Fate.sent none) = some s₁ := move_eq hup hn rfl
  have h₂ : Sys.step .standard s₁ (.conn i .zeros Fate.sent none) = some s₂ :=
    move_eq (s := s₁) hup hn₁ (if_neg hw)
  have h₃ := move_eq (s := s₂) hup hn₂ rfl
  simp only [moves, List.replicate_succ, List.replicate_zero, run, h₁, h₂, h₃, Option.bind_some]
  simp only [s₂, s₁, Sys.setConn, List.set_set]

theorem pass_queued {s : Sys} (ha : Accepting s) {i : Nat} {c c' : Connection}
    (hn : s.conns[i]? = some ⟨c, .reading⟩) (h : pass c = some c') :
    ∃ s', run (Sys.step .standard) s (moves i 5) = some s' ∧ Queued s s' i 1 c' := by
  have hlt := (List.getElem?_eq_some_iff.mp hn).1
  unfold pass at h
  split at h
  · rename_i hinsane
    split at h
    · rename_i header c₁ slot₁ r log ht
      split at h
      · rename_i hinsane₁
        split at h
        · rename_i header' c₂ slot r' log' ht₁
          cases h
          let s₁ := s.afterTurn i c₁ log (some (slot₁, .accepted r))
          have hn₁ : s₁.conns[i]? = some ⟨c₁, .reading⟩ := List.getElem?_set_self hlt
          have h₁ : Sys.step .standard s (.conn i .zeros Fate.sent none) = some s₁ :=
            move_eq ha.up hn (reading_eq hinsane ht)
          let s₂ := s₁.afterTurn i c₂ log' (some (slot, .push r'))
          have hlt₁ : i < s₁.conns.length := (List.getElem?_eq_some_iff.mp hn₁).1
          have hn₂ : s₂.conns[i]? = some ⟨c₂, .pushing ⟨i, slot⟩⟩ := List.getElem?_set_self hlt₁
          have h₂ : Sys.step .standard s₁ (.conn i .zeros Fate.sent none) = some s₂ :=
            move_eq (s := s₁) ha.up hn₁ (reading_eq hinsane₁ ht₁)
          have h₃ := queues (s := s₂) ha.up ha.unheard hn₂
          have h₁₂ : run (Sys.step .standard) s (moves i 2) = some s₂ := by
            simp only [moves, List.replicate_succ, List.replicate_zero, run, h₁, h₂,
              Option.bind_some]
          have hrun := run_append.mpr ⟨s₂, h₁₂, h₃⟩
          refine ⟨_, hrun, ⟨ha.up, ha.main, ha.listening, ha.unheard⟩, ?_, List.length_append, ?_⟩
          · show ((s.conns.set i _).set i _).set i _ = _
            rw [List.set_set, List.set_set]
          · intro b hb
            show incr s.workersBacklog = _
            rw [hb, incr_mod]
        · cases h
      · cases h
    · cases h
  · cases h

theorem passes_queued {m : Nat} {s : Sys} (ha : Accepting s) {i : Nat} {c c' : Connection}
    (hn : s.conns[i]? = some ⟨c, .reading⟩) (h : passes m c = some c') :
    ∃ s', run (Sys.step .standard) s (moves i (5 * m)) = some s' ∧ Queued s s' i m c' := by
  induction m generalizing s c with
  | zero =>
    cases h
    obtain ⟨hi, hget⟩ := List.getElem?_eq_some_iff.mp hn
    refine ⟨s, rfl, ha, ?_, rfl, fun b hb => hb⟩
    rw [← hget, List.set_getElem_self]
  | succ m ih =>
    obtain ⟨c₁, hc, hrest⟩ := Option.bind_eq_some_iff.mp h
    obtain ⟨s₁, hrun, hq⟩ := pass_queued ha hn hc
    have hn₁ : s₁.conns[i]? = some ⟨c₁, .reading⟩ := by
      rw [hq.conns, List.getElem?_set_self (List.getElem?_eq_some_iff.mp hn).1]
    obtain ⟨s', hrun', hq'⟩ := ih hq.accepting hn₁ hrest
    refine ⟨s', ?_, hq'.accepting, ?_, ?_, ?_⟩
    · have hmoves : moves i (5 * (m + 1)) = moves i 5 ++ moves i (5 * m) := by
        simp only [moves, List.replicate_append_replicate]
        congr 1
        omega
      rw [hmoves]
      exact run_append.mpr ⟨s₁, hrun, hrun'⟩
    · rw [hq'.conns, hq.conns, List.set_set]
    · rw [hq'.length, hq.length]
      omega
    · intro b hb
      rw [hq'.backlog _ (hq.backlog b hb)]
      congr 1
      omega

/-- Requests 1 to 4 are begun, and the PARAMS stream of each ends. -/
def requests : ReadResult := .data 1
  [1, 0, 1, 0, 8, 0, 0, 0, 1, 0, 0, 0, 0, 0, 0, 1, 4, 0, 1, 0, 0, 0, 0,
    1, 1, 0, 2, 0, 8, 0, 0, 0, 1, 0, 0, 0, 0, 0, 0, 1, 4, 0, 2, 0, 0, 0, 0,
    1, 1, 0, 3, 0, 8, 0, 0, 0, 1, 0, 0, 0, 0, 0, 0, 1, 4, 0, 3, 0, 0, 0, 0,
    1, 1, 0, 4, 0, 8, 0, 0, 0, 1, 0, 0, 0, 0, 0, 0, 1, 4, 0, 4, 0, 0, 0, 0]

/-- What a new connection is when `requests` arrives. -/
def fresh : Connection := { Connection.new .standard .zeros with sock := ⟨[requests], true⟩ }

theorem fresh_passes : ∃ c, passes 4 fresh = some c :=
  Option.isSome_iff_exists.mp (by decide +kernel)

def fill (i : Nat) : List Act := [.accept .zeros, .arrive i requests] ++ moves i 20

theorem fill_queued {s : Sys} (ha : Accepting s) (hlen : s.conns.length < 2147483648) :
    ∃ s', run (Sys.step .standard) s (fill s.conns.length) = some s' ∧ Accepting s' ∧
      s'.conns.length = s.conns.length + 1 ∧ s'.queue.length = s.queue.length + 4 ∧
      ∀ b, s.workersBacklog = b % 4294967296 → s'.workersBacklog = (b + 4) % 4294967296 := by
  obtain ⟨c, hc⟩ := fresh_passes
  have hlive : s.live < 2147483648 := Nat.lt_of_le_of_lt List.countP_le_length hlen
  let s₁ : Sys := { s with
    conns := s.conns ++ [⟨.new .standard .zeros, .reading⟩]
    socketActive := incr s.socketActive }
  have haccept : Sys.step .standard s (.accept .zeros) = some s₁ := by
    unfold Sys.step
    rw [if_neg (by rw [ha.up]; exact Bool.false_ne_true)]
    exact if_pos ⟨ha.main, ha.listening, hlive⟩
  have hget : s₁.conns[s.conns.length]? = some ⟨.new .standard .zeros, .reading⟩ :=
    List.getElem?_concat_length
  let s₂ : Sys := s₁.setConn s.conns.length ⟨fresh, .reading⟩
  have harrive : Sys.step .standard s₁ (.arrive s.conns.length requests) = some s₂ := by
    simp only [Sys.step, hget]
    rw [if_neg (by simp [s₁, ha.up])]
    rfl
  have hget₂ : s₂.conns[s.conns.length]? = some ⟨fresh, .reading⟩ :=
    List.getElem?_set_self (List.getElem?_eq_some_iff.mp hget).1
  obtain ⟨s', hrun, hq⟩ := passes_queued (s := s₂)
    ⟨ha.up, ha.main, ha.listening, ha.unheard⟩ hget₂ hc
  refine ⟨s', ?_, hq.accepting, ?_, hq.length, hq.backlog⟩
  · refine run_append.mpr ⟨s₂, ?_, hrun⟩
    unfold run
    rw [haccept, Option.bind_some]
    unfold run
    rw [harrive]
    rfl
  · rw [hq.conns]
    simp [s₂, s₁]

/-- `n` connections, one after the other. -/
def flood : Nat → List Act
  | 0 => []
  | n + 1 => flood n ++ fill n

theorem flood_queued {n : Nat} (hn : n ≤ 2147483648) :
    ∃ s, run (Sys.step .standard) (.init 1) (flood n) = some s ∧ Accepting s ∧
      s.conns.length = n ∧ s.queue.length = 4 * n ∧ s.workersBacklog = 4 * n % 4294967296 := by
  induction n with
  | zero => exact ⟨_, rfl, ⟨rfl, rfl, rfl, by decide⟩, rfl, rfl, rfl⟩
  | succ n ih =>
    obtain ⟨s, hrun, ha, hlen, hq, hb⟩ := ih (by omega)
    obtain ⟨s', hrun', ha', hlen', hq', hb'⟩ := fill_queued ha (by omega)
    rw [hlen] at hrun' hlen'
    refine ⟨s', run_append.mpr ⟨s, hrun, hrun'⟩, ha', hlen', by omega, ?_⟩
    rw [hb' _ hb]
    congr 1

/-- With 2^30 connections the counter is back at zero before anything is popped. -/
theorem backlog_wraps : ∃ as s, run (Sys.step .standard) (.init 1) as = some s ∧
    s.queue.length = 4294967296 ∧ s.workersBacklog = 0 := by
  obtain ⟨s, hrun, -, -, hq, hb⟩ := flood_queued (n := 1073741824) (by decide)
  exact ⟨_, s, hrun, by omega, by omega⟩

end Tfcgi.Dispatch
