import Tfcgi.Lib.Monitor
import Tfcgi.System

/-!
# The threads without the data of the connections

`Control` keeps of a state where each thread stands, the dispatch queue and the
atomics that the control share. `Move` is what a step can do to that.

* `step_move`: every step of the process is such a move.
-/

namespace Tfcgi.Threads

open Tfcgi.Protocol Tfcgi.Socket Tfcgi.Iostream Tfcgi.RequestSlot Tfcgi.ConnectionThread
open Tfcgi.System

structure Control where
  places : List ConnPc
  queue : List Ref
  backlog : Nat
  workers : List WorkerPc
  listening : Bool
  active : Nat
  main : MainPc

def control (s : Sys) : Control where
  places := s.conns.map Conn.pc
  queue := s.queue
  backlog := s.workersBacklog
  workers := s.workers
  listening := s.socketListening
  active := s.socketActive
  main := s.main

/-- About to look at the queue with `queue_mutex` held. -/
def looks : WorkerPc → Bool
  | .popping => true
  | .notified => true
  | .woken => true
  | _ => false

/-- Neither between the two parts of `push_request` nor erased. -/
def plain : ConnPc → Bool
  | .locking _ => false
  | .gone => false
  | _ => true

def isLive (pc : ConnPc) : Bool := pc ≠ .gone

/-- What a step does with the queue. -/
def op (t : Control) (a : Act) : Option (Monitor.Op Ref Nat) :=
  match a with
  | .conn i _ _ _ =>
    match t.places[i]? with
    | some (.locking ref) => some (.push ref)
    | _ => none
  | .worker w _ =>
    match t.workers[w]? with
    | some pc =>
      if looks pc then
        match t.queue with
        | [] => some (.park w (pc = .notified))
        | ref :: _ => some (.take w ref (pc = .notified))
      else none
    | none => none
  | .wake w => some (.wake w)
  | _ => none

/-- A worker goes from one place to another and leaves the queue as it is. -/
inductive WorkerMove (t : Control) : WorkerPc → WorkerPc → Prop where
  | loops (listening : t.listening = true) : WorkerMove t .loopTop .popping
  | checks (closed : t.listening = false) : WorkerMove t .loopTop .checkActive
  | stays (active : t.active ≠ 0) : WorkerMove t .checkActive .popping
  | exits (inactive : t.active = 0) : WorkerMove t .checkActive .exited
  | works (ref : Ref) (pc pc' : WorkerPc) (held : pc.request? = some ref)
      (held' : pc'.request? = some ref) : WorkerMove t pc pc'
  | ends (ref : Ref) : WorkerMove t (.decrementing ref) .loopTop

/-- `notify_one`. -/
inductive Notifies (workers : List WorkerPc) : List WorkerPc → Prop where
  | none (unheard : .parked ∉ workers) : Notifies workers workers
  | one (w : Nat) (worker : workers[w]? = some .parked) : Notifies workers (workers.set w .notified)

inductive Move (t : Control) : Act → Option (Monitor.Op Ref Nat) → Control → Prop where
  | stay (a : Act) : Move t a none t
  | accept (junk : Junk) (accepting : t.main = .accepting) (listening : t.listening = true)
      (room : t.places.countP isLive < 2147483648) :
      Move t (.accept junk) none
        { t with places := t.places ++ [.reading], active := incr t.active }
  | close (accepting : t.main = .accepting) :
      Move t .closeListening none { t with listening := false }
  | main (a : Act) (pc : MainPc)
      (next : t.main = .accepting ∧ t.listening = false ∧ pc = .joining ∨
        t.main = .joining ∧ (∀ w ∈ t.workers, w = .exited) ∧ pc = .ended) :
      Move t a none { t with main := pc }
  | goes (a : Act) (i : Nat) (pc pc' : ConnPc) (place : t.places[i]? = some pc)
      (from_plain : plain pc = true) (to_plain : plain pc' = true) :
      Move t a none { t with places := t.places.set i pc' }
  | backlog (a : Act) (i : Nat) (ref : Ref) (place : t.places[i]? = some (.pushing ref)) :
      Move t a none { t with places := t.places.set i (.locking ref), backlog := incr t.backlog }
  | push (a : Act) (i : Nat) (ref : Ref) (workers : List WorkerPc)
      (place : t.places[i]? = some (.locking ref)) (notifies : Notifies t.workers workers) :
      Move t a (some (.push ref)) { t with
        places := t.places.set i (.resetting ref)
        queue := t.queue ++ [ref]
        workers := workers }
  | erase (i k : Nat) (junk : Junk) (φ : Fate) (notified : Option Nat)
      (place : t.places[i]? = some (.clearing k)) :
      Move t (.conn i junk φ notified) none
        { t with places := t.places.set i .gone, active := decr t.active }
  | worker (a : Act) (w : Nat) (pc pc' : WorkerPc) (worker : t.workers[w]? = some pc)
      (moves : WorkerMove t pc pc') : Move t a none { t with workers := t.workers.set w pc' }
  | park (w : Nat) (φ : Fate) (pc : WorkerPc) (worker : t.workers[w]? = some pc)
      (looking : looks pc = true) (empty : t.queue = []) :
      Move t (.worker w φ) (some (.park w (pc = .notified)))
        { t with workers := t.workers.set w .parked }
  | take (w : Nat) (φ : Fate) (pc : WorkerPc) (ref : Ref) (queue : List Ref)
      (worker : t.workers[w]? = some pc) (looking : looks pc = true)
      (head : t.queue = ref :: queue) :
      Move t (.worker w φ) (some (.take w ref (pc = .notified))) { t with
        workers := t.workers.set w (.popped ref)
        queue := queue
        backlog := decr t.backlog }
  | wake (w : Nat) (worker : t.workers[w]? = some .parked) :
      Move t (.wake w) (some (.wake w)) { t with workers := t.workers.set w .woken }

/-! ## The steps of the process -/

variable {p : Params} {s s' : Sys}

theorem control_setConn {i : Nat} {n : Conn} :
    control (s.setConn i n) = { control s with places := (control s).places.set i n.pc } := by
  simp only [control, Sys.setConn, List.map_set]

theorem control_record (ref : Ref) (ms : List Mark) : control (s.record ref ms) = control s := rfl

theorem set_same {α : Type} {l : List α} {i : Nat} {a : α} (h : l[i]? = some a) :
    l.set i a = l := by
  obtain ⟨hi, rfl⟩ := List.getElem?_eq_some_iff.mp h
  exact List.set_getElem_self hi

theorem place_of {i : Nat} {n : Conn} (hn : s.conns[i]? = some n) :
    (control s).places[i]? = some n.pc := by
  simp only [control, List.getElem?_map, hn, Option.map_some]

/-- The connection changes and its thread stays where it is. -/
theorem control_same {i : Nat} {n n' : Conn} (hn : s.conns[i]? = some n) (hpc : n'.pc = n.pc) :
    control (s.setConn i n') = control s := by
  rw [control_setConn, hpc, set_same (place_of hn)]

theorem goes (a : Act) {i : Nat} {n n' : Conn} (hn : s.conns[i]? = some n) (hp : plain n.pc = true)
    (hp' : plain n'.pc = true) : Move (control s) a none (control (s.setConn i n')) := by
  rw [control_setConn]
  exact .goes a i n.pc n'.pc (place_of hn) hp hp'

/-- Nothing of the queue is touched while the thread stands at a plain place. -/
theorem op_conn {i : Nat} {n : Conn} (hn : s.conns[i]? = some n) (hp : plain n.pc = true)
    (junk : Junk)
    (φ : Fate) (notified : Option Nat) : op (control s) (.conn i junk φ notified) = none := by
  simp only [op, place_of hn]
  cases hpc : n.pc <;> first | rfl | (rw [hpc] at hp; cases hp)

theorem afterTurn_move (a : Act) {i : Nat} {n : Conn} (hn : s.conns[i]? = some n)
    (hpc : n.pc = .reading) (c : Connection) (log : List Event) (did : Option (Nat × Handled)) :
    Move (control s) a none (control (s.afterTurn i c log did)) := by
  have hp : plain n.pc = true := by rw [hpc]; rfl
  cases did with
  | none => exact goes _ hn hp rfl
  | some x =>
    obtain ⟨slot, h⟩ := x
    simp only [Sys.afterTurn, control_record]
    refine goes a hn hp ?_
    cases h <;> rfl

theorem reading_move (a : Act) {i : Nat} {n : Conn} {junk : Junk} {φ : Fate}
    (hn : s.conns[i]? = some n) (hpc : n.pc = .reading) (h : s.reading p i n junk φ = some s') :
    Move (control s) a none (control s') := by
  have hp : plain n.pc = true := by rw [hpc]; rfl
  unfold Sys.reading at h
  split at h
  · split at h
    · cases h
    · cases h
      exact .stay _
    · cases h
      exact goes _ hn hp rfl
    · cases h
      exact afterTurn_move a hn hpc _ _ _
  · cases h
    exact goes _ hn hp rfl

theorem notifyOne_move {notified : Option Nat} (h : s.notifyOne notified = some s') :
    ∃ workers, Notifies s.workers workers ∧ s' = { s with workers := workers } := by
  unfold Sys.notifyOne at h
  split at h
  · split at h
    · cases h
    · rename_i hunheard
      cases h
      exact ⟨_, .none hunheard, rfl⟩
  · split at h
    · rename_i w hw
      cases h
      exact ⟨_, .one w hw, rfl⟩
    · cases h

theorem connStep_move {i : Nat} {n : Conn} {junk : Junk} {φ : Fate} {notified : Option Nat}
    (hn : s.conns[i]? = some n) (h : s.connStep p i n junk φ notified = some s') :
    Move (control s) (.conn i junk φ notified) (op (control s) (.conn i junk φ notified))
      (control s') := by
  have hplace := place_of hn
  cases hpc : n.pc with
  | reading =>
    simp only [Sys.connStep, hpc] at h
    rw [op_conn hn (by rw [hpc]; rfl)]
    exact reading_move _ hn hpc h
  | pushing ref =>
    simp only [Sys.connStep, hpc] at h
    cases h
    rw [op_conn hn (by rw [hpc]; rfl)]
    rw [hpc] at hplace
    have hset : control { s.setConn i { n with pc := .locking ref } with
        workersBacklog := incr s.workersBacklog } = { control s with
        places := (control s).places.set i (.locking ref)
        backlog := incr (control s).backlog } := by
      simp only [control, Sys.setConn, List.map_set]
    rw [hset]
    exact .backlog _ i ref hplace
  | locking ref =>
    simp only [Sys.connStep, hpc] at h
    obtain ⟨workers, hnotifies, rfl⟩ := notifyOne_move h
    rw [hpc] at hplace
    have hop : op (control s) (.conn i junk φ notified) = some (.push ref) := by
      simp only [op, hplace]
    rw [hop]
    have hset : control { s.setConn i { n with pc := .resetting ref } with
        queue := s.queue ++ [ref], workers := workers } = { control s with
        places := (control s).places.set i (.resetting ref)
        queue := (control s).queue ++ [ref]
        workers := workers } := by
      simp only [control, Sys.setConn, List.map_set]
    exact hset ▸ .push _ i ref workers hplace hnotifies
  | resetting ref =>
    simp only [Sys.connStep, hpc] at h
    cases h
    rw [op_conn hn (by rw [hpc]; rfl)]
    exact goes _ hn (by rw [hpc]; rfl) rfl
  | tearingDown k =>
    simp only [Sys.connStep, hpc, Sys.tearingDown] at h
    rw [op_conn hn (by rw [hpc]; rfl)]
    have hp : plain n.pc = true := by rw [hpc]; rfl
    split at h
    · split at h
      · cases h
        exact .stay _
      · cases h
        exact goes _ hn hp rfl
    · cases h
      exact goes _ hn hp rfl
  | waiting =>
    simp only [Sys.connStep, hpc] at h
    rw [op_conn hn (by rw [hpc]; rfl)]
    split at h
    · cases h
      exact goes _ hn (by rw [hpc]; rfl) rfl
    · cases h
  | clearing k =>
    simp only [Sys.connStep, hpc, Sys.clearing] at h
    rw [op_conn hn (by rw [hpc]; rfl)]
    have hp : plain n.pc = true := by rw [hpc]; rfl
    split at h
    · split at h
      · cases h
        exact .stay _
      · cases h
        exact goes _ hn hp rfl
    · split at h
      · cases h
        exact .stay _
      · rename_i c log hc
        cases h
        rw [hpc] at hplace
        have hset : control { s.setConn i ⟨c, .gone⟩ with socketActive := decr s.socketActive } =
            { control s with
              places := (control s).places.set i .gone
              active := decr (control s).active } := by
          simp only [control, Sys.setConn, List.map_set]
        rw [hset]
        exact .erase i k junk φ notified hplace
  | gone =>
    simp only [Sys.connStep, hpc] at h
    cases h

theorem control_setRequest (s : Sys) (ref : Ref) (r : Request) :
    control (s.setRequest ref r) = control s := by
  unfold Sys.setRequest
  split
  · rfl
  · rename_i n hn
    exact control_same hn rfl

theorem useRequest_move {a : Act} {w : Nat} {pc : WorkerPc} {ref : Ref} {φ : Fate}
    {use : Request → Option (Tx (Request × WorkerPc × Option Int))}
    (hw : s.workers[w]? = some pc)
    (huse : ∀ r tx r' pc' got log, use r = some tx → tx φ = (.ok (r', pc', got), log) →
      WorkerMove (control s) pc pc')
    (h : s.useRequest w ref φ use = some s') : Move (control s) a none (control s') := by
  unfold Sys.useRequest at h
  split at h
  · cases h
    exact .stay _
  · rename_i r hr
    split at h
    · cases h
    · rename_i tx htx
      split at h
      · cases h
        exact .stay _
      · rename_i r' pc' got log hd
        cases h
        rw [control_record]
        have hset : control ((s.setRequest ref r').setWorker w pc') =
            { control s with workers := (control s).workers.set w pc' } := by
          rw [← control_setRequest s ref r']
          simp only [control, Sys.setWorker]
        rw [hset]
        exact .worker _ w pc pc' hw (huse r tx r' pc' got log htx hd)

theorem setWorker_move (a : Act) {w : Nat} {pc pc' : WorkerPc} (hw : s.workers[w]? = some pc)
    (hm : WorkerMove (control s) pc pc') : Move (control s) a none (control (s.setWorker w pc')) :=
  .worker a w pc pc' hw hm

theorem op_worker {w : Nat} {pc : WorkerPc} (hw : s.workers[w]? = some pc) (hl : looks pc = false)
    (φ : Fate) : op (control s) (.worker w φ) = none := by
  have hw' : (control s).workers[w]? = some pc := hw
  simp only [op, hw', hl, Bool.false_eq_true, if_false]

theorem pop_move {w : Nat} {pc : WorkerPc} (hw : s.workers[w]? = some pc) (hl : looks pc = true)
    (φ : Fate) :
    Move (control s) (.worker w φ) (op (control s) (.worker w φ)) (control (s.pop w)) := by
  have hw' : (control s).workers[w]? = some pc := hw
  simp only [op, hw', hl, if_true, Sys.pop]
  cases hq : s.queue with
  | nil =>
    have hq' : (control s).queue = [] := hq
    simp only [hq']
    exact .park w φ pc hw hl hq
  | cons ref queue =>
    have hq' : (control s).queue = ref :: queue := hq
    simp only [hq']
    exact .take w φ pc ref queue hw hl hq

theorem decrement_move (a : Act) {w : Nat} {ref : Ref}
    (hw : s.workers[w]? = some (.decrementing ref)) :
    Move (control s) a none (control (s.decrement w ref)) := by
  unfold Sys.decrement
  split
  · exact .stay _
  · rename_i n hn
    split
    · exact .stay _
    · have hset : ∀ c : Connection,
          control ((s.setConn ref.conn { n with connection := c }).setWorker w .loopTop) =
            { control s with workers := (control s).workers.set w .loopTop } := by
        intro c
        have hsame : control (s.setConn ref.conn { n with connection := c }) = control s :=
          control_same hn rfl
        rw [← hsame]
        rfl
      rw [hset]
      exact .worker _ w _ _ hw (.ends ref)

theorem not_looks {pc : WorkerPc} {ref : Ref} (h : pc.request? = some ref) : looks pc = false := by
  cases pc with
  | popping | notified | woken => cases h
  | _ => rfl

theorem workerStep_move {w : Nat} {pc : WorkerPc} {φ : Fate} (hw : s.workers[w]? = some pc)
    (h : s.workerStep p w pc φ = some s') :
    Move (control s) (.worker w φ) (op (control s) (.worker w φ)) (control s') := by
  rcases Sys.workerStep_cases h with
    ⟨rfl, rfl⟩ | ⟨rfl, rfl⟩ | ⟨hpc, rfl⟩ | ⟨ref, href, hu⟩ | ⟨ref, rfl, rfl⟩
  · rw [op_worker hw rfl]
    cases hl : s.socketListening with
    | true => exact setWorker_move _ hw (.loops hl)
    | false => exact setWorker_move _ hw (.checks hl)
  · rw [op_worker hw rfl]
    by_cases ha : s.socketActive = 0
    · rw [if_neg (by simpa using ha)]
      exact setWorker_move _ hw (.exits ha)
    · rw [if_pos ha]
      exact setWorker_move _ hw (.stays ha)
  · have hlooks : looks pc = true := by rcases hpc with rfl | rfl | rfl <;> rfl
    exact pop_move hw hlooks φ
  · rw [op_worker hw (not_looks href)]
    refine useRequest_move hw ?_ hu
    intro r tx r' pc' got log htx hd
    obtain ⟨tx', htx', rfl⟩ := Option.map_eq_some_iff.mp htx
    obtain ⟨⟨r₁, pc₁⟩, hr, he⟩ := Tx.bind_return (fun _ => rfl) hd
    cases he
    obtain ⟨hpc, hpc', -⟩ := (Sys.workRequest_worked (w := w) href htx' hr).keeps
    exact .works ref pc pc₁ hpc hpc'
  · rw [op_worker hw rfl]
    exact decrement_move _ hw

theorem live_eq (s : Sys) : s.live = (control s).places.countP isLive := by
  simp only [Sys.live, control, List.countP_map]
  rfl

theorem step_move {a : Act} (h : Sys.step p s a = some s') :
    Move (control s) a (op (control s) a) (control s') := by
  unfold Sys.step at h
  split at h
  · cases h
  · cases a with
    | accept junk =>
      simp only at h
      split at h
      · rename_i hg
        cases h
        obtain ⟨hmain, hlistening, hroom⟩ := hg
        have hset : control { s with
            conns := s.conns ++ [⟨.new p junk, .reading⟩]
            socketActive := incr s.socketActive } = { control s with
            places := (control s).places ++ [.reading], active := incr (control s).active } := by
          simp only [control, List.map_append, List.map_cons, List.map_nil]
        rw [hset]
        exact .accept junk hmain hlistening (by rw [← live_eq]; exact hroom)
      · cases h
    | closeListening =>
      simp only at h
      split at h
      · rename_i hg
        cases h
        exact .close hg.1
      · cases h
    | leaveLoop =>
      simp only at h
      split at h
      · rename_i hg
        cases h
        exact .main _ .joining (Or.inl ⟨hg.1, eq_false_of_ne_true hg.2, rfl⟩)
      · cases h
    | join =>
      simp only at h
      split at h
      · rename_i hg
        cases h
        exact .main _ .ended (Or.inr ⟨hg.1, hg.2, rfl⟩)
      · cases h
    | arrive i r =>
      simp only at h
      split at h
      · cases h
      · rename_i n hn
        split at h
        · cases h
        · cases h
          have hsame : control (s.setConn i { n with connection := { n.connection with
              sock := { n.connection.sock with reads := n.connection.sock.reads ++ [r] } } }) =
            control s := control_same hn rfl
          exact hsame ▸ .stay _
    | conn i junk φ notified =>
      simp only at h
      split at h
      · cases h
      · rename_i n hn
        exact connStep_move hn h
    | worker w φ =>
      simp only at h
      split at h
      · cases h
      · rename_i pc hw
        exact workerStep_move hw h
    | wake w =>
      simp only at h
      split at h
      · rename_i hw
        cases h
        exact .wake w hw
      · cases h
    | app w o φ =>
      simp only at h
      split at h
      · rename_i ref hw
        refine useRequest_move hw ?_ h
        intro r tx r' pc' got log htx hd
        obtain ⟨tx', -, rfl⟩ := Option.map_eq_some_iff.mp htx
        obtain ⟨⟨r₁, got₁⟩, -, he⟩ := Tx.bind_return (fun _ => rfl) hd
        cases he
        exact .works ref _ _ rfl rfl
      · cases h
    | finish w how φ =>
      simp only at h
      split at h
      · rename_i ref hw
        refine useRequest_move hw ?_ h
        intro r tx r' pc' got log htx hd
        cases htx
        obtain ⟨⟨r₁, body⟩, -, he⟩ := Tx.bind_return (fun _ => rfl) hd
        cases he
        exact .works ref _ _ rfl rfl
      · cases h

end Tfcgi.Threads
