import Tfcgi.Lib.Descent
import Tfcgi.Escape
import Tfcgi.NoneLost

/-!
# The process comes to rest

A step `Winds` down when it only finishes what was dispatched or torn down before: a
worker moves, a callback ends, or a connection thread that reads no record moves. All
sends succeed.

* `winds_step`: such a step does not crash and lowers `rank`;
* `rests_settled`: when none is enabled, everything was answered;
* `settles`: every order of such steps ends, and ends so.
-/

namespace Tfcgi.Progress

open Tfcgi.Run Tfcgi.Descent Tfcgi.Protocol Tfcgi.Socket Tfcgi.Iostream Tfcgi.RequestSlot
open Tfcgi.ConnectionThread Tfcgi.System Tfcgi.Accounting Tfcgi.History Tfcgi.Reuse Tfcgi.Owner
open Tfcgi.Streams Tfcgi.Ending Tfcgi.Escape Tfcgi.Threads Tfcgi.Dispatch Tfcgi.Shutdown
open Tfcgi.NoneLost

/-! ## Code whose sends succeed -/

/-- It runs to its end when no send fails. -/
def Completes {α : Type} (m : Tx α) : Prop := ∃ a es, m Fate.sent = (.ok a, es)

namespace Completes

variable {α β : Type}

theorem pure (a : α) : Completes (Pure.pure a : Tx α) := ⟨a, [], rfl⟩

theorem bind {m : Tx α} {f : α → Tx β} (hm : Completes m) (hf : ∀ a, Completes (f a)) :
    Completes (m >>= f) := by
  obtain ⟨a, es, ha⟩ := hm
  obtain ⟨b, es', hb⟩ := hf a
  exact ⟨b, es ++ es', by rw [Tx.bind_sent ha, hb]⟩

theorem of_returns {m : Tx α} {Q : α → Prop} (h : Returns m Q) : Completes m := by
  obtain ⟨a, es, ha, -⟩ := h Fate.sent
  exact ⟨a, es, ha⟩

end Completes

variable {p : Params}

theorem buffer_completes (b : Ostreambuf) : Completes (b.destroy p) := by
  rcases b.sync_cases p Fate.sent with ⟨hp, -⟩ | ⟨-, e, he, -⟩ | ⟨-, o, -, -, hs⟩
  · rw [Completes, Ostreambuf.destroy_empty p hp]
    cases b.sendEof
    · exact ⟨(), [], rfl⟩
    · exact ⟨(), [.sent (b.packet p []) .sent], rfl⟩
  · cases he
  · refine ⟨(), [.sent (b.packet p b.pending) o, .sent (b.packet p []) .sent], ?_⟩
    unfold Ostreambuf.destroy
    rw [Tx.bind_sent hs]
    rfl

theorem close_completes (o : Ostream) : Completes (o.close p) := by
  unfold Ostream.close Ostream.flush
  split
  · refine Completes.bind ?_ fun o => Completes.bind (buffer_completes _) fun _ => .pure _
    split
    · refine Completes.bind ?_ fun _ => .pure _
      rcases o.internal.sync_cases p Fate.sent with ⟨-, hs⟩ | ⟨-, e, he, -⟩ | ⟨-, out, -, -, hs⟩
      · exact ⟨_, _, hs⟩
      · cases he
      · exact ⟨_, _, hs⟩
    · exact .pure _
  · exact .pure _

theorem request_completes (r : Request) : Completes (r.destroy p) :=
  (buffer_completes _).bind fun _ => buffer_completes _

theorem send_completes (pkt : Packet) : Completes (Request.sendOrThrow pkt) := ⟨(), _, rfl⟩

theorem tearDown_completes (c : Connection) (k : Nat) : Completes (c.tearDown p k) := by
  unfold Connection.tearDown
  split
  · exact .pure _
  · split
    · exact (request_completes _).bind fun _ => .pure _
    · exact (request_completes _).bind fun _ => .pure _
    · exact .pure _

theorem clearSlot_completes (c : Connection) (k : Nat) : Completes (c.clearSlot p k) := by
  unfold Connection.clearSlot
  split
  · exact .pure _
  · exact (request_completes _).bind fun _ => .pure _

theorem destroy_completes (c : Connection) : Completes (c.destroy p) :=
  (close_completes _).bind fun _ => (buffer_completes _).bind fun _ => .pure _

theorem workRequest_completes {r : Request} (hr : AllTyped r) {pc : WorkerPc}
    {tx : Tx (Request × WorkerPc)} (h : workRequest p r pc = some tx) : Completes tx := by
  cases pc with
  | popped ref =>
    simp only [workRequest] at h
    split at h
    · cases h
      exact .pure _
    · cases h
      exact (Completes.of_returns (unknownRole_returns hr)).bind fun _ => .pure _
  | closingCout ref body | closingCerr ref body =>
    cases h
    exact (close_completes _).bind fun _ => .pure _
  | sending ref body =>
    cases h
    exact (send_completes _).bind fun _ => .pure _
  | _ => cases h

/-! ## Winding down -/

/-- A step that takes no new work on. -/
inductive Winds (s : Sys) : System.Act → Prop where
  | worker (w : Nat) : Winds s (.worker w Fate.sent)
  | finish (w : Nat) (how : AppEnd) : Winds s (.finish w how Fate.sent)
  /-- the thread is busy with a push, or past its loop -/
  | conn (i : Nat) (junk : Junk) (notified : Option Nat) (n : Conn) (conn : s.conns[i]? = some n)
      (away : n.pc ≠ .reading) : Winds s (.conn i junk Fate.sent notified)

def workerRank : WorkerPc → Nat
  | .popped _ => 9
  | .running _ => 8
  | .closingCout _ _ => 7
  | .closingCerr _ _ => 6
  | .sending _ _ => 5
  | .decrementing _ => 4
  | .loopTop => 3
  | .checkActive => 2
  | .popping => 1
  | .notified => 1
  | .woken => 1
  | .parked => 0
  | .exited => 0

def connRank (n : Conn) : Nat :=
  match n.pc with
  | .reading => 0
  | .pushing _ => 13
  | .locking _ => 12
  | .resetting _ => 1
  | .tearingDown k => (n.connection.requests.length - k) + n.connection.requests.length + 3
  | .waiting => n.connection.requests.length + 2
  | .clearing k => (n.connection.requests.length - k) + 1
  | .gone => 0

/-- More than the steps that are left. A queued request counts for all that a worker
does with it. -/
def rank (s : Sys) : Nat :=
  9 * s.queue.length + Slots.total workerRank s.workers + Slots.total connRank s.conns

/-- The states of all runs with `n` workers. -/
def Reached (p : Params) (n : Nat) (s : Sys) : Prop :=
  ∃ as, run (Sys.step p) (.init n) as = some s

section
variable {workers : Nat} {s s' : Sys} {a : System.Act}

theorem Reached.step (hr : Reached p workers s) (h : Sys.step p s a = some s') :
    Reached p workers s' := by
  obtain ⟨as, has⟩ := hr
  refine ⟨as ++ [a], run_append.mpr ⟨s, has, ?_⟩⟩
  simp only [run, h, Option.bind_some]

theorem Reached.inv (hr : Reached p workers s) : Inv s := by
  obtain ⟨as, has⟩ := hr
  exact run_inv has

theorem Reached.typed (hr : Reached p workers s) {ref : Ref} {r : Request}
    (h : s.request? ref = some r) : AllTyped r := by
  obtain ⟨as, has⟩ := hr
  exact (run_streamed has ref).typed r h

/-- No wake-up is lost. -/
theorem Reached.awake (hr : Reached p workers s) (h : .parked ∈ s.workers) :
    s.queue.length ≤ s.workers.countP isNotified := by
  obtain ⟨as, has⟩ := hr
  refine Monitor.run_awake (init_awake workers) (steps_ops has) ?_
  exact List.countP_pos_iff.mpr ⟨.parked, h, by simp [isParked]⟩

theorem held_refs {w : Nat} {pc : WorkerPc} {ref : Ref}
    (hw : s.workers[w]? = some pc) (hpc : pc.request? = some ref) : ref ∈ refs s :=
  List.mem_append_right _ (List.mem_append_right _
    (List.mem_filterMap.mpr ⟨pc, List.mem_of_getElem? hw, hpc⟩))

theorem conns_rank {conns : List Conn} {i : Nat} {n m : Conn} (hn : conns[i]? = some n)
    (h : connRank m = connRank n) :
    Slots.total connRank (conns.set i m) = Slots.total connRank conns := by
  have := Slots.total_set connRank m hn
  omega

theorem setRequest_rank (s : Sys) (ref : Ref) (r : Request) :
    Slots.total connRank ((s.setRequest ref r).conns) = Slots.total connRank s.conns := by
  unfold Sys.setRequest
  split
  · rfl
  · rename_i n hn
    exact conns_rank hn (by cases hpc : n.pc <;> simp [connRank, hpc])

theorem setWorker_rank {w : Nat} {pc pc' : WorkerPc} (hw : s.workers[w]? = some pc)
    (h : workerRank pc' < workerRank pc) : rank (s.setWorker w pc') < rank s := by
  have := Slots.total_set workerRank pc' hw
  simp only [rank, Sys.setWorker_queue, Sys.setWorker_workers, Sys.setWorker_conns]
  omega

theorem worked_rank {w : Nat} {ref : Ref} {r r' : Request} {pc pc' : WorkerPc} {got : Option Int}
    {log : List Event} (h : Sys.Worked p w ref r a pc r' pc' got log)
    (ha : ∀ w op φ, a ≠ .app w op φ) : workerRank pc' < workerRank pc := by
  cases h with
  | app φ op tx r' got log op_eq did => exact absurd rfl (ha _ _ _)
  | _ => simp [workerRank]

theorem useRequest_winds (hr : Reached p workers s) {w : Nat} {pc : WorkerPc} {ref : Ref}
    {use : Request → Option (Tx (Request × WorkerPc × Option Int))}
    (hw : s.workers[w]? = some pc) (hpc : pc.request? = some ref)
    (huse : ∀ r tx, AllTyped r → use r = some tx → Completes tx ∧
      ∀ r' pc' got log, tx Fate.sent = (.ok (r', pc', got), log) → workerRank pc' < workerRank pc)
    (h : s.useRequest w ref Fate.sent use = some s') : s'.down = s.down ∧ rank s' < rank s := by
  obtain ⟨n, r, hn, -, hslot, -⟩ := hr.inv.live (held_refs hw hpc)
  have hreq : s.request? ref = some r := Sys.request?_eq_some.mpr ⟨n, hn, hslot⟩
  simp only [Sys.useRequest, hreq] at h
  cases htx : use r with
  | none =>
    simp only [htx] at h
    cases h
  | some tx =>
    obtain ⟨⟨⟨r', pc', got⟩, log, hdone⟩, hlower⟩ := huse r tx (hr.typed hreq) htx
    simp only [htx, hdone, Option.some.injEq] at h
    subst h
    have hlt := hlower r' pc' got log hdone
    refine ⟨?_, ?_⟩
    · simp only [Sys.record, Sys.setWorker]
      unfold Sys.setRequest
      split <;> rfl
    · have hsum := Slots.total_set workerRank pc' hw
      simp only [rank, Sys.record_queue, Sys.record_workers, Sys.record_conns, Sys.setWorker_queue,
        Sys.setWorker_workers, Sys.setWorker_conns, Sys.setRequest_queue, Sys.setRequest_workers,
        setRequest_rank]
      omega

theorem pop_winds {w : Nat} {pc : WorkerPc} (hw : s.workers[w]? = some pc)
    (hpc : pc = .popping ∨ pc = .notified ∨ pc = .woken) :
    (s.pop w).down = s.down ∧ rank (s.pop w) < rank s := by
  have hone : workerRank pc = 1 := by rcases hpc with rfl | rfl | rfl <;> rfl
  unfold Sys.pop
  split
  · exact ⟨rfl, setWorker_rank hw (by rw [hone]; exact Nat.zero_lt_one)⟩
  · rename_i ref queue hq
    refine ⟨rfl, ?_⟩
    have hsum := Slots.total_set workerRank (.popped ref) hw
    simp only [rank, Sys.setWorker_workers, Sys.setWorker_conns, hq, List.length_cons]
    rw [hone] at hsum
    simp only [workerRank] at hsum ⊢
    omega

theorem decrement_winds (hr : Reached p workers s) {w : Nat} {ref : Ref}
    (hw : s.workers[w]? = some (.decrementing ref)) :
    (s.decrement w ref).down = s.down ∧ rank (s.decrement w ref) < rank s := by
  obtain ⟨n, r, hn, hl, -⟩ := hr.inv.live (held_refs hw rfl)
  have hgone : n.pc ≠ .gone := by
    intro hg
    rw [hg] at hl
    cases hl
  simp only [Sys.decrement, hn, if_neg hgone]
  refine ⟨rfl, ?_⟩
  have hsum := Slots.total_set workerRank .loopTop hw
  have hconns := conns_rank (m := { n with connection :=
    { n.connection with requestActives := decr n.connection.requestActives } }) hn
    (by cases hpc : n.pc <;> simp [connRank, hpc])
  simp only [rank, Sys.setWorker_queue, Sys.setWorker_workers, Sys.setWorker_conns,
    Sys.setConn_queue, Sys.setConn_workers, Sys.setConn_conns, hconns]
  simp only [workerRank] at hsum ⊢
  omega

theorem worker_winds (hr : Reached p workers s) {w : Nat} {pc : WorkerPc}
    (hw : s.workers[w]? = some pc) (h : s.workerStep p w pc Fate.sent = some s') :
    s'.down = s.down ∧ rank s' < rank s := by
  rcases Sys.workerStep_cases h with ⟨rfl, rfl⟩ | ⟨rfl, rfl⟩ | ⟨hpc, rfl⟩ | ⟨ref, href, hu⟩ |
    ⟨ref, rfl, rfl⟩
  · refine ⟨rfl, setWorker_rank hw ?_⟩
    split <;> simp [workerRank]
  · refine ⟨rfl, setWorker_rank hw ?_⟩
    split <;> simp [workerRank]
  · exact pop_winds hw hpc
  · refine useRequest_winds hr hw href ?_ hu
    intro r tx ht htx
    obtain ⟨tx', htx', rfl⟩ := Option.map_eq_some_iff.mp htx
    refine ⟨(workRequest_completes ht htx').bind fun _ => .pure _, ?_⟩
    intro r' pc' got log hdone
    obtain ⟨⟨r₁, pc₁⟩, hd, he⟩ := Tx.bind_return (fun _ => rfl) hdone
    cases he
    exact worked_rank (Sys.workRequest_worked (w := w) href htx' hd) nofun
  · exact decrement_winds hr hw

theorem setConn_rank {i : Nat} {n m : Conn} (hn : s.conns[i]? = some n)
    (h : connRank m < connRank n) : rank (s.setConn i m) < rank s := by
  have hsum := Slots.total_set connRank m hn
  simp only [rank, Sys.setConn_queue, Sys.setConn_workers, Sys.setConn_conns]
  omega

theorem tornDown_length {c c' : Connection} {φ : Fate} {k : Nat} {log : List Event}
    (h : Connection.TornDown p φ c k c' log) : c'.requests.length = c.requests.length := by
  cases h <;> simp

theorem tearingDown_winds {i k : Nat} {n : Conn} (hn : s.conns[i]? = some n)
    (hpc : n.pc = .tearingDown k) : (s.tearingDown p i n k Fate.sent).down = s.down ∧
      rank (s.tearingDown p i n k Fate.sent) < rank s := by
  unfold Sys.tearingDown
  split
  · rename_i hk
    obtain ⟨c, log, hc⟩ := tearDown_completes (p := p) n.connection k
    simp only [hc]
    refine ⟨rfl, setConn_rank (m := ⟨c, .tearingDown (k + 1)⟩) hn ?_⟩
    simp only [connRank, hpc, tornDown_length (Connection.tearDown_ok hc)]
    omega
  · rename_i hk
    refine ⟨rfl, setConn_rank hn ?_⟩
    simp only [connRank, hpc]
    omega

theorem clearing_winds {i k : Nat} {n : Conn} (hn : s.conns[i]? = some n)
    (hpc : n.pc = .clearing k) : (s.clearing p i n k Fate.sent).down = s.down ∧
      rank (s.clearing p i n k Fate.sent) < rank s := by
  unfold Sys.clearing
  split
  · rename_i hk
    obtain ⟨c, log, hc⟩ := clearSlot_completes (p := p) n.connection k
    have hlen : c.requests.length = n.connection.requests.length := by
      rcases Connection.clearSlot_ok hc with ⟨-, rfl, -⟩ | ⟨r, -, -, rfl⟩
      · rfl
      · simp
    simp only [hc]
    refine ⟨rfl, setConn_rank (m := ⟨c, .clearing (k + 1)⟩) hn ?_⟩
    simp only [connRank, hpc, hlen]
    omega
  · obtain ⟨c, log, hc⟩ := destroy_completes (p := p) n.connection
    simp only [hc]
    refine ⟨rfl, setConn_rank (m := ⟨c, .gone⟩) hn ?_⟩
    simp [connRank, hpc]

theorem notifies_rank {workers workers' : List WorkerPc} (h : Notifies workers workers') :
    Slots.total workerRank workers' ≤ Slots.total workerRank workers + 1 := by
  cases h with
  | none unheard => omega
  | one w worker =>
    have := Slots.total_set workerRank .notified worker
    simp only [workerRank] at this
    omega

theorem locking_winds {i : Nat} {n : Conn} {ref : Ref} {notified : Option Nat}
    (hn : s.conns[i]? = some n) (hpc : n.pc = .locking ref)
    (h : Sys.notifyOne
      { s.setConn i { n with pc := .resetting ref } with queue := s.queue ++ [ref] }
      notified = some s') : s'.down = s.down ∧ rank s' < rank s := by
  obtain ⟨workers', hnotifies, rfl⟩ := notifyOne_move h
  have hworkers := notifies_rank hnotifies
  have hconns := Slots.total_set connRank { n with pc := .resetting ref } hn
  refine ⟨rfl, ?_⟩
  simp only [rank, Sys.setConn_conns, List.length_append, List.length_singleton]
  simp only [connRank, hpc] at hconns
  simp only [Sys.setConn_workers] at hworkers
  omega

theorem conn_winds {i : Nat} {n : Conn} {junk : Junk} {notified : Option Nat}
    (hn : s.conns[i]? = some n) (haway : n.pc ≠ .reading)
    (h : s.connStep p i n junk Fate.sent notified = some s') :
    s'.down = s.down ∧ rank s' < rank s := by
  cases hpc : n.pc with
  | reading => exact absurd hpc haway
  | pushing ref =>
    simp only [Sys.connStep, hpc] at h
    cases h
    exact ⟨rfl, setConn_rank (m := { n with pc := .locking ref }) hn (by simp [connRank, hpc])⟩
  | locking ref =>
    simp only [Sys.connStep, hpc] at h
    exact locking_winds hn hpc h
  | resetting ref =>
    simp only [Sys.connStep, hpc] at h
    cases h
    exact ⟨rfl, setConn_rank hn (by simp [connRank, hpc])⟩
  | tearingDown k =>
    simp only [Sys.connStep, hpc] at h
    cases h
    exact tearingDown_winds hn hpc
  | waiting =>
    simp only [Sys.connStep, hpc] at h
    split at h
    · cases h
      exact ⟨rfl, setConn_rank hn (by simp [connRank, hpc])⟩
    · cases h
  | clearing k =>
    simp only [Sys.connStep, hpc] at h
    cases h
    exact clearing_winds hn hpc
  | gone =>
    simp only [Sys.connStep, hpc] at h
    cases h

theorem winds_step (hr : Reached p workers s) (hup : s.down = none) (hw : Winds s a)
    (h : Sys.step p s a = some s') : s'.down = none ∧ rank s' < rank s := by
  rw [← hup]
  cases hw with
  | worker w =>
    simp only [Sys.step, hup, Option.isSome_none, Bool.false_eq_true, if_false] at h
    cases hpc : s.workers[w]? with
    | none =>
      simp only [hpc] at h
      cases h
    | some pc =>
      simp only [hpc] at h
      exact worker_winds hr hpc h
  | finish w how =>
    simp only [Sys.step, hup, Option.isSome_none, Bool.false_eq_true, if_false] at h
    split at h
    · rename_i ref hpc
      refine useRequest_winds hr hpc rfl ?_ h
      intro r tx ht htx
      cases htx
      refine ⟨(Completes.of_returns (callbackEnds_returns ht how)).bind fun _ => .pure _, ?_⟩
      intro r' pc' got log hd
      obtain ⟨⟨r₁, body⟩, -, he⟩ := Tx.bind_return (fun _ => rfl) hd
      cases he
      exact Nat.lt_succ_self 7
    · cases h
  | conn i junk notified n conn away =>
    simp only [Sys.step, hup, Option.isSome_none, Bool.false_eq_true, if_false, conn] at h
    exact conn_winds conn away h

/-! ## At rest -/

theorem useRequest_some (hr : Reached p workers s) {w : Nat} {pc : WorkerPc} {ref : Ref} {φ : Fate}
    {use : Request → Option (Tx (Request × WorkerPc × Option Int))}
    (hw : s.workers[w]? = some pc) (hpc : pc.request? = some ref) (huse : ∀ r, use r ≠ none) :
    s.useRequest w ref φ use ≠ none := by
  intro h
  obtain ⟨n, r, hn, -, hslot, -⟩ := hr.inv.live (held_refs hw hpc)
  have hreq : s.request? ref = some r := Sys.request?_eq_some.mpr ⟨n, hn, hslot⟩
  simp only [Sys.useRequest, hreq] at h
  split at h
  · exact huse r ‹_›
  · split at h <;> cases h

theorem workRequest_some {r : Request} {pc : WorkerPc} (h : ∃ ref, pc.request? = some ref)
    (hrun : ∀ ref, pc ≠ .running ref) (hdec : ∀ ref, pc ≠ .decrementing ref) :
    workRequest p r pc ≠ none := by
  obtain ⟨ref, href⟩ := h
  cases pc with
  | popped ref =>
    simp only [workRequest]
    split <;> simp
  | closingCout ref body | closingCerr ref body | sending ref body => simp [workRequest]
  | running ref => exact absurd rfl (hrun ref)
  | decrementing ref => exact absurd rfl (hdec ref)
  | _ => cases href

/-- A worker that cannot move waits for a request, or has left. -/
theorem rests_worker (hr : Reached p workers s) (hup : s.down = none)
    (hrest : Rests (Sys.step p) Winds s) {pc : WorkerPc} (hm : pc ∈ s.workers) :
    pc = .parked ∨ pc = .exited := by
  obtain ⟨w, hw⟩ := List.getElem?_of_mem hm
  have hstep := hrest _ (.worker w)
  have hfinish := hrest _ (.finish w (.returns 0))
  simp only [Sys.step, hup, hw, Option.isSome_none, Bool.false_eq_true, if_false] at hstep hfinish
  have huse : ∀ ref, pc.request? = some ref → (∀ ref, pc ≠ .running ref) →
      (∀ ref, pc ≠ .decrementing ref) → ∀ f,
      s.useRequest w ref Fate.sent (fun r => (workRequest p r pc).map f) ≠ none := by
    intro ref href hrun hdec f
    refine useRequest_some hr hw href ?_
    intro r hnone
    exact workRequest_some ⟨ref, href⟩ hrun hdec (Option.map_eq_none_iff.mp hnone)
  cases pc with
  | parked => exact Or.inl rfl
  | exited => exact Or.inr rfl
  | running ref =>
    refine absurd hfinish (useRequest_some hr hw rfl ?_)
    intro r hnone
    cases hnone
  | popped ref | closingCout ref body | closingCerr ref body | sending ref body =>
    simp only [Sys.workerStep] at hstep
    exact absurd hstep (huse ref rfl (fun _ => WorkerPc.noConfusion)
      (fun _ => WorkerPc.noConfusion) _)
  | _ => cases hstep

theorem rests_queue (hr : Reached p workers s) (hup : s.down = none) (hpos : 0 < workers)
    (hrest : Rests (Sys.step p) Winds s) : s.queue = [] := by
  by_cases hparked : .parked ∈ s.workers
  · have hlen := hr.awake hparked
    have hzero : s.workers.countP isNotified = 0 := by
      rw [List.countP_eq_zero]
      intro pc hpc
      rcases rests_worker hr hup hrest hpc with rfl | rfl <;> simp [isNotified]
    exact List.eq_nil_of_length_eq_zero (by omega)
  · obtain ⟨as, has⟩ := hr
    have hlen := (run_control has).2
    obtain ⟨pc, hpc⟩ := List.exists_mem_of_length_pos (l := s.workers) (by omega)
    rcases rests_worker ⟨as, has⟩ hup hrest hpc with rfl | rfl
    · exact absurd hpc hparked
    · exact (stopped_of_exited (run_inv has) (run_counted has) hpc).queue

/-- A connection thread that cannot move reads records, waits for its requests, or is gone. -/
theorem rests_conn (hup : s.down = none) (hrest : Rests (Sys.step p) Winds s) {i : Nat} {n : Conn}
    (hn : s.conns[i]? = some n) :
    n.pc = .reading ∨ n.pc = .waiting ∧ n.connection.requestActives ≠ 0 ∨ n.pc = .gone := by
  have hstep : n.pc ≠ .reading → ∀ notified,
      s.connStep p i n .zeros Fate.sent notified = none := by
    intro haway notified
    have h := hrest _ (.conn i .zeros notified n hn haway)
    simpa only [Sys.step, hup, hn, Option.isSome_none, Bool.false_eq_true, if_false] using h
  cases hpc : n.pc with
  | reading => exact Or.inl rfl
  | gone => exact Or.inr (Or.inr rfl)
  | waiting =>
    refine Or.inr (Or.inl ⟨rfl, fun hz => ?_⟩)
    have h := hstep (by rw [hpc]; simp) none
    simp only [Sys.connStep, hpc, hz, if_true] at h
    cases h
  | locking ref =>
    have h := hstep (by rw [hpc]; simp)
    simp only [Sys.connStep, hpc] at h
    by_cases hparked : .parked ∈ s.workers
    · obtain ⟨w, hw⟩ := List.getElem?_of_mem hparked
      have hw' := h (some w)
      simp only [Sys.notifyOne, Sys.setConn_workers, hw, if_true] at hw'
      cases hw'
    · have hnone := h none
      simp only [Sys.notifyOne, Sys.setConn_workers, hparked, if_false] at hnone
      cases hnone
  | _ =>
    have h := hstep (by rw [hpc]; simp) none
    simp only [Sys.connStep, hpc] at h
    cases h

theorem rests_no_refs (hr : Reached p workers s) (hup : s.down = none) (hpos : 0 < workers)
    (hrest : Rests (Sys.step p) Winds s) : refs s = [] := by
  have hpushing : s.conns.filterMap (fun n => pushing? n.pc) = [] := by
    rw [List.filterMap_eq_nil_iff]
    intro n hm
    obtain ⟨i, hn⟩ := List.getElem?_of_mem hm
    rcases rests_conn hup hrest hn with hpc | ⟨hpc, -⟩ | hpc <;> rw [hpc] <;> rfl
  have hheld : s.workers.filterMap WorkerPc.request? = [] := by
    rw [List.filterMap_eq_nil_iff]
    intro pc hm
    rcases rests_worker hr hup hrest hm with rfl | rfl <;> rfl
  rw [refs, dispatched, hpushing, hheld, rests_queue hr hup hpos hrest]
  rfl

theorem rests_waiting (hr : Reached p workers s) (hrefs : refs s = []) {i : Nat} {n : Conn}
    (hn : s.conns[i]? = some n) (hpc : n.pc = .waiting) : n.connection.requestActives = 0 := by
  have ha := hr.inv.accounts i n hn
  rw [ha.active, hrefs, slotsOf, List.filterMap_nil, List.length_nil, Nat.add_zero,
    List.countP_eq_zero]
  intro x hx
  obtain ⟨k, hk⟩ := List.getElem?_of_mem hx
  cases x with
  | none => simp [isReading]
  | some r => simpa [isReading] using ha.torn k r hk (by rw [hpc]; rfl)

/-- What the state `t` leaves of the work that there was in `s`. -/
structure Settled (s t : Sys) : Prop where
  up : t.down = none
  queue : t.queue = []
  workers : ∀ pc ∈ t.workers, pc = .parked ∨ pc = .exited
  /-- no request is on its way to the queue or to a worker, and no connection is being closed -/
  conns : ∀ n ∈ t.conns, n.pc = .reading ∨ n.pc = .gone
  /-- the END_REQUEST record of each dispatched request was sent -/
  answered : ∀ ref, .dispatched ∈ marksOf t ref → EndNow t ref
  /-- the requests that were queued or held are among these -/
  held : ∀ ref ∈ refs s, .dispatched ∈ marksOf t ref

theorem dispatched_mark (hr : Reached p workers s) {ref : Ref} (h : ref ∈ refs s) :
    .dispatched ∈ marksOf s ref := by
  obtain ⟨n, r, hn, -, hslot, hstate⟩ := hr.inv.live h
  obtain ⟨as, has⟩ := hr
  have hstory := story_of_some (run_told has ref) (Sys.request?_eq_some.mpr ⟨n, hn, hslot⟩)
  simp only [Story, hstate] at hstory
  obtain ⟨c, hc, hd⟩ := hstory
  exact current_subset hc hd

theorem rests_settled (hs : Reached p workers s) (hpos : 0 < workers) {t : Sys}
    {bs : List System.Act} (ht : run (Sys.step p) s bs = some t) (hup : t.down = none)
    (hrest : Rests (Sys.step p) Winds t) : Settled s t := by
  obtain ⟨as, has⟩ := hs
  have hall := run_append.mpr ⟨s, has, ht⟩
  have htr : Reached p workers t := ⟨as ++ bs, hall⟩
  have hrefs := rests_no_refs htr hup hpos hrest
  refine ⟨hup, rests_queue htr hup hpos hrest, fun pc hm => rests_worker htr hup hrest hm, ?_, ?_,
    ?_⟩
  · intro n hm
    obtain ⟨i, hn⟩ := List.getElem?_of_mem hm
    rcases rests_conn hup hrest hn with hpc | ⟨hpc, hne⟩ | hpc
    · exact Or.inl hpc
    · exact absurd (rests_waiting htr hrefs hn hpc) hne
    · exact Or.inr hpc
  · intro ref hd
    refine ((run_answered hall ref).kept hd).resolve_left ?_
    rw [hrefs]
    exact List.not_mem_nil
  · intro ref href
    obtain ⟨ms, hms⟩ := run_marks ht ref
    rw [hms]
    exact List.mem_append_left ms (dispatched_mark ⟨as, has⟩ href)

end

/-- The process runs. -/
structure Up (p : Params) (workers : Nat) (s : Sys) : Prop where
  reached : Reached p workers s
  up : s.down = none

theorem winds_up {workers : Nat} {s s' : Sys} {a : System.Act} (hs : Up p workers s)
    (hw : Winds s a) (h : Sys.step p s a = some s') : Up p workers s' :=
  ⟨hs.reached.step h, (winds_step hs.reached hs.up hw h).1⟩

theorem winds_rank {workers : Nat} {s s' : Sys} {a : System.Act} (hs : Up p workers s)
    (hw : Winds s a) (h : Sys.step p s a = some s') : rank s' < rank s :=
  (winds_step hs.reached hs.up hw h).2

/-- **The process comes to rest.** From every state of every run, when no more records
are handled and all sends succeed, the threads make at most `rank` steps in whatever
order they move, none of them crashes, and when they cannot move any more every request
that was dispatched is answered and every connection that was being closed is gone. -/
theorem settles {workers : Nat} {as : List System.Act} {s : Sys} (hpos : 0 < workers)
    (h : run (Sys.step p) (.init workers) as = some s) (hup : s.down = none) :
    (∀ bs t, Meets (Sys.step p) Winds s bs → run (Sys.step p) s bs = some t →
      bs.length ≤ rank s ∧ t.down = none ∧ (Rests (Sys.step p) Winds t → Settled s t)) ∧
    ∃ bs t, Meets (Sys.step p) Winds s bs ∧ run (Sys.step p) s bs = some t ∧ Settled s t := by
  have h0 : Up p workers s := ⟨⟨as, h⟩, hup⟩
  have hdown : ∀ bs t, Meets (Sys.step p) Winds s bs → run (Sys.step p) s bs = some t →
      t.down = none :=
    fun bs t hm ht => (run_invariant_of_meets h0 (fun _ _ _ => winds_up) hm ht).up
  refine ⟨?_, ?_⟩
  · intro bs t hm ht
    have hlen := length_le_rank (fun _ _ _ => winds_up) (fun _ _ _ => winds_rank) h0 hm ht
    exact ⟨by omega, hdown bs t hm ht, rests_settled h0.reached hpos ht (hdown bs t hm ht)⟩
  · obtain ⟨bs, t, hm, ht, hrest⟩ :=
      exists_rest (fun _ _ _ => winds_up) (fun _ _ _ => winds_rank) h0
    exact ⟨bs, t, hm, ht, rests_settled h0.reached hpos ht (hdown bs t hm ht) hrest⟩

theorem settles_started : ∃ s, run (Sys.step .standard) (.init 1) started = some s ∧
    s.down = none ∧ ⟨0, 0⟩ ∈ refs s ∧ ∃ bs t, run (Sys.step .standard) s bs = some t ∧
      EndNow t ⟨0, 0⟩ := by
  have hrun : (run (Sys.step .standard) (.init 1) started).any (fun s =>
      decide (s.down = none) && decide (⟨0, 0⟩ ∈ refs s)) = true := by decide +kernel
  obtain ⟨s, hs, hcheck⟩ := (Option.any_eq_true _ _).mp hrun
  simp only [Bool.and_eq_true, decide_eq_true_eq] at hcheck
  obtain ⟨bs, t, -, ht, hsettled⟩ := (settles Nat.zero_lt_one hs hcheck.1).2
  exact ⟨s, hs, hcheck.1, hcheck.2, bs, t, ht, hsettled.answered _ (hsettled.held _ hcheck.2)⟩

end Tfcgi.Progress
