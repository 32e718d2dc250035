import Tfcgi.Dispatch
import Tfcgi.Accounting

/-!
# Shutdown

A worker leaves its loop when it has read `socket_listening` as false and then
`socket_active` as zero. `Hung` are the states in which all work is over and a
worker waits for a request.

* `stranded`: when a worker has left, nothing is queued, held or still to come;
* `never_hung`: a run whose steps all meet `Avoids` has no hung state;
* `hung_next`: every other step leads to one, unless it crashes;
* `run_stuck`: what hangs once hangs for ever.
-/

namespace Tfcgi.Shutdown

open Tfcgi.Run Tfcgi.Protocol Tfcgi.Socket Tfcgi.Iostream Tfcgi.RequestSlot
open Tfcgi.ConnectionThread Tfcgi.System Tfcgi.Threads Tfcgi.Accounting

/-- `socket_active` counts the connections, and what a worker has read of the
atomics stays so. -/
structure Counted (t : Control) : Prop where
  active : t.active = t.places.countP isLive
  room : t.active ≤ 2147483648
  closed : .checkActive ∈ t.workers → t.listening = false
  ended : .exited ∈ t.workers → t.listening = false ∧ t.active = 0

theorem init_counted (workers : Nat) : Counted (control (.init workers)) := by
  refine ⟨rfl, Nat.zero_le _, ?_, ?_⟩
  · intro h
    cases List.eq_of_mem_replicate h
  · intro h
    cases List.eq_of_mem_replicate h

theorem plain_live {pc : ConnPc} (h : plain pc = true) : isLive pc = true := by
  cases pc <;> first | rfl | cases h

theorem Counted.worker {t : Control} (h : Counted t) (w : Nat) {pc : WorkerPc}
    (hcheck : pc = .checkActive → t.listening = false)
    (hexit : pc = .exited → t.listening = false ∧ t.active = 0) :
    Counted { t with workers := t.workers.set w pc } := by
  refine ⟨h.active, h.room, ?_, ?_⟩
  · intro hm
    rcases List.mem_or_eq_of_mem_set hm with hm | he
    · exact h.closed hm
    · exact hcheck he.symm
  · intro hm
    rcases List.mem_or_eq_of_mem_set hm with hm | he
    · exact h.ended hm
    · exact hexit he.symm

theorem Counted.place {t : Control} (h : Counted t) {i : Nat} {pc : ConnPc} (pc' : ConnPc)
    (hi : t.places[i]? = some pc) (hl : isLive pc' = isLive pc) :
    Counted { t with places := t.places.set i pc' } :=
  ⟨h.active.trans (Slots.countP_set_eq hi hl).symm, h.room, h.closed, h.ended⟩

theorem move_counted {t t' : Control} {a : Act} {o : Option (Monitor.Op Ref Nat)} (h : Counted t)
    (hm : Move t a o t') : Counted t' := by
  cases hm with
  | stay a => exact h
  | accept junk accepting listening room =>
    have hlt : t.active < 2147483648 := h.active ▸ room
    have hincr : incr t.active = t.active + 1 := if_neg (by omega)
    refine ⟨?_, ?_, h.closed, ?_⟩
    · show incr t.active = _
      rw [hincr, h.active, List.countP_append]
      rfl
    · show incr t.active ≤ _
      omega
    · intro hx
      exact absurd (h.ended hx).1 (by simp [listening])
  | close accepting => exact ⟨h.active, h.room, fun _ => rfl, fun hx => ⟨rfl, (h.ended hx).2⟩⟩
  | main a pc next => exact ⟨h.active, h.room, h.closed, h.ended⟩
  | goes a i pc pc' place from_plain to_plain =>
    exact h.place pc' place ((plain_live to_plain).trans (plain_live from_plain).symm)
  | backlog a i ref place =>
    have hp := h.place (.locking ref) place rfl
    exact ⟨hp.active, hp.room, hp.closed, hp.ended⟩
  | push a i ref workers place notifies =>
    have hp := h.place (.resetting ref) place rfl
    cases notifies with
    | none unheard => exact ⟨hp.active, hp.room, hp.closed, hp.ended⟩
    | one w worker =>
      have hw : Counted { t with
          places := t.places.set i (.resetting ref), workers := t.workers.set w .notified } :=
        hp.worker w nofun nofun
      exact ⟨hw.active, hw.room, hw.closed, hw.ended⟩
  | erase i k junk φ notified place =>
    have hcount : (t.places.set i .gone).countP isLive + 1 = t.places.countP isLive :=
      Slots.countP_set_add isLive .gone place
    have hdecr : decr t.active = (t.places.set i .gone).countP isLive := by
      rw [h.active, ← hcount, decr_succ]
    refine ⟨hdecr, ?_, h.closed, ?_⟩
    · have := h.room
      have := h.active
      simp only [hdecr]
      omega
    · intro hx
      have := (h.ended hx).2
      have := h.active
      omega
  | worker a w pc pc' worker moves =>
    cases moves with
    | loops listening => exact h.worker w nofun nofun
    | checks closed => exact h.worker w (fun _ => closed) nofun
    | stays active => exact h.worker w nofun nofun
    | exits inactive =>
      exact h.worker w nofun (fun _ => ⟨h.closed (List.mem_of_getElem? worker), inactive⟩)
    | works ref pc pc' held held' =>
      refine h.worker w ?_ ?_
      · rintro rfl
        cases held'
      · rintro rfl
        cases held'
    | ends ref => exact h.worker w nofun nofun
  | park w φ pc worker looking empty => exact h.worker w nofun nofun
  | take w φ pc ref queue worker looking head =>
    have hw : Counted { t with workers := t.workers.set w (.popped ref) } := h.worker w nofun nofun
    exact ⟨hw.active, hw.room, hw.closed, hw.ended⟩
  | wake w worker => exact h.worker w nofun nofun

theorem run_counted {p : Params} {workers : Nat} {as : List Act} {s : Sys}
    (h : run (Sys.step p) (.init workers) as = some s) : Counted (control s) :=
  run_invariant (I := fun s => Counted (control s)) (init_counted workers)
    (fun _ _ _ hi hs => move_counted hi (step_move hs)) h

/-- Without connections nothing is dispatched. -/
theorem no_refs {s : Sys} (hi : Inv s) (hc : Counted (control s)) (h : s.socketActive = 0) :
    (∀ n ∈ s.conns, n.pc = .gone) ∧ refs s = [] := by
  have hzero : (control s).places.countP isLive = 0 := hc.active.symm.trans h
  have hgone : ∀ n ∈ s.conns, n.pc = .gone := by
    intro n hn
    have hnot := List.countP_eq_zero.mp hzero n.pc (List.mem_map_of_mem hn)
    simpa [isLive] using hnot
  refine ⟨hgone, ?_⟩
  rw [List.eq_nil_iff_forall_not_mem]
  intro ref hr
  obtain ⟨n, r, hn, hl, -⟩ := hi.live hr
  rw [hgone n (List.mem_of_getElem? hn)] at hl
  cases hl

/-! ## A worker has left its loop -/

structure Stopped (s : Sys) : Prop where
  listening : s.socketListening = false
  active : s.socketActive = 0
  queue : s.queue = []
  held : ∀ pc ∈ s.workers, pc.request? = none

theorem stopped_of_exited {s : Sys} (hi : Inv s) (hc : Counted (control s))
    (h : .exited ∈ s.workers) : Stopped s := by
  obtain ⟨hl, ha⟩ := hc.ended h
  obtain ⟨-, hrefs⟩ := no_refs hi hc ha
  have hd : s.queue ++ s.workers.filterMap WorkerPc.request? = [] :=
    (List.append_eq_nil_iff.mp hrefs).2
  obtain ⟨hq, hw⟩ := List.append_eq_nil_iff.mp hd
  exact ⟨hl, ha, hq, List.filterMap_eq_nil_iff.mp hw⟩

theorem move_exited {t t' : Control} {a : Act} {o : Option (Monitor.Op Ref Nat)}
    (h : .exited ∈ t.workers) (hm : Move t a o t') : .exited ∈ t'.workers := by
  cases hm with
  | push a i ref workers place notifies =>
    cases notifies with
    | none unheard => exact h
    | one w worker => exact Slots.mem_set_of_ne worker h nofun
  | worker a w pc pc' worker moves =>
    refine Slots.mem_set_of_ne worker h ?_
    rintro rfl
    cases moves with
    | works ref pc pc' held held' => cases held
  | park w φ pc worker looking empty | take w φ pc ref queue worker looking head =>
    refine Slots.mem_set_of_ne worker h ?_
    rintro rfl
    cases looking
  | wake w worker => exact Slots.mem_set_of_ne worker h nofun
  | _ => exact h

/-- **No request is stranded**, in any state from the one in which a worker has
left its loop. -/
theorem stranded {p : Params} {workers : Nat} {as bs : List Act} {s t : Sys}
    (h : run (Sys.step p) (.init workers) as = some s) (hx : .exited ∈ s.workers)
    (ht : run (Sys.step p) s bs = some t) : Stopped t := by
  have htx : .exited ∈ t.workers :=
    run_invariant (I := fun s => .exited ∈ s.workers) hx
      (fun _ _ _ hi hs => move_exited hi (step_move hs)) ht
  have hall := run_append.mpr ⟨s, h, ht⟩
  exact stopped_of_exited (run_inv hall) (run_counted hall) htx

/-- The request is served, the peer closes the connection and the worker leaves. -/
def drained : List Act :=
  served ++ [.closeListening, .arrive 0 .eof] ++ connMoves 6 ++ workerMoves 2

theorem stranded_drained : ∃ s t, run (Sys.step .standard) (.init 1) drained = some s ∧
    (⟨0, 0⟩, .dispatched) ∈ s.log ∧ run (Sys.step .standard) s [.leaveLoop, .join] = some t ∧
    t.main = .ended ∧ Stopped t := by
  have hrun : (run (Sys.step .standard) (.init 1) drained).any (fun s =>
      decide (.exited ∈ s.workers) && decide ((⟨0, 0⟩, .dispatched) ∈ s.log) &&
        (run (Sys.step .standard) s [.leaveLoop, .join]).any
          fun t => decide (t.main = .ended)) = true := by
    decide +kernel
  obtain ⟨s, hs, hcheck⟩ := (Option.any_eq_true _ _).mp hrun
  rw [Bool.and_eq_true, Bool.and_eq_true, decide_eq_true_eq, decide_eq_true_eq] at hcheck
  obtain ⟨⟨hx, hd⟩, hjoin⟩ := hcheck
  obtain ⟨t, ht, hend⟩ := (Option.any_eq_true _ _).mp hjoin
  exact ⟨s, t, hs, hd, ht, of_decide_eq_true hend, stranded hs hx ht⟩

/-! ## A worker that nobody wakes -/

/-- All work is over, and worker `w` waits for a request. -/
structure Hung (t : Control) (w : Nat) : Prop where
  listening : t.listening = false
  active : t.active = 0
  queue : t.queue = []
  /-- no thread is left that could push a request -/
  gone : ∀ pc ∈ t.places, pc = .gone
  worker : t.workers[w]? = some .parked

/-- The steps after which a worker may wait for ever: main closes the socket while
there is no connection, the last connection goes, or a worker finds the queue empty
when all is over. -/
def Avoids (s : Sys) : Act → Prop
  | .closeListening => s.socketActive = 0 → .parked ∉ s.workers
  | .conn i _ _ _ => s.socketListening = false → s.socketActive = 1 →
      (∃ n k, s.conns[i]? = some n ∧ n.pc = .clearing k ∧ n.connection.requests.length ≤ k) →
      .parked ∉ s.workers
  | .worker w _ => s.queue = [] → (∃ pc, s.workers[w]? = some pc ∧ looks pc = true) →
      s.socketListening = true ∨ s.socketActive ≠ 0
  | _ => True

theorem clearing_erased {p : Params} {s s' : Sys} {i k : Nat} {n : Conn} {junk : Junk} {φ : Fate}
    {notified : Option Nat} (h : Sys.step p s (.conn i junk φ notified) = some s')
    (hn : s.conns[i]? = some n) (hpc : n.pc = .clearing k)
    (hgone : ∀ pc ∈ (control s').places, pc = .gone) : n.connection.requests.length ≤ k := by
  have hlt := (List.getElem?_eq_some_iff.mp hn).1
  by_contra hk
  have hkl : k < n.connection.requests.length := by omega
  unfold Sys.step at h
  split at h
  · cases h
  · simp only [hn, Sys.connStep, hpc, Sys.clearing, hkl, if_true] at h
    split at h
    · cases h
      have hpc' := hgone n.pc (List.mem_of_getElem? (place_of hn))
      rw [hpc] at hpc'
      cases hpc'
    · rename_i c log hc
      cases h
      have hget : (s.conns.set i ⟨c, .clearing (k + 1)⟩)[i]? = some ⟨c, .clearing (k + 1)⟩ :=
        List.getElem?_set_self hlt
      cases hgone _ (List.mem_map_of_mem (List.mem_of_getElem? hget))

theorem gone_set {places : List ConnPc} {i : Nat} {pc pc' : ConnPc} (hi : places[i]? = some pc)
    (h : ∀ x ∈ places.set i pc', x = .gone) : pc' = .gone :=
  h pc' (List.mem_of_getElem? (List.getElem?_set_self (List.getElem?_eq_some_iff.mp hi).1))

/-- Another worker moved, or this one went into the wait. -/
theorem worker_set {workers : List WorkerPc} {v w : Nat} {pc x : WorkerPc}
    (h : (workers.set v pc)[w]? = some x) : workers[w]? = some x ∨ pc = x := by
  by_cases hv : v = w
  · subst hv
    rw [List.getElem?_set] at h
    split at h
    · split at h
      · exact Or.inr (Option.some.inj h)
      · cases h
    · exact absurd rfl ‹_›
  · rw [List.getElem?_set_ne hv] at h
    exact Or.inl h

theorem step_never_hung {p : Params} {s s' : Sys} {a : Act} (hi : Inv s) (hc : Counted (control s))
    (hg : ∀ w, ¬ Hung (control s) w) (ha : Avoids s a) (h : Sys.step p s a = some s') (w : Nat) :
    ¬ Hung (control s') w := by
  intro hh
  have hm := step_move h
  have herased : ∀ i junk φ notified n k, a = .conn i junk φ notified → s.conns[i]? = some n →
      n.pc = .clearing k → n.connection.requests.length ≤ k := by
    rintro i junk φ notified n k rfl hn hpc
    exact clearing_erased h hn hpc hh.gone
  generalize control s' = t' at hm hh
  generalize op (control s) a = o at hm
  have hworker : ∀ v pc, pc ≠ .parked → (s.workers.set v pc)[w]? = some .parked →
      s.workers[w]? = some .parked := by
    intro v pc hne hw
    rcases worker_set hw with hw | rfl
    · exact hw
    · exact absurd rfl hne
  cases hm with
  | stay a => exact hg w hh
  | accept junk accepting listening room =>
    have hl : (control s).listening = false := hh.listening
    rw [listening] at hl
    cases hl
  | close accepting => exact ha hh.active (List.mem_of_getElem? hh.worker)
  | main a pc next => exact hg w ⟨hh.listening, hh.active, hh.queue, hh.gone, hh.worker⟩
  | goes a i pc pc' place from_plain to_plain =>
    rw [gone_set place hh.gone] at to_plain
    cases to_plain
  | backlog a i ref place => cases gone_set place hh.gone
  | push a i ref workers place notifies => cases gone_set place hh.gone
  | erase i k junk φ notified place =>
    have hcount : ((control s).places.set i .gone).countP isLive + 1 =
      (control s).places.countP isLive := Slots.countP_set_add isLive .gone place
    have hdecr : decr (control s).active = 0 := hh.active
    rw [hc.active, ← hcount, decr_succ] at hdecr
    have hone : s.socketActive = 1 := by
      have := hc.active
      rw [← hcount, hdecr] at this
      exact this
    obtain ⟨n, hn, hpc⟩ : ∃ n, s.conns[i]? = some n ∧ n.pc = .clearing k := by
      simpa [Threads.control, List.getElem?_map] using place
    exact ha hh.listening hone ⟨n, k, hn, hpc, herased i junk φ notified n k rfl hn hpc⟩
      (List.mem_of_getElem? hh.worker)
  | worker a v pc pc' worker moves =>
    have hne : pc' ≠ .parked := by
      rintro rfl
      exact absurd (Dispatch.workerMove_waits moves).2.1 (by decide)
    exact hg w ⟨hh.listening, hh.active, hh.queue, hh.gone, hworker v pc' hne hh.worker⟩
  | park v φ pc worker looking empty =>
    rcases ha empty ⟨pc, worker, looking⟩ with hl | hact
    · have hl' : s.socketListening = false := hh.listening
      rw [hl] at hl'
      cases hl'
    · exact hact hh.active
  | take v φ pc ref queue worker looking head =>
    obtain ⟨-, hrefs⟩ := no_refs hi hc hh.active
    have hq : s.queue = [] :=
      (List.append_eq_nil_iff.mp (List.append_eq_nil_iff.mp hrefs).2).1
    have hq' : s.queue = ref :: queue := head
    rw [hq] at hq'
    cases hq'
  | wake v worker =>
    exact hg w ⟨hh.listening, hh.active, hh.queue, hh.gone, hworker v .woken (by decide) hh.worker⟩

/-- **Shutdown does not hang** in a run whose steps all avoid it. -/
theorem never_hung {p : Params} {workers : Nat} {as : List Act} {s : Sys}
    (h : run (Sys.step p) (.init workers) as = some s)
    (hm : Meets (Sys.step p) Avoids (.init workers) as) (w : Nat) : ¬ Hung (control s) w := by
  have hall : Inv s ∧ Counted (control s) ∧ ∀ w, ¬ Hung (control s) w := by
    refine run_invariant_of_meets
      (I := fun s => Inv s ∧ Counted (control s) ∧ ∀ w, ¬ Hung (control s) w)
      ⟨init_inv workers, init_counted workers, fun w hh => ?_⟩ ?_ hm h
    · cases hh.listening
    · rintro s a s' ⟨hi, hc, hg⟩ ha hs
      exact ⟨step_inv hi hs, move_counted hc (step_move hs), step_never_hung hi hc hg ha hs⟩
  exact hall.2.2 w

/-- The condition leaves out no other step. -/
theorem hung_next {p : Params} {s s' : Sys} {a : Act} (hi : Inv s) (hc : Counted (control s))
    (h : Sys.step p s a = some s') (hup : s'.down = none) (ha : ¬ Avoids s a) :
    ∃ w, Hung (control s') w := by
  have hi' := step_inv hi h
  have hc' := move_counted hc (step_move h)
  have hhung : s'.socketListening = false → s'.socketActive = 0 → .parked ∈ s'.workers →
      ∃ w, Hung (control s') w := by
    intro hl hact hw
    obtain ⟨w, hw⟩ := List.getElem?_of_mem hw
    obtain ⟨hgone, hrefs⟩ := no_refs hi' hc' hact
    refine ⟨w, hl, hact, ?_, ?_, hw⟩
    · exact (List.append_eq_nil_iff.mp (List.append_eq_nil_iff.mp hrefs).2).1
    · intro pc hpc
      obtain ⟨n, hn, rfl⟩ := List.mem_map.mp hpc
      exact hgone n hn
  unfold Sys.step at h
  split at h
  · cases h
  · cases a with
    | closeListening =>
      simp only [Avoids, Classical.not_imp, not_not] at ha
      obtain ⟨hact, hw⟩ := ha
      simp only at h
      split at h
      · cases h
        exact hhung rfl hact hw
      · cases h
    | conn i junk φ notified =>
      simp only [Avoids, Classical.not_imp, not_not] at ha
      obtain ⟨hl, hone, ⟨n, k, hn, hpc, hlen⟩, hw⟩ := ha
      simp only [hn, Sys.connStep, hpc, Sys.clearing, if_neg (Nat.not_lt.mpr hlen)] at h
      split at h
      · cases h
        cases hup
      · cases h
        refine hhung hl ?_ hw
        show decr s.socketActive = 0
        rw [hone]
        rfl
    | worker w φ =>
      simp only [Avoids, Classical.not_imp, not_or, not_not] at ha
      obtain ⟨hq, ⟨pc, hpc, hlook⟩, hl, hact⟩ := ha
      simp only [hpc] at h
      have hpop : s' = s.setWorker w .parked := by
        have hp : s.pop w = s.setWorker w .parked := by simp only [Sys.pop, hq]
        cases pc with
        | popping | notified | woken => exact (Option.some.inj h).symm.trans hp
        | _ => cases hlook
      subst hpop
      exact hhung (eq_false_of_ne_true hl) hact (List.mem_of_getElem?
        (List.getElem?_set_self (List.getElem?_eq_some_iff.mp hpc).1))
    | _ => exact absurd trivial ha

/-- Enough for `Avoids`, computed. -/
def avoidsCheck (s : Sys) : Act → Bool
  | .closeListening => decide (s.socketActive ≠ 0 ∨ .parked ∉ s.workers)
  | .conn _ _ _ _ => decide (s.socketListening = true ∨ s.socketActive ≠ 1 ∨ .parked ∉ s.workers)
  | .worker _ _ => decide (s.queue ≠ [] ∨ s.socketListening = true ∨ s.socketActive ≠ 0 ∨
      ∀ pc ∈ s.workers, looks pc = false)
  | _ => true

theorem avoids_of_check {s : Sys} {a : Act} (h : avoidsCheck s a = true) : Avoids s a := by
  cases a with
  | closeListening =>
    intro hactive
    exact (of_decide_eq_true h).resolve_left fun hne => hne hactive
  | conn i junk φ notified =>
    intro hlistening hactive _
    rcases of_decide_eq_true h with hl | hne | hparked
    · rw [hlistening] at hl
      cases hl
    · exact absurd hactive hne
    · exact hparked
  | worker w φ =>
    rintro hqueue ⟨pc, hpc, hlooks⟩
    rcases of_decide_eq_true h with hne | hl | hactive | hnone
    · exact absurd hqueue hne
    · exact Or.inl hl
    · exact Or.inr hactive
    · rw [hnone pc (List.mem_of_getElem? hpc)] at hlooks
      cases hlooks
  | _ => trivial

theorem drained_avoids : Meets (Sys.step .standard) Avoids (.init 1) drained :=
  meets_of_checks (fun _ _ _ => avoids_of_check) (by decide +kernel)

theorem never_hung_drained : ∃ s, run (Sys.step .standard) (.init 1) drained = some s ∧
    (⟨0, 0⟩, .dispatched) ∈ s.log ∧ s.socketListening = false ∧ s.socketActive = 0 ∧
    s.queue = [] ∧ ∀ w, ¬ Hung (control s) w := by
  have hrun : (run (Sys.step .standard) (.init 1) drained).any (fun s =>
      decide ((⟨0, 0⟩, .dispatched) ∈ s.log ∧ s.socketListening = false ∧ s.socketActive = 0 ∧
        s.queue = [])) = true := by
    decide +kernel
  obtain ⟨s, hs, hcheck⟩ := (Option.any_eq_true _ _).mp hrun
  obtain ⟨hd, hl, hactive, hqueue⟩ := of_decide_eq_true hcheck
  exact ⟨s, hs, hd, hl, hactive, hqueue, never_hung hs drained_avoids⟩

/-! ## It is for ever -/

/-- Worker `w` is in the wait, or has left it for no reason. -/
structure Stuck (t : Control) (w : Nat) : Prop where
  listening : t.listening = false
  active : t.active = 0
  queue : t.queue = []
  gone : ∀ pc ∈ t.places, pc = .gone
  worker : t.workers[w]? = some .parked ∨ t.workers[w]? = some .woken
  running : t.main ≠ .ended

theorem move_stuck {t t' : Control} {a : Act} {o : Option (Monitor.Op Ref Nat)} {w : Nat}
    (h : Stuck t w) (hm : Move t a o t') : Stuck t' w := by
  have hplace : ∀ {i : Nat} {pc : ConnPc}, t.places[i]? = some pc → pc = .gone :=
    fun hi => h.gone _ (List.mem_of_getElem? hi)
  cases hm with
  | stay a => exact h
  | accept junk accepting listening room =>
    rw [h.listening] at listening
    cases listening
  | close accepting => exact ⟨rfl, h.active, h.queue, h.gone, h.worker, h.running⟩
  | main a pc next =>
    refine ⟨h.listening, h.active, h.queue, h.gone, h.worker, ?_⟩
    rcases next with ⟨-, -, rfl⟩ | ⟨-, hall, -⟩
    · exact nofun
    · rcases h.worker with hw | hw
      · cases hall _ (List.mem_of_getElem? hw)
      · cases hall _ (List.mem_of_getElem? hw)
  | goes a i pc pc' place from_plain to_plain =>
    rw [hplace place] at from_plain
    cases from_plain
  | backlog a i ref place => cases hplace place
  | push a i ref workers place notifies => cases hplace place
  | erase i k junk φ notified place => cases hplace place
  | worker a v pc pc' worker moves =>
    refine ⟨h.listening, h.active, h.queue, h.gone, ?_, h.running⟩
    have hv : v ≠ w := by
      rintro rfl
      rcases h.worker with hw | hw
      · rw [worker] at hw
        cases hw
        cases moves with
        | works ref pc pc' held held' => cases held
      · rw [worker] at hw
        cases hw
        cases moves with
        | works ref pc pc' held held' => cases held
    rw [List.getElem?_set_ne hv]
    exact h.worker
  | park v φ pc worker looking empty =>
    refine ⟨h.listening, h.active, h.queue, h.gone, ?_, h.running⟩
    by_cases hv : v = w
    · subst hv
      exact Or.inl (List.getElem?_set_self (List.getElem?_eq_some_iff.mp worker).1)
    · rw [List.getElem?_set_ne hv]
      exact h.worker
  | take v φ pc ref queue worker looking head =>
    rw [h.queue] at head
    cases head
  | wake v worker =>
    refine ⟨h.listening, h.active, h.queue, h.gone, ?_, h.running⟩
    by_cases hv : v = w
    · subst hv
      exact Or.inr (List.getElem?_set_self (List.getElem?_eq_some_iff.mp worker).1)
    · rw [List.getElem?_set_ne hv]
      exact h.worker

/-- Nothing that any thread does lets main get past `join`. -/
theorem run_stuck {p : Params} {s t : Sys} {bs : List Act} {w : Nat} (h : Stuck (control s) w)
    (ht : run (Sys.step p) s bs = some t) : Stuck (control t) w :=
  run_invariant (I := fun s => Stuck (control s) w) h
    (fun _ _ _ hi hs => move_stuck hi (step_move hs)) ht

/-- The only worker waits for a first request when `accept` fails for good. -/
def hangingRun : List Act := [.worker 0 Fate.sent, .worker 0 Fate.sent, .closeListening]

theorem hangingRun_hung : ∃ s, run (Sys.step .standard) (.init 1) hangingRun = some s ∧
    Hung (control s) 0 ∧ ∀ bs t, run (Sys.step .standard) s bs = some t → t.main ≠ .ended := by
  have hrun : (run (Sys.step .standard) (.init 1) hangingRun).any (fun s =>
      decide (s.socketListening = false ∧ s.socketActive = 0 ∧ s.queue = [] ∧ s.conns = [] ∧
        s.workers[0]? = some .parked ∧ s.main = .accepting)) = true := by
    decide +kernel
  obtain ⟨s, hs, hdec⟩ := (Option.any_eq_true _ _).mp hrun
  obtain ⟨hl, ha, hq, hc, hw, hmain⟩ := of_decide_eq_true hdec
  have hgone : ∀ pc ∈ (control s).places, pc = .gone := by
    intro pc hpc
    obtain ⟨n, hn, -⟩ := List.mem_map.mp hpc
    rw [hc] at hn
    cases hn
  refine ⟨s, hs, ⟨hl, ha, hq, hgone, hw⟩, ?_⟩
  intro bs t ht
  have hstuck : Stuck (control s) 0 := ⟨hl, ha, hq, hgone, Or.inl hw, by
    show s.main ≠ .ended
    rw [hmain]
    exact nofun⟩
  exact (run_stuck hstuck ht).running

end Tfcgi.Shutdown
