import Tfcgi.Owner
import Tfcgi.Shutdown

/-!
# No request is lost

A request that was dispatched is queued or held until its END_REQUEST record is sent,
in every run.

* `run_answered`: this for every slot in every reachable state;
* `none_lost`: in particular all of them are answered when the process ends.
-/

namespace Tfcgi.NoneLost

open Tfcgi.Run Tfcgi.Protocol Tfcgi.Socket Tfcgi.Iostream Tfcgi.RequestSlot
open Tfcgi.ConnectionThread Tfcgi.System Tfcgi.History Tfcgi.Accounting Tfcgi.Reuse Tfcgi.Owner
open Tfcgi.Threads Tfcgi.Shutdown

variable {p : Params} {s s' : Sys} {a : System.Act} {ref : Ref}

structure Answered (s : Sys) (ref : Ref) : Prop where
  once : (marksOf s ref).count .dispatched ≤ 1
  /-- no BEGIN_REQUEST is accepted after it -/
  last : .dispatched ∈ marksOf s ref → ∃ c, current (marksOf s ref) = some c ∧ .dispatched ∈ c
  kept : .dispatched ∈ marksOf s ref → ref ∈ refs s ∨ EndNow s ref

theorem init_answered (workers : Nat) (ref : Ref) : Answered (.init workers) ref :=
  ⟨Nat.zero_le 1, nofun, nofun⟩

/-- A request leaves the queue and the workers with its END_REQUEST record sent. -/
theorem step_kept (ho : Owned s ref) (h : Sys.step p s a = some s') {l : List Mark}
    (hms : marksOf s' ref = marksOf s ref ++ l) (hacc : .accepted ∉ l)
    (hk : ref ∈ refs s ∨ EndNow s ref) : ref ∈ refs s' ∨ EndNow s' ref := by
  rcases hk with hm | he
  · rcases step_refs h with hrefs | ⟨-, x, hx, hperm⟩
    · exact Or.inl (hrefs ref hm)
    · rcases List.mem_cons.mp (hperm.mem_iff.mp hm) with rfl | hm
      · exact Or.inr (endNow_append (ho.ended hx) hms hacc)
      · exact Or.inl hm
  · exact Or.inr (endNow_append he hms hacc)

theorem Answered.more (ha : Answered s ref) (ho : Owned s ref) (h : Sys.step p s a = some s')
    {l : List Mark} (hms : marksOf s' ref = marksOf s ref ++ l) (hacc : .accepted ∉ l)
    (hdis : .dispatched ∉ l) : Answered s' ref := by
  have hold : .dispatched ∈ marksOf s' ref → .dispatched ∈ marksOf s ref := by
    intro hd
    rw [hms] at hd
    exact (List.mem_append.mp hd).resolve_right hdis
  refine ⟨?_, ?_, ?_⟩
  · rw [hms, List.count_append, List.count_eq_zero_of_not_mem hdis]
    exact ha.once
  · intro hd
    obtain ⟨c, hc, hdc⟩ := ha.last (hold hd)
    exact ⟨c ++ l, by rw [hms, current_append hacc, hc]; rfl, List.mem_append_left l hdc⟩
  · intro hd
    exact step_kept ho h hms hacc (ha.kept (hold hd))

theorem handled_story (ht : Told s ref) {n : Conn} (hn : s.conns[ref.conn]? = some n)
    (hpc : n.pc = .reading) {r : Request} {junk : Junk} (hslot : s.request? ref = some r ∨
      s.request? ref = none ∧ r = .new p (ref.slot + 1) junk) :
    Story (marksOf s ref) (some r) := by
  rcases hslot with hr | ⟨hr, rfl⟩
  · exact story_of_some ht hr
  · rcases ht with ⟨⟨m, hm, htorn⟩, -⟩ | hs
    · rw [hn] at hm
      cases hm
      rw [hpc] at htorn
      cases htorn
    · intro c hc
      rw [hr] at hs
      rw [show current (marksOf s ref) = none from hs] at hc
      cases hc

theorem step_answered (hi : Inv s) (ht : Told s ref) (ho : Owned s ref) (ha : Answered s ref)
    (h : Sys.step p s a = some s') : Answered s' ref := by
  cases step_slot h ref with
  | same request marks => exact ha.more ho h (l := []) (by simpa using marks) (by simp) (by simp)
  | handled n junk φ notified r hd log act conn pc slot handles request marks pushes =>
    have hstory := handled_story ht conn pc slot
    cases handles.shifts with
    | idle r' state parser =>
      exact ha.more ho h marks (accepted_not_mem_did log) (dispatched_not_mem_did log)
    | cancelled r' reading state parser =>
      refine ha.more ho h marks ?_ ?_
      · simp [Sys.marks]
      · simp [Sys.marks]
    | accepted r' ready state parser =>
      have hnot : .dispatched ∉ marksOf s' ref := by
        rw [marks]
        intro hd
        rcases List.mem_append.mp hd with hd | hd
        · obtain ⟨c, hc, hdc⟩ := ha.last hd
          simp only [Story, ready] at hstory
          exact hstory c hc hdc
        · simp [Sys.marks] at hd
      refine ⟨?_, fun hd => absurd hd hnot, fun hd => absurd hd hnot⟩
      rw [List.count_eq_zero_of_not_mem hnot]
      exact Nat.zero_le 1
    | push r' reading state parser =>
      have hstate : r.state = .readingParams := by
        rcases slot with hr | ⟨-, rfl⟩
        · exact reading_state hi conn pc hr reading
        · cases reading
      simp only [Story, hstate] at hstory
      obtain ⟨c, hc, hdc, -⟩ := hstory
      have hnot : .dispatched ∉ marksOf s ref := by
        intro hd
        obtain ⟨c', hc', hdc'⟩ := ha.last hd
        rw [hc] at hc'
        cases hc'
        exact hdc hdc'
      have hacc : .accepted ∉ Sys.marks (.push r') log := by
        simp [Sys.marks]
      refine ⟨?_, fun _ => ?_, fun _ => Or.inl ?_⟩
      · rw [marks, List.count_append, List.count_eq_zero_of_not_mem hnot]
        simp only [Sys.marks, List.count_cons_self,
          List.count_eq_zero_of_not_mem (dispatched_not_mem_did log), Nat.zero_add, Nat.le_refl]
      · refine ⟨c ++ Sys.marks (.push r') log, ?_, ?_⟩
        · rw [marks, current_append hacc, hc]
          rfl
        · exact List.mem_append_right c List.mem_cons_self
      · obtain ⟨n', hn', hpc'⟩ := pushes r' rfl
        refine pushing_refs hn' ?_
        rw [hpc']
        rfl
  | reset n j r conn pc slot request marks =>
    exact ha.more ho h (l := []) (by simpa using marks) (by simp) (by simp)
  | destroyed n φ r log conn pc slot destroys request marks =>
    exact ha.more ho h marks (accepted_not_mem_did log) (dispatched_not_mem_did log)
  | worked w r r' pc pc' got log worker workers slot works request marks =>
    exact ha.more ho h marks (accepted_not_mem_work log got) (dispatched_not_mem_work log got)

theorem run_answered {workers : Nat} {as : List System.Act}
    (h : run (Sys.step p) (.init workers) as = some s) (ref : Ref) : Answered s ref := by
  have hall := run_invariant
    (I := fun s => Inv s ∧ Told s ref ∧ Owned s ref ∧ Answered s ref)
    ⟨init_inv workers, Or.inr rfl, init_owned workers ref,
      init_answered workers ref⟩
    (fun s a s' hI hs => ⟨step_inv hI.1 hs, step_told hI.1 hs hI.2.1,
      step_owned hI.1 hI.2.1 hI.2.2.1 hs, step_answered hI.1 hI.2.1 hI.2.2.1 hI.2.2.2 hs⟩) h
  exact hall.2.2.2

/-! ## The end of the process -/

/-- `main` has joined all workers. -/
def Joined (t : Control) : Prop := t.main = .ended → ∀ pc ∈ t.workers, pc = .exited

theorem Joined.worker {t : Control} (h : Joined t) {w : Nat} {pc : WorkerPc}
    (hw : t.workers[w]? = some pc) (hpc : pc ≠ .exited) (hm : t.main = .ended) : False :=
  hpc (h hm pc (List.mem_of_getElem? hw))

theorem move_joined {t t' : Control} {a : System.Act} {o : Option (Monitor.Op Ref Nat)}
    (h : Joined t) (hm : Move t a o t') : Joined t' := by
  cases hm with
  | accept junk accepting listening room =>
    intro hend
    rw [show t.main = .ended from hend] at accepting
    cases accepting
  | close accepting =>
    intro hend
    rw [show t.main = .ended from hend] at accepting
    cases accepting
  | main a pc next =>
    rcases next with ⟨-, -, rfl⟩ | ⟨-, hall, rfl⟩
    · exact nofun
    · exact fun _ => hall
  | push a i ref workers place notifies =>
    cases notifies with
    | none unheard => exact h
    | one w worker => exact fun hend => (h.worker worker nofun hend).elim
  | worker a w pc pc' worker moves =>
    refine fun hend => (h.worker worker ?_ hend).elim
    rintro rfl
    cases moves with
    | works ref pc pc' held held' => cases held
  | park w φ pc worker looking empty | take w φ pc ref queue worker looking head =>
    refine fun hend => (h.worker worker ?_ hend).elim
    rintro rfl
    cases looking
  | wake w worker => exact fun hend => (h.worker worker nofun hend).elim
  | _ => exact h

theorem move_length {t t' : Control} {a : System.Act} {o : Option (Monitor.Op Ref Nat)}
    (hm : Move t a o t') : t'.workers.length = t.workers.length := by
  cases hm with
  | push a i ref workers place notifies =>
    cases notifies with
    | none unheard => rfl
    | one w worker => simp
  | worker a w pc pc' worker moves => simp
  | park w φ pc worker looking empty | take w φ pc ref queue worker looking head => simp
  | wake w worker => simp
  | _ => rfl

theorem run_control {workers : Nat} {as : List System.Act}
    (h : run (Sys.step p) (.init workers) as = some s) :
    Joined (control s) ∧ s.workers.length = workers := by
  have h0 : Joined (control (.init workers)) := by
    intro hend
    cases hend
  refine run_invariant (I := fun s => Joined (control s) ∧ (control s).workers.length = workers)
    ⟨h0, List.length_replicate⟩ ?_ h
  intro s a s' hi hs
  have hm := step_move hs
  exact ⟨move_joined hi.1 hm, (move_length hm).trans hi.2⟩

theorem ended_no_refs {workers : Nat} {as : List System.Act} (hpos : 0 < workers)
    (h : run (Sys.step p) (.init workers) as = some s) (hend : s.main = .ended) : refs s = [] := by
  obtain ⟨hjoined, hlen⟩ := run_control h
  obtain ⟨pc, hpc⟩ := List.exists_mem_of_length_pos (l := s.workers) (by omega)
  obtain rfl := hjoined hend pc hpc
  have hc := run_counted h
  exact (no_refs (run_inv h) hc (hc.ended hpc).2).2

/-- **No request is lost.** A request that was dispatched is dispatched once. Until
its END_REQUEST record is sent it is about to be queued, queued or held by a worker,
and by one of these only; when `main` returns, the record was sent. -/
theorem none_lost {workers : Nat} {as : List System.Act}
    (h : run (Sys.step p) (.init workers) as = some s) (hd : .dispatched ∈ marksOf s ref) :
    (marksOf s ref).count .dispatched = 1 ∧ (refs s).Nodup ∧ (ref ∈ refs s ∨ EndNow s ref) ∧
      (0 < workers → s.main = .ended → EndNow s ref) := by
  have ha := run_answered h ref
  refine ⟨?_, (run_inv h).nodup, ha.kept hd, ?_⟩
  · have hpos := List.count_pos_iff.mpr hd
    have hle := ha.once
    omega
  · intro hpos hend
    refine (ha.kept hd).resolve_left ?_
    rw [ended_no_refs hpos h hend]
    exact List.not_mem_nil

/-- The request is served, its connection goes and the process ends. -/
def completed : List System.Act := drained ++ [.leaveLoop, .join]

theorem none_lost_completed : ∃ s, run (Sys.step .standard) (.init 1) completed = some s ∧
    s.main = .ended ∧ (marksOf s ⟨0, 0⟩).count .dispatched = 1 ∧ EndNow s ⟨0, 0⟩ := by
  have hrun : (run (Sys.step .standard) (.init 1) completed).any (fun s =>
      decide (s.main = .ended) && decide (.dispatched ∈ marksOf s ⟨0, 0⟩)) = true := by
    decide +kernel
  obtain ⟨s, hs, hcheck⟩ := (Option.any_eq_true _ _).mp hrun
  simp only [Bool.and_eq_true, decide_eq_true_eq] at hcheck
  obtain ⟨hend, hd⟩ := hcheck
  have hlost := none_lost hs hd
  exact ⟨s, hs, hend, hlost.1, hlost.2.2.2 Nat.zero_lt_one hend⟩

end Tfcgi.NoneLost
