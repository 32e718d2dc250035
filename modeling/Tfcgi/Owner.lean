import Tfcgi.Reuse

/-!
# Who owns a dispatched request

From its dispatch to its END_REQUEST record a request is about to be queued,
queued or held by a worker. Its connection thread leaves it alone meanwhile.

* `run_owned`: a pending request is dispatched until its END_REQUEST record is sent;
* `left_alone`: what the rest of the process does with it before that.
-/

namespace Tfcgi.Owner

open Tfcgi.Run Tfcgi.Protocol Tfcgi.Socket Tfcgi.Iostream Tfcgi.RequestSlot
open Tfcgi.ConnectionThread Tfcgi.System Tfcgi.History Tfcgi.Accounting Tfcgi.Reuse

variable {p : Params} {s s' : Sys} {a : Act} {ref : Ref}

/-- The END_REQUEST record of the current request was given to `send_packet`. -/
def EndNow (s : Sys) (ref : Ref) : Prop := ∃ c, current (marksOf s ref) = some c ∧ EndSent c

theorem endNow_append (h : EndNow s ref) {ms : List Mark}
    (hm : marksOf s' ref = marksOf s ref ++ ms) (ha : .accepted ∉ ms) : EndNow s' ref := by
  obtain ⟨c, hc, m, hmc, he⟩ := h
  refine ⟨c ++ ms, ?_, m, List.mem_append_left ms hmc, he⟩
  rw [hm, current_append ha, hc]
  rfl

/-- The history of a slot goes on, or a request is accepted in it. -/
theorem slot_marks (h : SlotStep p s a s' ref) :
    (∃ ms, marksOf s' ref = marksOf s ref ++ ms ∧ .accepted ∉ ms) ∨
      (∀ r', s'.request? ref = some r' → r'.state = .readingParams) ∧
        ∀ r, s.request? ref = some r → r.state = .ready := by
  cases h with
  | same request marks => exact Or.inl ⟨[], by rw [marks, List.append_nil], List.not_mem_nil⟩
  | handled n junk φ notified r hd log act conn pc slot handles request marks =>
    have hacc := accepted_not_mem_did log
    cases handles.shifts with
    | idle r' state parser => exact Or.inl ⟨_, marks, hacc⟩
    | accepted r' ready state parser =>
      refine Or.inr ⟨?_, ?_⟩
      · intro r₁ hr₁
        rw [request] at hr₁
        cases hr₁
        exact state
      · intro r₁ hr₁
        exact slot_same hr₁ slot ▸ ready
    | cancelled r' reading state parser => exact Or.inl ⟨_, marks, by simp [Sys.marks, hacc]⟩
    | push r' reading state parser => exact Or.inl ⟨_, marks, by simp [Sys.marks, hacc]⟩
  | reset n j r conn pc slot request marks =>
    exact Or.inl ⟨[], by rw [marks, List.append_nil], List.not_mem_nil⟩
  | destroyed n φ r log conn pc slot destroys request marks =>
    exact Or.inl ⟨_, marks, accepted_not_mem_did log⟩
  | worked w r r' pc pc' got log worker workers slot works request marks =>
    exact Or.inl ⟨_, marks, accepted_not_mem_work log got⟩

/-- A worker that holds the request held it before with the same place, has just
popped it or has just used it. -/
theorem step_holders (h : Sys.step p s a = some s') {pc : WorkerPc} (hm : pc ∈ s'.workers)
    (hr : pc.request? = some ref) :
    pc ∈ s.workers ∨ pc = .popped ref ∨
      ∃ w r r' pc₀ got log, s.workers[w]? = some pc₀ ∧ s.request? ref = some r ∧
        Sys.Worked p w ref r a pc₀ r' pc got log ∧ s'.request? ref = some r' ∧
        marksOf s' ref = marksOf s ref ++ (log.map .did ++ (got.map .got).toList) := by
  have hne : pc.request? ≠ none := by
    rw [hr]
    exact Option.some_ne_none ref
  obtain ⟨-, he⟩ := Sys.step_effect h
  cases he with
  | quiet _ _ conns queue held down log busy => exact Or.inl (busy pc hm hne)
  | push i n junk φ notified ref' _ conn pc' conns queue held down log busy =>
    exact Or.inl (busy pc hm hne)
  | accept junk _ conns queue workers down log => exact Or.inl (workers ▸ hm)
  | backlog i n junk φ notified ref' _ conn pc' conns queue workers down log =>
    exact Or.inl (workers ▸ hm)
  | erase i n junk φ notified k c log _ conn pc' le destroyed conns queue workers down log_eq =>
    exact Or.inl (workers ▸ hm)
  | turn i n junk φ notified c sock did log conn pc' dispatched =>
    refine Or.inl ?_
    cases did <;> exact hm
  | pop w φ pc' ref' queue _ worker free queue_eq conns queue' workers down log =>
    rw [workers] at hm
    rcases List.mem_or_eq_of_mem_set hm with hm | rfl
    · exact Or.inl hm
    · cases hr
      exact Or.inr (Or.inl rfl)
  | work _ w ref' r r' pc₀ pc' got log worker request worked =>
    have hw : pc ∈ s.workers ∨ pc = pc' := by
      simp only [Sys.record_workers, Sys.setWorker_workers, Sys.setRequest_workers] at hm
      exact List.mem_or_eq_of_mem_set hm
    rcases hw with hw | rfl
    · exact Or.inl hw
    · obtain ⟨-, hpc', -⟩ := worked.keeps
      rw [hr] at hpc'
      cases hpc'
      obtain ⟨n, hn, hslot⟩ := Sys.request?_eq_some.mp request
      have hconns := Sys.setRequest_conns hn r'
      obtain ⟨hself, -⟩ := request?_set_slot hn hconns (List.getElem?_eq_some_iff.mp hslot).1 rfl
      refine Or.inr (Or.inr ⟨w, r, r', pc₀, got, log, worker, request, worked, hself, ?_⟩)
      rw [marksOf_record]
      exact congrArg (· ++ _) (marksOf_eq (by simp) ref)
  | decrement w φ ref' n worker conn =>
    rcases List.mem_or_eq_of_mem_set hm with hm | rfl
    · exact Or.inl hm
    · cases hr
  | _ => exact Or.inl hm

theorem pushing_refs {n : Conn} (hn : s.conns[ref.conn]? = some n) (h : pushing? n.pc = some ref) :
    ref ∈ refs s :=
  List.mem_append_left _ (List.mem_filterMap.mpr ⟨n, List.mem_of_getElem? hn, h⟩)

/-! ## Until END_REQUEST -/

structure Owned (s : Sys) (ref : Ref) : Prop where
  owned : ∀ r, s.request? ref = some r → r.state = .pending → ref ∈ refs s ∨ EndNow s ref
  ended : .decrementing ref ∈ s.workers → EndNow s ref

theorem init_owned (workers : Nat) (ref : Ref) : Owned (.init workers) ref := by
  refine ⟨?_, ?_⟩
  · intro r hr
    cases hr
  · intro h
    cases List.eq_of_mem_replicate h

/-- The END_REQUEST record is sent in the step before the decrement. -/
theorem sending_ended {w : Nat} {r r' : Request} {pc₀ : WorkerPc} {got : Option Int}
    {log : List Event} (hi : Inv s) (ht : Told s ref) (hw : s.workers[w]? = some pc₀)
    (works : Sys.Worked p w ref r a pc₀ r' (.decrementing ref) got log)
    (hmarks : marksOf s' ref = marksOf s ref ++ (log.map .did ++ (got.map .got).toList)) :
    EndNow s' ref := by
  obtain ⟨-, c, -, -, hc, -⟩ := held_story hi ht hw works.keeps.1
  cases works with
  | send φ body log did =>
    rw [Request.sendOrThrow_ok did] at hmarks
    have hacc := accepted_not_mem_work [.sent (endPacket p r body) (φ 0 (endPacket p r body))] none
    refine ⟨c ++ [.did (.sent (endPacket p r body) (φ 0 (endPacket p r body)))], ?_, ?_⟩
    · rw [hmarks, current_append hacc, hc]
      rfl
    · refine ⟨_, List.mem_append_right c List.mem_cons_self, ?_⟩
      rfl

theorem held_not_ready (hi : Inv s) (ht : Told s ref) {pc : WorkerPc} (hm : pc ∈ s.workers)
    (hpc : pc.request? = some ref) : ∃ r, s.request? ref = some r ∧ r.state = .pending := by
  obtain ⟨w, hw⟩ := List.getElem?_of_mem hm
  obtain ⟨r, c, hr, hs, -⟩ := held_story hi ht hw hpc
  exact ⟨r, hr, hs⟩

theorem step_owned (hi : Inv s) (ht : Told s ref) (ho : Owned s ref)
    (h : Sys.step p s a = some s') : Owned s' ref := by
  have hslot := step_slot h ref
  refine ⟨?_, ?_⟩
  · intro r' hr' hp'
    rcases slot_marks hslot with ⟨ms, hms, hacc⟩ | ⟨hreading, -⟩
    · have hkeep : ref ∈ refs s ∨ EndNow s ref → ref ∈ refs s' ∨ EndNow s' ref := by
        rintro (hm | he)
        · rcases step_refs h with hrefs | ⟨-, x, hx, hperm⟩
          · exact Or.inl (hrefs ref hm)
          · rcases List.mem_cons.mp (hperm.mem_iff.mp hm) with rfl | hm
            · exact Or.inr (endNow_append (ho.ended hx) hms hacc)
            · exact Or.inl hm
        · exact Or.inr (endNow_append he hms hacc)
      cases hslot with
      | same request marks => exact hkeep (ho.owned r' (request ▸ hr') hp')
      | handled n junk φ notified r hd log act conn pc slot handles request marks pushes =>
        rw [request] at hr'
        cases hr'
        cases handles.shifts with
        | idle r' state parser =>
          have hpending : r.state = .pending := state.symm.trans hp'
          rcases slot with hr | ⟨-, rfl⟩
          · exact hkeep (ho.owned r hr hpending)
          · cases hpending
        | accepted r' ready state parser =>
          rw [Handled.request, state] at hp'
          cases hp'
        | cancelled r' reading state parser =>
          rw [Handled.request, state] at hp'
          cases hp'
        | push r' reading state parser =>
          obtain ⟨n', hn', hpc'⟩ := pushes r' rfl
          refine Or.inl (pushing_refs hn' ?_)
          rw [hpc']
          rfl
      | reset n j r conn pc slot request marks =>
        rw [request] at hr'
        cases hr'
        exact hkeep (ho.owned r slot hp')
      | destroyed n φ r log conn pc slot destroys request marks =>
        rw [request] at hr'
        cases hr'
      | worked w r r₁ pc pc' got log worker workers slot works request marks =>
        rw [request] at hr'
        cases hr'
        obtain ⟨-, -, cin, cout, cerr, rfl⟩ := works.keeps
        exact hkeep (ho.owned r slot hp')
    · rw [hreading r' hr'] at hp'
      cases hp'
  · intro hm
    rcases step_holders h hm rfl with hold | hpop |
      ⟨w, r, r', pc₀, got, log, hw, hr, works, -, hmarks⟩
    · obtain ⟨r, hr, hstate⟩ := held_not_ready hi ht hold rfl
      rcases slot_marks hslot with ⟨ms, hms, hacc⟩ | ⟨-, hready⟩
      · exact endNow_append (ho.ended hold) hms hacc
      · rw [hready r hr] at hstate
        cases hstate
    · cases hpop
    · exact sending_ended hi ht hw works hmarks

theorem run_owned {workers : Nat} {as : List Act} (h : run (Sys.step p) (.init workers) as = some s)
    (ref : Ref) : Inv s ∧ Told s ref ∧ Owned s ref := by
  refine run_invariant (I := fun s => Inv s ∧ Told s ref ∧ Owned s ref) ?_ ?_ h
  · exact ⟨init_inv workers, Or.inr rfl, init_owned workers ref⟩
  · rintro s a s' ⟨hi, ht, ho⟩ hs
    exact ⟨step_inv hi hs, step_told hi hs ht, step_owned hi ht ho hs⟩

/-! ## What the rest of the process does with it -/

/-- The worker that holds the request, or the application in its callback, moves. -/
def Touches (ref : Ref) (s : Sys) (a : Act) : Prop :=
  ∃ w pc, s.workers[w]? = some pc ∧ pc.request? = some ref ∧
    ((∃ φ, a = .worker w φ) ∨ (∃ op φ, a = .app w op φ) ∨ ∃ how φ, a = .finish w how φ)

structure Kept (r r' : Request) : Prop where
  state : r'.state = r.state
  privBeginRequest : r'.privBeginRequest = r.privBeginRequest
  params : r'.params = r.params

theorem worked_touches {w : Nat} {r r' : Request} {pc pc' : WorkerPc} {got : Option Int}
    {log : List Event} (hw : s.workers[w]? = some pc)
    (h : Sys.Worked p w ref r a pc r' pc' got log) : Touches ref s a := by
  refine ⟨w, pc, hw, h.keeps.1, ?_⟩
  cases h with
  | app φ op tx r' got log op_eq did => exact Or.inr (Or.inl ⟨op, φ, rfl⟩)
  | finish φ how r' body log did => exact Or.inr (Or.inr ⟨how, φ, rfl⟩)
  | start φ role => exact Or.inl ⟨φ, rfl⟩
  | unknown φ r' body log did | cout φ body o log did | cerr φ body o log did
  | send φ body log did => exact Or.inl ⟨φ, rfl⟩

/-- No branch of `handle_packet` changes more than the input queues once the
parser is gone. -/
theorem handles_pending {junk : Junk} {φ : Fate} {r : Request} {hd : Handled} {log : List Event}
    (hp : r.state = .pending) (hd_none : r.paramsDeserializer = none)
    (h : Request.Handles p junk φ r (.ok hd, log)) :
    ∃ cin cdata, hd = .idle { r with cin := cin, cdata := cdata } := by
  generalize hx : (Except.ok hd, log) = x at h
  cases h with
  | ignore =>
    cases hx
    exact ⟨_, _, rfl⟩
  | accept got ready =>
    rw [hp] at ready
    cases ready
  | more d d' params data reading | push d d' params data reading
  | cancel d params data what reading
  | fault d data f reading cause =>
    rw [hd_none] at reading
    cases reading
  | stdin data busy =>
    cases hx
    exact ⟨_, _, rfl⟩
  | data data busy =>
    cases hx
    exact ⟨_, _, rfl⟩
  | unknown type =>
    obtain rfl := Request.unknownType_ok hx.symm
    exact ⟨_, _, rfl⟩

/-- A step keeps a pending request, or destroys it after its END_REQUEST. -/
theorem step_kept {r : Request} (hi : Inv s) (ho : Owned s ref) (hr : s.request? ref = some r)
    (hp : r.state = .pending) (h : Sys.step p s a = some s') :
    (∃ r', s'.request? ref = some r' ∧ Kept r r' ∧
      (¬ Touches ref s a → r'.cout = r.cout ∧ r'.cerr = r.cerr) ∧
      ∃ ms, marksOf s' ref = marksOf s ref ++ ms ∧ .dispatched ∉ ms) ∨
    s'.request? ref = none ∧ EndNow s' ref ∧
      ∃ n, s'.conns[ref.conn]? = some n ∧ torn n.pc = true := by
  cases step_slot h ref with
  | same request marks =>
    exact Or.inl ⟨r, by rw [request, hr], ⟨rfl, rfl, rfl⟩, fun _ => ⟨rfl, rfl⟩, [],
      by rw [marks, List.append_nil], List.not_mem_nil⟩
  | handled n junk φ notified r₀ hd log act conn pc slot handles request marks =>
    obtain rfl := slot_same hr slot
    have hnone : r₀.paramsDeserializer = none := by
      rw [← Option.not_isSome_iff_eq_none]
      intro hsome
      have hread := reading_state hi conn pc hr hsome
      rw [hp] at hread
      cases hread
    obtain ⟨cin, cdata, rfl⟩ := handles_pending hp hnone handles
    exact Or.inl ⟨_, request, ⟨rfl, rfl, rfl⟩, fun _ => ⟨rfl, rfl⟩, _, marks,
      dispatched_not_mem_did log⟩
  | reset n j r₀ conn pc slot request marks =>
    rw [hr] at slot
    cases slot
    exact Or.inl ⟨_, request, ⟨rfl, rfl, rfl⟩, fun _ => ⟨rfl, rfl⟩, [],
      by rw [marks, List.append_nil], List.not_mem_nil⟩
  | destroyed n φ r₀ log conn pc slot destroys request marks =>
    rw [hr] at slot
    cases slot
    have htorn : torn n.pc = true := by
      rcases pc with ⟨hpc, -⟩ | hpc <;> rw [hpc] <;> rfl
    refine Or.inr ⟨request, ?_, torn_step h conn htorn⟩
    have hend : EndNow s ref := by
      rcases ho.owned r hr hp with hm | he
      · obtain ⟨m, r₁, hm, hl, -⟩ := hi.live hm
        rw [conn] at hm
        cases hm
        rcases pc with ⟨-, hstate⟩ | hpc
        · rw [hp] at hstate
          rcases hstate with hstate | hstate <;> cases hstate
        · rw [hpc] at hl
          cases hl
      · exact he
    exact endNow_append hend marks (accepted_not_mem_did log)
  | worked w r₀ r₁ pc pc' got log worker workers slot works request marks =>
    rw [hr] at slot
    cases slot
    have htouch := worked_touches worker works
    obtain ⟨-, -, cin, cout, cerr, rfl⟩ := works.keeps
    exact Or.inl ⟨_, request, ⟨rfl, rfl, rfl⟩, fun hn => absurd htouch hn, _, marks,
      dispatched_not_mem_work log got⟩

/-- What is left of a request that was destroyed. -/
theorem step_gone {n : Conn} (h : Sys.step p s a = some s') (hr : s.request? ref = none)
    (he : EndNow s ref) (hn : s.conns[ref.conn]? = some n) (ht : torn n.pc = true) :
    s'.request? ref = none ∧ EndNow s' ref ∧
      ∃ n, s'.conns[ref.conn]? = some n ∧ torn n.pc = true := by
  have htorn := torn_step h hn ht
  cases step_slot h ref with
  | same request marks =>
    exact ⟨request.trans hr, endNow_append he (by rw [marks, List.append_nil]) List.not_mem_nil,
      htorn⟩
  | handled m junk φ notified r₀ hd log act conn pc slot handles request marks =>
    rw [hn] at conn
    cases conn
    rw [pc] at ht
    cases ht
  | reset m j r₀ conn pc slot request marks
  | destroyed m φ r₀ log conn pc slot destroys request marks
  | worked w r₀ r₁ pc pc' got log worker workers slot works request marks =>
    rw [hr] at slot
    cases slot

/-- What the run to `s` has kept of the request `r` that was pending in `s₀`. -/
def Left (s₀ : Sys) (ref : Ref) (r : Request) (streams : Prop) (s : Sys) : Prop :=
  (∃ r', s.request? ref = some r' ∧ Kept r r' ∧ (streams → r'.cout = r.cout ∧ r'.cerr = r.cerr) ∧
    (marksOf s ref).count .dispatched = (marksOf s₀ ref).count .dispatched) ∨
  s.request? ref = none ∧ EndNow s ref ∧ ∃ n, s.conns[ref.conn]? = some n ∧ torn n.pc = true

theorem step_left {s₀ : Sys} {r : Request} {streams : Prop} (hi : Inv s) (ho : Owned s ref)
    (hp : r.state = .pending) (hl : Left s₀ ref r streams s)
    (ht : streams → ¬ Touches ref s a) (h : Sys.step p s a = some s') :
    Left s₀ ref r streams s' := by
  rcases hl with ⟨r', hr', hk, hs, hc⟩ | ⟨hnone, he, n, hn, htorn⟩
  · rcases step_kept hi ho hr' (hk.state.trans hp) h with ⟨r'', hr'', hk', hs', ms, hms, hd⟩ | hgone
    · refine Or.inl ⟨r'', hr'', ?_, ?_, ?_⟩
      · exact ⟨hk'.state.trans hk.state, hk'.privBeginRequest.trans hk.privBeginRequest,
          hk'.params.trans hk.params⟩
      · intro hx
        exact ⟨(hs' (ht hx)).1.trans (hs hx).1, (hs' (ht hx)).2.trans (hs hx).2⟩
      · rw [hms, List.count_append, List.count_eq_zero_of_not_mem hd, hc]
        rfl
    · exact Or.inr hgone
  · exact Or.inr (step_gone h hnone he hn htorn)

/-- **A dispatched request is left alone** until its END_REQUEST: whatever the
threads do, its state, `priv_begin_request` and parameters stay and it is not
pushed again; its output streams stay unless the worker that holds it moves. -/
theorem left_alone {workers : Nat} {as bs : List Act} {t : Sys} {r : Request}
    (h : run (Sys.step p) (.init workers) as = some s) (hr : s.request? ref = some r)
    (hp : r.state = .pending) (ht : run (Sys.step p) s bs = some t) (he : ¬ EndNow t ref) :
    ∃ r', t.request? ref = some r' ∧ Kept r r' ∧
      (marksOf t ref).count .dispatched = (marksOf s ref).count .dispatched ∧
      (Meets (Sys.step p) (fun s a => ¬ Touches ref s a) s bs →
        r'.cout = r.cout ∧ r'.cerr = r.cerr) := by
  obtain ⟨hi, htold, ho⟩ := run_owned h ref
  have hstart : ∀ streams, Left s ref r streams s :=
    fun _ => Or.inl ⟨r, hr, ⟨rfl, rfl, rfl⟩, fun _ => ⟨rfl, rfl⟩, rfl⟩
  let I (streams : Prop) (u : Sys) : Prop :=
    Inv u ∧ Told u ref ∧ Owned u ref ∧ Left s ref r streams u
  have hstep : ∀ streams u b v, I streams u → (streams → ¬ Touches ref u b) →
      Sys.step p u b = some v → I streams v := by
    rintro streams u b v ⟨hi, ht, ho, hl⟩ htouch hs
    exact ⟨step_inv hi hs, step_told hi hs ht, step_owned hi ht ho hs,
      step_left hi ho hp hl htouch hs⟩
  have hall : I False t :=
    run_invariant ⟨hi, htold, ho, hstart False⟩
      (fun u b v hu hs => hstep False u b v hu False.elim hs) ht
  rcases hall.2.2.2 with ⟨r', hr', hk, -, hc⟩ | ⟨-, hend, -⟩
  · refine ⟨r', hr', hk, hc, ?_⟩
    intro hm
    have hquiet : I True t :=
      run_invariant_of_meets ⟨hi, htold, ho, hstart True⟩
        (fun u b v hu hn hs => hstep True u b v hu (fun _ => hn) hs) hm ht
    rcases hquiet.2.2.2 with ⟨r'', hr'', -, hs, -⟩ | ⟨hnone, -⟩
    · rw [hr'] at hr''
      cases hr''
      exact hs trivial
    · rw [hr'] at hnone
      cases hnone
  · exact absurd hend he

/-- A second BEGIN_REQUEST and late PARAMS records for a request in its callback. -/
def lateRecords : List Act := [.arrive 0 beginRecord, .arrive 0 paramsEnd] ++ connMoves 2

theorem left_alone_lateRecords : ∃ s r t r',
    run (Sys.step .standard) (.init 1) started = some s ∧ s.request? ⟨0, 0⟩ = some r ∧
      run (Sys.step .standard) s lateRecords = some t ∧ t.request? ⟨0, 0⟩ = some r' ∧ Kept r r' ∧
      (marksOf t ⟨0, 0⟩).count .dispatched = (marksOf s ⟨0, 0⟩).count .dispatched := by
  have hrun : (run (Sys.step .standard) (.init 1) started).any (fun s =>
      (s.request? ⟨0, 0⟩).any (fun r => r.state = .pending) &&
        (run (Sys.step .standard) s lateRecords).any fun t =>
          (current (marksOf t ⟨0, 0⟩)).all fun c => !c.any isEnd) = true := by
    decide +kernel
  obtain ⟨s, hs, hcheck⟩ := (Option.any_eq_true _ _).mp hrun
  obtain ⟨hr, ht⟩ := Bool.and_eq_true_iff.mp hcheck
  obtain ⟨r, hr, hp⟩ := (Option.any_eq_true _ _).mp hr
  obtain ⟨t, ht, hend⟩ := (Option.any_eq_true _ _).mp ht
  have hne : ¬ EndNow t ⟨0, 0⟩ := by
    rintro ⟨c, hc, m, hm, he⟩
    rw [hc] at hend
    simp only [Option.all_some, Bool.not_eq_true', List.any_eq_false] at hend
    exact hend m hm he
  obtain ⟨r', hr', hk, hc, -⟩ := left_alone hs hr (of_decide_eq_true hp) ht hne
  exact ⟨s, r, t, r', hs, hr, ht, hr', hk, hc⟩

end Tfcgi.Owner
