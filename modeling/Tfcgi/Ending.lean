import Tfcgi.Streams

/-!
# How a request ends

`Streamed` says of a slot how its streams go with its state and with the place of
the worker that holds it, whatever the sends do.

* `run_streamed`: it holds of every slot in every reachable state. The streams of
  a request are closed when its END_REQUEST record is sent, and no other one is
  sent for it.
-/

namespace Tfcgi.Ending

open Tfcgi.Run Tfcgi.HostOrder Tfcgi.Protocol Tfcgi.NameValuePairs Tfcgi.Socket Tfcgi.Iostream
open Tfcgi.RequestSlot Tfcgi.ConnectionThread Tfcgi.System Tfcgi.OutputStream
open Tfcgi.Accounting Tfcgi.History Tfcgi.Reuse Tfcgi.Owner Tfcgi.Streams

variable {p : Params} {s s' : Sys} {a : Act} {ref : Ref}

/-- The worker is past the two `close()` calls, or done with the request. -/
def Late (s : Sys) (ref : Ref) : Prop :=
  (∃ body, .sending ref body ∈ s.workers) ∨ .decrementing ref ∈ s.workers ∨ ref ∉ refs s

structure Streamed (s : Sys) (ref : Ref) : Prop where
  typed : ∀ r, s.request? ref = some r → AllTyped r
  /-- nothing is written before the dispatch -/
  idle : ∀ r, s.request? ref = some r → r.state ≠ .pending → ∀ i, (stream r i).internal.pending = []
  ready : ∀ r, s.request? ref = some r → r.state = .ready → ∀ i,
    (stream r i).internal.sendEof = false
  coutClosed : ∀ r body, s.request? ref = some r → .closingCerr ref body ∈ s.workers →
    r.cout.attached = false
  closed : ∀ r, s.request? ref = some r → r.state = .pending → Late s ref →
    ∀ i, (stream r i).attached = false
  once : ref ∈ refs s → EndNow s ref → .decrementing ref ∈ s.workers

/-! ## Streams behind a record -/

theorem new_typed (p : Params) (requestId : Nat) (junk : Junk) :
    AllTyped (Request.new p requestId junk) := by
  intro i
  cases i
  · exact ⟨Ostream.new_sound _ _ _, rfl, fun h => by cases h⟩
  · exact ⟨Ostream.new_sound _ _ _, rfl, fun h => by cases h⟩

theorem raise_typed {i : Stream} {o : Ostream} (h : Typed i o) :
    Typed i (Request.raiseSendEof o.reset) := by
  refine ⟨⟨h.sound.room, ?_⟩, h.type, fun ha => by cases ha⟩
  intro hg
  cases hg

theorem perform_close_detached {i : Stream} {o x : Ostream} (ho : Typed i o) (ops : List StreamOp)
    {φ : Fate} {es : List Event} (h : perform p o (ops ++ [.close]) φ = (.ok x, es)) :
    x.attached = false := by
  induction ops generalizing o φ es with
  | nil =>
    obtain ⟨o₁, es₁, es₂, h₁, h₂, -⟩ := Tx.bind_eq_ok h
    cases h₂
    exact close_detaches ho.sound h₁
  | cons op ops ih =>
    obtain ⟨o₁, es₁, es₂, h₁, h₂, -⟩ := Tx.bind_eq_ok h
    exact ih (apply_typed ho op h₁) h₂

theorem cancels_streams {φ : Fate} {r r' : Request} {log : List Event} (hr : AllTyped r)
    (h : Cancels p φ r r' log) : AllTyped r' ∧ ∀ i, (stream r' i).attached = false := by
  obtain ⟨⟨what, data, cerr, cout, es₁, es₂, out, h₁, h₂, rfl, rfl, -⟩, -, -⟩ := h
  have herr : Typed .cerr r'.cerr := perform_typed (hr .cerr) h₁
  have hout : Typed .cout r'.cout := close_typed (hr .cout) h₂
  refine ⟨?_, ?_⟩
  · intro i
    cases i
    · exact hout
    · exact herr
  · intro i
    cases i
    · exact close_detaches (hr .cout).sound h₂
    · exact perform_close_detached (hr .cerr) [_, _] h₁

theorem receives_typed {φ : Fate} {r : Request} {h : Handled} {log : List Event} (hr : AllTyped r)
    (hh : Receives p φ r h log) : AllTyped h.request := by
  cases hh with
  | accepts r' ready reading streams =>
    intro i
    exact (congrArg (Typed i) (streams i)).mpr (raise_typed (hr i))
  | cancels r' _ did => exact (cancels_streams hr did).1
  | keeps _ _ streams about idle =>
    intro i
    rw [streams i]
    exact hr i

/-- The request that a record is for. -/
theorem slot_typed (hs : Streamed s ref) {r : Request} {junk : Junk} (h : s.request? ref = some r ∨
    s.request? ref = none ∧ r = .new p (ref.slot + 1) junk) : AllTyped r := by
  rcases h with hr | ⟨-, rfl⟩
  · exact hs.typed r hr
  · exact new_typed p _ junk

theorem step_typed (hs : Streamed s ref) (h : Sys.step p s a = some s') {r' : Request}
    (hr' : s'.request? ref = some r') : AllTyped r' := by
  cases step_slot h ref with
  | same request marks => exact hs.typed r' (request ▸ hr')
  | handled n junk φ notified r hd log act conn pc slot handles request marks pushes =>
    rw [request] at hr'
    cases hr'
    exact receives_typed (slot_typed hs slot) (handles_receives handles)
  | reset n j r conn pc slot request marks =>
    rw [request] at hr'
    cases hr'
    intro i
    have hi := hs.typed r slot i
    cases i <;> exact hi
  | destroyed n φ r log conn pc slot destroys request marks =>
    rw [request] at hr'
    cases hr'
  | worked w r r₁ pc pc' got log worker workers slot works request marks =>
    rw [request] at hr'
    cases hr'
    obtain ⟨φ, -, hm⟩ := worked_moves works
    exact hm.typed (hs.typed r slot)

/-! ## Before the dispatch -/

/-- Nothing is left in the streams before the dispatch, and nothing is left to
send at all in a slot that is READY. -/
def Rested (r : Request) : Prop :=
  (r.state ≠ .pending → ∀ i, (stream r i).internal.pending = []) ∧
    (r.state = .ready → ∀ i, (stream r i).internal.sendEof = false)

theorem new_rested (p : Params) (requestId : Nat) (junk : Junk) :
    Rested (Request.new p requestId junk) :=
  ⟨fun _ i => by cases i <;> rfl, fun _ i => by cases i <;> rfl⟩

theorem receives_rested {φ : Fate} {r : Request} {h : Handled} {log : List Event} (hr : AllTyped r)
    (hrest : Rested r) (hh : Receives p φ r h log) : Rested h.request := by
  cases hh with
  | accepts r' ready reading streams =>
    refine ⟨fun _ i => ?_, fun hready => ?_⟩
    · have hp := hrest.1 (by rw [ready]; exact State.noConfusion) i
      exact (congrArg (fun o : Ostream => o.internal.pending) (streams i)).trans hp
    · rw [Handled.request, reading] at hready
      cases hready
  | cancels r' _ did =>
    obtain ⟨htyped, hclosed⟩ := cancels_streams hr did
    exact ⟨fun _ i => (htyped i).pending (hclosed i), fun _ i => (htyped i).quiet (hclosed i)⟩
  | keeps _ _ streams about idle =>
    rcases idle with ⟨r', rfl, hstate⟩ | ⟨r', rfl, hstate, -⟩
    · refine ⟨fun hne i => ?_, fun hready i => ?_⟩
      · rw [streams i]
        exact hrest.1 (hstate ▸ hne) i
      · rw [streams i]
        exact hrest.2 (hstate ▸ hready) i
    · refine ⟨fun hne => absurd hstate hne, fun hready => ?_⟩
      rw [Handled.request, hstate] at hready
      cases hready

theorem step_rested (hi : Inv s) (ht : Told s ref) (hs : Streamed s ref)
    (h : Sys.step p s a = some s') {r' : Request} (hr' : s'.request? ref = some r') :
    Rested r' := by
  have hold : ∀ r, s.request? ref = some r → Rested r := fun r hr => ⟨hs.idle r hr, hs.ready r hr⟩
  cases step_slot h ref with
  | same request marks => exact hold r' (request ▸ hr')
  | handled n junk φ notified r hd log act conn pc slot handles request marks pushes =>
    rw [request] at hr'
    cases hr'
    refine receives_rested (slot_typed hs slot) ?_ (handles_receives handles)
    rcases slot with hr | ⟨-, rfl⟩
    · exact hold r hr
    · exact new_rested p _ junk
  | reset n j r conn pc slot request marks =>
    rw [request] at hr'
    cases hr'
    obtain ⟨h₁, h₂⟩ := hold r slot
    exact ⟨fun hne i => by cases i <;> first | exact h₁ hne .cout | exact h₁ hne .cerr,
      fun hready i => by cases i <;> first | exact h₂ hready .cout | exact h₂ hready .cerr⟩
  | destroyed n φ r log conn pc slot destroys request marks =>
    rw [request] at hr'
    cases hr'
  | worked w r r₁ pc pc' got log worker workers slot works request marks =>
    rw [request] at hr'
    cases hr'
    obtain ⟨hpc, -, cin, cout, cerr, rfl⟩ := works.keeps
    obtain ⟨r₁, -, hr, hstate, -⟩ := held_story hi ht worker hpc
    rw [slot] at hr
    cases hr
    refine ⟨fun hne => absurd hstate hne, fun hready => ?_⟩
    rw [show r.state = _ from hstate] at hready
    cases hready

/-! ## After the dispatch -/

/-- A step keeps a request that was dispatched, and its streams that are closed. -/
theorem step_pending (hi : Inv s) (h : Sys.step p s a = some s') {r : Request}
    (hr : s.request? ref = some r) (hp : r.state = .pending) {r' : Request}
    (hr' : s'.request? ref = some r') :
    ∀ i, (stream r i).attached = false → stream r' i = stream r i := by
  intro i ha
  cases step_slot h ref with
  | same request marks =>
    rw [request, hr] at hr'
    cases hr'
    rfl
  | handled n junk φ notified r₀ hd log act conn pc slot handles request marks pushes =>
    obtain rfl := slot_same hr slot
    rw [request] at hr'
    cases hr'
    cases handles_receives handles with
    | accepts r' ready reading streams =>
      rw [hp] at ready
      cases ready
    | cancels r' _ did =>
      have hread := reading_state hi conn pc hr did.reading
      rw [hp] at hread
      cases hread
    | keeps _ _ streams about idle => exact streams i
  | reset n j r₀ conn pc slot request marks =>
    rw [hr] at slot
    cases slot
    rw [request] at hr'
    cases hr'
    cases i <;> rfl
  | destroyed n φ r₀ log conn pc slot destroys request marks =>
    rw [request] at hr'
    cases hr'
  | worked w r₀ r₁ pc pc' got log worker workers slot works request marks =>
    rw [hr] at slot
    cases slot
    rw [request] at hr'
    cases hr'
    obtain ⟨φ, -, hm⟩ := worked_moves works
    exact hm.kept i ha

/-- A request becomes pending by its dispatch. -/
theorem pending_before (h : Sys.step p s a = some s') {r' : Request}
    (hr' : s'.request? ref = some r') (hp : r'.state = .pending) :
    (∃ r, s.request? ref = some r ∧ r.state = .pending) ∨ ref ∈ refs s' := by
  cases step_slot h ref with
  | same request marks => exact Or.inl ⟨r', request ▸ hr', hp⟩
  | handled n junk φ notified r hd log act conn pc slot handles request marks pushes =>
    rw [request] at hr'
    cases hr'
    cases handles.shifts with
    | idle r' state parser =>
      have hpending : r.state = .pending := state.symm.trans hp
      rcases slot with hr | ⟨-, rfl⟩
      · exact Or.inl ⟨r, hr, hpending⟩
      · cases hpending
    | accepted r' ready state parser | cancelled r' reading state parser =>
      rw [Handled.request, state] at hp
      cases hp
    | push r' reading state parser =>
      obtain ⟨n', hn', hpc'⟩ := pushes r' rfl
      refine Or.inr (pushing_refs hn' ?_)
      rw [hpc']
      rfl
  | reset n j r conn pc slot request marks =>
    rw [request] at hr'
    cases hr'
    exact Or.inl ⟨r, slot, hp⟩
  | destroyed n φ r log conn pc slot destroys request marks =>
    rw [request] at hr'
    cases hr'
  | worked w r r₁ pc pc' got log worker workers slot works request marks =>
    rw [request] at hr'
    cases hr'
    obtain ⟨-, -, cin, cout, cerr, rfl⟩ := works.keeps
    exact Or.inl ⟨r, slot, hp⟩

theorem step_coutClosed (hi : Inv s) (ht : Told s ref) (hs : Streamed s ref)
    (h : Sys.step p s a = some s') {r' : Request} {body : EndRequestBody}
    (hr' : s'.request? ref = some r') (hm : .closingCerr ref body ∈ s'.workers) :
    r'.cout.attached = false := by
  rcases step_holders h hm rfl with hin | hpop | ⟨w, r, r₁, pc₀, got, log, hw, hr, works, hr₁, -⟩
  · obtain ⟨r, hr, hstate⟩ := held_not_ready hi ht hin rfl
    have hd := hs.coutClosed r body hr hin
    have hk := step_pending hi h hr hstate hr' .cout hd
    exact (congrArg Ostream.attached hk).trans hd
  · cases hpop
  · rw [hr₁] at hr'
    cases hr'
    obtain ⟨φ, -, hmoves⟩ := worked_moves works
    cases hmoves with
    | uses i ops x log _ _ before after kept did => cases after
    | cout _ x log did => exact close_detaches (hs.typed r hr .cout).sound did

theorem step_closed (hi : Inv s) (ht : Told s ref) (hs : Streamed s ref)
    (h : Sys.step p s a = some s') {r' : Request} (hr' : s'.request? ref = some r')
    (hp : r'.state = .pending) (hl : Late s' ref) (i : Stream) :
    (stream r' i).attached = false := by
  have hold : ∀ r, s.request? ref = some r → r.state = .pending → Late s ref →
      (stream r' i).attached = false := by
    intro r hr hstate hlate
    have hd := hs.closed r hr hstate hlate i
    have hk := step_pending hi h hr hstate hr' i hd
    exact (congrArg Ostream.attached hk).trans hd
  rcases hl with ⟨body, hm⟩ | hm | hm
  · rcases step_holders h hm rfl with hin | hpop | ⟨w, r, r₁, pc₀, got, log, hw, hr, works, hr₁, -⟩
    · obtain ⟨r, hr, hstate⟩ := held_not_ready hi ht hin rfl
      exact hold r hr hstate (Or.inl ⟨body, hin⟩)
    · cases hpop
    · rw [hr₁] at hr'
      cases hr'
      obtain ⟨φ, -, hmoves⟩ := worked_moves works
      cases hmoves with
      | uses j ops x log _ _ before after kept did => cases after
      | cerr _ x log did =>
        cases i
        · exact hs.coutClosed r body hr (List.mem_of_getElem? hw)
        · exact close_detaches (hs.typed r hr .cerr).sound did
  · rcases step_holders h hm rfl with hin | hpop | ⟨w, r, r₁, pc₀, got, log, hw, hr, works, hr₁, -⟩
    · obtain ⟨r, hr, hstate⟩ := held_not_ready hi ht hin rfl
      exact hold r hr hstate (Or.inr (Or.inl hin))
    · cases hpop
    · obtain ⟨r₂, hr₂, hstate⟩ := held_not_ready hi ht (List.mem_of_getElem? hw) works.keeps.1
      obtain ⟨φ, -, hmoves⟩ := worked_moves works
      cases hmoves with
      | uses j ops x log _ _ before after kept did => cases after
      | ends body out => exact hold r₂ hr₂ hstate (Or.inl ⟨body, List.mem_of_getElem? hw⟩)
  · by_cases hin : ref ∈ refs s
    · cases step_shift h with
      | same perm => exact absurd (perm.mem_iff.mpr hin) hm
      | pushed x n conn pc parser perm =>
        exact absurd (perm.mem_iff.mpr (List.mem_cons_of_mem x hin)) hm
      | ended x requests worker perm =>
        rcases List.mem_cons.mp (perm.mem_iff.mp hin) with rfl | hin
        · rw [requests] at hr'
          exact hold r' hr' hp (Or.inr (Or.inl worker))
        · exact absurd hin hm
    · rcases pending_before h hr' hp with ⟨r, hr, hstate⟩ | hnew
      · exact hold r hr hstate (Or.inr (Or.inr hin))
      · exact absurd hnew hm

/-- The buffers of a request that is destroyed are empty. -/
theorem destroyed_pending (hi : Inv s) (hs : Streamed s ref) {n : Conn} {r : Request}
    (conn : s.conns[ref.conn]? = some n)
    (pc : n.pc = .tearingDown ref.slot ∧ (r.state = .readingParams ∨ r.state = .ready) ∨
      n.pc = .clearing ref.slot) (slot : s.request? ref = some r) (i : Stream) :
    (stream r i).internal.pending = [] := by
  by_cases hstate : r.state = .pending
  · have hnot : ref ∉ refs s := by
      intro hin
      obtain ⟨m, r₁, hm, hl, -⟩ := hi.live hin
      rw [conn] at hm
      cases hm
      rcases pc with ⟨-, hx⟩ | hpc
      · rw [hstate] at hx
        rcases hx with hx | hx <;> cases hx
      · rw [hpc] at hl
        cases hl
    exact (hs.typed r slot i).pending (hs.closed r slot hstate (Or.inr (Or.inr hnot)) i)
  · exact hs.idle r slot hstate i

/-! ## One END_REQUEST record -/

/-- Two workers do not hold the same request. -/
theorem held_unique (hi : Inv s) {pc pc' : WorkerPc} (hm : pc ∈ s.workers) (hm' : pc' ∈ s.workers)
    (hpc : pc.request? = some ref) (hpc' : pc'.request? = some ref) : pc = pc' :=
  Slots.filterMap_unique hi.nodup.of_append_right.of_append_right hm hm' hpc hpc'

/-- The worker stays at its last decrement until the request is given up. -/
theorem step_decrementing (hi : Inv s) (h : Sys.step p s a = some s')
    (hm : .decrementing ref ∈ s.workers) (hr : ref ∈ refs s') : .decrementing ref ∈ s'.workers := by
  -- when only the holders of requests are known to be the same
  have hheld : s'.workers.filterMap WorkerPc.request? = s.workers.filterMap WorkerPc.request? →
      (∀ pc ∈ s'.workers, pc.request? ≠ none → pc ∈ s.workers) →
        .decrementing ref ∈ s'.workers := by
    intro held busy
    have hin : ref ∈ s.workers.filterMap WorkerPc.request? := List.mem_filterMap.mpr ⟨_, hm, rfl⟩
    rw [← held] at hin
    obtain ⟨pc, hpc, href⟩ := List.mem_filterMap.mp hin
    have hold := busy pc hpc (by rw [href]; exact Option.some_ne_none ref)
    rw [held_unique hi hm hold rfl href]
    exact hpc
  obtain ⟨-, he⟩ := Sys.step_effect h
  cases he with
  | crash _ c => exact hm
  | quiet _ _ conns queue held down log busy => exact hheld held busy
  | accept junk _ conns queue workers down log => exact workers ▸ hm
  | arrive i n r sock conn => exact hm
  | turn i n junk φ notified c sock did log conn pc dispatched => cases did <;> exact hm
  | move i n junk φ notified sock pc conn moves => exact hm
  | backlog i n junk φ notified ref' _ conn pc conns queue workers down log => exact workers ▸ hm
  | push i n junk φ notified ref' _ conn pc conns queue held down log busy => exact hheld held busy
  | reset i n junk φ notified ref' conn pc => exact hm
  | tear i n junk φ notified k c log conn pc lt tore => exact hm
  | clear i n junk φ notified k c log conn pc lt cleared => exact hm
  | erase i n junk φ notified k c log _ conn pc le destroyed conns queue workers down log_eq =>
    exact workers ▸ hm
  | pop w φ pc ref' queue _ worker free queue_eq conns queue' workers down log =>
    rw [workers]
    refine Slots.mem_set_of_ne worker hm ?_
    rintro rfl
    cases free
  | work _ w ref' r r' pc pc' got log worker request worked =>
    simp only [Sys.record_workers, Sys.setWorker_workers, Sys.setRequest_workers]
    refine Slots.mem_set_of_ne worker hm ?_
    rintro rfl
    cases worked
  | decrement w φ ref' n worker conn =>
    refine Slots.mem_set_of_ne worker hm ?_
    intro he
    cases he
    have hnodup := (refs_decrement worker conn).nodup_iff.mp hi.nodup
    exact (List.nodup_cons.mp hnodup).1 hr

/-- Events that are not about END_REQUEST. -/
theorem not_endSent_about {log : List Event} (h : ∀ e ∈ log, about e ≠ some .endRequest) :
    ¬ EndSent (log.map .did) := by
  rintro ⟨m, hm, hend⟩
  obtain ⟨e, he, rfl⟩ := List.mem_map.mp hm
  cases e with
  | sent pkt out => exact h _ he (congrArg some (by simpa [isEnd] using hend))
  | wrote type bytes | fed type bytes => cases hend

theorem typeOf_ne_end (i : Stream) : typeOf i ≠ .endRequest := by
  cases i <;> exact RecType.noConfusion

theorem not_endSent_work {log : List Event} (got : Option Int)
    (h : ∀ e ∈ log, ∃ i, about e = some (typeOf i)) :
    ¬ EndSent (log.map .did ++ (got.map .got).toList) := by
  intro hend
  rcases endSent_append hend with hend | ⟨m, hm, hend⟩
  · refine not_endSent_about ?_ hend
    intro e he ha
    obtain ⟨i, hi⟩ := h e he
    rw [hi] at ha
    exact typeOf_ne_end i (Option.some.inj ha)
  · cases got with
    | none => cases hm
    | some c =>
      cases List.mem_singleton.mp hm
      cases hend

theorem endNow_split {ms : List Mark} (hm : marksOf s' ref = marksOf s ref ++ ms)
    (ha : .accepted ∉ ms) (h : EndNow s' ref) : EndNow s ref ∨ EndSent ms := by
  obtain ⟨c, hc, hend⟩ := h
  rw [hm, current_append ha] at hc
  obtain ⟨c₀, hc₀, rfl⟩ := Option.map_eq_some_iff.mp hc
  rcases endSent_append hend with he | he
  · exact Or.inl ⟨c₀, hc₀, he⟩
  · exact Or.inr he

/-- Of a request that is dispatched the END_REQUEST record is sent by its worker,
which goes on to the last decrement. -/
theorem step_end (hi : Inv s) (hs : Streamed s ref) (h : Sys.step p s a = some s')
    (hr : ref ∈ refs s') (hend : EndNow s' ref) (hno : ¬ EndNow s ref) :
    .decrementing ref ∈ s'.workers := by
  obtain ⟨n', r', hn', -, hslot', hstate'⟩ := (step_inv hi h).live hr
  have hr' := Sys.request?_eq_some.mpr ⟨n', hn', hslot'⟩
  cases step_slot h ref with
  | same request marks =>
    unfold EndNow at hend hno
    rw [marks] at hend
    exact absurd hend hno
  | handled n junk φ notified r hd log act conn pc slot handles request marks pushes =>
    rw [request] at hr'
    cases hr'
    have hacc := accepted_not_mem_did log
    cases handles_receives handles with
    | accepts r' ready reading streams =>
      rw [Handled.request, reading] at hstate'
      cases hstate'
    | cancels r' _ did =>
      rw [Handled.request, did.ready] at hstate'
      cases hstate'
    | keeps _ _ streams about idle =>
      have hquiet : ¬ EndSent (log.map .did) := by
        apply not_endSent_about
        intro e he ha
        rcases about e he with hx | hx <;> rw [hx] at ha <;> cases ha
      rcases idle with ⟨r', rfl, -⟩ | ⟨r', rfl, -, -⟩
      · rcases endNow_split marks hacc hend with he | he
        · exact absurd he hno
        · exact absurd he hquiet
      · have hms : marksOf s' ref = marksOf s ref ++ ([.dispatched] ++ log.map .did) := marks
        rcases endNow_split hms (by simp [hacc]) hend with he | he
        · exact absurd he hno
        · rcases endSent_append he with ⟨m, hm, hx⟩ | he
          · cases List.mem_singleton.mp hm
            cases hx
          · exact absurd he hquiet
  | reset n j r conn pc slot request marks =>
    unfold EndNow at hend hno
    rw [marks] at hend
    exact absurd hend hno
  | destroyed n φ r log conn pc slot destroys request marks =>
    rw [request] at hr'
    cases hr'
  | worked w r r₁ pc pc' got log worker workers slot works request marks =>
    obtain ⟨φ, -, hm⟩ := worked_moves works
    rcases hm.about (hs.typed r slot) with habout | ⟨body, out, -, rfl, -, -⟩
    · rcases endNow_split marks (accepted_not_mem_work log got) hend with he | he
      · exact absurd he hno
      · exact absurd he (not_endSent_work got habout)
    · rw [workers]
      exact List.mem_set (List.getElem?_eq_some_iff.mp worker).1 _

theorem step_once (hi : Inv s) (ht : Told s ref) (hs : Streamed s ref)
    (h : Sys.step p s a = some s') (hr : ref ∈ refs s') (hend : EndNow s' ref) :
    .decrementing ref ∈ s'.workers := by
  by_cases hold : EndNow s ref
  · have hkeep : ref ∈ refs s → .decrementing ref ∈ s'.workers :=
      fun hin => step_decrementing hi h (hs.once hin hold) hr
    cases step_shift h with
    | same perm => exact hkeep (perm.mem_iff.mp hr)
    | pushed x n conn pc parser perm =>
      rcases List.mem_cons.mp (perm.mem_iff.mp hr) with rfl | hin
      · obtain ⟨r, hreq, hsome⟩ := parser
        have hreading := reading_state hi conn pc hreq hsome
        have hstory := story_of_some ht hreq
        unfold Story at hstory
        simp only [hreading] at hstory
        obtain ⟨c, hc, -, hno⟩ := hstory
        obtain ⟨c', hc', he⟩ := hold
        rw [hc] at hc'
        cases hc'
        exact absurd he hno
      · exact hkeep hin
    | ended x requests worker perm => exact hkeep (perm.mem_iff.mpr (List.mem_cons_of_mem x hr))
  · exact step_end hi hs h hr hend hold

theorem init_streamed (workers : Nat) (ref : Ref) : Streamed (.init workers) ref := by
  refine ⟨?_, ?_, ?_, ?_, ?_, ?_⟩
  · intro r hr
    cases hr
  · intro r hr
    cases hr
  · intro r hr
    cases hr
  · intro r body hr
    cases hr
  · intro r hr
    cases hr
  · rintro - ⟨c, hc, -⟩
    cases hc

theorem step_streamed (hi : Inv s) (ht : Told s ref) (hs : Streamed s ref)
    (h : Sys.step p s a = some s') : Streamed s' ref where
  typed _ hr' := step_typed hs h hr'
  idle _ hr' := (step_rested hi ht hs h hr').1
  ready _ hr' := (step_rested hi ht hs h hr').2
  coutClosed _ _ hr' hm := step_coutClosed hi ht hs h hr' hm
  closed _ hr' hp hl := step_closed hi ht hs h hr' hp hl
  once hr hend := step_once hi ht hs h hr hend

theorem run_streamed {workers : Nat} {as : List Act}
    (h : run (Sys.step p) (.init workers) as = some s) (ref : Ref) : Streamed s ref := by
  refine (run_invariant (I := fun s => Inv s ∧ Told s ref ∧ Streamed s ref) ?_ ?_ h).2.2
  · exact ⟨init_inv workers, Or.inr rfl, init_streamed workers ref⟩
  · rintro s a s' ⟨hi, ht, hs⟩ hstep
    exact ⟨step_inv hi hstep, step_told hi hstep ht, step_streamed hi ht hs hstep⟩

end Tfcgi.Ending
