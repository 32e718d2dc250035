import Tfcgi.Accounting
import Tfcgi.History

/-!
# Reuse of a request id

A slot is `Reusable` when the next BEGIN_REQUEST record for it is accepted and
its PARAMS stream leads to a dispatch. `Story` relates the state of a slot to its
history.

* `run_story`: it holds of every slot in every reachable state;
* `reusable_iff`: once the END_REQUEST record was sent, the slot is reusable
  exactly when the request was not dispatched to a worker.
-/

namespace Tfcgi.Reuse

open Tfcgi.Run Tfcgi.HostOrder Tfcgi.Protocol Tfcgi.NameValuePairs Tfcgi.Socket
open Tfcgi.Iostream Tfcgi.RequestSlot Tfcgi.ConnectionThread Tfcgi.System Tfcgi.Accounting
open Tfcgi.History

/-! ## Reusable slots -/

/-- PARAMS records with the contents `datas` are handled one after the other. -/
def feedStream (p : Params) (φ : Fate) : Request → List (List Byte) → Option Handled
  | r, [] => some (.idle r)
  | r, data :: datas =>
    match r.paramsDeserializer with
    | none => none
    | some d =>
      match (r.feedParams p d data φ).1 with
      | .ok (.idle r) => feedStream p φ r datas
      | .ok h => if datas = [] then some h else none
      | .error _ => none

structure Reusable (p : Params) (c : Connection) (requestId : Nat) : Prop where
  ready : ∃ r, c.requests[requestId - 1]? = some (some r) ∧ r.state = .ready
  accepts : ∀ (junk : Junk) (φ : Fate) (k k' : Ipacket) (s s' : Sock) (got : List Byte),
    k.header.recType = .beginRequest →
    k.recvAll BeginRequestBody.size s = .ok (got, k') s' →
    ∃ tx r, c.dispatch p junk requestId k s = .ok (tx, some k') s' ∧
      tx φ = (.ok (c.settle requestId (.accepted r), some (requestId - 1, .accepted r)), []) ∧
      (c.settle requestId (.accepted r)).requestActives = incr c.requestActives ∧
      r.state = .readingParams ∧ r.params = [] ∧
      ∀ (datas : List (List Byte)) (d : Deserializer), (∀ data ∈ datas, data ≠ []) →
        (Deserializer.feedAll p (.fresh 0 junk.nameLen junk.valueLen) datas).outcome =
          .returns false d →
        ∃ r', feedStream p φ r (datas ++ [[]]) = some (.push r') ∧ r'.state = .pending

theorem feedParams_more (p : Params) (r : Request) {d d' : Deserializer} {data : List Byte}
    (φ : Fate) (h : (d.feed p data).outcome = .returns false d') :
    ∃ params, (r.feedParams p d data φ).1 =
      .ok (.idle { r with params := params, paramsDeserializer := some d' }) := by
  refine ⟨r.params.newKeys (d.feed p data).calls, ?_⟩
  unfold Request.feedParams
  rw [Tx.bind_quiet (rfl : Tx.note (.fed .params data) φ = _) rfl]
  simp only [h]
  rfl

theorem feedParams_last (p : Params) (r : Request) {d d' : Deserializer} {data : List Byte}
    (φ : Fate) (h : (d.feed p data).outcome = .returns true d') :
    ∃ r', (r.feedParams p d data φ).1 = .ok (.push r') ∧ r'.state = .pending := by
  refine ⟨{ r with
    params := r.params.newKeys (d.feed p data).calls
    state := .pending
    paramsDeserializer := some d' }, ?_, rfl⟩
  unfold Request.feedParams
  rw [Tx.bind_quiet (rfl : Tx.note (.fed .params data) φ = _) rfl]
  simp only [h]
  rfl

/-- A stream that the parser takes ends with a dispatch. -/
theorem feedStream_push {p : Params} (φ : Fate) {r : Request} {d d' : Deserializer}
    (hr : r.paramsDeserializer = some d) (datas : List (List Byte))
    (hne : ∀ data ∈ datas, data ≠ []) (h : (d.feedAll p datas).outcome = .returns false d') :
    ∃ r', feedStream p φ r (datas ++ [[]]) = some (.push r') ∧ r'.state = .pending := by
  induction datas generalizing r d with
  | nil =>
    have hf : (d.feed p []).outcome = .returns true d := by simp [Deserializer.feed]
    obtain ⟨r', hp, hstate⟩ := feedParams_last p r φ hf
    exact ⟨r', by simp only [List.nil_append, feedStream, hr, hp, if_true], hstate⟩
  | cons data datas ih =>
    simp only [List.mem_cons, forall_eq_or_imp] at hne
    cases hf : (d.feed p data).outcome with
    | returns finished d₁ =>
      obtain rfl := Deserializer.feed_returns hne.1 hf
      obtain ⟨params, hp⟩ := feedParams_more p r φ hf
      have hrest : (d₁.feedAll p datas).outcome = .returns false d' := by
        rw [Deserializer.feedAll] at h
        simp only [hf, Fed.prepend] at h
        exact h
      obtain ⟨r', hs, hstate⟩ :=
        ih (r := { r with params := params, paramsDeserializer := some d₁ })
        rfl hne.2 hrest
      refine ⟨r', ?_, hstate⟩
      simp only [List.cons_append, feedStream, hr, hp]
      exact hs
    | throws what | fault f =>
      rw [Deserializer.feedAll] at h
      simp only [hf] at h
      cases h

theorem reusable_of_ready (p : Params) {c : Connection} {k : Nat} {r : Request}
    (hr : c.requests[k]? = some (some r)) (hs : r.state = .ready) : Reusable p c (k + 1) := by
  refine ⟨⟨r, hr, hs⟩, ?_⟩
  intro junk φ pkt pkt' s s' got hb hgot
  have hslot : c.slot p junk (k + 1) = r := by
    have hr' := (Connection.grow_some (n := k + 1)).mpr hr
    rcases Connection.grow_slot p junk c (by omega : k + 1 ≠ 0) with hg | ⟨hg, -⟩
    · rw [Nat.add_sub_cancel, hr'] at hg
      cases hg
      rfl
    · rw [Nat.add_sub_cancel, hr'] at hg
      cases hg
  have hh : r.handlePacket p junk pkt s =
      .ok (Pure.pure (.accepted (r.acceptRequest p junk got)), some pkt') s' := by
    unfold Request.handlePacket
    simp only [hb]
    rw [if_neg (by simp [hs]), Rd.bind_ok hgot]
    rfl
  let tx : Tx Connection.Settled := do
    let h ← (Pure.pure (.accepted (r.acceptRequest p junk got)) : Tx Handled)
    return (c.settle (k + 1) h, some (k + 1 - 1, h))
  refine ⟨tx, r.acceptRequest p junk got, ?_, rfl, rfl, rfl, rfl, ?_⟩
  · unfold Connection.dispatch
    rw [if_pos (Nat.succ_ne_zero k), hslot, Rd.bind_ok hh]
    rfl
  · exact fun datas d hne hd => feedStream_push φ rfl datas hne hd

/-! ## The state and the history of a slot -/

/-- The loop that destroys requests has begun. -/
def torn : ConnPc → Bool
  | .tearingDown _ => true
  | .waiting => true
  | .clearing _ => true
  | .gone => true
  | _ => false

def EndSent (c : List Mark) : Prop := ∃ m ∈ c, isEnd m = true

/-- A slot, or its emptiness, has the history `ms`. -/
def Story (ms : List Mark) : Option Request → Prop
  | none => current ms = none
  | some r =>
    match r.state with
    | .ready => ∀ c, current ms = some c → .dispatched ∉ c
    | .readingParams => ∃ c, current ms = some c ∧ .dispatched ∉ c ∧ ¬ EndSent c
    | .pending => ∃ c, current ms = some c ∧ .dispatched ∈ c
    | .appRunning => False

theorem endSent_append {c c' : List Mark} (h : EndSent (c ++ c')) : EndSent c ∨ EndSent c' := by
  obtain ⟨m, hm, he⟩ := h
  rcases List.mem_append.mp hm with hm | hm
  · exact Or.inl ⟨m, hm, he⟩
  · exact Or.inr ⟨m, hm, he⟩

/-- Marks that neither begin nor dispatch a request. -/
theorem story_extend {ms ms' : List Mark} {r r' : Request} (h : Story ms (some r))
    (hstate : r'.state = r.state) (hacc : .accepted ∉ ms') (hdis : .dispatched ∉ ms')
    (hend : r.state = .readingParams → ¬ EndSent ms') : Story (ms ++ ms') (some r') := by
  unfold Story at h ⊢
  simp only [hstate, current_append hacc]
  cases hs : r.state with
  | ready =>
    simp only [hs] at h
    intro c hc
    obtain ⟨c₀, hc₀, rfl⟩ := Option.map_eq_some_iff.mp hc
    rw [List.mem_append, not_or]
    exact ⟨h c₀ hc₀, hdis⟩
  | readingParams =>
    simp only [hs] at h
    obtain ⟨c, hc, hd, he⟩ := h
    refine ⟨c ++ ms', by rw [hc]; rfl, ?_, ?_⟩
    · rw [List.mem_append, not_or]
      exact ⟨hd, hdis⟩
    · intro hx
      rcases endSent_append hx with hx | hx
      · exact he hx
      · exact hend hs hx
  | pending =>
    simp only [hs] at h
    obtain ⟨c, hc, hd⟩ := h
    exact ⟨c ++ ms', by rw [hc]; rfl, List.mem_append_left _ hd⟩
  | appRunning =>
    simp only [hs] at h

theorem not_endSent_did {log : List Event}
    (h : ∀ pkt o, .sent pkt o ∈ log → pkt.recType = .unknownType) : ¬ EndSent (log.map .did) := by
  rintro ⟨m, hm, ht⟩
  obtain ⟨e, he, rfl⟩ := List.mem_map.mp hm
  cases e with
  | sent pkt o => simp [isEnd, h pkt o he] at ht
  | wrote type bytes | fed type bytes => cases ht

/-- A record is handled. -/
theorem story_handled {p : Params} {junk : Junk} {φ : Fate} {r : Request} {h : Handled}
    {log : List Event} {ms : List Mark} (hs : Story ms (some r))
    (hreading : r.paramsDeserializer.isSome = true → r.state = .readingParams)
    (hh : Request.Handles p junk φ r (.ok h, log)) :
    Story (ms ++ Sys.marks h log) (some h.request) := by
  have hacc := accepted_not_mem_did log
  have hdis := dispatched_not_mem_did log
  have hsent : (∀ r', h ≠ .cancelled r') → ¬ EndSent (log.map .did) :=
    fun hc => not_endSent_did fun _ _ hm => hh.sent hc hm
  cases hh.shifts with
  | idle r' state parser =>
    exact story_extend hs state hacc hdis fun _ => hsent (fun _ => Handled.noConfusion)
  | accepted r' ready state parser =>
    have hcur : current (ms ++ Sys.marks (.accepted r') log) = some (log.map .did) := by
      have hx : ms ++ Sys.marks (.accepted r') log = (ms ++ [.accepted]) ++ log.map .did := by
        simp [Sys.marks]
      rw [hx, current_append hacc, current_accepted]
      rfl
    unfold Story
    simp only [Handled.request, state]
    exact ⟨_, hcur, hdis, hsent (fun _ => Handled.noConfusion)⟩
  | cancelled r' reading state parser =>
    have hread := hreading reading
    unfold Story at hs ⊢
    simp only [hread] at hs
    simp only [Handled.request, state]
    obtain ⟨c, hc, hd, -⟩ := hs
    intro c' hc'
    rw [current_append (by simp [Sys.marks, hacc]), hc] at hc'
    cases hc'
    simp [Sys.marks, hd]
  | push r' reading state parser =>
    have hread := hreading reading
    unfold Story at hs ⊢
    simp only [hread] at hs
    simp only [Handled.request, state]
    obtain ⟨c, hc, -⟩ := hs
    refine ⟨c ++ Sys.marks (.push r') log, ?_, ?_⟩
    · rw [current_append (by simp [Sys.marks, hacc]), hc]
      rfl
    · simp [Sys.marks]

theorem torn_step {p : Params} {s s' : Sys} {a : Act} (h : Sys.step p s a = some s') {i : Nat}
    {n : Conn} (hn : s.conns[i]? = some n) (ht : torn n.pc = true) :
    ∃ n', s'.conns[i]? = some n' ∧ torn n'.pc = true := by
  have hset : ∀ {j : Nat} {m m' : Conn}, s.conns[j]? = some m →
      (torn m.pc = true → torn m'.pc = true) →
      ∃ n', (s.conns.set j m')[i]? = some n' ∧ torn n'.pc = true := by
    intro j m m' hm hkeep
    by_cases hj : j = i
    · subst hj
      rw [hn] at hm
      cases hm
      exact ⟨m', List.getElem?_set_self (List.getElem?_eq_some_iff.mp hn).1, hkeep ht⟩
    · exact ⟨n, (List.getElem?_set_ne hj).trans hn, ht⟩
  obtain ⟨-, he⟩ := Sys.step_effect h
  cases he with
  | crash _ c => exact ⟨n, hn, ht⟩
  | quiet _ _ conns queue held down log => exact ⟨n, by rw [conns, hn], ht⟩
  | accept junk _ conns queue workers down log =>
    refine ⟨n, ?_, ht⟩
    rw [conns, List.getElem?_append_left (List.getElem?_eq_some_iff.mp hn).1, hn]
  | arrive j m r sock conn => exact hset conn id
  | turn j m junk φ notified c sock did log conn pc handled =>
    obtain ⟨pc', hconns⟩ := afterTurn_conns s j { c with sock := sock } log did
    rw [hconns]
    exact hset conn (fun hm => by rw [pc] at hm; cases hm)
  | move j m junk φ notified sock pc conn moves =>
    refine hset conn (fun _ => ?_)
    rcases moves with ⟨-, rfl⟩ | ⟨k, -, -, rfl⟩ | ⟨-, -, rfl⟩ <;> rfl
  | backlog j m junk φ notified ref _ conn pc conns queue workers down log =>
    rw [conns]
    exact hset conn (fun hm => by rw [pc] at hm; cases hm)
  | push j m junk φ notified ref _ conn pc conns queue held down log =>
    rw [conns]
    exact hset conn (fun hm => by rw [pc] at hm; cases hm)
  | reset j m junk φ notified ref conn pc => exact hset conn (fun hm => by rw [pc] at hm; cases hm)
  | tear j m junk φ notified k c log conn pc lt tore => exact hset conn (fun _ => rfl)
  | clear j m junk φ notified k c log conn pc lt cleared => exact hset conn (fun _ => rfl)
  | erase j m junk φ notified k c log _ conn pc le destroyed conns queue workers down log_eq =>
    rw [conns]
    exact hset conn (fun _ => rfl)
  | pop w φ pc ref queue _ worker free queue_eq conns queue' workers down log =>
    exact ⟨n, by rw [conns, hn], ht⟩
  | work _ w ref r r' pc pc' got log worker request worked =>
    obtain ⟨m, hm, -⟩ := Sys.request?_eq_some.mp request
    rw [Sys.record_conns, Sys.setWorker_conns, Sys.setRequest_conns hm]
    exact hset hm id
  | decrement w φ ref m worker conn => exact hset conn id

/-- The slot was emptied for good, or it has its story. -/
def Told (s : Sys) (ref : Ref) : Prop :=
  (∃ n, s.conns[ref.conn]? = some n ∧ torn n.pc = true) ∧ s.request? ref = none ∨
    Story (marksOf s ref) (s.request? ref)

theorem story_of_some {s : Sys} {ref : Ref} {r : Request} (h : Told s ref)
    (hr : s.request? ref = some r) : Story (marksOf s ref) (some r) := by
  rcases h with ⟨-, hnone⟩ | hs
  · rw [hr] at hnone
    cases hnone
  · rw [hr] at hs
    exact hs

/-- A request that a worker holds was dispatched since it was accepted. -/
theorem held_story {s : Sys} (hi : Inv s) {ref : Ref} (ht : Told s ref) {w : Nat} {pc : WorkerPc}
    (hw : s.workers[w]? = some pc) (hpc : pc.request? = some ref) :
    ∃ r c, s.request? ref = some r ∧ r.state = .pending ∧ current (marksOf s ref) = some c ∧
      .dispatched ∈ c := by
  have hheld : ref ∈ refs s := by
    refine List.mem_append_right _ (List.mem_append_right _ ?_)
    exact List.mem_filterMap.mpr ⟨pc, List.mem_of_getElem? hw, hpc⟩
  obtain ⟨n, r, hn, -, hslot, hstate⟩ := hi.live hheld
  have hr := Sys.request?_eq_some.mpr ⟨n, hn, hslot⟩
  have hs := story_of_some ht hr
  unfold Story at hs
  simp only [hstate] at hs
  obtain ⟨c, hc, hd⟩ := hs
  exact ⟨r, c, hr, hstate, hc, hd⟩

/-- The parser is there only while the PARAMS stream is read. -/
theorem reading_state {s : Sys} {ref : Ref} {n : Conn} (hi : Inv s)
    (hn : s.conns[ref.conn]? = some n)
    (hpc : n.pc = .reading) {r : Request} (hr : s.request? ref = some r)
    (hp : r.paramsDeserializer.isSome = true) : r.state = .readingParams := by
  obtain ⟨m, hm, hslot⟩ := Sys.request?_eq_some.mp hr
  rw [hn] at hm
  cases hm
  have hparser := (hi.accounts _ n hn).parser _ r hslot
  rw [hpc] at hparser
  simpa [unreset?] using hparser.mp hp

theorem step_told {p : Params} {s s' : Sys} {a : Act} (hi : Inv s) (h : Sys.step p s a = some s')
    {ref : Ref} (ht : Told s ref) : Told s' ref := by
  cases step_slot h ref with
  | same request marks =>
    unfold Told
    rw [request, marks]
    rcases ht with ⟨⟨n, hn, hpc⟩, hnone⟩ | hs
    · exact Or.inl ⟨torn_step h hn hpc, hnone⟩
    · exact Or.inr hs
  | handled n junk φ notified r hd log act conn pc slot handles request marks =>
    have hs : Story (marksOf s ref) (some r) := by
      rcases slot with hr | ⟨hr, rfl⟩
      · exact story_of_some ht hr
      · rcases ht with ⟨⟨m, hm, hpc⟩, -⟩ | hs
        · rw [conn] at hm
          cases hm
          rw [pc] at hpc
          cases hpc
        · intro c hc
          rw [hr] at hs
          rw [show current (marksOf s ref) = none from hs] at hc
          cases hc
    refine Or.inr ?_
    rw [request, marks]
    refine story_handled hs (fun hp => ?_) handles
    rcases slot with hr | ⟨-, rfl⟩
    · exact reading_state hi conn pc hr hp
    · cases hp
  | reset n j r conn pc slot request marks =>
    have hs := story_of_some ht slot
    refine Or.inr ?_
    rw [request, marks]
    exact hs
  | destroyed n φ r log conn pc slot destroys request marks =>
    refine Or.inl ⟨torn_step h conn ?_, request⟩
    rcases pc with ⟨hpc, -⟩ | hpc <;> rw [hpc] <;> rfl
  | worked w r r' pc pc' got log worker workers slot works request marks =>
    obtain ⟨hpc, -, cin, cout, cerr, rfl⟩ := works.keeps
    obtain ⟨r₁, -, hr, hstate, -⟩ := held_story hi ht worker hpc
    rw [slot] at hr
    cases hr
    refine Or.inr ?_
    rw [request, marks]
    refine story_extend (story_of_some ht slot) rfl (accepted_not_mem_work log got)
      (dispatched_not_mem_work log got) ?_
    intro hread
    rw [hstate] at hread
    cases hread

theorem run_told {p : Params} {workers : Nat} {as : List Act} {s : Sys}
    (h : run (Sys.step p) (.init workers) as = some s) (ref : Ref) : Told s ref := by
  refine (run_invariant (I := fun s => Inv s ∧ Told s ref) ?_ ?_ h).2
  · exact ⟨init_inv workers, Or.inr rfl⟩
  · exact fun s a s' hi hs => ⟨step_inv hi.1 hs, step_told hi.1 hs hi.2⟩

/-- The END_REQUEST record of the current request of slot `ref` was sent and the
connection is not torn down; `c` is what happened since its BEGIN_REQUEST. -/
structure Ended (s : Sys) (ref : Ref) (n : Conn) (c : List Mark) : Prop where
  conn : s.conns[ref.conn]? = some n
  up : torn n.pc = false
  current : current (marksOf s ref) = some c
  ended : EndSent c

/-- **Reuse**, in every run and for any number of requests on the slot. -/
theorem reusable_iff {p : Params} {workers : Nat} {as : List Act} {s : Sys}
    (h : run (Sys.step p) (.init workers) as = some s) {ref : Ref} {n : Conn} {c : List Mark}
    (he : Ended s ref n c) : Reusable p n.connection (ref.slot + 1) ↔ .dispatched ∉ c := by
  obtain ⟨hn, hup, hc, hend⟩ := he
  rcases run_told h ref with ⟨⟨m, hm, ht⟩, -⟩ | hs
  · rw [hn] at hm
    cases hm
    rw [hup] at ht
    cases ht
  cases hr : s.request? ref with
  | none =>
    rw [hr] at hs
    rw [show current (marksOf s ref) = none from hs] at hc
    cases hc
  | some r =>
    obtain ⟨m, hm, hslot⟩ := Sys.request?_eq_some.mp hr
    rw [hn] at hm
    cases hm
    rw [hr] at hs
    unfold Story at hs
    cases hstate : r.state with
    | ready =>
      simp only [hstate] at hs
      exact ⟨fun _ => hs c hc, fun _ => reusable_of_ready p hslot hstate⟩
    | readingParams =>
      simp only [hstate] at hs
      obtain ⟨c', hc', -, hno⟩ := hs
      rw [hc] at hc'
      cases hc'
      exact absurd hend hno
    | pending =>
      simp only [hstate] at hs
      obtain ⟨c', hc', hd⟩ := hs
      rw [hc] at hc'
      cases hc'
      refine ⟨fun hre => ?_, fun hno => absurd hd hno⟩
      obtain ⟨x, hx, hready⟩ := hre.ready
      rw [Nat.add_sub_cancel, hslot] at hx
      cases hx
      rw [hstate] at hready
      cases hready
    | appRunning =>
      simp only [hstate] at hs

/-! ## Two ways for a request to end -/

/-- What `Ended` asks for, and the state of the slot. -/
def endedAs (state : State) (s : Sys) : Bool :=
  (s.conns[0]?).any (fun n => !torn n.pc) &&
    (current (marksOf s ⟨0, 0⟩)).any (fun c => c.any isEnd) &&
    (s.request? ⟨0, 0⟩).any fun r => r.state = state

theorem ended_of_endedAs {state : State} {s : Sys} (h : endedAs state s = true) :
    ∃ n c r, Ended s ⟨0, 0⟩ n c ∧ n.connection.requests[0]? = some (some r) ∧ r.state = state := by
  simp only [endedAs, Bool.and_eq_true, Option.any_eq_true, List.any_eq_true, Bool.not_eq_true',
    decide_eq_true_eq] at h
  obtain ⟨⟨⟨n, hn, hup⟩, c, hc, hend⟩, r, hr, hstate⟩ := h
  obtain ⟨m, hm, hslot⟩ := Sys.request?_eq_some.mp hr
  rw [hn] at hm
  cases hm
  exact ⟨n, c, r, ⟨hn, hup, hc, hend⟩, hslot, hstate⟩

/-- Two PARAMS records that make a name of more than 65535 bytes. -/
def fatParams : ReadResult :=
  .data 1 [4, 1, 0, 0, 8, 0, 0, 128, 1, 0, 0, 128, 0, 0, 0, 1, 4, 1, 0, 0, 1, 0, 0, 0]

def cancelledRun : List Act :=
  [.accept .zeros, .arrive 0 beginRecord, .arrive 0 fatParams] ++ connMoves 3

theorem reusable_iff_cancelledRun : ∃ s n c,
    run (Sys.step .standard) (.init 1) cancelledRun = some s ∧ Ended s ⟨0, 0⟩ n c ∧
      (Reusable .standard n.connection 1 ↔ .dispatched ∉ c) := by
  have hrun : (run (Sys.step .standard) (.init 1) cancelledRun).any (endedAs .ready) = true := by
    decide +kernel
  obtain ⟨s, hs, hended⟩ := (Option.any_eq_true _ _).mp hrun
  obtain ⟨n, c, r, he, -⟩ := ended_of_endedAs hended
  exact ⟨s, n, c, hs, he, reusable_iff hs he⟩

/-- A worker has ended the request, and the peer begins the next one. -/
def keptAlive : List Act :=
  served ++ [.arrive 0 beginRecord, .arrive 0 paramsEnd] ++ connMoves 2

/-- The second BEGIN_REQUEST record is read and not accepted. -/
theorem keptAlive_not_reusable : ∃ s n c,
    run (Sys.step .standard) (.init 1) keptAlive = some s ∧ Ended s ⟨0, 0⟩ n c ∧
      ¬ Reusable .standard n.connection 1 ∧
      (marksOf s ⟨0, 0⟩).count .accepted = 1 ∧ n.connection.sock.reads = [] := by
  have hrun : (run (Sys.step .standard) (.init 1) keptAlive).any (fun s => endedAs .pending s &&
      (decide ((marksOf s ⟨0, 0⟩).count .accepted = 1) &&
        (s.conns[0]?).any fun n => decide (n.connection.sock.reads = []))) = true := by
    decide +kernel
  obtain ⟨s, hs, hcheck⟩ := (Option.any_eq_true _ _).mp hrun
  simp only [Bool.and_eq_true, decide_eq_true_eq, Option.any_eq_true] at hcheck
  obtain ⟨hended, hcount, n', hn', hreads⟩ := hcheck
  obtain ⟨n, c, r, he, hslot, hstate⟩ := ended_of_endedAs hended
  obtain rfl : n' = n := Option.some.inj (hn'.symm.trans he.conn)
  refine ⟨s, n', c, hs, he, ?_, hcount, hreads⟩
  intro hre
  obtain ⟨x, hx, hready⟩ := hre.ready
  rw [Nat.sub_self, hslot] at hx
  cases hx
  rw [hstate] at hready
  cases hready

end Tfcgi.Reuse
