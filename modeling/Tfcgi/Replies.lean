import Tfcgi.OrderlyEnd

/-!
# No reply without a request

Whatever the sends do, a slot sends between an accepted BEGIN_REQUEST record and its
END_REQUEST record only.

* `run_bracketed`: this for every slot in every reachable state;
* `replies`: the same about one record.
-/

namespace Tfcgi.Replies

open Tfcgi.Run Tfcgi.Protocol Tfcgi.Socket Tfcgi.Iostream Tfcgi.RequestSlot
open Tfcgi.ConnectionThread Tfcgi.System Tfcgi.OutputStream Tfcgi.Accounting Tfcgi.History
open Tfcgi.Reuse Tfcgi.Owner Tfcgi.Streams Tfcgi.Ending Tfcgi.OrderlyEnd

/-- The request was handed to a worker or cancelled, or `pkt` only ends a stream. -/
def Due (c : List Mark) (pkt : Packet) : Prop :=
  .dispatched ∈ c ∨ .cancelled ∈ c ∨ pkt.body = []

/-- `pkt` answers the request whose marks are `before`. -/
def Answers (before : List Mark) (pkt : Packet) : Prop :=
  ∃ c, current before = some c ∧ ¬ EndSent c ∧ Due c pkt

/-- Each record of the slot that is about a request answers one. -/
def Bracketed (ms : List Mark) : Prop :=
  ∀ before pkt out after, ms = before ++ .did (.sent pkt out) :: after →
    pkt.recType ≠ RecType.unknownType → Answers before pkt

theorem Bracketed.more {ms new : List Mark} (h : Bracketed ms)
    (hnew : ∀ b pkt out a, new = b ++ .did (.sent pkt out) :: a →
      pkt.recType ≠ RecType.unknownType → Answers (ms ++ b) pkt) : Bracketed (ms ++ new) := by
  intro before pkt out after he ht
  rcases List.append_eq_append_iff.mp he with ⟨b, rfl, hb⟩ | ⟨b, rfl, hb⟩
  · exact hnew b pkt out after hb ht
  · cases b with
    | nil =>
      have hans := hnew [] pkt out after hb.symm ht
      rwa [List.append_nil, List.append_nil] at hans
    | cons m b =>
      rw [List.cons_append, List.cons.injEq] at hb
      obtain ⟨rfl, -⟩ := hb
      exact h before pkt out b rfl ht

/-- Nothing is sent, or records of another kind. -/
theorem Bracketed.quiet {ms new : List Mark} (h : Bracketed ms)
    (hno : ∀ pkt out, .did (.sent pkt out) ∈ new → pkt.recType = RecType.unknownType) :
    Bracketed (ms ++ new) := by
  refine h.more ?_
  intro b pkt out a he ht
  exact absurd (hno pkt out (by rw [he]; exact List.mem_append_right b List.mem_cons_self)) ht

/-- A request is begun and not ended before the last of the new marks. -/
theorem Bracketed.during {ms new c : List Mark} (h : Bracketed ms) (hc : current ms = some c)
    (hopen : ¬ EndSent c) (hacc : .accepted ∉ new) (hend : ¬ EndSent new.dropLast)
    (hdue : ∀ pkt out, .did (.sent pkt out) ∈ new → Due c pkt) : Bracketed (ms ++ new) := by
  refine h.more ?_
  rintro b pkt out a rfl ht
  have hb : .accepted ∉ b := fun hx => hacc (List.mem_append_left _ hx)
  refine ⟨c ++ b, by rw [current_append hb, hc]; rfl, ?_, ?_⟩
  · intro he
    rcases endSent_append he with he | ⟨m, hm, he⟩
    · exact hopen he
    · refine hend ⟨m, ?_, he⟩
      rw [List.dropLast_append_cons]
      exact List.mem_append_left _ hm
  · rcases hdue pkt out (List.mem_append_right b List.mem_cons_self) with hd | hd | hd
    · exact Or.inl (List.mem_append_left b hd)
    · exact Or.inr (Or.inl (List.mem_append_left b hd))
    · exact Or.inr (Or.inr hd)

theorem not_endSent_dropLast {new : List Mark} (h : ¬ EndSent new) : ¬ EndSent new.dropLast := by
  rintro ⟨m, hm, he⟩
  exact h ⟨m, List.dropLast_subset _ hm, he⟩

variable {p : Params} {s s' : Sys} {a : Act} {ref : Ref}

/-- A request whose parameters are read is begun, and not ended. -/
theorem reading_open (ht : Told s ref) {r : Request} (hr : s.request? ref = some r)
    (hstate : r.state = .readingParams) :
    ∃ c, current (marksOf s ref) = some c ∧ ¬ EndSent c := by
  have hstory := story_of_some ht hr
  unfold Story at hstory
  simp only [hstate] at hstory
  obtain ⟨c, hc, -, hopen⟩ := hstory
  exact ⟨c, hc, hopen⟩

theorem handled_bracketed (hs : Sound s ref) (hb : Bracketed (marksOf s ref)) {n : Conn}
    {junk : Junk} {φ : Fate} {r : Request} {hd : Handled} {log : List Event}
    (conn : s.conns[ref.conn]? = some n) (pc : n.pc = .reading)
    (slot : s.request? ref = some r ∨ s.request? ref = none ∧ r = .new p (ref.slot + 1) junk)
    (handles : Request.Handles p junk φ r (.ok hd, log)) :
    Bracketed (marksOf s ref ++ Sys.marks hd log) := by
  have htyped := slot_typed hs.streamed slot
  cases handles_receives handles with
  | accepts r' ready reading streams => exact hb.quiet (by simp [Sys.marks])
  | cancels r' _ did =>
    obtain ⟨⟨what, data, cerr, cout, es₁, es₂, out, hcerr, hcout, -, -, rfl⟩, hparser, -⟩ := did
    have hr : s.request? ref = some r := by
      rcases slot with hr | ⟨-, rfl⟩
      · exact hr
      · cases hparser
    obtain ⟨c, hc, hopen⟩ := reading_open hs.told hr (reading_state hs.inv conn pc hr hparser)
    have hcancelled : current (marksOf s ref ++ [.cancelled]) = some (c ++ [.cancelled]) := by
      rw [current_append (by simp), hc]
      rfl
    have hopen' : ¬ EndSent (c ++ [.cancelled]) := by
      intro he
      rcases endSent_append he with he | ⟨m, hm, he⟩
      · exact hopen he
      · cases List.mem_singleton.mp hm
        cases he
    have hquiet : Bracketed (marksOf s ref ++ [.cancelled]) := hb.quiet (by simp)
    have habout : ∀ e ∈ .fed .params data :: (es₁ ++ es₂), about e ≠ some .endRequest := by
      have hone := perform_about (p := p)
        [.write (ascii what), .write (ascii Request.raiseLimit), .close]
        (htyped .cerr) φ
      have htwo := close_about (htyped .cout) hcout
      rw [show stream r .cerr = r.cerr from rfl, hcerr] at hone
      intro e he
      rcases List.mem_cons.mp he with rfl | he
      · intro hx
        cases hx
      · rcases List.mem_append.mp he with he | he
        · rw [hone e he]
          exact fun hx => typeOf_ne_end .cerr (Option.some.inj hx)
        · rw [htwo e he]
          exact fun hx => typeOf_ne_end .cout (Option.some.inj hx)
    have hlog : .fed .params data :: (es₁ ++ (es₂ ++ [.sent (r.cancelPacket p) out])) =
        (.fed .params data :: (es₁ ++ es₂)) ++ [Event.sent (r.cancelPacket p) out] := by simp
    have hmarks : marksOf s ref ++ Sys.marks (.cancelled r') (.fed .params data ::
        (es₁ ++ (es₂ ++ [.sent (r.cancelPacket p) out]))) =
        (marksOf s ref ++ [.cancelled]) ++ ((.fed .params data :: (es₁ ++ es₂)).map Mark.did ++
          [.did (.sent (r.cancelPacket p) out)]) := by
      rw [hlog]
      simp [Sys.marks]
    rw [hmarks]
    refine hquiet.during hcancelled hopen' (by simp) ?_ ?_
    · rw [List.dropLast_concat]
      exact not_endSent_about habout
    · exact fun _ _ _ => Or.inr (Or.inl (List.mem_append_right c (List.mem_singleton.mpr rfl)))
  | keeps _ _ streams about idle =>
    have hquiet : ∀ pkt out, .did (.sent pkt out) ∈ log.map Mark.did →
        pkt.recType = RecType.unknownType := by
      intro pkt out hm
      obtain ⟨e, he, hx⟩ := List.mem_map.mp hm
      cases hx
      rcases about _ he with hx | hx
      · cases hx
      · exact Option.some.inj hx
    rcases idle with ⟨r', rfl, -⟩ | ⟨r', rfl, -, -⟩
    · exact hb.quiet hquiet
    · refine hb.quiet ?_
      intro pkt out hm
      rcases List.mem_cons.mp hm with hm | hm
      · cases hm
      · exact hquiet pkt out hm

/-- The destruction of a request with empty buffers sends no data. -/
theorem destroy_empty {r : Request} (hp : ∀ i, (stream r i).internal.pending = []) {φ : Fate}
    {log : List Event} (h : r.destroy p φ = (.ok (), log)) :
    ∀ pkt out, .sent pkt out ∈ log → pkt.body = [] := by
  obtain ⟨u, es₁, es₂, h₁, h₂, rfl⟩ := Tx.bind_eq_ok h
  have hbody : ∀ {b : Ostreambuf} {es : List Event},
      es = [] ∨ b.sendEof = true ∧ (∃ out, es = [.sent (b.packet p []) out]) →
      ∀ pkt out, .sent pkt out ∈ es → pkt.body = [] := by
    rintro b es (rfl | ⟨-, out', rfl⟩) pkt out hm
    · cases hm
    · cases List.mem_singleton.mp hm
      rfl
  intro pkt out hm
  rcases List.mem_append.mp hm with hm | hm
  · exact hbody (buffer_destroy (hp .cerr) h₁) pkt out hm
  · exact hbody (buffer_destroy (hp .cout) h₂) pkt out hm

/-- A request that is destroyed is not dispatched. -/
theorem destroyed_unowned (hi : Inv s) {n : Conn} {r : Request}
    (conn : s.conns[ref.conn]? = some n) (pc : n.pc = .tearingDown ref.slot ∧
      (r.state = .readingParams ∨ r.state = .ready) ∨ n.pc = .clearing ref.slot)
    (slot : s.request? ref = some r) : ref ∉ refs s := by
  intro hin
  obtain ⟨m, r₁, hm, hl, hslot, hstate⟩ := hi.live hin
  have hr₁ := Sys.request?_eq_some.mpr ⟨m, hm, hslot⟩
  rw [slot] at hr₁
  cases hr₁
  rw [conn] at hm
  cases hm
  rcases pc with ⟨-, hx⟩ | hpc
  · rw [hstate] at hx
    rcases hx with hx | hx <;> cases hx
  · rw [hpc] at hl
    cases hl

/-- A request that is destroyed while its parameters are read ends its streams. -/
theorem destroyed_bracketed (hs : Sound s ref) (hb : Bracketed (marksOf s ref)) {n : Conn}
    {φ : Fate} {r : Request} {log : List Event} (conn : s.conns[ref.conn]? = some n)
    (pc : n.pc = .tearingDown ref.slot ∧ (r.state = .readingParams ∨ r.state = .ready) ∨
      n.pc = .clearing ref.slot) (slot : s.request? ref = some r)
    (destroys : r.destroy p φ = (.ok (), log)) : Bracketed (marksOf s ref ++ log.map .did) := by
  have htyped := hs.streamed.typed r slot
  have hempty := destroyed_pending hs.inv hs.streamed conn pc slot
  obtain ⟨habout, hquiet⟩ := destroy_log htyped hempty destroys
  have hsilent : log = [] → Bracketed (marksOf s ref ++ log.map .did) := by
    rintro rfl
    rw [List.map_nil, List.append_nil]
    exact hb
  cases hstate : r.state with
  | ready => exact hsilent (hquiet (hs.streamed.ready r slot hstate))
  | pending =>
    have hunowned := destroyed_unowned hs.inv conn pc slot
    have hclosed := hs.streamed.closed r slot hstate (Or.inr (Or.inr hunowned))
    exact hsilent (hquiet fun i => (htyped i).quiet (hclosed i))
  | readingParams =>
    obtain ⟨c, hc, hopen⟩ := reading_open hs.told slot hstate
    refine hb.during hc hopen (accepted_not_mem_did log) ?_ ?_
    · apply not_endSent_dropLast
      apply not_endSent_about
      intro e he ha
      obtain ⟨i, hi⟩ := habout e he
      rw [hi] at ha
      exact typeOf_ne_end i (Option.some.inj ha)
    · intro pkt out hm
      obtain ⟨e, he, hx⟩ := List.mem_map.mp hm
      cases hx
      exact Or.inr (Or.inr (destroy_empty hempty destroys pkt out he))
  | appRunning =>
    have hstory := story_of_some hs.told slot
    simp only [Story, hstate] at hstory

theorem worked_bracketed (hs : Sound s ref) (hb : Bracketed (marksOf s ref)) {w : Nat}
    {r r' : Request} {pc pc' : WorkerPc} {got : Option Int} {log : List Event}
    (worker : s.workers[w]? = some pc) (slot : s.request? ref = some r)
    (works : Sys.Worked p w ref r a pc r' pc' got log) :
    Bracketed (marksOf s ref ++ (log.map .did ++ (got.map .got).toList)) := by
  have hheld := works.keeps.1
  obtain ⟨-, c, -, -, hc, hdispatched⟩ := held_story hs.inv hs.told worker hheld
  have hrefs : ref ∈ refs s := List.mem_append_right _ (List.mem_append_right _
    (List.mem_filterMap.mpr ⟨pc, List.mem_of_getElem? worker, hheld⟩))
  have hopen : ¬ EndSent c := by
    intro he
    have hdecr := hs.streamed.once hrefs ⟨c, hc, he⟩
    have hpc := held_unique hs.inv (List.mem_of_getElem? worker) hdecr hheld rfl
    subst hpc
    cases works
  have hdue : ∀ pkt out, .did (.sent pkt out) ∈ log.map Mark.did ++ (got.map .got).toList →
      Due c pkt :=
    fun _ _ _ => Or.inl hdispatched
  refine hb.during hc hopen (accepted_not_mem_work log got) ?_ hdue
  obtain ⟨φ, -, hm⟩ := worked_moves works
  rcases hm.about (hs.streamed.typed r slot) with habout | ⟨body, out, rfl, rfl, rfl, rfl⟩
  · exact not_endSent_dropLast (not_endSent_work got habout)
  · cases works
    rintro ⟨m, hm, -⟩
    cases hm

theorem step_bracketed (hs : Sound s ref) (hb : Bracketed (marksOf s ref))
    (h : Sys.step p s a = some s') : Bracketed (marksOf s' ref) := by
  cases step_slot h ref with
  | same request marks =>
    rw [marks]
    exact hb
  | handled n junk φ notified r hd log act conn pc slot handles request marks pushes =>
    rw [marks]
    exact handled_bracketed hs hb conn pc slot handles
  | reset n j r conn pc slot request marks =>
    rw [marks]
    exact hb
  | destroyed n φ r log conn pc slot destroys request marks =>
    rw [marks]
    exact destroyed_bracketed hs hb conn pc slot destroys
  | worked w r r' pc pc' got log worker workers slot works request marks =>
    rw [marks]
    exact worked_bracketed hs hb worker slot works

theorem run_bracketed {workers : Nat} {as : List Act}
    (h : run (Sys.step p) (.init workers) as = some s) (ref : Ref) : Bracketed (marksOf s ref) := by
  have hinit : Bracketed (marksOf (.init workers) ref) := by
    intro before pkt out after he
    exact absurd he.symm (List.append_ne_nil_of_right_ne_nil _ (List.cons_ne_nil _ _))
  have hall := run_invariant (I := fun s => Sound s ref ∧ Bracketed (marksOf s ref))
    ⟨init_sound workers ref, hinit⟩
    (fun s a s' hI hs => ⟨hI.1.step hs, step_bracketed hI.1 hI.2 hs⟩) h
  exact hall.2

/-- **No reply without a request.** In every run, whatever becomes of the sends, a STDOUT,
STDERR or END_REQUEST record is sent for a slot only between an accepted BEGIN_REQUEST record
and the END_REQUEST record; with data, or to end the request, only after the request was
dispatched or cancelled. -/
theorem replies {workers : Nat} {as : List Act}
    (h : run (Sys.step p) (.init workers) as = some s) {before after : List Mark} {pkt : Packet}
    {out : SendPacket.SendOutcome} (hm : marksOf s ref = before ++ .did (.sent pkt out) :: after)
    (ht : pkt.recType ≠ RecType.unknownType) :
    ∃ before' c, before = before' ++ .accepted :: c ∧ .accepted ∉ c ∧
      (∀ m ∈ c, isEnd m = false) ∧ (.dispatched ∈ c ∨ .cancelled ∈ c ∨ pkt.body = []) := by
  obtain ⟨c, hc, hopen, hdue⟩ := run_bracketed h ref before pkt out after hm ht
  obtain ⟨before', hsplit, hacc⟩ := current_split hc
  refine ⟨before', c, hsplit, hacc, ?_, hdue⟩
  intro m hm'
  cases he : isEnd m with
  | false => rfl
  | true => exact absurd ⟨m, hm', he⟩ hopen

theorem replies_thrown : ∃ s before pkt out before' c,
    run (Sys.step .standard) (.init 1) thrown = some s ∧
    marksOf s ⟨0, 0⟩ = before ++ [.did (.sent pkt out)] ∧ pkt.recType = RecType.endRequest ∧
      before = before' ++ .accepted :: c ∧ ∀ m ∈ c, isEnd m = false := by
  have hrun : (run (Sys.step .standard) (.init 1) thrown).any (fun s =>
      (marksOf s ⟨0, 0⟩).getLast?.any isEnd) = true := by decide +kernel
  obtain ⟨s, hs, hlast⟩ := (Option.any_eq_true _ _).mp hrun
  obtain ⟨m, hm, hend⟩ := (Option.any_eq_true _ _).mp hlast
  have hsplit := (List.dropLast_append_getLast? m hm).symm
  unfold isEnd at hend
  split at hend
  · rename_i pkt out
    have htype : pkt.recType = RecType.endRequest := of_decide_eq_true hend
    obtain ⟨before', c, hbefore, -, hopen, -⟩ := replies hs hsplit (by rw [htype]; exact nofun)
    exact ⟨s, _, pkt, out, before', c, hs, hsplit, htype, hbefore, hopen⟩
  · cases hend

end Tfcgi.Replies
