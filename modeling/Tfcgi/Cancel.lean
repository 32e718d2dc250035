import Tfcgi.EndRecord
import Tfcgi.OrderlyEnd

/-!
# The oversized parameter

A PARAMS record on which the parser throws `pair_size_error` cancels its request.

* `cancel_sends`: what the handler of the exception sends;
* `cancelled_alone`: in every run it cancels its own request and nothing else, and
  what still comes for that request is ignored up to the next BEGIN_REQUEST.
-/

namespace Tfcgi.Cancel

open Tfcgi.Run Tfcgi.HostOrder Tfcgi.Protocol Tfcgi.NameValuePairs Tfcgi.Socket Tfcgi.Iostream
open Tfcgi.RequestSlot Tfcgi.ConnectionThread Tfcgi.System Tfcgi.OutputStream
open Tfcgi.Accounting Tfcgi.History Tfcgi.Reuse Tfcgi.Owner Tfcgi.Streams Tfcgi.Ending
open Tfcgi.OrderlyEnd Tfcgi.EndRecord

variable {p : Params} {s s' : Sys} {a : Act} {ref : Ref}

/-! ## The streams while parameters are read -/

/-- An open stream to which nothing was written, and which will be ended. -/
structure Unused (i : Stream) (o : Ostream) : Prop where
  isOpen : IsOpen o
  type : o.internal.pktType = typeOf i
  eof : o.internal.sendEof = true
  empty : o.internal.pending = []

/-- BEGIN_REQUEST has opened the streams. -/
def Opened (r : Request) : Prop :=
  r.state = .readingParams → ∀ i, (stream r i).good = true ∧ (stream r i).internal.sendEof = true

theorem receives_opened {φ : Fate} {r : Request} {h : Handled} {log : List Event}
    (hr : Opened r) (hh : Receives p φ r h log) : Opened h.request := by
  intro hreading i
  cases hh with
  | accepts r' ready reading streams =>
    rw [Handled.request, streams i]
    exact ⟨rfl, rfl⟩
  | cancels r' _ did =>
    rw [Handled.request, did.ready] at hreading
    cases hreading
  | keeps _ _ streams about idle =>
    rw [streams i]
    rcases idle with ⟨r', rfl, hstate⟩ | ⟨r', rfl, hstate, -⟩
    · exact hr (hstate ▸ hreading) i
    · rw [Handled.request, hstate] at hreading
      cases hreading

theorem step_opened (hs : Sound s ref) (ho : ∀ r, s.request? ref = some r → Opened r)
    (h : Sys.step p s a = some s') : ∀ r, s'.request? ref = some r → Opened r := by
  intro r' hr'
  cases step_slot h ref with
  | same request marks => exact ho r' (request ▸ hr')
  | handled n junk φ notified r hd log act conn pc slot handles request marks pushes =>
    rw [request] at hr'
    cases hr'
    refine receives_opened ?_ (handles_receives handles)
    rcases slot with hr | ⟨-, rfl⟩
    · exact ho r hr
    · intro hreading
      cases hreading
  | reset n j r conn pc slot request marks =>
    rw [request] at hr'
    cases hr'
    intro hreading i
    have hi := ho r slot hreading i
    cases i <;> exact hi
  | destroyed n φ r log conn pc slot destroys request marks =>
    rw [request] at hr'
    cases hr'
  | worked w r r₁ pc pc' got log worker workers slot works request marks =>
    rw [request] at hr'
    cases hr'
    obtain ⟨hpc, -, cin, cout, cerr, rfl⟩ := works.keeps
    obtain ⟨r₁, -, hr, hstate, -⟩ := held_story hs.inv hs.told worker hpc
    rw [slot] at hr
    cases hr
    intro hreading
    rw [show r.state = _ from hreading] at hstate
    cases hstate

theorem run_opened {workers : Nat} {as : List Act}
    (h : run (Sys.step p) (.init workers) as = some s) (ref : Ref) :
    Sound s ref ∧ ∀ r, s.request? ref = some r → Opened r := by
  refine run_invariant (I := fun s => Sound s ref ∧ ∀ r, s.request? ref = some r → Opened r) ?_ ?_ h
  · exact ⟨init_sound workers ref, fun r hr => by cases hr⟩
  · rintro s a s' ⟨hs, ho⟩ hstep
    exact ⟨hs.step hstep, step_opened hs ho hstep⟩

theorem reading_unused (hs : Sound s ref) (ho : ∀ r, s.request? ref = some r → Opened r)
    {r : Request} (hr : s.request? ref = some r) (hreading : r.state = .readingParams)
    (i : Stream) :
    Unused i (stream r i) := by
  have htyped := hs.streamed.typed r hr i
  have hidle := hs.streamed.idle r hr (by rw [hreading]; exact State.noConfusion) i
  obtain ⟨hgood, heof⟩ := ho r hr hreading i
  exact ⟨⟨hgood, htyped.sound.room⟩, htyped.type, heof, hidle⟩

/-! ## What is sent -/

/-- The records that tell the peer of the request `requestId` about the error:
the message on the error stream, the ends of both streams and END_REQUEST. -/
structure Complaint (requestId : Nat) (message : List Byte) (pkts : List Packet) : Prop where
  split : ∃ data e o q, pkts = data ++ [e, o, q] ∧
    (∀ pkt ∈ data, pkt.recType = .stderr ∧ pkt.body ≠ []) ∧ data.flatMap Packet.body = message ∧
    e.recType = .stderr ∧ e.body = [] ∧ o.recType = .stdout ∧ o.body = [] ∧
    q.recType = .endRequest ∧ q.header.requestId.be = requestId

/-- `close()` on an open stream that still has to be ended. -/
theorem close_ends {i : Stream} {o : Ostream} (ho : IsOpen o)
    (htype : o.internal.pktType = typeOf i) (heof : o.internal.sendEof = true) :
    ∃ es data e, o.close p Fate.sent = (.ok (o.closed p), es) ∧ packets es = data ++ [e] ∧
      (∀ pkt ∈ data, pkt.recType = typeOf i ∧ pkt.body ≠ []) ∧
      data.flatMap Packet.body = o.internal.pending ∧ e.recType = typeOf i ∧ e.body = [] := by
  obtain ⟨es, data, hclose, hpackets, hdata, hbytes⟩ := close_flows p ho
  rw [heof, Bool.true_or] at hpackets
  refine ⟨es, data, o.internal.packet p [], hclose, hpackets, ?_, hbytes, htype, rfl⟩
  intro pkt hpkt
  obtain ⟨d, rfl, hne, -⟩ := hdata pkt hpkt
  exact ⟨htype, hne⟩

theorem Unused.close {i : Stream} {o : Ostream} (ho : Unused i o) :
    ∃ es e, o.close p Fate.sent = (.ok (o.closed p), es) ∧ packets es = [e] ∧
      e.recType = typeOf i ∧ e.body = [] := by
  obtain ⟨es, data, e, hclose, hpackets, hdata, hbytes, htype, hbody⟩ :=
    close_ends (p := p) ho.isOpen ho.type ho.eof
  have hnil : data = [] := by
    cases data with
    | nil => rfl
    | cons pkt data =>
      rw [ho.empty, List.flatMap_cons, List.append_eq_nil_iff] at hbytes
      exact absurd hbytes.1 (hdata pkt List.mem_cons_self).2
  rw [hnil, List.nil_append] at hpackets
  exact ⟨es, e, hclose, hpackets, htype, hbody⟩

/-- What the handler of `pair_size_error` sends. -/
theorem cancel_sends {r : Request} (hr : ∀ i, Unused i (stream r i)) (hid : r.requestId < 65536)
    (what : String) :
    ∃ cerr cout log, r.cancel p what Fate.sent = (.ok (.cancelled { r with
        cerr := cerr, cout := cout, paramsDeserializer := none, state := .ready }), log) ∧
      Complaint r.requestId (ascii what ++ ascii Request.raiseLimit) (packets log) := by
  have hcerr : Unused .cerr r.cerr := hr .cerr
  obtain ⟨o₁, es₁, h₁, hf₁⟩ := write_flows p hcerr.isOpen (ascii what)
  obtain ⟨o₂, es₂, h₂, hf₂⟩ := write_flows p hf₁.isOpen (ascii Request.raiseLimit)
  have hflow := hf₁.trans hf₂
  have htype : o₂.internal.pktType = .stderr := by
    rw [Ostreambuf.pktType, hflow.header]
    exact hcerr.type
  have heof : o₂.internal.sendEof = true := by
    rw [hflow.eof, hcerr.eof, Bool.true_or]
  obtain ⟨es₃, data, e, h₃, hpackets, hdata, hbytes, hetype, hebody⟩ :=
    close_ends (i := .cerr) (p := p) hf₂.isOpen htype heof
  have hcout : Unused .cout r.cout := hr .cout
  obtain ⟨es₄, o, h₄, hopackets, hotype, hobody⟩ := hcout.close (p := p)
  have h₅ : Request.sendOrThrow (r.cancelPacket p) Fate.sent =
      (.ok (), [.sent (r.cancelPacket p) .sent]) := rfl
  refine ⟨o₂.closed p, r.cout.closed p,
    (.wrote r.cerr.internal.pktType (ascii what) :: es₁) ++
      ((.wrote o₁.internal.pktType (ascii Request.raiseLimit) :: es₂) ++
        (es₃ ++ (es₄ ++ [.sent (r.cancelPacket p) .sent]))), ?_, ?_⟩
  · unfold Request.cancel
    rw [Tx.bind_sent h₁, Tx.bind_sent h₂, Tx.bind_sent h₃, Tx.bind_sent h₄, Tx.bind_sent h₅]
    rfl
  · refine ⟨packets es₁ ++ packets es₂ ++ data, e, o, r.cancelPacket p, ?_, ?_, ?_, hetype, hebody,
      hotype, hobody, rfl, ?_⟩
    · simp [hpackets, hopackets]
    · intro pkt hpkt
      rcases List.mem_append.mp hpkt with hpkt | hpkt
      · rw [← packets_append] at hpkt
        obtain ⟨d, rfl, hne, -⟩ := hflow.records pkt hpkt
        exact ⟨hcerr.type, hne⟩
      · exact hdata pkt hpkt
    · have hall := hflow.flow
      rw [hcerr.empty, List.nil_append] at hall
      rw [List.flatMap_append, hbytes, ← packets_append, hall]
    · exact (be_store_ntohs p.host r.requestId).trans (Nat.mod_eq_of_lt hid)

/-! ## The record that a step handles -/

/-- The connection thread is about to handle the record `k` for the slot `ref`. -/
structure Incoming (p : Params) (junk : Junk) (s : Sys) (ref : Ref) (n : Conn) (k : Ipacket)
    (sock : Sock) : Prop where
  conn : s.conns[ref.conn]? = some n
  pc : n.pc = .reading
  sane : n.connection.sock.insane = true
  next : Connection.Next p junk n.connection k sock
  id : Connection.idOf p k = ref.slot + 1

section
variable {junk : Junk} {n : Conn} {k : Ipacket} {sock sock' : Sock} {φ : Fate} {h : Handled}
  {log : List Event} {notified : Option Nat}

theorem turn_request {c : Connection} {tx : Tx Handled} {k' : Option Ipacket}
    (hn : Connection.Next p junk c k sock) (hid : Connection.idOf p k ≠ 0)
    (hh : (c.slot p junk (Connection.idOf p k)).handlePacket p junk k sock = .ok (tx, k') sock')
    (htx : tx φ = (.ok h, log)) :
    c.turn p junk φ = .blocked ∨ ∃ sock, c.turn p junk φ = .handled k.header
      { c.settle (Connection.idOf p k) h with sock := sock }
        (some (Connection.idOf p k - 1, h)) log := by
  have hd : c.dispatch p junk (k.header.requestId.load p.host) k sock = .ok ((do
      let h ← tx
      return (c.settle (Connection.idOf p k) h, some (Connection.idOf p k - 1, h))), k') sock' := by
    unfold Connection.dispatch
    rw [if_pos (show k.header.requestId.load p.host ≠ 0 from hid)]
    exact Rd.bind_ok hh
  unfold Connection.turn
  simp only [hn.1, hn.2, if_true, hd]
  unfold Connection.finish
  rw [Tx.bind_ok htx]
  simp only [Tx.pure_apply, List.append_nil]
  cases hdrop : Connection.drop k' sock' with
  | blocked => exact Or.inl rfl
  | throws e => exact absurd hdrop (Connection.drop_ne_throws k' sock' e)
  | ok u sock => exact Or.inr ⟨sock, rfl⟩

theorem Incoming.slot (hin : Incoming p junk s ref n k sock) {r : Request}
    (hr : s.request? ref = some r) : n.connection.slot p junk (Connection.idOf p k) = r := by
  rw [hin.id]
  exact slot_same hr (slot_request p junk hin.conn (Nat.succ_ne_zero ref.slot))

theorem Incoming.step (hin : Incoming p junk s ref n k sock) {r : Request} {tx : Tx Handled}
    {k' : Option Ipacket} (hr : s.request? ref = some r)
    (hh : r.handlePacket p junk k sock = .ok (tx, k') sock') (htx : tx φ = (.ok h, log))
    (hs : Sys.step p s (.conn ref.conn junk φ notified) = some s') :
    ∃ sock, s' = s.afterTurn ref.conn { n.connection.settle (ref.slot + 1) h with sock := sock } log
      (some (ref.slot, h)) := by
  rw [← hin.slot hr] at hh
  have hid : Connection.idOf p k ≠ 0 := by
    rw [hin.id]
    exact Nat.succ_ne_zero ref.slot
  unfold Sys.step at hs
  split at hs
  · cases hs
  · simp only [hin.conn, Sys.connStep, hin.pc, Sys.reading, hin.sane, if_true] at hs
    rcases turn_request hin.next hid hh htx with hturn | ⟨sock, hturn⟩
    · rw [hturn] at hs
      cases hs
    · rw [hturn, hin.id] at hs
      cases hs
      exact ⟨sock, rfl⟩

/-! ## The step that cancels -/

theorem handlePacket_params {r : Request} {d : Deserializer} {data : List Byte}
    (htype : k.header.recType = .params) (hd : r.paramsDeserializer = some d)
    (hdata : Request.takeContent k sock = .ok data sock') :
    r.handlePacket p junk k sock = .ok (r.feedParams p d data, none) sock' := by
  simp only [Request.handlePacket, htype, hd]
  exact Rd.bind_ok hdata

/-- The step from `s` to `s'` cancelled the request `ref` of the connection `n`, and
did nothing else. -/
structure Cancelled (s s' : Sys) (ref : Ref) (n : Conn) (message : List Byte) : Prop where
  step : ∃ n' ms, s' = { s with
      conns := s.conns.set ref.conn n'
      log := s.log ++ ms.map fun m => (ref, m) } ∧
    n'.pc = .reading ∧ n.connection.requestActives = n'.connection.requestActives + 1 ∧
    Complaint (ref.slot + 1) message (packets (events ms))
  ready : ∃ r, s'.request? ref = some r ∧ r.state = .ready ∧ r.paramsDeserializer = none
  others : ∀ x, x ≠ ref → s'.request? x = s.request? x

theorem reading_active (hi : Inv s) (hin : Incoming p junk s ref n k sock) {r : Request}
    (hr : s.request? ref = some r) (hreading : r.state = .readingParams) :
    n.connection.requestActives ≠ 0 := by
  have hcount := hi.accounted.counts ref.conn n hin.conn hin.pc
  obtain ⟨n', hn', hslot⟩ := Sys.request?_eq_some.mp hr
  rw [hin.conn] at hn'
  cases hn'
  have hpos : 0 < n.connection.requests.countP isReading := by
    refine List.countP_pos_iff.mpr ⟨some r, List.mem_of_getElem? hslot, ?_⟩
    exact decide_eq_true hreading
  omega

theorem step_cancelled (hs : Sound s ref) (ho : ∀ r, s.request? ref = some r → Opened r)
    (hnum : Numbered s ref) (hin : Incoming p junk s ref n k sock)
    (htype : k.header.recType = .params)
    {r : Request} (hr : s.request? ref = some r) (hreading : r.state = .readingParams)
    {d : Deserializer} (hd : r.paramsDeserializer = some d) {data : List Byte}
    (hdata : Request.takeContent k sock = .ok data sock') {what : String}
    (hthrows : (d.feed p data).outcome = .throws what)
    (hstep : Sys.step p s (.conn ref.conn junk Fate.sent notified) = some s') :
    Cancelled s s' ref n (ascii what ++ ascii Request.raiseLimit) := by
  let r₁ : Request := { r with params := r.params.newKeys (d.feed p data).calls }
  have hunused : ∀ i, Unused i (stream r₁ i) := by
    intro i
    have hi := reading_unused hs ho hr hreading i
    cases i <;> exact hi
  have hid : r.requestId < 65536 := requestId_lt hs.inv hnum hr
  obtain ⟨cerr, cout, log, hcancel, hcomplaint⟩ := cancel_sends (p := p) (r := r₁) hunused hid what
  let r₂ : Request :=
    { r₁ with cerr := cerr, cout := cout, paramsDeserializer := none, state := .ready }
  have htx : r.feedParams p d data Fate.sent =
      (.ok (.cancelled r₂), .fed .params data :: log) := by
    unfold Request.feedParams
    rw [Tx.bind_quiet (rfl : Tx.note (.fed .params data) Fate.sent = _) rfl]
    simp only [hthrows]
    rw [show Request.cancel p _ what Fate.sent = _ from hcancel]
    rfl
  obtain ⟨sock, hs'⟩ := hin.step hr (handlePacket_params htype hd hdata) htx hstep
  have hconns : s'.conns = s.conns.set ref.conn
      ⟨{ n.connection.settle (ref.slot + 1) (.cancelled r₂) with sock := sock }, .reading⟩ := by
    rw [hs']
    rfl
  have hactive := reading_active hs.inv hin hr hreading
  obtain ⟨hself, hother⟩ := request?_settle hin.conn hconns (Nat.succ_ne_zero ref.slot) rfl
  refine ⟨⟨_, _, hs', rfl, ?_, ?_⟩, ⟨r₂, hself, rfl, rfl⟩, hother⟩
  · obtain ⟨m, hm⟩ := Nat.exists_eq_succ_of_ne_zero hactive
    simp only [Connection.settle, hm, decr_succ]
  · rw [show r₁.requestId = ref.slot + 1 from hnum r hr] at hcomplaint
    rw [show events (Sys.marks (.cancelled _) _) = events ((Event.fed .params data :: log).map .did)
      from rfl, events_did]
    exact hcomplaint

end

/-! ## Up to the next BEGIN_REQUEST -/

/-- The slot is READY and has no parser, or its connection goes away. -/
def Deaf (s : Sys) (ref : Ref) : Prop :=
  (∃ r, s.request? ref = some r ∧ r.state = .ready ∧ r.paramsDeserializer = none) ∨
    ∃ n, s.conns[ref.conn]? = some n ∧ torn n.pc = true

theorem step_deaf (hs : Sound s ref) (hd : Deaf s ref) (h : Sys.step p s a = some s')
    {ms : List Mark} (hms : marksOf s' ref = marksOf s ref ++ ms) (hacc : .accepted ∉ ms) :
    Deaf s' ref := by
  rcases hd with ⟨r, hr, hready, hnone⟩ | ⟨n, hn, ht⟩
  · cases step_slot h ref with
    | same request marks => exact Or.inl ⟨r, request.trans hr, hready, hnone⟩
    | handled n junk φ notified r₀ hd log act conn pc slot handles request marks pushes =>
      obtain rfl := slot_same hr slot
      have hparser : ¬ r₀.paramsDeserializer.isSome = true := by
        rw [hnone]
        exact Bool.noConfusion
      cases handles.shifts with
      | idle r' state parser =>
        rw [← parser, Option.not_isSome_iff_eq_none] at hparser
        exact Or.inl ⟨r', request, state.trans hready, hparser⟩
      | accepted r' ready state parser =>
        rw [hms, List.append_cancel_left_eq] at marks
        exact absurd (marks ▸ List.mem_cons_self) hacc
      | cancelled r' reading state parser | push r' reading state parser =>
        exact absurd reading hparser
    | reset n j r₀ conn pc slot request marks =>
      rw [hr] at slot
      cases slot
      exact Or.inl ⟨_, request, hready, rfl⟩
    | destroyed n φ r₀ log conn pc slot destroys request marks =>
      refine Or.inr (torn_step h conn ?_)
      rcases pc with ⟨hpc, -⟩ | hpc <;> rw [hpc] <;> rfl
    | worked w r₀ r₁ pc pc' got log worker workers slot works request marks =>
      obtain ⟨r₂, -, hr₂, hstate, -⟩ := held_story hs.inv hs.told worker works.keeps.1
      rw [hr] at hr₂
      cases hr₂
      rw [hready] at hstate
      cases hstate
  · exact Or.inr (torn_step h hn ht)

theorem run_deaf {bs : List Act} (hs : Sound s ref) (hd : Deaf s ref)
    (h : run (Sys.step p) s bs = some s') {ms : List Mark}
    (hms : marksOf s' ref = marksOf s ref ++ ms) (hacc : .accepted ∉ ms) : Deaf s' ref := by
  induction bs generalizing s ms with
  | nil =>
    cases h
    exact hd
  | cons b bs ih =>
    obtain ⟨s₁, hstep, hrun⟩ := run_cons h
    obtain ⟨ms₁, hms₁⟩ := step_marks hstep ref
    obtain ⟨ms₂, hms₂⟩ := run_marks hrun ref
    rw [hms₂, hms₁, List.append_assoc, List.append_cancel_left_eq] at hms
    subst hms
    rw [List.mem_append, not_or] at hacc
    exact ih (hs.step hstep) (step_deaf hs hd hstep hms₁ hacc.1) hrun hms₂ hacc.2

/-- PARAMS, STDIN and DATA. -/
def isInput : RecType → Bool
  | .params => true
  | .stdin => true
  | .data => true
  | _ => false

theorem settle_idle {c : Connection} {i : Nat} {r : Request} (h : c.requests[i]? = some (some r)) :
    c.settle (i + 1) (.idle r) = c := by
  have hlt := (List.getElem?_eq_some_iff.mp h).1
  have hgrow : Connection.grow (i + 1) c.requests = c.requests := by
    rw [Connection.grow, Nat.sub_eq_zero_of_le hlt]
    exact List.append_nil _
  have hset : c.requests.set i (some r) = c.requests := by
    apply List.ext_getElem?
    intro j
    by_cases hj : i = j
    · subst hj
      rw [List.getElem?_set_self hlt, h]
    · rw [List.getElem?_set_ne hj]
  simp only [Connection.settle, hgrow, Nat.add_sub_cancel, hset]

theorem handlePacket_deaf {junk : Junk} {r : Request} {k : Ipacket} {sock : Sock}
    (hready : r.state = .ready) (hnone : r.paramsDeserializer = none)
    (htype : isInput k.header.recType = true) :
    r.handlePacket p junk k sock = .ok (return .idle r, some k) sock := by
  cases ht : k.header.recType with
  | params =>
    simp only [Request.handlePacket, ht, hnone]
    rfl
  | stdin | data =>
    simp only [Request.handlePacket, ht, hready]
    rfl
  | _ =>
    rw [ht] at htype
    cases htype

/-- A record for a slot that is deaf is taken from the socket, and that is all. -/
theorem deaf_ignores {junk : Junk} {n : Conn} {k : Ipacket} {sock : Sock} {φ : Fate}
    {notified : Option Nat} (hd : Deaf s ref) (hin : Incoming p junk s ref n k sock)
    (htype : isInput k.header.recType = true)
    (h : Sys.step p s (.conn ref.conn junk φ notified) = some s') :
    ∃ sock, s' = s.setConn ref.conn
      { n with connection := { n.connection with sock := sock } } := by
  rcases hd with ⟨r, hr, hready, hnone⟩ | ⟨m, hm, ht⟩
  · obtain ⟨sock, rfl⟩ := hin.step hr (handlePacket_deaf hready hnone htype) (Tx.pure_apply _ φ) h
    obtain ⟨m, hm, hslot⟩ := Sys.request?_eq_some.mp hr
    rw [hin.conn] at hm
    cases hm
    refine ⟨sock, ?_⟩
    simp only [Sys.afterTurn, settle_idle hslot, Sys.marks, List.map_nil, Sys.record,
      List.append_nil, hin.pc]
  · rw [hin.conn] at hm
    cases hm
    rw [hin.pc] at ht
    cases ht

/-- What comes for the slot until a BEGIN_REQUEST record is accepted is ignored. -/
def Ignored (p : Params) (s : Sys) (ref : Ref) : Prop :=
  ∀ (bs : List Act) (t : Sys) (ms : List Mark), run (Sys.step p) s bs = some t →
    marksOf t ref = marksOf s ref ++ ms → .accepted ∉ ms →
    ∀ (junk : Junk) (n : Conn) (k : Ipacket) (sock : Sock) (φ : Fate) (notified : Option Nat)
      (t' : Sys), Incoming p junk t ref n k sock → isInput k.header.recType = true →
      Sys.step p t (.conn ref.conn junk φ notified) = some t' →
      ∃ sock, t' = t.setConn ref.conn { n with connection := { n.connection with sock := sock } }

/-- **An oversized parameter cancels exactly its own request**, in every run. -/
theorem cancelled_alone {workers : Nat} {as : List Act} {junk : Junk} {n : Conn} {k : Ipacket}
    {sock sock' : Sock} {r : Request} {d : Deserializer} {data : List Byte} {what : String}
    {notified : Option Nat} (h : run (Sys.step p) (.init workers) as = some s)
    (hr : s.request? ref = some r) (hreading : r.state = .readingParams)
    (hin : Incoming p junk s ref n k sock) (htype : k.header.recType = .params)
    (hd : r.paramsDeserializer = some d) (hdata : Request.takeContent k sock = .ok data sock')
    (hthrows : (d.feed p data).outcome = .throws what)
    (hs : Sys.step p s (.conn ref.conn junk Fate.sent notified) = some s') :
    Cancelled s s' ref n (ascii what ++ ascii Request.raiseLimit) ∧ Ignored p s' ref := by
  obtain ⟨hsound, hopened⟩ := run_opened h ref
  have hcancelled := step_cancelled hsound hopened (run_numbered h ref) hin htype hr hreading hd
    hdata hthrows hs
  refine ⟨hcancelled, ?_⟩
  intro bs t ms hrun hms hacc junk n k sock φ notified t' hin htype ht
  have hdeaf := run_deaf (hsound.step hs) (Or.inl hcancelled.ready) hrun hms hacc
  exact deaf_ignores hdeaf hin htype ht

/-- The next record is a PARAMS record for the slot on which the parser throws. -/
def oversized (p : Params) (junk : Junk) (s : Sys) (ref : Ref) : Bool :=
  match s.conns[ref.conn]?, s.request? ref with
  | some n, some r =>
    match Ipacket.new p junk.header n.connection.sock, r.paramsDeserializer with
    | .ok k sock, some d =>
      match Request.takeContent k sock with
      | .ok data _ =>
        match (d.feed p data).outcome with
        | .throws _ =>
          n.pc = .reading && n.connection.sock.insane && sock.insane &&
            Connection.idOf p k = ref.slot + 1 && k.header.recType = .params &&
            r.state = .readingParams
        | _ => false
      | _ => false
    | _, _ => false
  | _, _ => false

theorem cancelled_alone_fatParams : ∃ s s' n what,
    run (Sys.step .standard) (.init 1) (cancelledRun.dropLast) = some s ∧
      Sys.step .standard s (.conn 0 .zeros Fate.sent none) = some s' ∧
      Cancelled s s' ⟨0, 0⟩ n (ascii what ++ ascii Request.raiseLimit) ∧
        Ignored .standard s' ⟨0, 0⟩ := by
  have hrun : (run (Sys.step .standard) (.init 1) cancelledRun.dropLast).any (fun s =>
      oversized .standard .zeros s ⟨0, 0⟩ &&
        (Sys.step .standard s (.conn 0 .zeros Fate.sent none)).isSome) = true := by
    decide +kernel
  obtain ⟨s, hs, hcheck⟩ := (Option.any_eq_true _ _).mp hrun
  obtain ⟨hover, hstep⟩ := Bool.and_eq_true_iff.mp hcheck
  obtain ⟨s', hs'⟩ := Option.isSome_iff_exists.mp hstep
  unfold oversized at hover
  split at hover
  · rename_i n r hn hr
    split at hover
    · rename_i k sock d hk hd
      split at hover
      · rename_i data sock' hdata
        split at hover
        · rename_i what hthrows
          simp only [Bool.and_eq_true, decide_eq_true_eq] at hover
          obtain ⟨⟨⟨⟨⟨hpc, hsane⟩, hsock⟩, hid⟩, htype⟩, hreading⟩ := hover
          exact ⟨s, s', n, what, hs, hs', cancelled_alone hs hr hreading
            ⟨hn, hpc, hsane, ⟨hk, hsock⟩, hid⟩ htype hd hdata hthrows hs'⟩
        · cases hover
      · cases hover
    · cases hover
  · cases hover

end Tfcgi.Cancel
