import Tfcgi.ConnectionThread

/-!
# Record framing

The records of a peer are laid end to end on a socket without errors. `InStep`
says of the passes of `thread_func`, whatever state the connection is in before
each, that every pass reads the header of the next record and takes the whole
record off the socket, until a pass brings the process down.

* `turn_carries`: what one pass takes;
* `framing_iff`: the passes stay in step exactly when no record has padding but
  no content.
-/

namespace Tfcgi.Framing

open Tfcgi.HostOrder Tfcgi.Protocol Tfcgi.NameValuePairs Tfcgi.Socket
open Tfcgi.Iostream Tfcgi.RequestSlot Tfcgi.ConnectionThread

structure Record where
  header : Header
  content : List Byte
  padding : List Byte
  contentLength : header.contentLength.be = content.length
  paddingLength : header.paddingLength.toNat = padding.length
  /-- a BEGIN_REQUEST record has room for its body -/
  beginBody : header.recType = .beginRequest → BeginRequestBody.size ≤ content.length

namespace Record

def bytes (r : Record) : List Byte := r.header.bytes ++ (r.content ++ r.padding)

def size (r : Record) : Nat := Header.size + r.content.length + r.padding.length

/-- The padding follows no content. -/
def PadOnly (r : Record) : Prop := r.content = [] ∧ r.padding ≠ []

theorem bytes_length (r : Record) : r.bytes.length = r.size := by
  simp only [bytes, size, List.length_append, Header.bytes_length]
  omega

/-- What is left on the socket behind the record once it was handled. -/
def leaves (r : Record) (rest : List Byte) : List Byte :=
  if r.content = [] then r.padding ++ rest else rest

theorem leaves_eq {r : Record} (h : ¬ r.PadOnly) (rest : List Byte) : r.leaves rest = rest := by
  unfold leaves
  split
  · rename_i hc
    have hp : r.padding = [] := by
      by_contra hp
      exact h ⟨hc, hp⟩
    rw [hp, List.nil_append]
  · rfl

end Record

/-! ## What a handler takes -/

/-- The record is open with some of its content left, or it is done with. -/
def Open (k : Option Ipacket) (s : Sock) (padding rest : List Byte) : Prop :=
  match k with
  | some k => ∃ content, k.Holds s content padding rest
  | none => s.Carries rest

theorem drop_open {k : Option Ipacket} {s : Sock} {padding rest : List Byte}
    (h : Open k s padding rest) : ∃ s', Connection.drop k s = .ok () s' ∧ s'.Carries rest := by
  cases k with
  | none => exact ⟨s, rfl, h⟩
  | some k =>
    obtain ⟨content, hk⟩ := h
    exact Ipacket.holds_destroy hk

theorem takeContent_holds {k : Ipacket} {s : Sock} {content padding rest : List Byte}
    (h : k.Holds s content padding rest) :
    ∃ s', Request.takeContent k s = .ok content s' ∧ s'.Carries rest := by
  obtain ⟨k', s₁, hs, -, hk⟩ := Ipacket.holds_sinkToVector h
  obtain ⟨s', hd, hc⟩ := Ipacket.holds_destroy hk
  refine ⟨s', ?_, hc⟩
  unfold Request.takeContent
  rw [Rd.bind_ok hs]
  exact Rd.bind_ok hd

theorem handlePacket_open (p : Params) (junk : Junk) (r : Request) {k : Ipacket} {s : Sock}
    {content padding rest : List Byte} (h : k.Holds s content padding rest)
    (hb : k.header.recType = .beginRequest → BeginRequestBody.size ≤ content.length) :
    ∃ tx k' s', r.handlePacket p junk k s = .ok (tx, k') s' ∧ Open k' s' padding rest := by
  have hkeep : ∀ tx : Tx Handled, ∃ tx' k' s',
      (return (tx, some k) : Rd (Tx Handled × Option Ipacket)) s = .ok (tx', k') s' ∧
        Open k' s' padding rest :=
    fun tx => ⟨tx, some k, s, rfl, content, h⟩
  have htake : ∀ f : List Byte → Tx Handled, ∃ tx' k' s',
      (do let data ← Request.takeContent k; return (f data, none) :
        Rd (Tx Handled × Option Ipacket)) s = .ok (tx', k') s' ∧ Open k' s' padding rest := by
    intro f
    obtain ⟨s', hs, hc⟩ := takeContent_holds h
    exact ⟨f content, none, s', Rd.bind_ok hs, hc⟩
  cases ht : k.header.recType with
  | beginRequest =>
    simp only [Request.handlePacket, ht]
    by_cases hr : r.state = .ready
    · rw [if_neg (by simpa using hr)]
      have hsplit : content = content.take BeginRequestBody.size ++
          content.drop BeginRequestBody.size := (List.take_append_drop ..).symm
      rw [hsplit] at h
      obtain ⟨k', s', hs, -, hk⟩ := Ipacket.holds_recvAll h
      rw [List.length_take, Nat.min_eq_left (hb ht)] at hs
      exact ⟨_, some k', s', Rd.bind_ok hs, _, hk⟩
    · rw [if_pos hr]
      exact hkeep _
  | params =>
    simp only [Request.handlePacket, ht]
    cases hd : r.paramsDeserializer with
    | none => exact hkeep _
    | some d => exact htake _
  | stdin =>
    simp only [Request.handlePacket, ht]
    by_cases hr : r.state = .ready
    · rw [if_neg (by simpa using hr)]
      exact hkeep _
    · rw [if_pos hr]
      exact htake _
  | data =>
    simp only [Request.handlePacket, ht]
    by_cases hr : r.state = .ready
    · rw [if_neg (by simpa using hr)]
      exact hkeep _
    · rw [if_pos hr]
      exact htake _
  | abortRequest | getValues | endRequest | stdout | stderr | getValuesResult | unknownType
  | other =>
    simp only [Request.handlePacket, ht]
    exact hkeep _

theorem dispatch_open (p : Params) (junk : Junk) (c : Connection) (requestId : Nat) {k : Ipacket}
    {s : Sock} {content padding rest : List Byte} (h : k.Holds s content padding rest)
    (hb : k.header.recType = .beginRequest → BeginRequestBody.size ≤ content.length) :
    ∃ tx k' s', c.dispatch p junk requestId k s = .ok (tx, k') s' ∧ Open k' s' padding rest := by
  unfold Connection.dispatch
  by_cases h0 : requestId = 0
  · subst h0
    rw [if_neg (by simp)]
    cases ht : k.header.recType with
    | getValues =>
      obtain ⟨s', hs, hc⟩ := takeContent_holds h
      exact ⟨_, none, s', Rd.bind_ok hs, hc⟩
    | _ => exact ⟨_, some k, s, rfl, content, h⟩
  · rw [if_pos h0]
    obtain ⟨tx, k', s', hs, ho⟩ := handlePacket_open p junk (c.slot p junk requestId) h hb
    exact ⟨_, k', s', Rd.bind_ok hs, ho⟩

/-- A pass reads the header of the record and takes its content and the padding
behind that; padding without content stays on the socket. -/
theorem turn_carries (p : Params) (junk : Junk) (φ : Fate) {c : Connection} {r : Record}
    {rest : List Byte} (h : c.sock.Carries (r.bytes ++ rest)) :
    (∃ crash log, c.turn p junk φ = .down crash log) ∨
      ∃ c' did log, c.turn p junk φ = .handled r.header c' did log ∧
        c'.sock.Carries (r.leaves rest) := by
  have hbytes : r.bytes ++ rest = r.header.bytes ++ (r.content ++ (r.padding ++ rest)) := by
    simp only [Record.bytes, List.append_assoc]
  rw [hbytes] at h
  obtain ⟨k, s, hn, hk, hh⟩ := Ipacket.holds_new p junk.header r.contentLength r.paddingLength h
  obtain ⟨tx, k', s', hd, ho⟩ := dispatch_open p junk c (k.header.requestId.load p.host) hh
    (by rw [hk]; exact r.beginBody)
  obtain ⟨s'', hdrop, hc⟩ := drop_open ho
  simp only [Connection.turn, hn, hh.carries.sane, if_true, hd, Connection.finish]
  cases htx : tx φ with
  | mk result log =>
    cases result with
    | error crash => exact Or.inl ⟨crash, log, rfl⟩
    | ok settled =>
      refine Or.inr ⟨{ settled.1 with sock := s'' }, settled.2, log, ?_, hc⟩
      simp only [hdrop, hk]

/-! ## The passes over a sequence of records -/

/-- What a pass starts from, the socket apart. -/
structure Pass where
  connection : Connection
  junk : Junk
  φ : Fate

def Pass.turn (p : Params) (e : Pass) (s : Sock) : Turn :=
  ({ e.connection with sock := s } : Connection).turn p e.junk e.φ

/-- Every pass reads the header of its record and takes the whole record, up to
a pass that brings the process down. -/
def InStep (p : Params) : List Pass → List Record → Sock → Prop
  | e :: es, r :: rs, s =>
    match e.turn p s with
    | .handled header c _ _ =>
      header = r.header ∧ s.bytes.length = r.size + c.sock.bytes.length ∧ InStep p es rs c.sock
    | .down _ _ => True
    | _ => False
  | _, _, _ => True

theorem inStep_of_padding (p : Params) {rs : List Record} (h : ∀ r ∈ rs, ¬ r.PadOnly)
    (es : List Pass) {s : Sock} (hs : s.Carries (rs.flatMap Record.bytes)) : InStep p es rs s := by
  induction rs generalizing es s with
  | nil => cases es <;> trivial
  | cons r rs ih =>
    cases es with
    | nil => trivial
    | cons e es =>
      simp only [List.mem_cons, forall_eq_or_imp] at h
      rw [List.flatMap_cons] at hs
      unfold InStep
      rcases turn_carries p e.junk e.φ (c := { e.connection with sock := s }) hs with
        ⟨crash, log, ht⟩ | ⟨c', did, log, ht, hc⟩
      · rw [Pass.turn, ht]
        trivial
      · rw [Record.leaves_eq h.1] at hc
        rw [Pass.turn, ht]
        refine ⟨rfl, ?_, ih h.2 es hc⟩
        rw [hs.bytes, hc.bytes, List.length_append, r.bytes_length]

/-! ## A connection that no record brings down -/

def calmRequest (p : Params) (junk : Junk) : Request :=
  { Request.new p 1 junk with state := .pending }

/-- Its parser waits for one byte more than the record has. -/
def calmParser (n : Nat) : Deserializer :=
  { Deserializer.fresh 0 ⟨0, 0, 0, 0⟩ ⟨0, 0, 0, 0⟩ with
    stringBuffer := List.replicate (n + 1) 0
    currentBuffer := ⟨.stringBuffer, 0⟩
    remainingLen := n + 1 }

def calmPass (p : Params) (junk : Junk) (r : Record) : Pass where
  connection :=
    { Connection.new p junk with
      requests := List.replicate (r.header.requestId.load p.host) (some (calmRequest p junk))
      getValueHandler := calmParser r.content.length
      getValueResultStream := (Ostream.new p 0 .getValuesResult).closed p }
  junk := junk
  φ := Fate.sent

theorem calm_slot (p : Params) (junk : Junk) (c : Connection) {id : Nat} (h0 : id ≠ 0)
    (hc : c.requests = List.replicate id (some (calmRequest p junk))) :
    c.slot p junk id = calmRequest p junk := by
  have hlt : id - 1 < id := by omega
  simp [Connection.slot, Connection.grow, hc, List.getD_eq_getElem?_getD, hlt]

theorem calm_feed (p : Params) (data : List Byte) :
    ∃ b d, (calmParser data.length).feed p data = ⟨[], .returns b d⟩ := by
  by_cases hd : data = []
  · exact ⟨true, calmParser data.length, by simp only [Deserializer.feed, hd, if_true]⟩
  · refine ⟨false, ?_⟩
    have hstore : ∃ d, (calmParser data.length).store data = .ok d := by
      simp [calmParser, Deserializer.store, hd]
    obtain ⟨d, hst⟩ := hstore
    have hgt : (calmParser data.length).remainingLen > data.length := Nat.lt_succ_self _
    simp only [Deserializer.feed, hd, if_false, hgt, if_true, hst]
    exact ⟨_, rfl⟩

theorem sendOrThrow_sent (pkt : Packet) (crash : Crash) (log : List Event) :
    Request.sendOrThrow pkt Fate.sent ≠ (.error crash, log) := by
  intro h
  obtain ⟨e, he⟩ := Request.sendOrThrow_error h
  cases he

theorem calm_handles {p : Params} {junk : Junk} {crash : Crash} {log : List Event}
    (h : Request.Handles p junk Fate.sent (calmRequest p junk) (.error crash, log)) : False := by
  generalize hx : ((.error crash, log) : Except Crash Handled × List Event) = x at h
  cases h with
  | cancel d _ _ _ hd | fault d _ _ hd => cases hd
  | unknown type =>
    exact sendOrThrow_sent _ crash log (Tx.bind_return_error (fun _ => rfl) hx.symm)
  | _ => cases hx

theorem calm_getValues {p : Params} {c : Connection} {data : List Byte}
    (hp : c.getValueHandler = calmParser data.length)
    (ho : c.getValueResultStream.attached = false) (crash : Crash) (log : List Event) :
    c.getValues p data Fate.sent ≠ (.error crash, log) := by
  intro h
  obtain ⟨b, d, hf⟩ := calm_feed p data
  have hviews : (calmParser data.length).feedViews p data = [] :=
    Deserializer.feedViews_nil (by rw [hf])
  unfold Connection.getValues at h
  rw [Tx.bind_quiet (rfl : Tx.note (.fed .getValues data) Fate.sent = _) rfl, hp, hf, hviews] at h
  simp only [Connection.newKeys] at h
  rw [Tx.bind_quiet (Tx.pure_apply _ _) rfl] at h
  cases b with
  | false => cases h
  | true =>
    simp only at h
    rw [Tx.bind_quiet (Ostream.close_detached p ho Fate.sent) rfl] at h
    cases h

theorem calm_turn (p : Params) (junk : Junk) {r : Record} {s : Sock} {rest : List Byte}
    (hs : s.Carries (r.bytes ++ rest)) (crash : Crash) (log : List Event) :
    (calmPass p junk r).turn p s ≠ .down crash log := by
  intro h
  have hbytes : r.bytes ++ rest = r.header.bytes ++ (r.content ++ (r.padding ++ rest)) := by
    simp only [Record.bytes, List.append_assoc]
  rw [hbytes] at hs
  obtain ⟨k, s₁, hn, hk, hh⟩ := Ipacket.holds_new p junk.header r.contentLength r.paddingLength hs
  obtain ⟨k', s', ⟨hn', -⟩, hfails⟩ := Connection.turn_down h
  obtain ⟨rfl, rfl⟩ : k = k' ∧ s₁ = s' := by
    have he := hn.symm.trans hn'
    cases he
    exact ⟨rfl, rfl⟩
  have hslot : Connection.idOf p k ≠ 0 →
      ({ (calmPass p junk r).connection with sock := s } : Connection).slot p
        (calmPass p junk r).junk (Connection.idOf p k) = calmRequest p junk := by
    intro h0
    apply calm_slot p junk _ h0
    rw [Connection.idOf, hk]
    rfl
  cases hfails with
  | shortBegin h0 _ hready _ =>
    rw [hslot h0] at hready
    cases hready
  | request h0 crash log hhandles =>
    rw [hslot h0] at hhandles
    exact calm_handles hhandles
  | getValues h0 _ data s₂ crash log hcontent hgave =>
    obtain ⟨s₃, ht, -⟩ := takeContent_holds hh
    obtain rfl : data = r.content := by
      have he := ht.symm.trans hcontent
      cases he
      rfl
    exact calm_getValues rfl rfl crash log hgave
  | unknown h0 crash log hgave => exact sendOrThrow_sent _ crash log hgave

theorem padding_of_inStep (p : Params) (junk : Junk) {rs : List Record} {s : Sock}
    (hs : s.Carries (rs.flatMap Record.bytes)) (h : InStep p (rs.map (calmPass p junk)) rs s) :
    ∀ r ∈ rs, ¬ r.PadOnly := by
  induction rs generalizing s with
  | nil => simp
  | cons r rs ih =>
    rw [List.flatMap_cons] at hs
    simp only [List.map_cons, InStep] at h
    rcases turn_carries p (calmPass p junk r).junk (calmPass p junk r).φ
      (c := { (calmPass p junk r).connection with sock := s }) hs with
      ⟨crash, log, ht⟩ | ⟨c', did, log, ht, hc⟩
    · exact absurd ht (calm_turn p junk hs crash log)
    · rw [Pass.turn, ht] at h
      obtain ⟨-, hlen, htail⟩ := h
      have hr : ¬ r.PadOnly := by
        rintro ⟨hnil, hp⟩
        have hpos := List.length_pos_of_ne_nil hp
        rw [hs.bytes, hc.bytes, Record.leaves, if_pos hnil] at hlen
        simp only [List.length_append, r.bytes_length] at hlen
        omega
      rw [Record.leaves_eq hr] at hc
      simp only [List.mem_cons, forall_eq_or_imp]
      exact ⟨hr, ih hc htail⟩

/-! ## Framing -/

/-- The bytes `w`, one at a time. -/
def sockOf (w : List Byte) : Sock := ⟨w.map fun b => .data b [], true⟩

theorem sockOf_carries (w : List Byte) : (sockOf w).Carries w := by
  refine ⟨rfl, ?_, ?_⟩
  · intro r hr
    obtain ⟨b, -, rfl⟩ := List.mem_map.mp hr
    exact ⟨b, [], rfl⟩
  · induction w with
    | nil => rfl
    | cons b w ih =>
      simp only [Sock.bytes, sockOf, List.map_cons, List.flatMap_cons] at ih ⊢
      rw [ih]
      rfl

/-- **Framing.** For every request state before each pass, every chunking of the
bytes and every outcome of the sends, the passes stay in step with the records,
exactly when no record has padding but no content. -/
theorem framing_iff (p : Params) (rs : List Record) :
    (∀ es s, s.Carries (rs.flatMap Record.bytes) → InStep p es rs s) ↔
      ∀ r ∈ rs, ¬ r.PadOnly := by
  constructor
  · intro h
    have hs := sockOf_carries (rs.flatMap Record.bytes)
    exact padding_of_inStep p Junk.zeros hs (h _ _ hs)
  · intro h es s hs
    exact inStep_of_padding p h es hs

/-- The end of the STDIN stream of request 1, padded to 16 bytes. -/
def emptyStdin : Record where
  header := .ofBytes [1, 5, 0, 1, 0, 0, 8, 0]
  content := []
  padding := List.replicate 8 0
  contentLength := rfl
  paddingLength := rfl
  beginBody := RecType.noConfusion

/-- An ABORT_REQUEST record for request 2. -/
def abort : Record where
  header := .ofBytes [1, 2, 0, 2, 0, 0, 0, 0]
  content := []
  padding := []
  contentLength := rfl
  paddingLength := rfl
  beginBody := RecType.noConfusion

def firstPass : Pass := ⟨.new .standard Junk.zeros, Junk.zeros, Fate.sent⟩

/-- The header that is read behind the first record is its padding. -/
theorem emptyStdin_drifts :
    (∃ c did log k s, firstPass.turn .standard (sockOf (emptyStdin.bytes ++ abort.bytes)) =
      .handled emptyStdin.header c did log ∧
        Ipacket.new .standard Junk.zeros.header c.sock = .ok k s ∧
          k.header.bytes = emptyStdin.padding) ∧
      ¬ InStep .standard [firstPass, firstPass] [emptyStdin, abort]
        (sockOf (emptyStdin.bytes ++ abort.bytes)) := by
  refine ⟨⟨_, _, _, _, _, rfl, rfl, rfl⟩, ?_⟩
  rintro ⟨-, h, -⟩
  exact absurd h (by decide)

end Tfcgi.Framing
