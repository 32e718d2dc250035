import Tfcgi.Iostream

/-!
# Histories of an output stream

What the records are that leave an `fcgi::ostream` through sequences of writes,
flushes, `close()` and `reset()`.

* `framing`: with sends that succeed, the data of a stream up to the first
  `close()` leaves in non-empty records, and `close()` ends the stream;
* `id_iff`: when all records carry the id that the stream was built for.
-/

namespace Tfcgi.OutputStream

open Tfcgi.HostOrder Tfcgi.Protocol Tfcgi.SendPacket Tfcgi.Iostream

inductive StreamOp where
  | put (c : Byte)
  | write (bytes : List Byte)
  | flush
  | close
  | reset
  deriving DecidableEq, Repr

namespace StreamOp

def apply (p : Params) (o : Ostream) : StreamOp → Tx Ostream
  | .put c => o.write p [c]
  | .write bytes => o.write p bytes
  | .flush => o.flush p
  | .close => o.close p
  | .reset => return o.reset

/-- The characters it gives to the stream. -/
def bytes : StreamOp → List Byte
  | .put c => [c]
  | .write bytes => bytes
  | _ => []

/-- Neither `close` nor `reset`. -/
def isData : StreamOp → Bool
  | .close => false
  | .reset => false
  | _ => true

end StreamOp

def perform (p : Params) : Ostream → List StreamOp → Tx Ostream
  | o, [] => return o
  | o, op :: ops => do
    let o ← op.apply p o
    perform p o ops

/-- The records that are given to `send_packet`. -/
def packets (es : List Event) : List Packet := es.filterMap fun
  | .sent pkt _ => some pkt
  | _ => none

@[simp] theorem packets_nil : packets [] = [] := rfl

@[simp] theorem packets_append (es es' : List Event) :
    packets (es ++ es') = packets es ++ packets es' := List.filterMap_append

@[simp] theorem packets_sent (pkt : Packet) (o : SendOutcome) (es : List Event) :
    packets (.sent pkt o :: es) = pkt :: packets es := rfl

@[simp] theorem packets_wrote (type : RecType) (bytes : List Byte) (es : List Event) :
    packets (.wrote type bytes :: es) = packets es := rfl

theorem mem_packets {es : List Event} {pkt : Packet} :
    pkt ∈ packets es ↔ ∃ o, .sent pkt o ∈ es := by
  simp only [packets, List.mem_filterMap]
  constructor
  · rintro ⟨e, he, hp⟩
    cases e with
    | sent pkt' o =>
      cases hp
      exact ⟨o, he⟩
    | wrote type bytes | fed type bytes => cases hp
  · rintro ⟨o, ho⟩
    exact ⟨_, ho, rfl⟩

theorem bodies_eq (es : List Event) : es.flatMap Event.body = (packets es).flatMap Packet.body := by
  induction es with
  | nil => rfl
  | cons e es ih =>
    cases e with
    | sent pkt o => simp only [List.flatMap_cons, packets_sent, ih, Event.body]
    | wrote type bytes =>
      simp only [List.flatMap_cons, packets_wrote, ih, Event.body, List.nil_append]
    | fed type bytes => exact ih

/-! ## The wire form -/

/-- The bytes of the record are its header and its content. -/
structure Framed (pkt : Packet) : Prop where
  contentLength : pkt.header.contentLength.be = pkt.body.length
  max : pkt.body.length ≤ 4096
  size : pkt.bytes.length = 8 + pkt.header.contentLength.be

theorem packet_framed (p : Params) (b : Ostreambuf) {data : List Byte}
    (h : data.length ≤ Ostreambuf.capacity) : Framed (b.packet p data) := by
  have hlt : data.length < 65536 := Nat.lt_of_le_of_lt h (by decide)
  have hlen : (b.packet p data).header.contentLength.be = data.length := by
    rw [Ostreambuf.packet, be_store_ntohs, Nat.mod_eq_of_lt hlt]
  refine ⟨hlen, h, ?_⟩
  rw [hlen, Packet.bytes, List.length_append, Header.bytes_length]
  rfl

/-! ## Sends that succeed -/

/-- The stream takes characters. -/
structure IsOpen (o : Ostream) : Prop where
  good : o.good = true
  room : o.internal.pending.length ≤ Ostreambuf.capacity

theorem IsOpen.sound {o : Ostream} (h : IsOpen o) : o.Sound :=
  ⟨h.room, fun hg => by rw [h.good] at hg; cases hg⟩

theorem IsOpen.attached {o : Ostream} (h : IsOpen o) : o.attached = true := by
  have hg := h.good
  simp only [Ostream.good, Bool.and_eq_true] at hg
  exact hg.1

theorem new_open (p : Params) (requestId : Nat) (type : RecType) :
    IsOpen (.new p requestId type) := ⟨rfl, Nat.zero_le _⟩

/-- `bytes` went into the open stream `o`, which left `es` and `o'`. -/
structure Flows (p : Params) (o : Ostream) (bytes : List Byte) (o' : Ostream) (es : List Event) :
    Prop where
  isOpen : IsOpen o'
  header : o'.internal.header = o.internal.header
  records : ∀ pkt ∈ packets es, ∃ data, pkt = o.internal.packet p data ∧ data ≠ [] ∧
    data.length ≤ Ostreambuf.capacity
  flow : o.internal.pending ++ bytes = (packets es).flatMap Packet.body ++ o'.internal.pending
  eof : o'.internal.sendEof = (o.internal.sendEof || !(packets es).isEmpty)

theorem Flows.refl (p : Params) {o : Ostream} (h : IsOpen o) : Flows p o [] o [] :=
  ⟨h, rfl, by simp, by simp, by simp⟩

theorem Flows.trans {p : Params} {o o₁ o' : Ostream} {bytes bytes' : List Byte}
    {es es' : List Event} (h : Flows p o bytes o₁ es) (h' : Flows p o₁ bytes' o' es') :
    Flows p o (bytes ++ bytes') o' (es ++ es') := by
  refine ⟨h'.isOpen, h'.header.trans h.header, ?_, ?_, ?_⟩
  · intro pkt hpkt
    rw [packets_append] at hpkt
    rcases List.mem_append.mp hpkt with hpkt | hpkt
    · exact h.records pkt hpkt
    · obtain ⟨data, rfl, hd⟩ := h'.records pkt hpkt
      refine ⟨data, ?_, hd⟩
      simp only [Ostreambuf.packet, h.header]
  · rw [← List.append_assoc, h.flow, List.append_assoc, h'.flow, packets_append,
      List.flatMap_append, List.append_assoc]
  · rw [h'.eof, h.eof, packets_append]
    cases packets es <;> simp

theorem flows_of_puts {p : Params} {o : Ostream} (ho : IsOpen o) {bytes : List Byte}
    {b' : Ostreambuf} {err : Option Errno} {es : List Event}
    (h : Ostreambuf.Puts p Fate.sent o.internal bytes b' err es) :
    Flows p o bytes { o with internal := b', badbit := err.isSome } es := by
  have herr := h.sent
  subst herr
  have hempty : (packets es).isEmpty = es.isEmpty := by
    cases es with
    | nil => rfl
    | cons e es =>
      obtain ⟨data, out, rfl, -⟩ := h.records e List.mem_cons_self
      rfl
  refine ⟨⟨?_, h.room⟩, h.header, ?_, ?_, ?_⟩
  · simp [Ostream.good, ho.attached]
  · intro pkt hpkt
    obtain ⟨out, he⟩ := mem_packets.mp hpkt
    obtain ⟨data, out', he', hd⟩ := h.records _ he
    cases he'
    exact ⟨data, rfl, hd⟩
  · rw [h.flow rfl, bodies_eq]
  · rw [h.eof rfl, hempty]

theorem write_flows (p : Params) {o : Ostream} (ho : IsOpen o) (bytes : List Byte) :
    ∃ o' es, o.write p bytes Fate.sent = (.ok o', .wrote o.internal.pktType bytes :: es) ∧
      Flows p o bytes o' es := by
  obtain ⟨b', err, es, hw, hp⟩ := Ostream.write_good p ho.good ho.sound bytes Fate.sent
  exact ⟨_, es, hw, flows_of_puts ho hp⟩

theorem flush_flows (p : Params) {o : Ostream} (ho : IsOpen o) :
    ∃ o' es, o.flush p Fate.sent = (.ok o', es) ∧ Flows p o [] o' es ∧
      o'.internal.pending = [] := by
  obtain ⟨b', err, es, hf, hp, hempty⟩ := Ostream.flush_good p ho.good ho.sound Fate.sent
  exact ⟨_, es, hf, flows_of_puts ho hp, hempty⟩

/-- What `close` sends behind the data. -/
def ending (p : Params) (o : Ostream) (eof : Bool) : List Packet :=
  if eof then [o.internal.packet p []] else []

theorem close_flows (p : Params) {o : Ostream} (ho : IsOpen o) :
    ∃ es data, o.close p Fate.sent = (.ok (o.closed p), es) ∧
      packets es = data ++ ending p o (o.internal.sendEof || !data.isEmpty) ∧
      (∀ pkt ∈ data, ∃ d, pkt = o.internal.packet p d ∧ d ≠ [] ∧ d.length ≤ Ostreambuf.capacity) ∧
      data.flatMap Packet.body = o.internal.pending := by
  obtain ⟨o', es, hf, hflow, hempty⟩ := flush_flows p ho
  have hclose := Ostream.close_attached p ho.attached ho.sound hf
  have hbytes : (packets es).flatMap Packet.body = o.internal.pending := by
    have := hflow.flow
    rw [hempty, List.append_nil, List.append_nil] at this
    exact this.symm
  rw [hflow.eof] at hclose
  cases he : (o.internal.sendEof || !(packets es).isEmpty) with
  | false =>
    refine ⟨es, packets es, ?_, ?_, hflow.records, hbytes⟩
    · rw [hclose, he]
      rfl
    · rw [he]
      exact (List.append_nil _).symm
  | true =>
    refine ⟨es ++ [.sent (o.internal.packet p []) .sent], packets es, ?_, ?_, hflow.records, hbytes⟩
    · rw [hclose, he]
      rfl
    · rw [he, packets_append]
      rfl

theorem data_flows (p : Params) {o : Ostream} (ho : IsOpen o) {op : StreamOp}
    (hop : op.isData = true) :
    ∃ o' es, op.apply p o Fate.sent = (.ok o', es) ∧ Flows p o op.bytes o' es := by
  cases op with
  | put c =>
    obtain ⟨o', es, hw, hf⟩ := write_flows p ho [c]
    exact ⟨o', _, hw, hf.isOpen, hf.header, hf.records, hf.flow, hf.eof⟩
  | write bytes =>
    obtain ⟨o', es, hw, hf⟩ := write_flows p ho bytes
    exact ⟨o', _, hw, hf.isOpen, hf.header, hf.records, hf.flow, hf.eof⟩
  | flush =>
    obtain ⟨o', es, hw, hf, -⟩ := flush_flows p ho
    exact ⟨o', es, hw, hf⟩
  | close | reset => cases hop

theorem perform_flows (p : Params) {ops : List StreamOp} (hops : ∀ op ∈ ops, op.isData = true)
    {o : Ostream} (ho : IsOpen o) :
    ∃ o' es, perform p o ops Fate.sent = (.ok o', es) ∧
      Flows p o (ops.flatMap StreamOp.bytes) o' es := by
  induction ops generalizing o with
  | nil => exact ⟨o, [], rfl, .refl p ho⟩
  | cons op ops ih =>
    obtain ⟨o₁, es₁, h₁, hf₁⟩ := data_flows p ho (hops op List.mem_cons_self)
    obtain ⟨o', es', h', hf'⟩ := ih (fun x hx => hops x (List.mem_cons_of_mem op hx)) hf₁.isOpen
    refine ⟨o', es₁ ++ es', ?_, hf₁.trans hf'⟩
    unfold perform
    rw [Tx.bind_sent h₁, h']

/-- A closed stream does nothing. -/
theorem perform_closed (p : Params) {o : Ostream} (h : o.attached = false) {ops : List StreamOp}
    (hops : .reset ∉ ops) (φ : Fate) : perform p o ops φ = (.ok o, []) := by
  induction ops generalizing φ with
  | nil => rfl
  | cons op ops ih =>
    have hgood : o.good = false := by simp [Ostream.good, h]
    have hrest := ih (fun hx => hops (List.mem_cons_of_mem op hx)) φ
    have hop : op.apply p o φ = (.ok o, []) := by
      cases op with
      | put c => exact (Ostream.write_bad p hgood [c] φ).trans (by rw [h]; rfl)
      | write bytes => exact (Ostream.write_bad p hgood bytes φ).trans (by rw [h]; rfl)
      | flush => exact Ostream.flush_bad p hgood φ
      | close => exact Ostream.close_detached p h φ
      | reset => exact absurd List.mem_cons_self hops
    unfold perform
    rw [Tx.bind_quiet hop rfl, hrest]
    rfl

/-- The records of an open stream up to its first `close()`, and what is behind. -/
def Framing (p : Params) (o : Ostream) (before after : List StreamOp) : Prop :=
  ∃ o₁ o₂ es₁ es₂ data eof, perform p o before Fate.sent = (.ok o₁, es₁) ∧
    o₁.close p Fate.sent = (.ok o₂, es₂) ∧ packets es₂ = data ++ eof ∧
    (∀ pkt ∈ packets es₁ ++ data, Framed pkt ∧ pkt.body ≠ []) ∧
    (packets es₁ ++ data).flatMap Packet.body =
      o.internal.pending ++ before.flatMap StreamOp.bytes ∧
    (o.internal.sendEof = true ∨ packets es₁ ++ data ≠ [] →
      ∃ pkt, eof = [pkt] ∧ Framed pkt ∧ pkt.body = []) ∧
    (¬ (o.internal.sendEof = true ∨ packets es₁ ++ data ≠ []) → eof = []) ∧
    perform p o₂ after Fate.sent = (.ok o₂, [])

/-- **Framing** of an open stream whose sends succeed. -/
theorem framing (p : Params) {o : Ostream} (ho : IsOpen o) {before after : List StreamOp}
    (hbefore : ∀ op ∈ before, op.isData = true) (hafter : .reset ∉ after) :
    Framing p o before after := by
  obtain ⟨o₁, es₁, h₁, hflow⟩ := perform_flows p hbefore ho
  obtain ⟨es₂, data, h₂, hpackets, hdata, hbytes⟩ := close_flows p hflow.isOpen
  refine ⟨o₁, o₁.closed p, es₁, es₂, data, _, h₁, h₂, hpackets, ?_, ?_, ?_, ?_, ?_⟩
  · intro pkt hpkt
    rcases List.mem_append.mp hpkt with hpkt | hpkt
    · obtain ⟨d, rfl, hne, hle⟩ := hflow.records pkt hpkt
      exact ⟨packet_framed p _ hle, hne⟩
    · obtain ⟨d, rfl, hne, hle⟩ := hdata pkt hpkt
      exact ⟨packet_framed p _ hle, hne⟩
  · rw [List.flatMap_append, hbytes, hflow.flow]
  · intro he
    have heof : (o₁.internal.sendEof || !data.isEmpty) = true := by
      rw [hflow.eof]
      rcases he with he | he
      · simp [he]
      · cases hp : packets es₁ with
        | nil =>
          rw [hp] at he
          cases data with
          | nil => exact absurd rfl he
          | cons pkt data => simp
        | cons pkt ps => simp
    rw [heof]
    exact ⟨_, rfl, packet_framed p _ (Nat.zero_le _), rfl⟩
  · intro he
    rw [not_or, not_not, List.append_eq_nil_iff] at he
    obtain ⟨hs, hp, hd⟩ := he
    rw [hflow.eof, hp, hd, eq_false_of_ne_true hs]
    rfl
  · exact perform_closed p rfl hafter Fate.sent

theorem framing_written : Framing .standard (.new .standard 1 .stdout)
    [.write [104, 105], .flush, .put 33] [.write [1], .flush, .close] :=
  framing .standard (new_open _ _ _) (by decide) (by decide)

/-! ## The request id -/

/-- What an operation leaves: the header is that of the old buffer or of the one
that `close` makes. -/
def headerAfter (p : Params) (o : Ostream) : StreamOp → Header
  | .close => if o.attached then (o.closed p).internal.header else o.internal.header
  | _ => o.internal.header

/-- No record leaves. -/
def Silent (o : Ostream) : StreamOp → Prop
  | .put c => o.good = false ∨ o.internal.pending.length + [c].length ≤ Ostreambuf.capacity
  | .write bytes => o.good = false ∨ o.internal.pending.length + bytes.length ≤ Ostreambuf.capacity
  | .flush => o.good = false ∨ o.internal.pending = []
  | .close => o.attached = false ∨ o.internal.pending = [] ∧ o.internal.sendEof = false
  | .reset => True

/-- `op` was done to `o`, whatever the sends did. -/
structure Stamps (p : Params) (o : Ostream) (op : StreamOp) (result : Except Crash Ostream)
    (es : List Event) : Prop where
  records : ∀ pkt ∈ packets es, ∃ data, pkt = o.internal.packet p data
  silent : packets es = [] ↔ Silent o op
  left : ∀ o', result = .ok o' → o'.Sound ∧ o'.internal.header = headerAfter p o op

theorem sputn_room (p : Params) {b : Ostreambuf} {bytes : List Byte}
    (h : b.pending.length + bytes.length ≤ Ostreambuf.capacity) (φ : Fate) :
    b.sputn p bytes φ = (.ok ({ b with pending := b.pending ++ bytes }, none), []) := by
  induction bytes generalizing b with
  | nil => simp only [Ostreambuf.sputn, List.append_nil, Tx.pure_apply]
  | cons c cs ih =>
    rw [List.length_cons] at h
    unfold Ostreambuf.sputn
    rw [if_pos (by omega), ih (by simp only [List.length_append, List.length_singleton]; omega)]
    simp

theorem packets_puts {p : Params} {φ : Fate} {b b' : Ostreambuf} {bytes : List Byte}
    {err : Option Errno} {es : List Event} (h : Ostreambuf.Puts p φ b bytes b' err es) :
    (∀ pkt ∈ packets es, ∃ data, pkt = b.packet p data) ∧
      (packets es = [] → err = none ∧ b.pending ++ bytes = b'.pending) := by
  constructor
  · intro pkt hpkt
    obtain ⟨o, ho⟩ := mem_packets.mp hpkt
    obtain ⟨data, o', he, -⟩ := h.records _ ho
    cases he
    exact ⟨data, rfl⟩
  · intro hnil
    have hes : es = [] := by
      cases es with
      | nil => rfl
      | cons e es =>
        obtain ⟨data, o, rfl, -⟩ := h.records e List.mem_cons_self
        cases hnil
    subst hes
    have herr : err = none := by
      by_contra hne
      obtain ⟨pkt, e, hm⟩ := h.failed hne
      cases hm
    exact ⟨herr, h.flow herr⟩

theorem write_stamps (p : Params) {o : Ostream} (ho : o.Sound) (bytes : List Byte) (φ : Fate) :
    (∀ pkt ∈ packets (o.write p bytes φ).2, ∃ data, pkt = o.internal.packet p data) ∧
      (packets (o.write p bytes φ).2 = [] ↔
        o.good = false ∨ o.internal.pending.length + bytes.length ≤ Ostreambuf.capacity) ∧
      ∀ o', (o.write p bytes φ).1 = .ok o' → o'.Sound ∧ o'.internal.header = o.internal.header := by
  cases hg : o.good with
  | false =>
    rw [Ostream.write_bad p hg]
    have hnil : packets (if o.attached then [.wrote o.internal.pktType bytes] else []) = [] := by
      cases o.attached <;> rfl
    refine ⟨?_, ?_, ?_⟩
    · rw [hnil]
      exact fun pkt hpkt => absurd hpkt List.not_mem_nil
    · simp [hnil]
    · intro o' h
      cases h
      exact ⟨ho, rfl⟩
  | true =>
    obtain ⟨b', err, es, hw, hp⟩ := Ostream.write_good p hg ho bytes φ
    obtain ⟨hrecords, hsilent⟩ := packets_puts hp
    rw [hw]
    refine ⟨hrecords, ⟨?_, ?_⟩, ?_⟩
    · intro hnil
      obtain ⟨-, hpending⟩ := hsilent hnil
      refine Or.inr ?_
      rw [← List.length_append, hpending]
      exact hp.room
    · rintro (h | h)
      · cases h
      · have hs := sputn_room p h φ
        have ha : o.attached = true := (Bool.and_eq_true_iff.mp hg).1
        simp only [Ostream.write, hg, ha, if_true] at hw
        rw [Tx.bind_quiet (rfl : Tx.note (.wrote o.internal.pktType bytes) φ = _) rfl,
          Tx.bind_quiet hs rfl] at hw
        simp only [Tx.pure_apply, Prod.mk.injEq, List.append_nil, List.cons.injEq] at hw
        rw [← hw.2.2]
        rfl
    · intro o' h
      cases h
      exact ⟨Ostream.puts_sound hg hp, hp.header⟩

theorem flush_stamps (p : Params) {o : Ostream} (ho : o.Sound) (φ : Fate) :
    ∃ o' es, o.flush p φ = (.ok o', es) ∧ o'.Sound ∧ o'.internal.header = o.internal.header ∧
      (∀ pkt ∈ packets es, ∃ data, pkt = o.internal.packet p data) ∧
      (packets es = [] ↔ o.internal.pending = []) ∧
      (o.internal.pending = [] → o'.internal.sendEof = o.internal.sendEof) := by
  cases hg : o.good with
  | false =>
    have hempty := ho.closed hg
    exact ⟨o, [], Ostream.flush_bad p hg φ, ho, rfl, by simp, by simp [hempty], fun _ => rfl⟩
  | true =>
    obtain ⟨b', err, es, hf, hp, hempty⟩ := Ostream.flush_good p hg ho φ
    obtain ⟨hrecords, hsilent⟩ := packets_puts hp
    have hnone : o.internal.pending = [] → b' = o.internal ∧ es = [] := by
      intro hpending
      have hs : o.internal.sync p φ = (.ok (o.internal, none), []) := by
        simp only [Ostreambuf.sync, hpending, if_true]
        rfl
      simp only [Ostream.flush, hg, if_true] at hf
      rw [Tx.bind_quiet hs rfl] at hf
      simp only [Tx.pure_apply, Prod.mk.injEq, Except.ok.injEq, Ostream.mk.injEq,
        List.append_nil] at hf
      exact ⟨hf.1.1.symm, hf.2.symm⟩
    refine ⟨_, es, hf, Ostream.puts_sound hg hp, hp.header, hrecords, ⟨?_, ?_⟩, ?_⟩
    · intro hnil
      obtain ⟨-, hpending⟩ := hsilent hnil
      rw [List.append_nil, hempty] at hpending
      exact hpending
    · intro hpending
      rw [(hnone hpending).2]
      rfl
    · intro hpending
      show b'.sendEof = _
      rw [(hnone hpending).1]

theorem apply_stamps (p : Params) {o : Ostream} (ho : o.Sound) (op : StreamOp) (φ : Fate) :
    Stamps p o op (op.apply p o φ).1 (op.apply p o φ).2 := by
  cases op with
  | put c =>
    obtain ⟨h₁, h₂, h₃⟩ := write_stamps p ho [c] φ
    exact ⟨h₁, h₂, h₃⟩
  | write bytes =>
    obtain ⟨h₁, h₂, h₃⟩ := write_stamps p ho bytes φ
    exact ⟨h₁, h₂, h₃⟩
  | flush =>
    obtain ⟨o', es, hf, hs, hh, hrecords, hsilent, -⟩ := flush_stamps p ho φ
    simp only [StreamOp.apply, hf]
    refine ⟨hrecords, hsilent.trans ⟨Or.inr, ?_⟩, ?_⟩
    · rintro (hg | hp)
      · exact ho.closed hg
      · exact hp
    · intro o₁ h
      cases h
      exact ⟨hs, hh⟩
  | close =>
    cases ha : o.attached with
    | false =>
      simp only [StreamOp.apply, Ostream.close_detached p ha φ]
      refine ⟨by simp, by simp [Silent, ha], ?_⟩
      intro o' h
      cases h
      exact ⟨ho, by simp [headerAfter, ha]⟩
    | true =>
      obtain ⟨o', es, hf, hs, hh, hrecords, hsilent, heof⟩ := flush_stamps p ho φ
      have hclose := Ostream.close_attached p ha ho hf
      have hmore : ∀ out, packets (es ++ [.sent (o.internal.packet p []) out]) =
          packets es ++ [o.internal.packet p []] := by
        intro out
        rw [packets_append]
        rfl
      have hrecords' : ∀ pkt ∈ packets es ++ [o.internal.packet p []],
          ∃ data, pkt = o.internal.packet p data := by
        intro pkt hpkt
        rcases List.mem_append.mp hpkt with hpkt | hpkt
        · exact hrecords pkt hpkt
        · exact ⟨[], List.mem_singleton.mp hpkt⟩
      have hloud : o'.internal.sendEof = true → ¬ Silent o .close := by
        rintro he (h | ⟨hp, hn⟩)
        · rw [ha] at h
          cases h
        · rw [heof hp, hn] at he
          cases he
      have hleft : ∀ o₁, Except.ok (o.closed p) = (Except.ok o₁ : Except Crash Ostream) →
          o₁.Sound ∧ o₁.internal.header = headerAfter p o .close := by
        intro o₁ h
        cases h
        exact ⟨Ostream.closed_sound p o, by simp [headerAfter, ha]⟩
      simp only [StreamOp.apply, hclose]
      cases he : o'.internal.sendEof with
      | false =>
        simp only [Bool.false_eq_true, if_false]
        refine ⟨hrecords, ⟨?_, ?_⟩, hleft⟩
        · intro hnil
          have hp := hsilent.mp hnil
          exact Or.inr ⟨hp, by rw [← heof hp, he]⟩
        · rintro (h | ⟨hp, -⟩)
          · rw [ha] at h
            cases h
          · exact hsilent.mpr hp
      | true =>
        simp only [if_true]
        have hnever := hloud he
        cases φ (sends es) (o.internal.packet p []) with
        | failed e =>
          refine ⟨by rw [hmore]; exact hrecords', ?_, fun o₁ h => by cases h⟩
          rw [hmore]
          simp [hnever]
        | sent | gone =>
          refine ⟨by rw [hmore]; exact hrecords', ?_, hleft⟩
          rw [hmore]
          simp [hnever]
  | reset =>
    refine ⟨fun pkt hpkt => absurd hpkt List.not_mem_nil, ⟨fun _ => trivial, fun _ => rfl⟩, ?_⟩
    intro o' h
    cases h
    exact ⟨Ostream.reset_sound ho, rfl⟩

/-- The id with its two bytes exchanged. -/
def swapped (i : Nat) : Nat := i % 256 * 256 + i / 256

/-- The header after an even or odd number of new buffers. -/
structure Stamped (p : Params) (type : RecType) (i : Nat) (odd : Bool) (h : Header) : Prop where
  type : h.type = type.toByte
  id : h.requestId.be = if odd = true ∧ p.host = .little then swapped i else i

theorem swapped_swapped {i : Nat} : i < 65536 → swapped (swapped i) = i := by
  intro h
  unfold swapped
  omega

theorem swapped_eq {i : Nat} : swapped i = i ↔ i / 256 = i % 256 := by
  unfold swapped
  omega

theorem load_little (m : U16) : m.load .little = swapped m.be := by
  have h0 := m.b0.toNat_lt
  have h1 := m.b1.toNat_lt
  simp only [U16.load, U16.be, swapped]
  omega

theorem new_stamped (p : Params) (type : RecType) {i : Nat} (h : i < 65536) :
    Stamped p type i false (Ostreambuf.new p i type).header := by
  refine ⟨rfl, ?_⟩
  simp only [Ostreambuf.new, be_store_ntohs, Nat.mod_eq_of_lt h, Bool.false_eq_true, false_and,
    if_false]

/-- `close` makes the new buffer from the id in network byte order. -/
theorem closed_stamped {p : Params} {type : RecType} {i : Nat} (hi : i < 65536) {odd : Bool}
    {o : Ostream} (h : Stamped p type i odd o.internal.header) :
    Stamped p type i (!odd) (o.closed p).internal.header := by
  refine ⟨?_, ?_⟩
  · show (RecType.ofByte o.internal.header.type).toByte = _
    rw [RecType.toByte_ofByte, h.type]
  · have hbe : (o.closed p).internal.header.requestId.be =
        o.internal.header.requestId.load p.host := by
      show (U16.store p.host (ntohs p.host _)).be = _
      rw [be_store_ntohs]
      exact Nat.mod_eq_of_lt (U16.load_lt _ _)
    rw [hbe]
    have hid := h.id
    cases hh : p.host with
    | big =>
      rw [hh] at hid
      simp only [reduceCtorEq, and_false, if_false] at hid ⊢
      exact hid
    | little =>
      rw [load_little, hid, hh]
      cases odd with
      | false => simp
      | true => simpa using swapped_swapped hi

/-- `close` makes a new buffer. -/
def rebuilds (o : Ostream) : StreamOp → Bool
  | .close => o.attached
  | _ => false

theorem after_stamped {p : Params} {type : RecType} {i : Nat} (hi : i < 65536) {odd : Bool}
    {o : Ostream} (h : Stamped p type i odd o.internal.header) (op : StreamOp) :
    Stamped p type i (odd ^^ rebuilds o op) (headerAfter p o op) := by
  cases op with
  | close =>
    cases ha : o.attached with
    | false => simpa [headerAfter, rebuilds, ha] using h
    | true => simpa [headerAfter, rebuilds, ha] using closed_stamped hi h
  | _ => simpa [headerAfter, rebuilds] using h

/-- In a run from `o` no record leaves while the number of new buffers, even
before the run if not `odd`, is odd. -/
def Quiet (p : Params) : Bool → Ostream → List StreamOp → Fate → Prop
  | _, _, [], _ => True
  | odd, o, op :: ops, φ => (odd = true → Silent o op) ∧
      ∀ o' es, op.apply p o φ = (.ok o', es) →
        Quiet p (odd ^^ rebuilds o op) o' ops fun n => φ (n + sends es)

/-- The record is one of the stream of type `type` of request `i`. -/
def Carries (type : RecType) (i : Nat) (pkt : Packet) : Prop :=
  pkt.header.type = type.toByte ∧ pkt.header.requestId.be = i

instance (type : RecType) (i : Nat) (pkt : Packet) : Decidable (Carries type i pkt) :=
  inferInstanceAs (Decidable (_ ∧ _))

theorem perform_cons (p : Params) (o : Ostream) (op : StreamOp) (ops : List StreamOp) (φ : Fate) :
    (∃ o' es, op.apply p o φ = (.ok o', es) ∧ packets (perform p o (op :: ops) φ).2 =
        packets es ++ packets (perform p o' ops fun n => φ (n + sends es)).2) ∨
      ∃ c es, op.apply p o φ = (.error c, es) ∧
        packets (perform p o (op :: ops) φ).2 = packets es := by
  have hcons : perform p o (op :: ops) = op.apply p o >>= fun o => perform p o ops := rfl
  cases h : op.apply p o φ with
  | mk result es =>
    cases result with
    | ok o' =>
      refine Or.inl ⟨o', es, rfl, ?_⟩
      rw [hcons, Tx.bind_ok h, packets_append]
    | error c =>
      refine Or.inr ⟨c, es, rfl, ?_⟩
      rw [hcons, Tx.bind_error h]

/-- The records of one operation carry the id unless they leave an odd buffer. -/
theorem carries_iff {p : Params} {type : RecType} {i : Nat} {odd : Bool} {o : Ostream}
    (h : Stamped p type i odd o.internal.header) {op : StreamOp} {result : Except Crash Ostream}
    {es : List Event} (hs : Stamps p o op result es) :
    (∀ pkt ∈ packets es, Carries type i pkt) ↔
      p.host = .big ∨ i / 256 = i % 256 ∨ (odd = true → Silent o op) := by
  have hcarries : ∀ pkt ∈ packets es,
      Carries type i pkt ↔ (if odd = true ∧ p.host = .little then swapped i else i) = i := by
    intro pkt hpkt
    obtain ⟨data, rfl⟩ := hs.records pkt hpkt
    exact ⟨fun hc => h.id.symm.trans hc.2, fun he => ⟨h.type, h.id.trans he⟩⟩
  constructor
  · intro hall
    by_cases hodd : odd = true ∧ p.host = .little
    · by_cases hnil : packets es = []
      · exact Or.inr (Or.inr fun _ => hs.silent.mp hnil)
      · obtain ⟨pkt, hpkt⟩ := List.exists_mem_of_ne_nil _ hnil
        have he := (hcarries pkt hpkt).mp (hall pkt hpkt)
        rw [if_pos hodd] at he
        exact Or.inr (Or.inl (swapped_eq.mp he))
    · cases hh : p.host with
      | big => exact Or.inl rfl
      | little => exact Or.inr (Or.inr fun ho => absurd ⟨ho, hh⟩ hodd)
  · intro hcond pkt hpkt
    refine (hcarries pkt hpkt).mpr ?_
    by_cases hodd : odd = true ∧ p.host = .little
    · rw [if_pos hodd]
      rcases hcond with hb | he | hq
      · rw [hb] at hodd
        cases hodd.2
      · exact swapped_eq.mpr he
      · rw [hs.silent.mpr (hq hodd.1)] at hpkt
        cases hpkt
    · rw [if_neg hodd]

theorem perform_iff {p : Params} {type : RecType} {i : Nat} (hi : i < 65536)
    (ops : List StreamOp) {odd : Bool} {o : Ostream} (ho : o.Sound)
    (h : Stamped p type i odd o.internal.header) (φ : Fate) :
    (∀ pkt ∈ packets (perform p o ops φ).2, Carries type i pkt) ↔
      p.host = .big ∨ i / 256 = i % 256 ∨ Quiet p odd o ops φ := by
  induction ops generalizing odd o φ with
  | nil =>
    simp only [Quiet, or_true, iff_true]
    intro pkt hpkt
    cases hpkt
  | cons op ops ih =>
    have hstamps := apply_stamps p ho op φ
    have hop := carries_iff h hstamps
    rcases perform_cons p o op ops φ with ⟨o', es, ha, hp⟩ | ⟨c, es, ha, hp⟩
    · rw [ha] at hstamps hop
      obtain ⟨hsound, hheader⟩ := hstamps.left o' rfl
      have hnext := after_stamped hi h op
      rw [← hheader] at hnext
      have hrest := ih hsound hnext fun n => φ (n + sends es)
      rw [hp]
      simp only [List.mem_append, or_imp, forall_and, hop, hrest, Quiet, ha, Prod.mk.injEq,
        Except.ok.injEq]
      constructor
      · rintro ⟨h₁, h₂⟩
        rcases h₁ with hb | he | h₁
        · exact Or.inl hb
        · exact Or.inr (Or.inl he)
        · rcases h₂ with hb | he | h₂
          · exact Or.inl hb
          · exact Or.inr (Or.inl he)
          · refine Or.inr (Or.inr ⟨h₁, ?_⟩)
            rintro o₁ es₁ ⟨rfl, rfl⟩
            exact h₂
      · rintro (hb | he | ⟨h₁, h₂⟩)
        · exact ⟨Or.inl hb, Or.inl hb⟩
        · exact ⟨Or.inr (Or.inl he), Or.inr (Or.inl he)⟩
        · exact ⟨Or.inr (Or.inr h₁), Or.inr (Or.inr (h₂ o' es ⟨rfl, rfl⟩))⟩
    · rw [ha] at hop
      rw [hp, hop]
      simp only [Quiet, ha, Prod.mk.injEq, reduceCtorEq, false_and, false_imp_iff, implies_true,
        and_true]

/-- **Request ids** of a stream that was built for request `i`. -/
theorem id_iff (p : Params) {i : Nat} (hi : 1 ≤ i ∧ i ≤ 65535) (type : RecType)
    (ops : List StreamOp) (φ : Fate) :
    (∀ pkt ∈ packets (perform p (.new p i type) ops φ).2, Carries type i pkt) ↔
      p.host = .big ∨ i / 256 = i % 256 ∨ Quiet p false (.new p i type) ops φ :=
  perform_iff (by omega) ops (Ostream.new_sound p i type) (new_stamped p type (by omega)) φ

/-- The first request on an object shows no fault. -/
theorem id_iff_first : (packets (perform .standard (.new .standard 1 .stdout)
    [.put 97, .flush, .close] Fate.sent).2).length = 2 ∧
      ∀ pkt ∈ packets (perform .standard (.new .standard 1 .stdout)
        [.put 97, .flush, .close] Fate.sent).2, Carries .stdout 1 pkt := by
  refine ⟨by decide +kernel, ?_⟩
  refine (id_iff .standard ⟨by decide, by decide⟩ .stdout _ Fate.sent).mpr (Or.inr (Or.inr ?_))
  refine ⟨(by intro h; cases h), fun o₁ es₁ _ => ⟨(by intro h; cases h), fun o₂ es₂ _ => ?_⟩⟩
  exact ⟨(by intro h; cases h), fun _ _ _ => trivial⟩

/-- The second one is sent with id 256 in place of 1. -/
theorem reused_swapped : ∃ pkt ∈ packets (perform .standard (.new .standard 1 .stdout)
    [.close, .reset, .put 97, .flush] Fate.sent).2,
    pkt.header.requestId.be = 256 ∧ ¬ Carries .stdout 1 pkt := by
  decide +kernel

end Tfcgi.OutputStream
