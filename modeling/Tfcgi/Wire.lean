import Tfcgi.Content
import Tfcgi.OutputStream

/-!
# The records that the process makes

`Emits` is a triple for code that sends: the packets that it gives to `send_packet`,
whatever becomes of them, and what it leaves.

* `did_wellFormed`: each packet of each step is a record that FastCGI lets an
  application send;
* `wellFormed`: this for all packets of all runs.
-/

namespace Tfcgi.Wire

open Tfcgi.Run Tfcgi.HostOrder Tfcgi.Protocol Tfcgi.NameValuePairs Tfcgi.SendPacket
open Tfcgi.Socket Tfcgi.Iostream Tfcgi.RequestSlot Tfcgi.ConnectionThread Tfcgi.System
open Tfcgi.OutputStream

/-! ## Records -/

/-- A packet with the length of its body in its header, and no padding. -/
structure Sized (pkt : Packet) : Prop where
  contentLength : pkt.header.contentLength.be = pkt.body.length
  paddingLength : pkt.header.paddingLength = 0

/-- The types that an application may send, with their ids and the length of a body
that is fixed. -/
def Allowed (pkt : Packet) : Prop :=
  match pkt.recType with
  | .stdout => pkt.header.requestId.be ≠ 0
  | .stderr => pkt.header.requestId.be ≠ 0
  | .endRequest => pkt.header.requestId.be ≠ 0 ∧ pkt.body.length = 8
  | .getValuesResult => pkt.header.requestId.be = 0
  | .unknownType => pkt.body.length = 8
  | _ => False

structure WellFormed (pkt : Packet) : Prop where
  version : pkt.header.version = 1
  sized : Sized pkt
  reserved : pkt.header.reserved = 0
  room : pkt.body.length ≤ Ostreambuf.capacity
  allowed : Allowed pkt

/-! ## A triple for code that sends -/

/-- Whatever becomes of the sends, the packets satisfy `P` and the result `Q`. -/
def Emits {α : Type} (P : Packet → Prop) (m : Tx α) (Q : α → Prop) : Prop :=
  ∀ φ, (∀ pkt ∈ packets (m φ).2, P pkt) ∧ ∀ a, (m φ).1 = .ok a → Q a

namespace Emits

variable {α β : Type} {P : Packet → Prop}

theorem pure {a : α} {Q : α → Prop} (h : Q a) : Emits P (Pure.pure a : Tx α) Q := by
  intro φ
  refine ⟨nofun, ?_⟩
  rintro b ⟨⟩
  exact h

theorem crash (c : Crash) (Q : α → Prop) : Emits P (Tx.crash c) Q := fun _ => ⟨nofun, nofun⟩

theorem send {pkt : Packet} (h : P pkt) : Emits P (Tx.send pkt) fun _ => True := by
  intro φ
  refine ⟨?_, fun _ _ => trivial⟩
  intro x hx
  obtain rfl : x = pkt := by simpa [Tx.send, packets] using hx
  exact h

theorem wrote (type : RecType) (bytes : List Byte) :
    Emits P (Tx.note (.wrote type bytes)) fun _ => True := fun _ => ⟨nofun, fun _ _ => trivial⟩

theorem fed (type : RecType) (bytes : List Byte) :
    Emits P (Tx.note (.fed type bytes)) fun _ => True := fun _ => ⟨nofun, fun _ _ => trivial⟩

theorem bind {m : Tx α} {f : α → Tx β} {Q : α → Prop} {R : β → Prop} (hm : Emits P m Q)
    (hf : ∀ a, Q a → Emits P (f a) R) : Emits P (m >>= f) R := by
  intro φ
  obtain ⟨hp, hq⟩ := hm φ
  cases h : m φ with
  | mk result es =>
    rw [h] at hp hq
    cases result with
    | error c =>
      rw [Tx.bind_error h]
      exact ⟨hp, nofun⟩
    | ok a =>
      obtain ⟨hp', hr⟩ := hf a (hq a rfl) fun n => φ (n + sends es)
      rw [Tx.bind_ok h]
      refine ⟨?_, hr⟩
      intro pkt hpkt
      rw [packets_append] at hpkt
      exact (List.mem_append.mp hpkt).elim (hp pkt) (hp' pkt)

theorem ite {c : Prop} [Decidable c] {m m' : Tx α} {Q : α → Prop} (h : Emits P m Q)
    (h' : Emits P m' Q) : Emits P (if c then m else m') Q := by
  split
  · exact h
  · exact h'

theorem did {m : Tx α} {Q : α → Prop} (h : Emits P m Q) {φ : Fate} {a : α} {es : List Event}
    (hm : m φ = (.ok a, es)) : (∀ pkt ∈ packets es, P pkt) ∧ Q a := by
  obtain ⟨hp, hq⟩ := h φ
  rw [hm] at hp hq
  exact ⟨hp, hq a rfl⟩

end Emits

/-! ## Streams -/

/-- The types of the records that stream buffers make. -/
def output : RecType → Bool
  | .stdout => true
  | .stderr => true
  | .getValuesResult => true
  | _ => false

/-- A buffer with the header of its constructor; the id is zero for the answer to
GET_VALUES. -/
structure Prefilled (type : RecType) (b : Ostreambuf) : Prop where
  version : b.header.version = 1
  recType : b.header.type = type.toByte
  requestId : b.header.requestId.be = 0 ↔ type = .getValuesResult
  paddingLength : b.header.paddingLength = 0
  reserved : b.header.reserved = 0
  room : b.pending.length ≤ Ostreambuf.capacity

variable {p : Params} {type : RecType}

theorem ofByte_toByte (h : output type = true) : RecType.ofByte type.toByte = type := by
  cases type <;> first | rfl | cases h

theorem new_prefilled {requestId : Nat} (hlt : requestId < 65536)
    (hz : requestId = 0 ↔ type = .getValuesResult) : Prefilled type (.new p requestId type) where
  version := rfl
  recType := rfl
  requestId := by
    show (U16.store p.host (ntohs p.host requestId)).be = 0 ↔ _
    rw [be_store_ntohs, Nat.mod_eq_of_lt hlt, hz]
  paddingLength := rfl
  reserved := rfl
  room := Nat.zero_le _

theorem load_eq_zero (host : Host) (m : U16) : m.load host = 0 ↔ m.be = 0 := by
  cases host with
  | little =>
    simp only [U16.load, U16.be]
    omega
  | big => rfl

theorem closed_prefilled (ht : output type = true) {b : Ostreambuf} (hb : Prefilled type b) :
    Prefilled type (.new p (b.requestId p) b.pktType) := by
  have htype : b.pktType = type := by
    rw [Ostreambuf.pktType, Header.recType, hb.recType, ofByte_toByte ht]
  rw [htype]
  refine new_prefilled (U16.load_lt _ _) ?_
  rw [← hb.requestId]
  exact load_eq_zero p.host b.header.requestId

theorem packet_recType (ht : output type = true) {b : Ostreambuf} (hb : Prefilled type b)
    (data : List Byte) : (b.packet p data).recType = type := by
  show RecType.ofByte b.header.type = type
  rw [hb.recType, ofByte_toByte ht]

theorem packet_wellFormed (ht : output type = true) {b : Ostreambuf} (hb : Prefilled type b)
    {data : List Byte} (hd : data.length ≤ Ostreambuf.capacity) : WellFormed (b.packet p data) where
  version := hb.version
  sized := by
    refine ⟨?_, hb.paddingLength⟩
    have hlt : data.length < 65536 := Nat.lt_of_le_of_lt hd (by decide)
    show (U16.store p.host (ntohs p.host data.length)).be = data.length
    rw [be_store_ntohs, Nat.mod_eq_of_lt hlt]
  reserved := hb.reserved
  room := hd
  allowed := by
    have hid := hb.requestId
    unfold Allowed
    rw [packet_recType ht hb]
    cases type with
    | stdout | stderr => exact fun hz => nomatch hid.mp hz
    | getValuesResult => exact hid.mpr rfl
    | _ => cases ht

/-- What holds of the buffers of a stream, and what it says of their packets. -/
structure Buffers (p : Params) (P : Packet → Prop) (I : Ostreambuf → Prop) : Prop where
  room : ∀ b, I b → b.pending.length ≤ Ostreambuf.capacity
  put : ∀ b pending eof, I b → pending.length ≤ Ostreambuf.capacity →
    I { b with pending := pending, sendEof := eof }
  packet : ∀ b data, I b → data.length ≤ Ostreambuf.capacity → P (b.packet p data)
  closed : ∀ b, I b → I (.new p (b.requestId p) b.pktType)

theorem typed_buffers {P : Packet → Prop} (ht : output type = true)
    (hP : ∀ pkt, WellFormed pkt → pkt.recType = type → P pkt) : Buffers p P (Prefilled type) where
  room := fun _ hb => hb.room
  put := fun _ _ _ hb hroom =>
    ⟨hb.version, hb.recType, hb.requestId, hb.paddingLength, hb.reserved, hroom⟩
  packet := fun _ data hb hd => hP _ (packet_wellFormed ht hb hd) (packet_recType ht hb data)
  closed := fun _ => closed_prefilled ht

theorem prefilled_buffers (ht : output type = true) : Buffers p WellFormed (Prefilled type) :=
  typed_buffers ht fun _ h _ => h

section
variable {P : Packet → Prop} {I : Ostreambuf → Prop} {b : Ostreambuf} {o : Ostream}

theorem sync_emits (hI : Buffers p P I) (hb : I b) :
    Emits P (b.sync p) fun x => I x.1 ∧ x.1.pending = [] := by
  have hempty : ∀ eof, I { b with pending := [], sendEof := eof } := fun eof =>
    hI.put b [] eof hb (Nat.zero_le _)
  unfold Ostreambuf.sync
  split
  · exact .pure ⟨hb, ‹_›⟩
  · refine Emits.bind (.send (hI.packet b _ hb (hI.room b hb))) ?_
    intro out _
    cases out with
    | failed e => exact .pure ⟨hempty b.sendEof, rfl⟩
    | sent | gone => exact .pure ⟨hempty true, rfl⟩

theorem overflow_emits (hI : Buffers p P I) (hb : I b) (c : Byte) :
    Emits P (b.overflow p (some c)) fun x => I x.1 := by
  refine Emits.bind (sync_emits hI hb) ?_
  rintro ⟨b', err⟩ ⟨hb', -⟩
  cases err with
  | some e => exact .pure hb'
  | none =>
    have hone : [c].length ≤ Ostreambuf.capacity := Nat.one_le_two_pow (n := 12)
    exact .pure (hI.put b' [c] b'.sendEof hb' hone)

theorem sputn_emits (hI : Buffers p P I) (bytes : List Byte) (hb : I b) :
    Emits P (b.sputn p bytes) fun x => I x.1 := by
  induction bytes generalizing b with
  | nil => exact .pure hb
  | cons c cs ih =>
    unfold Ostreambuf.sputn
    split
    · refine ih (hI.put b _ b.sendEof hb ?_)
      rw [List.length_append, List.length_singleton]
      omega
    · refine Emits.bind (overflow_emits hI hb c) ?_
      rintro ⟨b', err⟩ hb'
      cases err with
      | some e => exact .pure hb'
      | none => exact ih hb'

theorem buffer_emits (hI : Buffers p P I) (hb : I b) : Emits P (b.destroy p) fun _ => True := by
  refine Emits.bind (sync_emits hI hb) ?_
  rintro ⟨b', err⟩ ⟨hb', -⟩
  cases err with
  | some e => exact .crash _ _
  | none =>
    simp only
    split
    · refine Emits.bind (.send (hI.packet b' _ hb' (Nat.zero_le _))) ?_
      intro out _
      cases out with
      | failed e => exact .crash _ _
      | sent | gone => exact .pure trivial
    · exact .pure trivial

theorem write_emits (hI : Buffers p P I) (ho : I o.internal) (bytes : List Byte) :
    Emits P (o.write p bytes) fun o => I o.internal := by
  have hput := sputn_emits hI bytes ho
  unfold Ostream.write
  split
  · refine .ite (Emits.bind (.wrote _ _) fun _ _ => ?_) ?_
    · exact Emits.bind hput fun _ hb => .pure hb
    · exact Emits.bind hput fun _ hb => .pure hb
  · exact .ite (Emits.bind (.wrote _ _) fun _ _ => .pure ho) (.pure ho)

theorem flush_emits (hI : Buffers p P I) (ho : I o.internal) :
    Emits P (o.flush p) fun o => I o.internal := by
  unfold Ostream.flush
  split
  · exact Emits.bind (sync_emits hI ho) fun _ hb => .pure hb.1
  · exact .pure ho

theorem close_emits (hI : Buffers p P I) (ho : I o.internal) :
    Emits P (o.close p) fun o => I o.internal := by
  unfold Ostream.close
  split
  · refine Emits.bind (flush_emits hI ho) fun o' ho' => ?_
    exact Emits.bind (buffer_emits hI ho') fun _ _ => .pure (hI.closed _ ho')
  · exact .pure ho

end

/-! ## Requests -/

/-- What holds of the streams of a request and of its id, and what it says of its packets. -/
structure Speaks (p : Params) (P : Packet → Prop) (I : Stream → Ostreambuf → Prop)
    (N : Nat → Prop) :
    Prop where
  buffers : ∀ i, Buffers p P (I i)
  ends : ∀ requestId body, N requestId →
    P (.make p.host .endRequest requestId (EndRequestBody.bytes body))
  fresh : ∀ requestId junk i, N requestId → I i (stream (.new p requestId junk) i).internal

/-- The buffers of the streams, and the id. -/
structure Lined (I : Stream → Ostreambuf → Prop) (N : Nat → Prop) (r : Request) : Prop where
  streams : ∀ i, I i (stream r i).internal
  id : N r.requestId

section
variable {P : Packet → Prop} {I : Stream → Ostreambuf → Prop} {N : Nat → Prop} {r : Request}

theorem new_lined (hS : Speaks p P I N) {requestId : Nat} (h : N requestId) (junk : Junk) :
    Lined I N (.new p requestId junk) := ⟨fun i => hS.fresh requestId junk i h, h⟩

theorem Lined.congr {r' : Request} (h : Lined I N r) (hcout : r'.cout.internal = r.cout.internal)
    (hcerr : r'.cerr.internal = r.cerr.internal) (hid : r'.requestId = r.requestId) :
    Lined I N r' where
  streams := by
    intro i
    cases i with
    | cout => exact hcout ▸ h.streams .cout
    | cerr => exact hcerr ▸ h.streams .cerr
  id := hid ▸ h.id

theorem Lined.setStream (h : Lined I N r) (i : Stream) {o : Ostream} (ho : I i o.internal) :
    Lined I N (setStream r i o) where
  streams := by
    intro i'
    cases i with
    | cout =>
      cases i' with
      | cout => exact ho
      | cerr => exact h.streams .cerr
    | cerr =>
      cases i' with
      | cout => exact h.streams .cout
      | cerr => exact ho
  id := by cases i <;> exact h.id

theorem resetInputs_same (r : Request) : (r.resetInputs p).cout = r.cout ∧
    (r.resetInputs p).cerr = r.cerr ∧ (r.resetInputs p).requestId = r.requestId := by
  unfold Request.resetInputs
  split
  · split <;> exact ⟨rfl, rfl, rfl⟩
  · exact ⟨rfl, rfl, rfl⟩

theorem accept_lined (hS : Speaks p P I N) (h : Lined I N r) (junk : Junk) (got : List Byte) :
    Lined I N (r.acceptRequest p junk got) where
  streams := by
    intro i
    cases i with
    | cout =>
      have hroom := (hS.buffers .cout).room _ (h.streams .cout)
      simp only [stream, Request.acceptRequest, Request.raiseSendEof, resetInputs_same]
      exact (hS.buffers .cout).put _ _ true (h.streams .cout) hroom
    | cerr =>
      have hroom := (hS.buffers .cerr).room _ (h.streams .cerr)
      simp only [stream, Request.acceptRequest, Request.raiseSendEof, resetInputs_same]
      exact (hS.buffers .cerr).put _ _ true (h.streams .cerr) hroom
  id := by
    simp only [Request.acceptRequest, resetInputs_same]
    exact h.id

theorem sendOrThrow_emits {pkt : Packet} (h : P pkt) :
    Emits P (Request.sendOrThrow pkt) fun _ => True := by
  refine Emits.bind (.send h) fun out _ => ?_
  cases out with
  | failed e => exact .crash _ _
  | sent | gone => exact .pure trivial

theorem endl_emits {J : Ostreambuf → Prop} (hJ : Buffers p P J) {o : Ostream} (ho : J o.internal) :
    Emits P (endl p o) fun o => J o.internal :=
  Emits.bind (write_emits hJ ho _) fun _ ho => flush_emits hJ ho

theorem texts_emit {J : Ostreambuf → Prop} (hJ : Buffers p P J) (texts : List String) {o : Ostream}
    (ho : J o.internal) :
    Emits P (texts.foldlM (fun (o : Ostream) text => o.write p (ascii text)) o)
      fun o => J o.internal := by
  induction texts generalizing o with
  | nil => exact .pure ho
  | cons text texts ih =>
    rw [List.foldlM_cons]
    exact Emits.bind (write_emits hJ ho _) fun _ ho => ih ho

theorem setStream_emits (hr : Lined I N r) (i : Stream) {f : Ostream → Tx Ostream}
    (hf : ∀ o, I i o.internal → Emits P (f o) fun o => I i o.internal) :
    Emits P (f (stream r i) >>= fun x => pure (setStream r i x, (none : Option Int)))
      fun x => Lined I N x.1 :=
  Emits.bind (hf _ (hr.streams i)) fun _ ho => .pure (hr.setStream i ho)

variable (hS : Speaks p P I N) (hr : Lined I N r)
include hS hr

theorem complain_emits (texts : List String) : Emits P (complain p r texts) (Lined I N) := by
  have hcerr := hS.buffers .cerr
  unfold complain
  split
  · refine Emits.bind (endl_emits hcerr (hr.streams .cerr)) fun o ho => ?_
    refine Emits.bind (texts_emit hcerr texts ho) fun o ho => ?_
    exact Emits.bind (endl_emits hcerr ho) fun o ho => .pure (hr.setStream .cerr ho)
  · exact .pure hr

theorem callbackEnds_emits (how : AppEnd) :
    Emits P (callbackEnds p r how) fun x => Lined I N x.1 := by
  cases how with
  | returns status => exact .pure hr
  | throwsException what | throwsOther =>
    exact Emits.bind (complain_emits hS hr _) fun _ hr => .pure hr

theorem unknownRole_emits : Emits P (unknownRole p r) fun x => Lined I N x.1 :=
  Emits.bind (complain_emits hS hr _) fun _ hr => .pure hr

theorem appOp_emits {op : AppOp} {tx : Tx (Request × Option Int)} (h : appOp p r op = some tx) :
    Emits P tx fun x => Lined I N x.1 := by
  cases op with
  | write i bytes =>
    cases h
    exact setStream_emits hr i fun _ ho => write_emits (hS.buffers i) ho bytes
  | flush i =>
    cases h
    exact setStream_emits hr i fun _ ho => flush_emits (hS.buffers i) ho
  | close i =>
    cases h
    exact setStream_emits hr i fun _ ho => close_emits (hS.buffers i) ho
  | get =>
    simp only [appOp] at h
    split at h
    · cases h
    · cases h
      exact .pure (hr.congr rfl rfl rfl)

theorem workRequest_emits {pc : WorkerPc} {tx : Tx (Request × WorkerPc)}
    (h : workRequest p r pc = some tx) : Emits P tx fun x => Lined I N x.1 := by
  cases pc with
  | popped ref =>
    simp only [workRequest] at h
    split at h
    · cases h
      exact .pure hr
    · cases h
      exact Emits.bind (unknownRole_emits hS hr) fun _ hx => .pure hx
  | closingCout ref body =>
    cases h
    exact Emits.bind (close_emits (hS.buffers .cout) (hr.streams .cout)) fun _ ho =>
      .pure (hr.setStream .cout ho)
  | closingCerr ref body =>
    cases h
    exact Emits.bind (close_emits (hS.buffers .cerr) (hr.streams .cerr)) fun _ ho =>
      .pure (hr.setStream .cerr ho)
  | sending ref body =>
    cases h
    exact Emits.bind (sendOrThrow_emits (hS.ends _ body hr.id)) fun _ _ => .pure hr
  | _ => cases h

theorem cancel_emits (what : String) :
    Emits P (r.cancel p what) fun h => Lined I N h.request := by
  have hcerr := hS.buffers .cerr
  refine Emits.bind (write_emits hcerr (hr.streams .cerr) _) fun o ho => ?_
  refine Emits.bind (write_emits hcerr ho _) fun o ho => ?_
  refine Emits.bind (close_emits hcerr ho) fun o ho => ?_
  refine Emits.bind (close_emits (hS.buffers .cout) (hr.streams .cout)) fun o' ho' => ?_
  refine Emits.bind (sendOrThrow_emits (hS.ends _ _ hr.id)) fun _ _ => .pure ?_
  exact ((hr.setStream .cerr ho).setStream .cout ho').congr rfl rfl rfl

/-- The handling of a record that is not refused. -/
theorem handles_emits {junk : Junk} {φ : Fate} {x : Except Crash Handled × List Event}
    (h : Request.Handles p junk φ r x)
    (hu : ∀ byte, x = r.unknownType p byte φ → P (Request.unknownTypePacket p r.requestId byte)) :
    (∀ pkt ∈ packets x.2, P pkt) ∧ ∀ hd, x.1 = .ok hd → Lined I N hd.request := by
  have hsame : ∀ {hd : Handled}, Lined I N hd.request →
      ∀ hd', (.ok hd : Except Crash Handled) = .ok hd' → Lined I N hd'.request := by
    rintro hd hl hd' ⟨⟩
    exact hl
  cases h with
  | ignore => exact ⟨nofun, hsame hr⟩
  | accept got ready => exact ⟨nofun, hsame (accept_lined hS hr junk got)⟩
  | more d d' params data reading => exact ⟨nofun, hsame (hr.congr rfl rfl rfl)⟩
  | push d d' params data reading => exact ⟨nofun, hsame (hr.congr rfl rfl rfl)⟩
  | cancel d params data what reading =>
    have hparams : Lined I N { r with params := params } := hr.congr rfl rfl rfl
    exact cancel_emits hS hparams what φ
  | fault d data f reading cause =>
    refine ⟨nofun, ?_⟩
    intro hd heq
    cases heq
  | stdin data busy => exact ⟨nofun, hsame (hr.congr rfl rfl rfl)⟩
  | data data busy => exact ⟨nofun, hsame (hr.congr rfl rfl rfl)⟩
  | unknown byte =>
    have hunknown : Emits P (r.unknownType p byte) fun h => Lined I N h.request :=
      Emits.bind (sendOrThrow_emits (hu byte rfl)) fun _ _ => .pure hr
    exact hunknown φ

theorem request_emits : Emits P (r.destroy p) fun _ => True :=
  Emits.bind (buffer_emits (hS.buffers .cerr) (hr.streams .cerr)) fun _ _ =>
    buffer_emits (hS.buffers .cout) (hr.streams .cout)

theorem worked_lined {w : Nat} {ref : Ref} {r' : Request} {a : System.Act} {pc pc' : WorkerPc}
    {got : Option Int} {log : List Event} (h : Sys.Worked p w ref r a pc r' pc' got log) :
    (∀ pkt ∈ packets log, P pkt) ∧ Lined I N r' := by
  cases h with
  | start φ role => exact ⟨nofun, hr⟩
  | unknown φ r' body log did => exact (unknownRole_emits hS hr).did did
  | cout φ body o log did =>
    obtain ⟨hp, ho⟩ := (close_emits (hS.buffers .cout) (hr.streams .cout)).did did
    exact ⟨hp, hr.setStream .cout ho⟩
  | cerr φ body o log did =>
    obtain ⟨hp, ho⟩ := (close_emits (hS.buffers .cerr) (hr.streams .cerr)).did did
    exact ⟨hp, hr.setStream .cerr ho⟩
  | send φ body log did => exact ⟨((sendOrThrow_emits (hS.ends _ body hr.id)).did did).1, hr⟩
  | app φ op tx r' got log op_eq did => exact (appOp_emits hS hr op_eq).did did
  | finish φ how r' body log did => exact (callbackEnds_emits hS hr how).did did

end

/-! ## The records of a request -/

theorem make_wellFormed {host : Host} {requestId : Nat} {body : List Byte}
    (hlt : requestId < 65536) (hbody : body.length = 8)
    (ht : type = .endRequest ∧ requestId ≠ 0 ∨ type = .unknownType) :
    WellFormed (.make host type requestId body) where
  version := rfl
  sized := by
    refine ⟨?_, rfl⟩
    show (U16.store host (ntohs host body.length)).be = body.length
    rw [be_store_ntohs, hbody]
  reserved := rfl
  room := by
    show body.length ≤ Ostreambuf.capacity
    rw [hbody]
    exact Nat.pow_le_pow_right (n := 2) (i := 3) (j := 12) (by decide) (by decide)
  allowed := by
    have hid : (Packet.make host type requestId body).header.requestId.be = requestId := by
      show (U16.store host (ntohs host requestId)).be = requestId
      rw [be_store_ntohs, Nat.mod_eq_of_lt hlt]
    rcases ht with ⟨rfl, h0⟩ | rfl
    · exact ⟨by rwa [hid], hbody⟩
    · exact hbody

/-- The buffers of both streams. -/
def Ready (i : Stream) : Ostreambuf → Prop :=
  match i with
  | .cout => Prefilled .stdout
  | .cerr => Prefilled .stderr

/-- An id that a peer can have given to a request. -/
def Given (requestId : Nat) : Prop := requestId ≠ 0 ∧ requestId < 65536

theorem ready_speaks {P : Packet → Prop} {N : Nat → Prop}
    (hN : ∀ requestId, N requestId → Given requestId)
    (hstreams : ∀ pkt, WellFormed pkt → pkt.recType = .stdout ∨ pkt.recType = .stderr → P pkt)
    (hends : ∀ requestId body, N requestId →
      P (.make p.host .endRequest requestId (EndRequestBody.bytes body))) : Speaks p P Ready N where
  buffers := by
    intro i
    cases i with
    | cout => exact typed_buffers rfl fun pkt hpkt ht => hstreams pkt hpkt (Or.inl ht)
    | cerr => exact typed_buffers rfl fun pkt hpkt ht => hstreams pkt hpkt (Or.inr ht)
  ends := hends
  fresh := by
    intro requestId junk i h
    obtain ⟨h0, hlt⟩ := hN requestId h
    cases i with
    | cout => exact new_prefilled hlt (by simp [h0])
    | cerr => exact new_prefilled hlt (by simp [h0])

theorem request_speaks : Speaks p WellFormed Ready Given :=
  ready_speaks (fun _ h => h) (fun _ h _ => h) fun _ _ h =>
    make_wellFormed h.2 rfl (Or.inl ⟨rfl, h.1⟩)

theorem unknownType_wellFormed {requestId : Nat} (hlt : requestId < 65536) (byte : Byte) :
    WellFormed (Request.unknownTypePacket p requestId byte) :=
  make_wellFormed hlt rfl (Or.inr rfl)

/-! ## Connections -/

structure Laid (c : Connection) : Prop where
  slots : ∀ (k : Nat) r, c.requests[k]? = some (some r) → Lined Ready Given r
  result : Prefilled .getValuesResult c.getValueResultStream.internal

theorem connection_laid (junk : Junk) : Laid (.new p junk) where
  slots := by
    intro k r h
    cases h
  result := by
    have hnew : (Connection.new p junk).getValueResultStream = .new p 0 .getValuesResult := rfl
    rw [hnew]
    exact new_prefilled (by decide) (iff_of_true rfl rfl)

section
variable {c : Connection}

theorem Laid.sock (h : Laid c) (s : Sock) : Laid { c with sock := s } := ⟨h.slots, h.result⟩

theorem slot_lined (hc : Laid c) {requestId : Nat} (h : Given requestId) (junk : Junk) :
    Lined Ready Given (c.slot p junk requestId) := by
  rcases Connection.grow_slot p junk c h.1 with hslot | ⟨-, hnew⟩
  · exact hc.slots _ _ (Connection.grow_some.mp hslot)
  · rw [hnew]
    exact new_lined request_speaks h junk

theorem settle_laid (hc : Laid c) {requestId : Nat} (h0 : requestId ≠ 0) {h : Handled}
    (hr : Lined Ready Given h.request) : Laid (c.settle requestId h) where
  slots := by
    intro k r hk
    rcases (Connection.settle_slot c h0 h k r).mp hk with ⟨-, rfl⟩ | ⟨-, hk⟩
    · exact hr
    · exact hc.slots k r hk
  result := by
    cases h <;> exact hc.result

section
variable {P : Packet → Prop} (hG : Buffers p P (Prefilled .getValuesResult))
include hG

theorem serializeSizeTo_emits {o : Ostream} (ho : Prefilled .getValuesResult o.internal)
    (size : Nat) :
    Emits P (Connection.serializeSizeTo p o size)
      fun o => Prefilled .getValuesResult o.internal := by
  unfold Connection.serializeSizeTo
  split
  · exact write_emits hG ho _
  · exact .crash _ _

theorem serializeTo_emits {o : Ostream} (ho : Prefilled .getValuesResult o.internal)
    (key val : List Byte) :
    Emits P (Connection.serializeTo p o key val)
      fun o => Prefilled .getValuesResult o.internal := by
  refine Emits.bind (serializeSizeTo_emits hG ho _) fun o ho => ?_
  refine Emits.bind (serializeSizeTo_emits hG ho _) fun o ho => ?_
  exact Emits.bind (write_emits hG ho _) fun o ho => write_emits hG ho _

omit hG in
theorem syslogKey_emits (buffer : List Byte) :
    Emits P (Connection.syslogKey buffer) fun _ => True := by
  unfold Connection.syslogKey
  split
  · exact .pure trivial
  · exact .crash _ _

theorem newKey_emits {o : Ostream} (ho : Prefilled .getValuesResult o.internal) (pair : Pair)
    (buffer : List Byte) :
    Emits P (Connection.newKey p o pair buffer)
      fun o => Prefilled .getValuesResult o.internal := by
  refine Emits.bind (Q := fun o => Prefilled .getValuesResult o.internal) ?_ fun o ho =>
    Emits.bind (syslogKey_emits buffer) fun _ _ => .pure ho
  unfold Connection.answerKey
  split
  · exact serializeTo_emits hG ho _ _
  · split
    · exact serializeTo_emits hG ho _ _
    · split
      · exact serializeTo_emits hG ho _ _
      · exact Emits.bind (syslogKey_emits buffer) fun _ _ => .pure ho

theorem newKeys_emits (views : List (Pair × List Byte)) {o : Ostream}
    (ho : Prefilled .getValuesResult o.internal) :
    Emits P (Connection.newKeys p o views) fun o => Prefilled .getValuesResult o.internal := by
  induction views generalizing o with
  | nil => exact .pure ho
  | cons view views ih => exact Emits.bind (newKey_emits hG ho _ _) fun o ho => ih ho

theorem getValues_emits (hc : Laid c) (data : List Byte) : Emits P (c.getValues p data) Laid := by
  refine Emits.bind (.fed _ _) fun _ _ => ?_
  refine Emits.bind (newKeys_emits hG _ hc.result) fun o ho => ?_
  split
  · exact Emits.bind (close_emits hG ho) fun o ho => .pure ⟨hc.slots, ho⟩
  · exact .pure ⟨hc.slots, ho⟩
  · exact .crash _ _
  · exact .crash _ _

theorem destroy_emits (hc : Laid c) : Emits P (c.destroy p) Laid := by
  refine Emits.bind (close_emits hG hc.result) fun o ho => ?_
  exact Emits.bind (buffer_emits hG ho) fun _ _ => .pure ⟨hc.slots, ho⟩

end

theorem dispatch_emits (hc : Laid c) {requestId : Nat} (hlt : requestId < 65536) {junk : Junk}
    {k : Ipacket} {s s' : Sock} {tx : Tx Connection.Settled} {k' : Option Ipacket}
    (h : c.dispatch p junk requestId k s = .ok (tx, k') s') :
    Emits WellFormed tx fun _ => True := by
  unfold Connection.dispatch at h
  by_cases h0 : requestId = 0
  · subst h0
    rw [if_neg (by simp)] at h
    cases ht : k.header.recType with
    | getValues =>
      simp only [ht] at h
      obtain ⟨data, s₁, -, h⟩ := Rd.bind_eq_ok h
      cases h
      exact Emits.bind (getValues_emits (prefilled_buffers rfl) hc data) fun _ _ => .pure trivial
    | _ =>
      simp only [ht] at h
      cases h
      have hunknown : WellFormed (Request.unknownTypePacket p 0 k.header.type) :=
        unknownType_wellFormed (by decide) _
      exact Emits.bind (sendOrThrow_emits hunknown) fun _ _ => .pure trivial
  · rw [if_pos h0] at h
    obtain ⟨⟨tx', k₁⟩, s₁, hh, h⟩ := Rd.bind_eq_ok h
    cases h
    have hl := slot_lined (p := p) hc ⟨h0, hlt⟩ junk
    have htx : Emits WellFormed tx' fun hd => Lined Ready Given hd.request := fun φ =>
      handles_emits request_speaks hl (Request.handlePacket_handles hh φ)
        fun byte _ => unknownType_wellFormed hl.id.2 byte
    exact Emits.bind htx fun _ _ => .pure trivial

theorem dispatched_laid (hc : Laid c) {junk : Junk} {φ : Fate} {c' : Connection}
    {did : Option (Nat × Handled)} {log : List Event}
    (h : Connection.Dispatched p junk φ c c' did log) : Laid c' := by
  cases h with
  | request requestId h log pos lt handles =>
    have hl := slot_lined (p := p) hc ⟨pos, lt⟩ junk
    obtain ⟨-, hlined⟩ := handles_emits request_speaks hl handles
      fun byte _ => unknownType_wellFormed hl.id.2 byte
    exact settle_laid hc pos (hlined h rfl)
  | getValues data c' log gave =>
    exact ((getValues_emits (prefilled_buffers rfl) hc data).did gave).2
  | unknown type log gave => exact hc

theorem turn_emits (hc : Laid c) (junk : Junk) (φ : Fate) :
    ∀ pkt ∈ packets (Content.did (c.turn p junk φ)), WellFormed pkt := by
  have hnone : ∀ pkt ∈ packets [], WellFormed pkt := nofun
  unfold Connection.turn
  split
  · exact hnone
  · exact hnone
  · split
    · split
      · exact hnone
      · exact hnone
      · rename_i k s _ _ tx k' s' hd
        obtain ⟨hp, -⟩ := dispatch_emits hc (U16.load_lt _ _) hd φ
        unfold Connection.finish
        split
        · rename_i crash log htx
          rwa [htx] at hp
        · rename_i c₁ did log htx
          rw [htx] at hp
          split
          · exact hnone
          · exact hp
          · exact hp
    · split
      · exact hnone
      · exact hnone
      · exact hnone

theorem Laid.free (hc : Laid c) (i : Nat) : Laid { c with requests := c.requests.set i none } where
  slots := by
    intro k r hk
    rw [List.getElem?_set] at hk
    split at hk
    · split at hk <;> cases hk
    · exact hc.slots k r hk
  result := hc.result

section
variable {P : Packet → Prop} (hS : Speaks p P Ready Given)
include hS

theorem tearDown_emits (hc : Laid c) (i : Nat) : Emits P (c.tearDown p i) Laid := by
  unfold Connection.tearDown
  split
  · exact .pure hc
  · rename_i r hr
    have hfree := hc.free i
    have hl := hc.slots i r (Connection.getD_eq_some.mp hr)
    split
    · exact Emits.bind (request_emits hS hl) fun _ _ => .pure ⟨hfree.slots, hfree.result⟩
    · exact Emits.bind (request_emits hS hl) fun _ _ => .pure hfree
    · exact .pure hc

theorem clearSlot_emits (hc : Laid c) (i : Nat) : Emits P (c.clearSlot p i) Laid := by
  unfold Connection.clearSlot
  split
  · exact .pure hc
  · rename_i r hr
    have hl := hc.slots i r (Connection.getD_eq_some.mp hr)
    exact Emits.bind (request_emits hS hl) fun _ _ => .pure (hc.free i)

end

end

/-! ## Runs -/

def LaidAll (s : Sys) : Prop := ∀ n ∈ s.conns, Laid n.connection

theorem init_laid (m : Nat) : LaidAll (.init m) := by
  intro n hn
  cases hn

/-- What a step of the thread of a connection does, also when it is the last step. -/
def connDid (p : Params) (n : Conn) (junk : Junk) (φ : Fate) : List Event :=
  match n.pc with
  | .reading => if n.connection.sock.insane then Content.did (n.connection.turn p junk φ) else []
  | .tearingDown k =>
    if k < n.connection.requests.length then (n.connection.tearDown p k φ).2 else []
  | .clearing k =>
    if k < n.connection.requests.length then (n.connection.clearSlot p k φ).2
    else (n.connection.destroy p φ).2
  | _ => []

def useDid {α : Type} (s : Sys) (ref : Ref) (φ : Fate) (use : Request → Option (Tx α)) :
    List Event :=
  match s.request? ref with
  | none => []
  | some r =>
    match use r with
    | none => []
    | some tx => (tx φ).2

/-- What a step does on connection `i`. -/
def did (p : Params) (s : Sys) (i : Nat) : System.Act → List Event
  | .conn j junk φ _ =>
    match s.conns[j]? with
    | none => []
    | some n => if j = i then connDid p n junk φ else []
  | .worker w φ =>
    match s.workers[w]? with
    | none => []
    | some pc =>
      match pc.request? with
      | none => []
      | some ref => if ref.conn = i then useDid s ref φ fun r => workRequest p r pc else []
  | .app w op φ =>
    match s.workers[w]? with
    | some (.running ref) => if ref.conn = i then useDid s ref φ fun r => appOp p r op else []
    | _ => []
  | .finish w how φ =>
    match s.workers[w]? with
    | some (.running ref) =>
      if ref.conn = i then useDid s ref φ fun r => some (callbackEnds p r how) else []
    | _ => []
  | _ => []

/-- The step is a pass of the loop of connection `i`. -/
def Pass (s : Sys) (i : Nat) (a : System.Act) : Prop :=
  ∃ junk φ notified n, a = .conn i junk φ notified ∧ s.conns[i]? = some n ∧ n.pc = .reading

theorem useDid_emits {α : Type} {P : Packet → Prop} {s : Sys} (hs : LaidAll s) (ref : Ref)
    (φ : Fate) {use : Request → Option (Tx α)} {Q : α → Prop}
    (huse : ∀ r tx, Lined Ready Given r → use r = some tx → Emits P tx Q) :
    ∀ pkt ∈ packets (useDid s ref φ use), P pkt := by
  have hnone : ∀ pkt ∈ packets [], P pkt := nofun
  unfold useDid
  split
  · exact hnone
  · rename_i r hr
    obtain ⟨n, hn, hslot⟩ := Sys.request?_eq_some.mp hr
    have hl := (hs n (List.mem_of_getElem? hn)).slots ref.slot r hslot
    split
    · exact hnone
    · rename_i tx htx
      exact (huse r tx hl htx φ).1

/-- Each packet of each step, where it holds of those of a pass. -/
theorem did_emits {P : Packet → Prop} (hS : Speaks p P Ready Given)
    (hG : Buffers p P (Prefilled .getValuesResult)) {s : Sys} (hs : LaidAll s) (i : Nat)
    (a : System.Act) (hpass : Pass s i a → ∀ pkt ∈ packets (did p s i a), P pkt) :
    ∀ pkt ∈ packets (did p s i a), P pkt := by
  have hnone : ∀ pkt ∈ packets [], P pkt := nofun
  cases a with
  | conn j junk φ notified =>
    by_cases hp : Pass s i (.conn j junk φ notified)
    · exact hpass hp
    · simp only [did]
      split
      · exact hnone
      · rename_i n hn
        split
        · rename_i hj
          subst hj
          have hc := hs n (List.mem_of_getElem? hn)
          cases hpc : n.pc with
          | reading => exact absurd ⟨junk, φ, notified, n, rfl, hn, hpc⟩ hp
          | tearingDown k =>
            simp only [connDid, hpc]
            split
            · exact (tearDown_emits hS hc k φ).1
            · exact hnone
          | clearing k =>
            simp only [connDid, hpc]
            split
            · exact (clearSlot_emits hS hc k φ).1
            · exact (destroy_emits hG hc φ).1
          | _ =>
            simp only [connDid, hpc]
            exact hnone
        · exact hnone
  | worker w φ =>
    simp only [did]
    split
    · exact hnone
    · split
      · exact hnone
      · split
        · exact useDid_emits hs _ φ fun r tx hr => workRequest_emits hS hr
        · exact hnone
  | app w op φ =>
    simp only [did]
    split
    · split
      · exact useDid_emits hs _ φ fun r tx hr => appOp_emits hS hr
      · exact hnone
    · exact hnone
  | finish w how φ =>
    simp only [did]
    split
    · split
      · refine useDid_emits hs _ φ (Q := fun x => Lined Ready Given x.1) ?_
        rintro r tx hr ⟨⟩
        exact callbackEnds_emits hS hr how
      · exact hnone
    · exact hnone
  | _ => exact hnone

/-- Each packet of each step. -/
theorem did_wellFormed {s : Sys} (hs : LaidAll s) (i : Nat) (a : System.Act) :
    ∀ pkt ∈ packets (did p s i a), WellFormed pkt := by
  refine did_emits request_speaks (prefilled_buffers rfl) hs i a ?_
  rintro ⟨junk, φ, notified, n, rfl, hn, hpc⟩
  simp only [did, hn, if_true, connDid, hpc]
  split
  · exact turn_emits (hs n (List.mem_of_getElem? hn)) junk φ
  · exact nofun

section
variable {s s' : Sys} {i : Nat} {n : Conn}

theorem LaidAll.conn (hs : LaidAll s) (hn : s.conns[i]? = some n) : Laid n.connection :=
  hs n (List.mem_of_getElem? hn)

theorem LaidAll.congr (hs : LaidAll s) (h : s'.conns = s.conns) : LaidAll s' := by
  unfold LaidAll
  rwa [h]

theorem LaidAll.set (hs : LaidAll s) (h : s'.conns = s.conns.set i n) (hn : Laid n.connection) :
    LaidAll s' := by
  intro x hx
  rw [h] at hx
  rcases List.mem_or_eq_of_mem_set hx with hx | rfl
  · exact hs x hx
  · exact hn

theorem Laid.put {c : Connection} (hc : Laid c) {r : Request} (hr : Lined Ready Given r)
    (slot : Nat) : Laid { c with requests := c.requests.set slot (some r) } where
  slots := by
    intro k x hk
    rw [List.getElem?_set] at hk
    split at hk
    · split at hk
      · cases hk
        exact hr
      · cases hk
    · exact hc.slots k x hk
  result := hc.result

theorem resetParams_laid {c : Connection} (hc : Laid c) (slot : Nat) :
    Laid (Sys.resetParams c slot) := by
  unfold Sys.resetParams
  split
  · exact hc
  · rename_i r hr
    have hl := hc.slots slot r (Connection.getD_eq_some.mp hr)
    have hreset : Lined Ready Given { r with paramsDeserializer := none } := hl.congr rfl rfl rfl
    exact hc.put hreset slot

theorem effect_laid {a : System.Act} (hs : LaidAll s) (h : Sys.Effect p s a s') : LaidAll s' := by
  cases h with
  | crash a c => exact hs.congr rfl
  | quiet a s' conns queue held down log busy => exact hs.congr conns
  | accept junk s' conns queue workers down log =>
    intro x hx
    rw [conns] at hx
    rcases List.mem_append.mp hx with hx | hx
    · exact hs x hx
    · obtain rfl := List.mem_singleton.mp hx
      exact connection_laid junk
  | arrive i n r sock conn => exact hs.set rfl ((hs.conn conn).sock sock)
  | turn i n junk φ notified c sock did log conn pc dispatched =>
    have hc := (dispatched_laid (hs.conn conn) dispatched).sock sock
    unfold Sys.afterTurn
    split
    · exact hs.set rfl hc
    · exact hs.set rfl hc
  | move i n junk φ notified sock pc conn moves => exact hs.set rfl ((hs.conn conn).sock sock)
  | backlog i n junk φ notified ref s' conn pc conns queue workers down log =>
    have hc := hs.conn conn
    exact hs.set conns hc
  | push i n junk φ notified ref s' conn pc conns queue held down log busy =>
    have hc := hs.conn conn
    exact hs.set conns hc
  | reset i n junk φ notified ref conn pc =>
    exact hs.set rfl (resetParams_laid (hs.conn conn) ref.slot)
  | tear i n junk φ notified k c log conn pc lt tore =>
    exact hs.set rfl ((tearDown_emits request_speaks (hs.conn conn) k).did tore).2
  | clear i n junk φ notified k c log conn pc lt cleared =>
    exact hs.set rfl ((clearSlot_emits request_speaks (hs.conn conn) k).did cleared).2
  | erase i n junk φ notified k c log s' conn pc le destroyed conns queue workers down log_eq =>
    exact hs.set conns ((destroy_emits (prefilled_buffers rfl) (hs.conn conn)).did destroyed).2
  | pop w φ pc ref queue s' worker free queue_eq conns queue' workers down log =>
    exact hs.congr conns
  | work a w ref r r' pc pc' got log worker request worked =>
    obtain ⟨n, hn, hslot⟩ := Sys.request?_eq_some.mp request
    have hc := hs.conn hn
    obtain ⟨-, hr⟩ := worked_lined request_speaks (hc.slots ref.slot r hslot) worked
    exact hs.set (Sys.setRequest_conns hn r') (hc.put hr ref.slot)
  | decrement w φ ref n worker conn =>
    exact hs.set rfl ⟨(hs.conn conn).slots, (hs.conn conn).result⟩

end

/-- The packets that a run gives to `send_packet` of connection `i`. -/
def wire (p : Params) (i : Nat) : Sys → List System.Act → List Packet
  | _, [] => []
  | s, a :: as =>
    match Sys.step p s a with
    | none => []
    | some s' => packets (did p s i a) ++ wire p i s' as

theorem wire_wellFormed (i : Nat) {s : Sys} (hs : LaidAll s) (as : List System.Act) :
    ∀ pkt ∈ wire p i s as, WellFormed pkt := by
  induction as generalizing s with
  | nil => exact nofun
  | cons a as ih =>
    unfold wire
    split
    · exact nofun
    · rename_i s' h
      intro pkt hpkt
      rcases List.mem_append.mp hpkt with hpkt | hpkt
      · exact did_wellFormed hs i a pkt hpkt
      · exact ih (effect_laid hs (Sys.step_effect h).2) pkt hpkt

/-- **Well-formed output**, for every run and whatever the sends come to. -/
theorem wellFormed (p : Params) (workers : Nat) (as : List System.Act) (i : Nat) :
    ∀ pkt ∈ wire p i (.init workers) as, WellFormed pkt :=
  wire_wellFormed i (init_laid workers) as

theorem wellFormed_served : ∃ pkt, pkt ∈ wire .standard 0 (.init 1) served ∧ WellFormed pkt := by
  have hsome : (wire .standard 0 (.init 1) served).head?.isSome = true := by decide +kernel
  obtain ⟨pkt, hhead⟩ := Option.isSome_iff_exists.mp hsome
  have hpkt := List.mem_of_head? hhead
  exact ⟨pkt, hpkt, wellFormed .standard 1 served 0 pkt hpkt⟩

end Tfcgi.Wire
