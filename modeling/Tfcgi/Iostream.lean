import Tfcgi.NameValuePairs
import Tfcgi.Socket

/-!
# `src/iostream.cpp`: the stream buffers and the streams

Code that sends is a `Tx`: it is given the outcome of each of its `send_packet`
calls and leaves a log of them. An exception in a destructor ends the process.
`std::ostream` catches what its buffer throws and sets `badbit`; a stream without
a buffer has `badbit` set.

* `sputn_puts`: what is put into a buffer is sent or still pending, in order;
* `write_good`, `flush_good`, `close_attached`: what a stream does with it;
* `write_sound`, `flush_sound`: these never bring the process down, whatever the
  sends do.
-/

namespace Tfcgi.Iostream

open Tfcgi.HostOrder Tfcgi.Protocol Tfcgi.NameValuePairs Tfcgi.SendPacket Tfcgi.Socket

/-- What the code of a thread did. -/
inductive Event where
  | sent (pkt : Packet) (outcome : SendOutcome)
  /-- characters were given to a stream that is not closed -/
  | wrote (type : RecType) (bytes : List Byte)
  /-- the content of a record was given to the parser or the queue for its type -/
  | fed (type : RecType) (bytes : List Byte)
  deriving DecidableEq, Repr

def Event.body : Event → List Byte
  | .sent pkt _ => pkt.body
  | .wrote _ _ => []
  | .fed _ _ => []

/-- Why `std::terminate` is called, or that the behaviour is undefined. -/
inductive Crash where
  /-- an exception leaves a thread function -/
  | uncaught (e : Exn)
  /-- an exception leaves `~ostreambuf` -/
  | destructor (e : Errno)
  | undefined (f : Fault)
  /-- a destroyed `Request` or `Connection` is used -/
  | useAfterFree
  deriving DecidableEq, Repr

/-- The outcome of the `n`-th `send_packet` call of a piece of code. -/
abbrev Fate := Nat → Packet → SendOutcome

/-- Every send succeeds. -/
def Fate.sent : Fate := fun _ _ => .sent

def sends (es : List Event) : Nat := es.countP fun
  | .sent _ _ => true
  | .wrote _ _ => false
  | .fed _ _ => false

/-- Code that sends. -/
def Tx (α : Type) : Type := Fate → Except Crash α × List Event

namespace Tx

def pure {α : Type} (a : α) : Tx α := fun _ => (.ok a, [])

def bind {α β : Type} (m : Tx α) (f : α → Tx β) : Tx β := fun φ =>
  match m φ with
  | (.error c, es) => (.error c, es)
  | (.ok a, es) =>
    let r := f a fun n => φ (n + sends es)
    (r.1, es ++ r.2)

instance : Monad Tx where
  pure := Tx.pure
  bind := Tx.bind

def crash {α : Type} (c : Crash) : Tx α := fun _ => (.error c, [])

/-- `Connection::send_packet`. -/
def send (pkt : Packet) : Tx SendOutcome := fun φ => (.ok (φ 0 pkt), [.sent pkt (φ 0 pkt)])

def note (e : Event) : Tx Unit := fun _ => (.ok (), [e])

theorem bind_ok {α β : Type} {m : Tx α} {f : α → Tx β} {φ : Fate} {a : α} {es : List Event}
    (h : m φ = (.ok a, es)) :
    (m >>= f) φ = ((f a fun n => φ (n + sends es)).1, es ++ (f a fun n => φ (n + sends es)).2) := by
  change Tx.bind m f φ = _
  simp only [Tx.bind, h]

theorem bind_error {α β : Type} {m : Tx α} {f : α → Tx β} {φ : Fate} {c : Crash}
    {es : List Event} (h : m φ = (.error c, es)) : (m >>= f) φ = (.error c, es) := by
  change Tx.bind m f φ = _
  simp only [Tx.bind, h]

theorem bind_eq_ok {α β : Type} {m : Tx α} {f : α → Tx β} {φ : Fate} {b : β} {es : List Event}
    (h : (m >>= f) φ = (.ok b, es)) :
    ∃ a es₁ es₂, m φ = (.ok a, es₁) ∧ f a (fun n => φ (n + sends es₁)) = (.ok b, es₂) ∧
      es = es₁ ++ es₂ := by
  cases hm : m φ with
  | mk result es₁ =>
    cases result with
    | error c =>
      rw [bind_error hm] at h
      cases h
    | ok a =>
      rw [bind_ok hm] at h
      simp only [Prod.mk.injEq] at h
      exact ⟨a, es₁, _, rfl, Prod.ext h.1 rfl, h.2.symm⟩

theorem pure_apply {α : Type} (a : α) (φ : Fate) : (Pure.pure a : Tx α) φ = (.ok a, []) := rfl

theorem bind_return {α β : Type} {m : Tx α} {f : α → Tx β} {g : α → β} {φ : Fate} {b : β}
    {es : List Event} (hf : ∀ a, f a = Pure.pure (g a)) (h : (m >>= f) φ = (.ok b, es)) :
    ∃ a, m φ = (.ok a, es) ∧ b = g a := by
  obtain ⟨a, es₁, es₂, hm, hb, rfl⟩ := bind_eq_ok h
  rw [hf, pure_apply] at hb
  cases hb
  exact ⟨a, by rw [hm, List.append_nil], rfl⟩

theorem bind_return_error {α β : Type} {m : Tx α} {f : α → Tx β} {g : α → β} {φ : Fate}
    {c : Crash} {es : List Event} (hf : ∀ a, f a = Pure.pure (g a))
    (h : (m >>= f) φ = (.error c, es)) : m φ = (.error c, es) := by
  cases hm : m φ with
  | mk result es₁ =>
    cases result with
    | error c' =>
      rw [bind_error hm] at h
      cases h
      rfl
    | ok a =>
      rw [bind_ok hm, hf, pure_apply] at h
      cases h

/-- Behind a part that does not send, the outcomes are the same. -/
theorem bind_quiet {α β : Type} {m : Tx α} {f : α → Tx β} {φ : Fate} {a : α} {es : List Event}
    (h : m φ = (.ok a, es)) (hs : sends es = 0) :
    (m >>= f) φ = ((f a φ).1, es ++ (f a φ).2) := by
  rw [bind_ok h, hs]
  rfl

/-- With sends that all succeed, parts are put one behind the other. -/
theorem bind_sent {α β : Type} {m : Tx α} {f : α → Tx β} {a : α} {es : List Event}
    (h : m Fate.sent = (.ok a, es)) :
    (m >>= f) Fate.sent = ((f a Fate.sent).1, es ++ (f a Fate.sent).2) := by
  rw [bind_ok h]
  rfl

end Tx

/-! ## `fcgi::ostreambuf` -/

structure Ostreambuf where
  /-- `send_buffer.header`; `contentLength` is set by each send -/
  header : Header
  /-- from `pbase()` to `pptr()` -/
  pending : List Byte
  sendEof : Bool
  deriving DecidableEq, Repr

namespace Ostreambuf

/-- `sizeof(send_buffer.data)`. -/
def capacity : Nat := 4096

def new (p : Params) (requestId : Nat) (type : RecType) : Ostreambuf where
  header :=
    { version := 1
      type := type.toByte
      requestId := .store p.host (ntohs p.host requestId)
      contentLength := ⟨0, 0⟩
      paddingLength := 0
      reserved := 0 }
  pending := []
  sendEof := false

/-- `pkt_type()`. -/
def pktType (b : Ostreambuf) : RecType := b.header.recType

/-- `requestId()`: the field as it is in memory, in network byte order. -/
def requestId (p : Params) (b : Ostreambuf) : Nat := b.header.requestId.load p.host

/-- What `send_packet(&send_buffer.header,contentLength)` sends; on a 64-bit target
`sizeof(buffer)` is the size of the header. -/
def packet (p : Params) (b : Ostreambuf) (data : List Byte) : Packet where
  header := { b.header with contentLength := .store p.host (ntohs p.host data.length) }
  body := data

/-- The second result is the `errno` of the `system_error` that is thrown. -/
def sync (p : Params) (b : Ostreambuf) : Tx (Ostreambuf × Option Errno) :=
  if b.pending = [] then return (b, none)
  else do
    match ← Tx.send (b.packet p b.pending) with
    | .failed e => return ({ b with pending := [] }, some e)
    | _ => return ({ b with pending := [], sendEof := true }, none)

/-- `none` stands for `traits_type::eof()`. -/
def overflow (p : Params) (b : Ostreambuf) (c : Option Byte) : Tx (Ostreambuf × Option Errno) := do
  match ← b.sync p with
  | (b, some e) => return (b, some e)
  | (b, none) =>
    match c with
    | none => return (b, none)
    | some c => return ({ b with pending := [c] }, none)

/-- `std::streambuf::sputn`, which calls `overflow` when the buffer is full. -/
def sputn (p : Params) : Ostreambuf → List Byte → Tx (Ostreambuf × Option Errno)
  | b, [] => return (b, none)
  | b, c :: cs =>
    if b.pending.length < capacity then sputn p { b with pending := b.pending ++ [c] } cs
    else do
      match ← b.overflow p (some c) with
      | (b, some e) => return (b, some e)
      | (b, none) => sputn p b cs

/-- The destructor. -/
def destroy (p : Params) (b : Ostreambuf) : Tx Unit := do
  match ← b.sync p with
  | (_, some e) => Tx.crash (.destructor e)
  | (b, none) =>
    if b.sendEof then
      match ← Tx.send (b.packet p []) with
      | .failed e => Tx.crash (.destructor e)
      | _ => return ()
    else return ()

/-- A failed send has rewound the buffer before it throws. -/
theorem sync_cases (p : Params) (b : Ostreambuf) (φ : Fate) :
    (b.pending = [] ∧ b.sync p φ = (.ok (b, none), [])) ∨
    (b.pending ≠ [] ∧ ∃ e, φ 0 (b.packet p b.pending) = .failed e ∧
      b.sync p φ = (.ok ({ b with pending := [] }, some e),
        [.sent (b.packet p b.pending) (.failed e)])) ∨
    (b.pending ≠ [] ∧ ∃ o, φ 0 (b.packet p b.pending) = o ∧ (∀ e, o ≠ .failed e) ∧
      b.sync p φ = (.ok ({ b with pending := [], sendEof := true }, none),
        [.sent (b.packet p b.pending) o])) := by
  unfold sync
  by_cases hp : b.pending = []
  · exact Or.inl ⟨hp, by rw [if_pos hp]; rfl⟩
  · rw [if_neg hp, Tx.bind_ok (rfl : Tx.send (b.packet p b.pending) φ = _)]
    cases ho : φ 0 (b.packet p b.pending) with
    | sent => exact Or.inr (Or.inr ⟨hp, _, rfl, by simp, rfl⟩)
    | gone => exact Or.inr (Or.inr ⟨hp, _, rfl, by simp, rfl⟩)
    | failed e => exact Or.inr (Or.inl ⟨hp, e, rfl, rfl⟩)

/-- `bytes` were put into the buffer `b`, which left `es` and `b'`; `err` is the
exception. -/
structure Puts (p : Params) (φ : Fate) (b : Ostreambuf) (bytes : List Byte) (b' : Ostreambuf)
    (err : Option Errno) (es : List Event) : Prop where
  header : b'.header = b.header
  room : b'.pending.length ≤ capacity
  records : ∀ e ∈ es, ∃ data o, e = .sent (b.packet p data) o ∧ data ≠ [] ∧
    data.length ≤ capacity
  outcomes : ∀ pkt o, .sent pkt o ∈ es → ∃ n, o = φ n pkt
  /-- no byte is lost or repeated -/
  flow : err = none → b.pending ++ bytes = es.flatMap Event.body ++ b'.pending
  eof : err = none → b'.sendEof = (b.sendEof || !es.isEmpty)
  rewound : err ≠ none → b'.pending = []
  failed : err ≠ none → ∃ pkt e, .sent pkt (.failed e) ∈ es

theorem Puts.trans {p : Params} {φ : Fate} {b b₁ b' : Ostreambuf} {bytes bytes' : List Byte}
    {err : Option Errno} {es es' : List Event} (h : Puts p φ b bytes b₁ none es)
    (h' : Puts p (fun n => φ (n + sends es)) b₁ bytes' b' err es') :
    Puts p φ b (bytes ++ bytes') b' err (es ++ es') := by
  have hpacket : ∀ data, b₁.packet p data = b.packet p data := by
    intro data
    simp only [packet, h.header]
  refine ⟨h'.header.trans h.header, h'.room, ?_, ?_, ?_, ?_, h'.rewound, ?_⟩
  · intro e he
    rcases List.mem_append.mp he with he | he
    · exact h.records e he
    · obtain ⟨data, o, rfl, hd⟩ := h'.records e he
      exact ⟨data, o, by rw [hpacket], hd⟩
  · intro pkt o ho
    rcases List.mem_append.mp ho with ho | ho
    · exact h.outcomes pkt o ho
    · obtain ⟨n, hn⟩ := h'.outcomes pkt o ho
      exact ⟨n + sends es, hn⟩
  · intro he
    rw [← List.append_assoc, h.flow rfl, List.append_assoc, h'.flow he, List.flatMap_append,
      List.append_assoc]
  · intro he
    rw [h'.eof he, h.eof rfl]
    cases es <;> simp
  · intro he
    obtain ⟨pkt, e, hm⟩ := h'.failed he
    exact ⟨pkt, e, List.mem_append_right es hm⟩

/-- After an exception the bytes that were to be put are of no account. -/
theorem Puts.failing {p : Params} {φ : Fate} {b b' : Ostreambuf} {bytes : List Byte} {e : Errno}
    {es : List Event} (h : Puts p φ b bytes b' (some e) es) (bytes' : List Byte) :
    Puts p φ b bytes' b' (some e) es :=
  ⟨h.header, h.room, h.records, h.outcomes, fun he => absurd he (by simp),
    fun he => absurd he (by simp), h.rewound, h.failed⟩

theorem sync_puts (p : Params) {b : Ostreambuf} (hb : b.pending.length ≤ capacity) (φ : Fate) :
    ∃ b' err es, b.sync p φ = (.ok (b', err), es) ∧ Puts p φ b [] b' err es ∧ b'.pending = [] := by
  rcases b.sync_cases p φ with ⟨hp, hs⟩ | ⟨hp, e, he, hs⟩ | ⟨hp, o, ho, hne, hs⟩
  · refine ⟨_, _, _, hs,
      ⟨rfl, hb, by simp, by simp, fun _ => by simp, fun _ => by simp, ?_, ?_⟩, hp⟩
    · exact fun h => absurd rfl h
    · exact fun h => absurd rfl h
  · refine ⟨_, _, _, hs, ⟨rfl, by simp, ?_, ?_, ?_, ?_, fun _ => rfl, ?_⟩, rfl⟩
    · simp only [List.mem_singleton, forall_eq]
      exact ⟨b.pending, _, rfl, hp, hb⟩
    · simp only [List.mem_singleton, Event.sent.injEq]
      rintro pkt o ⟨rfl, rfl⟩
      exact ⟨0, he.symm⟩
    · exact fun h => absurd h (by simp)
    · exact fun h => absurd h (by simp)
    · exact fun _ => ⟨b.packet p b.pending, e, by simp⟩
  · refine ⟨_, _, _, hs, ⟨rfl, by simp, ?_, ?_, ?_, ?_, fun _ => rfl, ?_⟩, rfl⟩
    · simp only [List.mem_singleton, forall_eq]
      exact ⟨b.pending, _, rfl, hp, hb⟩
    · simp only [List.mem_singleton, Event.sent.injEq]
      rintro pkt o' ⟨rfl, rfl⟩
      exact ⟨0, ho.symm⟩
    · exact fun _ => by simp [Event.body, packet]
    · exact fun _ => by simp
    · exact fun h => absurd rfl h

theorem overflow_puts (p : Params) {b : Ostreambuf} (hb : b.pending.length ≤ capacity) (c : Byte)
    (φ : Fate) :
    ∃ b' err es, b.overflow p (some c) φ = (.ok (b', err), es) ∧ Puts p φ b [c] b' err es := by
  obtain ⟨b₁, err, es, hs, hputs, hempty⟩ := sync_puts p hb φ
  cases err with
  | some e =>
    refine ⟨b₁, some e, es, ?_, hputs.failing [c]⟩
    unfold overflow
    rw [Tx.bind_ok hs]
    simp [Tx.pure_apply]
  | none =>
    refine ⟨{ b₁ with pending := [c] }, none, es, ?_, ⟨hputs.header, by simp [capacity],
      hputs.records, hputs.outcomes, ?_, hputs.eof, ?_, ?_⟩⟩
    · unfold overflow
      rw [Tx.bind_ok hs]
      simp [Tx.pure_apply]
    · intro _
      have hflow := hputs.flow rfl
      rw [hempty, List.append_nil, List.append_nil] at hflow
      rw [hflow]
    · exact fun h => absurd rfl h
    · exact fun h => absurd rfl h

theorem sputn_puts (p : Params) (bytes : List Byte) {b : Ostreambuf}
    (hb : b.pending.length ≤ capacity) (φ : Fate) :
    ∃ b' err es, b.sputn p bytes φ = (.ok (b', err), es) ∧ Puts p φ b bytes b' err es := by
  induction bytes generalizing b φ with
  | nil =>
    refine ⟨b, none, [], rfl,
      ⟨rfl, hb, by simp, by simp, fun _ => by simp, fun _ => by simp, ?_, ?_⟩⟩
    · exact fun h => absurd rfl h
    · exact fun h => absurd rfl h
  | cons c cs ih =>
    unfold sputn
    by_cases hroom : b.pending.length < capacity
    · rw [if_pos hroom]
      have hstore : Puts p φ b [c] { b with pending := b.pending ++ [c] } none [] :=
        ⟨rfl, by simp only [List.length_append, List.length_singleton]; omega, by simp, by simp,
          fun _ => by simp, fun _ => by simp, fun h => absurd rfl h, fun h => absurd rfl h⟩
      obtain ⟨b', err, es, hs, hputs⟩ := ih hstore.room φ
      exact ⟨b', err, es, hs, hstore.trans hputs⟩
    · rw [if_neg hroom]
      obtain ⟨b₁, err, es, hs, hputs⟩ := overflow_puts p hb c φ
      cases err with
      | some e =>
        refine ⟨b₁, some e, es, ?_, hputs.failing (c :: cs)⟩
        rw [Tx.bind_ok hs]
        simp [Tx.pure_apply]
      | none =>
        obtain ⟨b', err, es', hs', hputs'⟩ := ih hputs.room fun n => φ (n + sends es)
        refine ⟨b', err, es ++ es', ?_, hputs.trans hputs'⟩
        rw [Tx.bind_ok hs]
        simp only [hs']

theorem destroy_empty (p : Params) {b : Ostreambuf} (h : b.pending = []) (φ : Fate) :
    b.destroy p φ =
      if b.sendEof then
        match φ 0 (b.packet p []) with
        | .failed e => (.error (.destructor e), [.sent (b.packet p []) (.failed e)])
        | o => (.ok (), [.sent (b.packet p []) o])
      else (.ok (), []) := by
  have hs : b.sync p φ = (.ok (b, none), []) := by
    simp only [sync, h, if_true]
    rfl
  unfold destroy
  rw [Tx.bind_quiet hs rfl]
  cases he : b.sendEof with
  | false => simp only [he, Bool.false_eq_true, if_false, Tx.pure_apply, List.nil_append]
  | true =>
    simp only [he, if_true, List.nil_append]
    rw [Tx.bind_ok (rfl : Tx.send (b.packet p []) φ = _)]
    cases φ 0 (b.packet p []) <;> rfl

theorem Puts.sent {p : Params} {b b' : Ostreambuf} {bytes : List Byte} {err : Option Errno}
    {es : List Event} (h : Puts p Fate.sent b bytes b' err es) : err = none := by
  by_contra hne
  obtain ⟨pkt, e, hm⟩ := h.failed hne
  obtain ⟨n, hn⟩ := h.outcomes pkt _ hm
  cases hn

end Ostreambuf

/-! ## `fcgi::ostream` -/

structure Ostream where
  internal : Ostreambuf
  /-- `rdbuf()` is the internal buffer; it is `NULL` otherwise -/
  attached : Bool
  badbit : Bool
  deriving DecidableEq, Repr

namespace Ostream

def new (p : Params) (requestId : Nat) (type : RecType) : Ostream where
  internal := .new p requestId type
  attached := true
  badbit := false

def good (o : Ostream) : Bool := o.attached && !o.badbit

/-- What `write`, `put` and `<<` do with their characters. -/
def write (p : Params) (o : Ostream) (bytes : List Byte) : Tx Ostream := do
  if o.attached then Tx.note (.wrote o.internal.pktType bytes) else pure ()
  if o.good then
    let (b, e) ← o.internal.sputn p bytes
    return { o with internal := b, badbit := e.isSome }
  else return o

def flush (p : Params) (o : Ostream) : Tx Ostream :=
  if o.good then do
    let (b, e) ← o.internal.sync p
    return { o with internal := b, badbit := e.isSome }
  else return o

/-- The new buffer is made from the id as the old header holds it. -/
def close (p : Params) (o : Ostream) : Tx Ostream :=
  if o.attached then do
    let o ← o.flush p
    o.internal.destroy p
    return ⟨.new p (o.internal.requestId p) o.internal.pktType, false, true⟩
  else return o

/-- `rdbuf(internal_streambuf.get())`, which clears the error state. -/
def reset (o : Ostream) : Ostream := { o with attached := true, badbit := false }

/-- A stream that takes no characters has none in its buffer. -/
structure Sound (o : Ostream) : Prop where
  room : o.internal.pending.length ≤ Ostreambuf.capacity
  closed : o.good = false → o.internal.pending = []

theorem new_sound (p : Params) (requestId : Nat) (type : RecType) :
    (Ostream.new p requestId type).Sound := ⟨Nat.zero_le _, fun _ => rfl⟩

theorem reset_sound {o : Ostream} (h : o.Sound) : o.reset.Sound :=
  ⟨h.room, fun hg => by simp [good, reset] at hg⟩

theorem write_bad (p : Params) {o : Ostream} (h : o.good = false) (bytes : List Byte) (φ : Fate) :
    o.write p bytes φ =
      (.ok o, if o.attached then [.wrote o.internal.pktType bytes] else []) := by
  simp only [write, h, Bool.false_eq_true, if_false]
  cases ha : o.attached <;> rfl

theorem flush_bad (p : Params) {o : Ostream} (h : o.good = false) (φ : Fate) :
    o.flush p φ = (.ok o, []) := by
  simp only [flush, h, Bool.false_eq_true, if_false]
  rfl

theorem write_good (p : Params) {o : Ostream} (h : o.good = true) (ho : o.Sound)
    (bytes : List Byte) (φ : Fate) :
    ∃ b' err es, o.write p bytes φ = (.ok { o with internal := b', badbit := err.isSome },
      .wrote o.internal.pktType bytes :: es) ∧
      Ostreambuf.Puts p φ o.internal bytes b' err es := by
  obtain ⟨b', err, es, hs, hputs⟩ := Ostreambuf.sputn_puts p bytes ho.room φ
  refine ⟨b', err, es, ?_, hputs⟩
  have ha : o.attached = true := by
    simp only [good, Bool.and_eq_true] at h
    exact h.1
  simp only [write, h, ha, if_true]
  rw [Tx.bind_quiet (rfl : Tx.note (.wrote o.internal.pktType bytes) φ = _) rfl, Tx.bind_ok hs]
  simp [Tx.pure_apply]

theorem flush_good (p : Params) {o : Ostream} (h : o.good = true) (ho : o.Sound) (φ : Fate) :
    ∃ b' err es, o.flush p φ = (.ok { o with internal := b', badbit := err.isSome }, es) ∧
      Ostreambuf.Puts p φ o.internal [] b' err es ∧ b'.pending = [] := by
  obtain ⟨b', err, es, hs, hputs, hempty⟩ := Ostreambuf.sync_puts p ho.room φ
  refine ⟨b', err, es, ?_, hputs, hempty⟩
  simp only [flush, h, if_true]
  rw [Tx.bind_ok hs]
  simp [Tx.pure_apply]

theorem puts_sound {p : Params} {φ : Fate} {o : Ostream} {bytes : List Byte} {b' : Ostreambuf}
    {err : Option Errno} {es : List Event} (h : o.good = true)
    (hp : Ostreambuf.Puts p φ o.internal bytes b' err es) :
    Sound { o with internal := b', badbit := err.isSome } := by
  refine ⟨hp.room, ?_⟩
  intro hg
  apply hp.rewound
  rintro rfl
  simp only [good, Bool.and_eq_true] at h
  simp [good, h.1] at hg

/-- `write` and `flush` swallow every exception. -/
theorem write_sound (p : Params) {o : Ostream} (ho : o.Sound) (bytes : List Byte) (φ : Fate) :
    ∃ o' es, o.write p bytes φ = (.ok o', es) ∧ o'.Sound := by
  cases h : o.good with
  | false => exact ⟨o, _, write_bad p h bytes φ, ho⟩
  | true =>
    obtain ⟨b', err, es, hw, hp⟩ := write_good p h ho bytes φ
    exact ⟨_, _, hw, puts_sound h hp⟩

theorem flush_sound (p : Params) {o : Ostream} (ho : o.Sound) (φ : Fate) :
    ∃ o' es, o.flush p φ = (.ok o', es) ∧ o'.Sound ∧ o'.internal.pending = [] := by
  cases h : o.good with
  | false => exact ⟨o, [], flush_bad p h φ, ho, ho.closed h⟩
  | true =>
    obtain ⟨b', err, es, hw, hp, hempty⟩ := flush_good p h ho φ
    exact ⟨_, _, hw, puts_sound h hp, hempty⟩

/-- The stream that `close` leaves. -/
def closed (p : Params) (o : Ostream) : Ostream :=
  ⟨.new p (o.internal.requestId p) o.internal.pktType, false, true⟩

theorem closed_sound (p : Params) (o : Ostream) : (o.closed p).Sound :=
  ⟨Nat.zero_le _, fun _ => rfl⟩

theorem flush_header (p : Params) {o o' : Ostream} (ho : o.Sound) {φ : Fate} {es : List Event}
    (h : o.flush p φ = (.ok o', es)) : o'.internal.header = o.internal.header := by
  cases hg : o.good with
  | false =>
    rw [flush_bad p hg] at h
    cases h
    rfl
  | true =>
    obtain ⟨b', err, es', hf, hp, -⟩ := flush_good p hg ho φ
    rw [hf] at h
    cases h
    exact hp.header

theorem close_detached (p : Params) {o : Ostream} (h : o.attached = false) (φ : Fate) :
    o.close p φ = (.ok o, []) := by
  simp only [close, h, Bool.false_eq_true, if_false]
  rfl

/-- A flush, then the empty record if one is due. -/
theorem close_attached (p : Params) {o o' : Ostream} (h : o.attached = true) (ho : o.Sound)
    {φ : Fate} {es : List Event} (hf : o.flush p φ = (.ok o', es)) :
    o.close p φ =
      if o'.internal.sendEof then
        match φ (sends es) (o.internal.packet p []) with
        | .failed e =>
          (.error (.destructor e), es ++ [.sent (o.internal.packet p []) (.failed e)])
        | out => (.ok (o.closed p), es ++ [.sent (o.internal.packet p []) out])
      else (.ok (o.closed p), es) := by
  have hheader := flush_header p ho hf
  have hempty : o'.internal.pending = [] := by
    obtain ⟨o₁, es₁, hf₁, -, hp⟩ := flush_sound p ho φ
    rw [hf₁] at hf
    cases hf
    exact hp
  have hpacket : o'.internal.packet p [] = o.internal.packet p [] := by
    simp only [Ostreambuf.packet, hheader]
  have hclosed : o'.closed p = o.closed p := by
    simp only [closed, Ostreambuf.requestId, Ostreambuf.pktType, hheader]
  have hd := Ostreambuf.destroy_empty p hempty fun n => φ (n + sends es)
  rw [hpacket, Nat.zero_add] at hd
  simp only [close, h, if_true]
  rw [Tx.bind_ok hf]
  cases he : o'.internal.sendEof with
  | false =>
    simp only [he, Bool.false_eq_true, if_false] at hd
    rw [Tx.bind_quiet hd rfl]
    simp only [Tx.pure_apply, List.append_nil, Bool.false_eq_true, if_false, ← hclosed]
    rfl
  | true =>
    simp only [he, if_true] at hd
    cases hout : φ (sends es) (o.internal.packet p []) with
    | failed e =>
      rw [hout] at hd
      rw [Tx.bind_error hd]
      simp only [if_true]
    | sent =>
      rw [hout] at hd
      rw [Tx.bind_ok hd, ← hclosed]
      simp only [if_true, Tx.pure_apply, List.append_nil]
      rfl
    | gone =>
      rw [hout] at hd
      rw [Tx.bind_ok hd, ← hclosed]
      simp only [if_true, Tx.pure_apply, List.append_nil]
      rfl

end Ostream

/-! ## `fcgi::istreambuf` and `fcgi::istream` -/

structure Istreambuf where
  /-- `is_open`, which `make_unique` zeroes and nothing sets to true -/
  isOpen : Bool
  queue : List (List Byte)
  /-- from `gptr()` to `egptr()` -/
  getArea : List Byte
  deriving DecidableEq, Repr

/-- A call that waits in `queue_bell.wait`, or the `int` it returns. -/
inductive Underflow where
  | waits
  | int (c : Int) (b : Istreambuf)
  deriving DecidableEq, Repr

namespace Istreambuf

def new : Istreambuf := ⟨false, [], []⟩

/-- `EOF`. -/
def eof : Int := -1

/-- A `char` made an `int`. -/
def ofChar (b : Byte) : Int := if b.toNat < 128 then b.toNat else (b.toNat : Int) - 256

def underflow (b : Istreambuf) : Underflow :=
  if b.isOpen then
    match b.queue with
    | [] => .waits
    | [] :: queue => .int eof { b with isOpen := false, queue := queue }
    | (c :: cs) :: queue => .int (ofChar c) { b with queue := queue, getArea := c :: cs }
  else .int eof b

/-- `std::streambuf::sbumpc`. -/
def sbumpc (b : Istreambuf) : Underflow :=
  match b.getArea with
  | c :: cs => .int c.toNat { b with getArea := cs }
  | [] =>
    match b.underflow with
    | .waits => .waits
    | .int c b =>
      if c = eof then .int eof b
      else match b.getArea with
        | [] => .int eof b
        | c :: cs => .int c.toNat { b with getArea := cs }

/-- `feed` on the content that `sink_to_vector` gave. -/
def feed (b : Istreambuf) (data : List Byte) : Istreambuf := { b with queue := b.queue ++ [data] }

end Istreambuf

structure Istream where
  internal : Istreambuf
  /-- whether `rdbuf()` is set -/
  attached : Bool
  deriving DecidableEq, Repr

namespace Istream

/-- The constructor: `reset()`. -/
def new : Istream := ⟨.new, false⟩

/-- A new buffer that is not given to `rdbuf`. -/
def reset (i : Istream) : Istream := { i with internal := .new }

/-- `rdbuf(NULL)`. -/
def detach (i : Istream) : Istream := { i with attached := false }

def feed (i : Istream) (data : List Byte) : Istream := { i with internal := i.internal.feed data }

/-- `get()`, or `none` while it waits: without a buffer `badbit` is set and the
result is end of file. -/
def get (i : Istream) : Option (Int × Istream) :=
  if i.attached then
    match i.internal.sbumpc with
    | .waits => none
    | .int c b => some (c, { i with internal := b })
  else some (Istreambuf.eof, i)

end Istream

end Tfcgi.Iostream
