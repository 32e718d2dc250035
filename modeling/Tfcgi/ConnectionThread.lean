import Tfcgi.RequestSlot

/-!
# `src/connection.cpp`: the thread of a connection

`turn` is one pass of the loop of `Connection::thread_func`, up to a push on the
dispatch queue. What the pass leaves is the new `Connection`; the counter
`request_actives` is an `unsigned int`.

* `turn_cases`: a pass that is not blocked stops, goes down or handles a record
  by one of the ways of `Handles`;
* `turn_down_cases`: why a pass brings the process down.
-/

namespace Tfcgi.ConnectionThread

open Tfcgi.HostOrder Tfcgi.Protocol Tfcgi.NameValuePairs Tfcgi.SendPacket Tfcgi.Socket
open Tfcgi.Iostream Tfcgi.RequestSlot

/-- `++` on an `unsigned int`. -/
def incr (n : Nat) : Nat := if n = 4294967295 then 0 else n + 1

/-- `--` on an `unsigned int`. -/
def decr (n : Nat) : Nat := if n = 0 then 4294967295 else n - 1

theorem decr_succ (m : Nat) : decr (m + 1) = m := rfl

structure Connection where
  requests : List (Option Request)
  requestActives : Nat
  sock : Sock
  getValueHandler : Deserializer
  getValueResultStream : Ostream
  deriving DecidableEq, Repr

namespace Connection

/-- The constructor. -/
def new (p : Params) (junk : Junk) : Connection where
  requests := []
  requestActives := 0
  sock := ⟨[], true⟩
  getValueHandler := .fresh 0 junk.nameLen junk.valueLen
  getValueResultStream := .new p 0 .getValuesResult

/-! ## `GetValueHandler` -/

/-- `serialize_size`. -/
def serializeSizeTo (p : Params) (o : Ostream) (size : Nat) : Tx Ostream :=
  match serializeSize p size with
  | .ok bytes => o.write p bytes
  | .error what => Tx.crash (.uncaught (.logicError what))

/-- `NVP::serialize` into a stream. -/
def serializeTo (p : Params) (o : Ostream) (key val : List Byte) : Tx Ostream := do
  let o ← serializeSizeTo p o key.length
  let o ← serializeSizeTo p o val.length
  let o ← o.write p key
  o.write p val

/-- `syslog` of `pair.first.data()`: `%s` reads on to the first NUL byte, and a
view does not end with one. -/
def syslogKey (buffer : List Byte) : Tx Unit :=
  if 0 ∈ buffer then return () else Tx.crash (.undefined .readPastRecord)

/-- The `if` of `new_key`: the answer to a key, or the log line of an unknown one. -/
def answerKey (p : Params) (o : Ostream) (pair : Pair) (buffer : List Byte) : Tx Ostream :=
  if pair.1 = ascii "FCGI_MPXS_CONNS" then serializeTo p o (ascii "FCGI_MPXS_CONNS") (ascii "1")
  else if pair.1 = ascii "FCGI_MAX_REQS" then
    serializeTo p o (ascii "FCGI_MAX_REQS")
      (ascii (toString (p.hardwareConcurrency * 20 % 4294967296)))
  else if pair.1 = ascii "FCGI_MAX_CONNS" then
    serializeTo p o (ascii "FCGI_MAX_CONNS") (ascii (toString p.hardwareConcurrency))
  else do
    syslogKey buffer
    return o

/-- `new_key` of the handler; `buffer` is what `pair.first.data()` points at. -/
def newKey (p : Params) (o : Ostream) (pair : Pair) (buffer : List Byte) : Tx Ostream := do
  let o ← answerKey p o pair buffer
  syslogKey buffer
  return o

def newKeys (p : Params) : Ostream → List (Pair × List Byte) → Tx Ostream
  | o, [] => return o
  | o, (pair, buffer) :: views => do
    let o ← newKey p o pair buffer
    newKeys p o views

/-- `handle_packet` of the handler, on the content of the record. Nothing catches
the `pair_size_error`. -/
def getValues (p : Params) (c : Connection) (data : List Byte) : Tx Connection := do
  Tx.note (.fed .getValues data)
  let fed := c.getValueHandler.feed p data
  let o ← newKeys p c.getValueResultStream (c.getValueHandler.feedViews p data)
  match fed.outcome with
  | .returns true d =>
    let o ← o.close p
    return { c with getValueHandler := d, getValueResultStream := o }
  | .returns false d => return { c with getValueHandler := d, getValueResultStream := o }
  | .throws what => Tx.crash (.uncaught (.pairSizeError what))
  | .fault f => Tx.crash (.undefined f)

theorem getValues_ok {p : Params} {c c' : Connection} {data : List Byte} {φ : Fate}
    {log : List Event} (h : c.getValues p data φ = (.ok c', log)) :
    ∃ d o, c' = { c with getValueHandler := d, getValueResultStream := o } := by
  obtain ⟨u, es₁, es₂, -, h, -⟩ := Tx.bind_eq_ok h
  obtain ⟨o, es₃, es₄, -, h, -⟩ := Tx.bind_eq_ok h
  cases ho : (c.getValueHandler.feed p data).outcome with
  | returns finished d =>
    simp only [ho] at h
    cases finished with
    | false =>
      cases h
      exact ⟨d, o, rfl⟩
    | true =>
      obtain ⟨o', -, rfl⟩ := Tx.bind_return (fun _ => rfl) h
      exact ⟨d, o', rfl⟩
  | throws what | fault f =>
    simp only [ho] at h
    cases h

/-! ## The loop -/

/-- `requests.resize(n)` when the vector is shorter. -/
def grow (n : Nat) (requests : List (Option Request)) : List (Option Request) :=
  requests ++ List.replicate (n - requests.length) none

/-- The slot of a request id, made if it is not there. -/
def slot (p : Params) (junk : Junk) (c : Connection) (requestId : Nat) : Request :=
  ((grow requestId c.requests).getD (requestId - 1) none).getD (.new p requestId junk)

def settle (c : Connection) (requestId : Nat) (h : Handled) : Connection :=
  let put (r : Request) : List (Option Request) :=
    (grow requestId c.requests).set (requestId - 1) (some r)
  match h with
  | .idle r => { c with requests := put r }
  | .accepted r => { c with requests := put r, requestActives := incr c.requestActives }
  | .cancelled r => { c with requests := put r, requestActives := decr c.requestActives }
  | .push r => { c with requests := put r }

theorem grow_length (n : Nat) (requests : List (Option Request)) :
    (grow n requests).length = max requests.length n := by
  simp only [grow, List.length_append, List.length_replicate]
  omega

theorem grow_some {n : Nat} {requests : List (Option Request)} {k : Nat} {r : Request} :
    (grow n requests)[k]? = some (some r) ↔ requests[k]? = some (some r) := by
  simp only [grow, List.getElem?_append]
  split
  · exact Iff.rfl
  · rename_i hk
    rw [List.getElem?_replicate, List.getElem?_eq_none (by omega)]
    split <;> simp

/-- The entry that `request_ptr` refers to. -/
theorem grow_slot (p : Params) (junk : Junk) (c : Connection) {requestId : Nat}
    (h : requestId ≠ 0) :
    (grow requestId c.requests)[requestId - 1]? = some (some (c.slot p junk requestId)) ∨
      (grow requestId c.requests)[requestId - 1]? = some none ∧
        c.slot p junk requestId = .new p requestId junk := by
  have hlt : requestId - 1 < (grow requestId c.requests).length := by
    rw [grow_length]
    omega
  simp only [slot, List.getD_eq_getElem?_getD, List.getElem?_eq_getElem hlt, Option.getD_some]
  cases (grow requestId c.requests)[requestId - 1] with
  | none => exact Or.inr ⟨rfl, rfl⟩
  | some r => exact Or.inl rfl

theorem settle_requests (c : Connection) (requestId : Nat) (h : Handled) :
    (c.settle requestId h).requests =
      (grow requestId c.requests).set (requestId - 1) (some h.request) := by
  cases h <;> rfl

/-- The other slots stay, and none of them is made. -/
theorem settle_slot (c : Connection) {requestId : Nat} (h0 : requestId ≠ 0) (h : Handled)
    (k : Nat) (r : Request) :
    (c.settle requestId h).requests[k]? = some (some r) ↔
      k = requestId - 1 ∧ r = h.request ∨ k ≠ requestId - 1 ∧ c.requests[k]? = some (some r) := by
  rw [settle_requests]
  by_cases hk : k = requestId - 1
  · subst hk
    have hlt : requestId - 1 < (grow requestId c.requests).length := by
      rw [grow_length]
      omega
    rw [List.getElem?_set_self hlt]
    simp [eq_comm]
  · rw [List.getElem?_set_ne (Ne.symm hk), grow_some]
    simp [hk]

/-- What handling a record does to the connection, and to which slot if any. -/
abbrev Settled := Connection × Option (Nat × Handled)

def dispatch (p : Params) (junk : Junk) (c : Connection) (requestId : Nat) (k : Ipacket) :
    Rd (Tx Settled × Option Ipacket) :=
  if requestId ≠ 0 then do
    let (tx, k) ← (c.slot p junk requestId).handlePacket p junk k
    return (do
      let h ← tx
      return (c.settle requestId h, some (requestId - 1, h)), k)
  else match k.header.recType with
    | .getValues => do
      let data ← Request.takeContent k
      return (do
        let c ← c.getValues p data
        return (c, none), none)
    | _ =>
      return (do
        Request.sendOrThrow (Request.unknownTypePacket p requestId k.header.type)
        return (c, none), some k)

end Connection

/-- How a pass of the loop ends. -/
inductive Turn where
  | blocked
  | down (crash : Crash) (log : List Event)
  /-- `break`: the socket failed while the header was read -/
  | left (c : Connection)
  | handled (header : Header) (c : Connection) (did : Option (Nat × Handled)) (log : List Event)

namespace Connection

/-- The destruction of what `unique_ptr<ipacket>` still holds. -/
def drop : Option Ipacket → Rd Unit
  | none => return ()
  | some k => k.destroy

/-- What is left to do of a pass when the content was taken as far as the handler
takes it. -/
def finish (φ : Fate) (header : Header) (tx : Tx Settled) (k : Option Ipacket) (s : Sock) : Turn :=
  match tx φ with
  | (.error crash, log) => .down crash log
  | (.ok (c, did), log) =>
    match drop k s with
    | .blocked => .blocked
    | .throws e => .down (.uncaught e) log
    | .ok () s => .handled header { c with sock := s } did log

def turn (p : Params) (junk : Junk) (φ : Fate) (c : Connection) : Turn :=
  match Ipacket.new p junk.header c.sock with
  | .blocked => .blocked
  | .throws e => .down (.uncaught e) []
  | .ok k s =>
    if s.insane then
      match c.dispatch p junk (k.header.requestId.load p.host) k s with
      | .blocked => .blocked
      | .throws e => .down (.uncaught e) []
      | .ok (tx, k') s => finish φ k.header tx k' s
    else
      match k.destroy s with
      | .blocked => .blocked
      | .throws e => .down (.uncaught e) []
      | .ok () s => .left { c with sock := s }

/-! ## After the loop -/

/-- The body of the loop over `requests`, for slot `i`. -/
def tearDown (p : Params) (c : Connection) (i : Nat) : Tx Connection :=
  match c.requests.getD i none with
  | none => return c
  | some r =>
    match r.state with
    | .readingParams => do
      r.destroy p
      return { c with requests := c.requests.set i none, requestActives := decr c.requestActives }
    | .ready => do
      r.destroy p
      return { c with requests := c.requests.set i none }
    | _ => return c

/-- `requests.clear()` in the destructor, for slot `i`. -/
def clearSlot (p : Params) (c : Connection) (i : Nat) : Tx Connection :=
  match c.requests.getD i none with
  | none => return c
  | some r => do
    r.destroy p
    return { c with requests := c.requests.set i none }

/-- The rest of the destructor, with the destruction of the member stream. -/
def destroy (p : Params) (c : Connection) : Tx Connection := do
  let o ← c.getValueResultStream.close p
  o.internal.destroy p
  return { c with getValueResultStream := o }

/-- What the teardown does with slot `i`. -/
inductive TornDown (p : Params) (φ : Fate) (c : Connection) (i : Nat) :
    Connection → List Event → Prop where
  | empty (free : c.requests.getD i none = none) : TornDown p φ c i c []
  | busy (r : Request) (slot : c.requests.getD i none = some r) (reading : r.state ≠ .readingParams)
      (ready : r.state ≠ .ready) : TornDown p φ c i c []
  | reading (r : Request) (log : List Event) (slot : c.requests.getD i none = some r)
      (state : r.state = .readingParams) (destroyed : r.destroy p φ = (.ok (), log)) :
      TornDown p φ c i
        { c with requests := c.requests.set i none, requestActives := decr c.requestActives } log
  | ready (r : Request) (log : List Event) (slot : c.requests.getD i none = some r)
      (state : r.state = .ready) (destroyed : r.destroy p φ = (.ok (), log)) :
      TornDown p φ c i { c with requests := c.requests.set i none } log

theorem tearDown_ok {p : Params} {φ : Fate} {c c' : Connection} {i : Nat} {log : List Event}
    (h : c.tearDown p i φ = (.ok c', log)) : TornDown p φ c i c' log := by
  cases hslot : c.requests.getD i none with
  | none =>
    simp only [tearDown, hslot] at h
    cases h
    exact .empty hslot
  | some r =>
    cases hs : r.state with
    | readingParams =>
      simp only [tearDown, hslot, hs] at h
      obtain ⟨u, hd, rfl⟩ := Tx.bind_return (fun _ => rfl) h
      exact .reading r log hslot hs hd
    | ready =>
      simp only [tearDown, hslot, hs] at h
      obtain ⟨u, hd, rfl⟩ := Tx.bind_return (fun _ => rfl) h
      exact .ready r log hslot hs hd
    | pending | appRunning =>
      simp only [tearDown, hslot, hs] at h
      cases h
      exact .busy r hslot (by simp [hs]) (by simp [hs])

theorem clearSlot_ok {p : Params} {φ : Fate} {c c' : Connection} {i : Nat} {log : List Event}
    (h : c.clearSlot p i φ = (.ok c', log)) :
    c.requests.getD i none = none ∧ c' = c ∧ log = [] ∨
      ∃ r, c.requests.getD i none = some r ∧ r.destroy p φ = (.ok (), log) ∧
        c' = { c with requests := c.requests.set i none } := by
  cases hslot : c.requests.getD i none with
  | none =>
    simp only [clearSlot, hslot] at h
    cases h
    exact Or.inl ⟨rfl, rfl, rfl⟩
  | some r =>
    simp only [clearSlot, hslot] at h
    obtain ⟨u, hd, rfl⟩ := Tx.bind_return (fun _ => rfl) h
    exact Or.inr ⟨r, rfl, hd, rfl⟩

theorem destroy_ok {p : Params} {φ : Fate} {c c' : Connection} {log : List Event}
    (h : c.destroy p φ = (.ok c', log)) : ∃ o, c' = { c with getValueResultStream := o } := by
  obtain ⟨o, es₁, es₂, -, h, -⟩ := Tx.bind_eq_ok h
  obtain ⟨u, -, rfl⟩ := Tx.bind_return (fun _ => rfl) h
  exact ⟨o, rfl⟩

theorem getD_eq_some {requests : List (Option Request)} {i : Nat} {r : Request} :
    requests.getD i none = some r ↔ requests[i]? = some (some r) := by
  rw [List.getD_eq_getElem?_getD]
  cases requests[i]? <;> simp

/-! ## Everything a pass can do -/

theorem finish_handled {φ : Fate} {header header' : Header} {tx : Tx Settled}
    {k : Option Ipacket} {s : Sock} {c' : Connection} {did : Option (Nat × Handled)}
    {log : List Event} (h : finish φ header tx k s = .handled header' c' did log) :
    header' = header ∧ ∃ c s', tx φ = (.ok (c, did), log) ∧ drop k s = .ok () s' ∧
      c' = { c with sock := s' } := by
  unfold finish at h
  split at h
  · cases h
  · rename_i c did' log' htx
    split at h
    · cases h
    · cases h
    · rename_i s' hd
      cases h
      exact ⟨rfl, c, s', htx, hd, rfl⟩

/-- What handling a record on slot `requestId - 1` or on no slot comes to. -/
inductive Dispatched (p : Params) (junk : Junk) (φ : Fate) (c : Connection) :
    Connection → Option (Nat × Handled) → List Event → Prop where
  | request (requestId : Nat) (h : Handled) (log : List Event) (pos : requestId ≠ 0)
      (lt : requestId < 65536)
      (handles : Request.Handles p junk φ (c.slot p junk requestId) (.ok h, log)) :
      Dispatched p junk φ c (c.settle requestId h) (some (requestId - 1, h)) log
  | getValues (data : List Byte) (c' : Connection) (log : List Event)
      (gave : c.getValues p data φ = (.ok c', log)) : Dispatched p junk φ c c' none log
  | unknown (type : Byte) (log : List Event)
      (gave : Request.sendOrThrow (Request.unknownTypePacket p 0 type) φ = (.ok (), log)) :
      Dispatched p junk φ c c none log

theorem dispatch_dispatched {p : Params} {junk : Junk} {φ : Fate} {c c' : Connection}
    {requestId : Nat} {k : Ipacket} {s s' : Sock} {tx : Tx Settled} {k' : Option Ipacket}
    {did : Option (Nat × Handled)} {log : List Event} (hlt : requestId < 65536)
    (h : c.dispatch p junk requestId k s = .ok (tx, k') s') (htx : tx φ = (.ok (c', did), log)) :
    Dispatched p junk φ c c' did log := by
  unfold dispatch at h
  by_cases h0 : requestId = 0
  · subst h0
    rw [if_neg (by simp)] at h
    cases ht : k.header.recType with
    | getValues =>
      simp only [ht] at h
      obtain ⟨data, s₁, -, h⟩ := Rd.bind_eq_ok h
      cases h
      obtain ⟨a, ha, hb⟩ := Tx.bind_return (fun _ => rfl) htx
      cases hb
      exact .getValues data _ log ha
    | _ =>
      simp only [ht] at h
      cases h
      obtain ⟨a, ha, hb⟩ := Tx.bind_return (fun _ => rfl) htx
      cases hb
      exact .unknown k.header.type log ha
  · rw [if_pos h0] at h
    obtain ⟨⟨tx', k₁⟩, s₁, hh, h⟩ := Rd.bind_eq_ok h
    cases h
    obtain ⟨a, ha, hb⟩ := Tx.bind_return (fun _ => rfl) htx
    cases hb
    exact .request requestId a log h0 hlt (ha ▸ Request.handlePacket_handles hh φ)

theorem turn_dispatched {p : Params} {junk : Junk} {φ : Fate} {c c' : Connection} {header : Header}
    {did : Option (Nat × Handled)} {log : List Event}
    (h : c.turn p junk φ = .handled header c' did log) :
    ∃ c₁ s, Dispatched p junk φ c c₁ did log ∧ c' = { c₁ with sock := s } := by
  unfold turn at h
  split at h
  · cases h
  · cases h
  · split at h
    · split at h
      · cases h
      · cases h
      · rename_i k s _ _ tx k' s' hd
        obtain ⟨-, c₁, s₁, htx, -, rfl⟩ := finish_handled h
        exact ⟨c₁, s₁, dispatch_dispatched (U16.load_lt _ _) hd htx, rfl⟩
    · split at h <;> cases h

theorem turn_left {p : Params} {junk : Junk} {φ : Fate} {c c' : Connection}
    (h : c.turn p junk φ = .left c') : ∃ s, c' = { c with sock := s } := by
  unfold turn at h
  split at h
  · cases h
  · cases h
  · split at h
    · split at h
      · cases h
      · cases h
      · unfold finish at h
        split at h
        · cases h
        · split at h <;> cases h
    · split at h
      · cases h
      · cases h
      · cases h
        exact ⟨_, rfl⟩

/-! ## Why a pass brings the process down -/

theorem new_ne_throws (p : Params) (junk : Header) (s : Sock) (e : Exn) :
    Ipacket.new p junk s ≠ .throws e := by
  intro h
  rcases Rd.bind_eq_throws h with hr | ⟨got, s₁, -, hr⟩
  · exact recvAll_ne_throws _ s e hr
  · cases hr

/-- The record that is handled next, when its header was read without error. -/
def Next (p : Params) (junk : Junk) (c : Connection) (k : Ipacket) (s : Sock) : Prop :=
  Ipacket.new p junk.header c.sock = .ok k s ∧ s.insane = true

def idOf (p : Params) (k : Ipacket) : Nat := k.header.requestId.load p.host

inductive Fails (p : Params) (junk : Junk) (φ : Fate) (c : Connection) (k : Ipacket) (s : Sock) :
    Prop where
  | shortBegin (id : idOf p k ≠ 0) (type : k.header.recType = .beginRequest)
      (ready : (c.slot p junk (idOf p k)).state = .ready)
      (short : k.remaining < BeginRequestBody.size)
  | request (id : idOf p k ≠ 0) (crash : Crash) (log : List Event)
      (handles : Request.Handles p junk φ (c.slot p junk (idOf p k)) (.error crash, log))
  | getValues (id : idOf p k = 0) (type : k.header.recType = .getValues) (data : List Byte)
      (s' : Sock) (crash : Crash) (log : List Event)
      (content : Request.takeContent k s = .ok data s')
      (gave : c.getValues p data φ = (.error crash, log))
  | unknown (id : idOf p k = 0) (crash : Crash) (log : List Event)
      (gave : Request.sendOrThrow (Request.unknownTypePacket p 0 k.header.type) φ =
        (.error crash, log))

theorem dispatch_fails {p : Params} {junk : Junk} {φ : Fate} {c : Connection} {k : Ipacket}
    {s s' : Sock} {tx : Tx Settled} {k' : Option Ipacket} {crash : Crash} {log : List Event}
    (h : c.dispatch p junk (idOf p k) k s = .ok (tx, k') s') (htx : tx φ = (.error crash, log)) :
    Fails p junk φ c k s := by
  unfold dispatch at h
  by_cases h0 : idOf p k = 0
  · rw [h0, if_neg (by simp)] at h
    cases ht : k.header.recType with
    | getValues =>
      simp only [ht] at h
      obtain ⟨data, s₁, hs, h⟩ := Rd.bind_eq_ok h
      cases h
      exact .getValues h0 ht data _ crash log hs (Tx.bind_return_error (fun _ => rfl) htx)
    | _ =>
      simp only [ht] at h
      cases h
      exact .unknown h0 crash log (Tx.bind_return_error (fun _ => rfl) htx)
  · rw [if_pos h0] at h
    obtain ⟨⟨tx', k₁⟩, s₁, hh, h⟩ := Rd.bind_eq_ok h
    cases h
    have hx := Tx.bind_return_error (fun _ => rfl) htx
    exact .request h0 crash log (hx ▸ Request.handlePacket_handles hh φ)

theorem dispatch_throws {p : Params} {junk : Junk} (φ : Fate) {c : Connection} {k : Ipacket}
    {s : Sock} {e : Exn} (h : c.dispatch p junk (idOf p k) k s = .throws e) :
    Fails p junk φ c k s := by
  unfold dispatch at h
  by_cases h0 : idOf p k = 0
  · rw [h0, if_neg (by simp)] at h
    cases ht : k.header.recType with
    | getValues =>
      simp only [ht] at h
      rcases Rd.bind_eq_throws h with hs | ⟨data, s₁, -, hs⟩
      · exact absurd hs (Request.takeContent_ne_throws k s e)
      · cases hs
    | _ =>
      simp only [ht] at h
      cases h
  · rw [if_pos h0] at h
    rcases Rd.bind_eq_throws h with hs | ⟨⟨tx', k₁⟩, s₁, -, hs⟩
    · obtain ⟨ht, hr, hlt⟩ := Request.handlePacket_throws hs
      exact .shortBegin h0 ht hr hlt
    · cases hs

theorem drop_ne_throws (k : Option Ipacket) (s : Sock) (e : Exn) : drop k s ≠ .throws e := by
  intro h
  cases k with
  | none => cases h
  | some k => rcases k.destroy_cases s with hd | ⟨s', hd⟩ <;> rw [drop, hd] at h <;> cases h

theorem turn_down {p : Params} {junk : Junk} {φ : Fate} {c : Connection} {crash : Crash}
    {log : List Event} (h : c.turn p junk φ = .down crash log) :
    ∃ k s, Next p junk c k s ∧ Fails p junk φ c k s := by
  unfold turn at h
  split at h
  · cases h
  · rename_i e hn
    exact absurd hn (new_ne_throws _ _ _ e)
  · rename_i k s hn
    split at h
    · rename_i hsane
      refine ⟨k, s, ⟨hn, hsane⟩, ?_⟩
      split at h
      · cases h
      · rename_i e hd
        exact dispatch_throws φ hd
      · rename_i tx k' s' hd
        unfold finish at h
        split at h
        · rename_i crash' log' htx
          exact dispatch_fails hd htx
        · split at h
          · cases h
          · rename_i e hdrop
            exact absurd hdrop (drop_ne_throws _ _ e)
          · cases h
    · split at h
      · cases h
      · rename_i e hd
        exact absurd hd (drop_ne_throws (some k) _ e)
      · cases h

end Connection

end Tfcgi.ConnectionThread
