import Tfcgi.Iostream

/-!
# `src/request.cpp`: one request slot of a connection

`handlePacket` first takes what it needs of the record from the socket and then
does the rest, which is a `Tx`. What it leaves is the new `Request` and what
becomes of the counter and of the dispatch queue.

* `handlePacket_handles`: everything that handling one record can do;
* `Handles.shifts`: what that does to the state and to the parser.
-/

namespace Tfcgi.RequestSlot

open Tfcgi.HostOrder Tfcgi.Protocol Tfcgi.NameValuePairs Tfcgi.SendPacket Tfcgi.Socket
open Tfcgi.Iostream

inductive State where
  | ready
  | readingParams
  | pending
  /-- no code sets it -/
  | appRunning
  deriving DecidableEq, Repr

/-- What the memory of new objects holds before it is written. -/
structure Junk where
  header : Header
  body : BeginRequestBody
  nameLen : U32
  valueLen : U32
  deriving DecidableEq, Repr

/-- Memory of zeros. -/
def Junk.zeros : Junk :=
  ⟨.ofBytes [], ⟨⟨0, 0⟩, 0, List.replicate 5 0⟩, ⟨0, 0, 0, 0⟩, ⟨0, 0, 0, 0⟩⟩

structure Request where
  state : State
  /-- `role` is in host order once the record was handled -/
  privBeginRequest : BeginRequestBody
  paramsDeserializer : Option Deserializer
  params : Map
  cin : Istream
  cdata : Istream
  cout : Ostream
  cerr : Ostream
  /-- the id as it was loaded from the header -/
  requestId : Nat
  deriving DecidableEq, Repr

/-- What the handling of a record leaves. -/
inductive Handled where
  | idle (r : Request)
  /-- `request_actives++` -/
  | accepted (r : Request)
  /-- `request_actives--` -/
  | cancelled (r : Request)
  /-- `push_request(*this)` comes next, then `params_deserializer.reset()` -/
  | push (r : Request)
  deriving DecidableEq, Repr

def Handled.request : Handled → Request
  | .idle r => r
  | .accepted r => r
  | .cancelled r => r
  | .push r => r

namespace Request

/-- The constructor. -/
def new (p : Params) (requestId : Nat) (junk : Junk) : Request where
  state := .ready
  privBeginRequest := junk.body
  paramsDeserializer := none
  params := []
  cin := .new
  cdata := .new
  cout := .new p requestId .stdout
  cerr := .new p requestId .stderr
  requestId := requestId

/-- `priv_begin_request.role`, a value in host order. -/
def role (p : Params) (r : Request) : Nat := r.privBeginRequest.role.load p.host

/-- The streams that the application reads, by role. -/
def resetInputs (p : Params) (r : Request) : Request :=
  match BeginRequestRole.ofNat (r.role p) with
  | .responder =>
    if p.fcgiResponder then { r with cin := r.cin.reset, cdata := r.cdata.detach }
    else { r with cin := r.cin.reset, cdata := r.cdata.reset }
  | _ => { r with cin := r.cin.reset, cdata := r.cdata.reset }

def raiseSendEof (o : Ostream) : Ostream :=
  { o with internal := { o.internal with sendEof := true } }

/-- BEGIN_REQUEST in state READY, once `got` was read over `priv_begin_request`. -/
def acceptRequest (p : Params) (junk : Junk) (r : Request) (got : List Byte) : Request :=
  let body := BeginRequestBody.ofBytes (overwrite r.privBeginRequest.bytes 0 got)
  let r : Request :=
    { r with
      privBeginRequest := { body with role := .store p.host (ntohs p.host (body.role.load p.host)) }
      cerr := r.cerr.reset
      cout := r.cout.reset }
  let r := r.resetInputs p
  { r with
    cout := raiseSendEof r.cout
    cerr := raiseSendEof r.cerr
    params := []
    paramsDeserializer := some (.fresh 0 junk.nameLen junk.valueLen)
    state := .readingParams }

def raiseLimit : String := " Raise fcgi::limits::nvp_max_pair_size or fix the fat parameter.\n"

/-- `send_packet<T>` outside of a stream: its exception leaves the thread. -/
def sendOrThrow (pkt : Packet) : Tx Unit := do
  match ← Tx.send pkt with
  | .failed e => Tx.crash (.uncaught (.systemError e))
  | _ => return ()

theorem sendOrThrow_error {pkt : Packet} {φ : Fate} {crash : Crash} {log : List Event}
    (h : sendOrThrow pkt φ = (.error crash, log)) : ∃ e, φ 0 pkt = .failed e := by
  unfold sendOrThrow at h
  rw [Tx.bind_ok (rfl : Tx.send pkt φ = _)] at h
  cases ho : φ 0 pkt with
  | failed e => exact ⟨e, rfl⟩
  | sent =>
    rw [ho] at h
    cases h
  | gone =>
    rw [ho] at h
    cases h

theorem sendOrThrow_ok {pkt : Packet} {φ : Fate} {u : Unit} {log : List Event}
    (h : sendOrThrow pkt φ = (.ok u, log)) : log = [.sent pkt (φ 0 pkt)] := by
  unfold sendOrThrow at h
  rw [Tx.bind_ok (rfl : Tx.send pkt φ = _)] at h
  cases ho : φ 0 pkt with
  | failed e =>
    rw [ho] at h
    cases h
  | sent =>
    rw [ho] at h
    cases h
    rfl
  | gone =>
    rw [ho] at h
    cases h
    rfl

/-- The END_REQUEST record of a cancelled request. -/
def cancelPacket (p : Params) (r : Request) : Packet :=
  .make p.host .endRequest r.requestId
    (EndRequestBody.bytes ⟨.store p.host (ntohl p.host 0x9020816E), .requestComplete⟩)

/-- The handler of `pair_size_error`. -/
def cancel (p : Params) (r : Request) (what : String) : Tx Handled := do
  let cerr ← r.cerr.write p (ascii what)
  let cerr ← cerr.write p (ascii raiseLimit)
  let cerr ← cerr.close p
  let cout ← r.cout.close p
  sendOrThrow (r.cancelPacket p)
  return .cancelled
    { r with cerr := cerr, cout := cout, paramsDeserializer := none, state := .ready }

/-- `params_deserializer->feed` on the content of a PARAMS record. -/
def feedParams (p : Params) (r : Request) (d : Deserializer) (data : List Byte) : Tx Handled := do
  Tx.note (.fed .params data)
  let fed := d.feed p data
  let r : Request := { r with params := r.params.newKeys fed.calls }
  match fed.outcome with
  | .returns true d => return .push { r with state := .pending, paramsDeserializer := some d }
  | .returns false d => return .idle { r with paramsDeserializer := some d }
  | .throws what => r.cancel p what
  | .fault f => Tx.crash (.undefined f)

def feedStdin (r : Request) (data : List Byte) : Tx Handled := do
  Tx.note (.fed .stdin data)
  return .idle { r with cin := r.cin.feed data }

def feedData (r : Request) (data : List Byte) : Tx Handled := do
  Tx.note (.fed .data data)
  return .idle { r with cdata := r.cdata.feed data }

def unknownTypePacket (p : Params) (requestId : Nat) (type : Byte) : Packet :=
  .make p.host .unknownType requestId (unknownTypeBody type)

def unknownType (p : Params) (r : Request) (type : Byte) : Tx Handled := do
  sendOrThrow (unknownTypePacket p r.requestId type)
  return .idle r

/-- The content of the record, which is then destroyed. -/
def takeContent (k : Ipacket) : Rd (List Byte) := do
  let (data, k) ← k.sinkToVector
  k.destroy
  return data

/-- `handle_packet`; the record is given back if it was not destroyed. -/
def handlePacket (p : Params) (junk : Junk) (r : Request) (k : Ipacket) :
    Rd (Tx Handled × Option Ipacket) :=
  match k.header.recType with
  | .beginRequest =>
    if r.state ≠ .ready then return (return .idle r, some k)
    else do
      let (got, k) ← k.recvAll BeginRequestBody.size
      return (return .accepted (r.acceptRequest p junk got), some k)
  | .abortRequest => return (return .idle r, some k)
  | .params =>
    match r.paramsDeserializer with
    | some d => do
      let data ← takeContent k
      return (r.feedParams p d data, none)
    | none => return (return .idle r, some k)
  | .stdin =>
    if r.state ≠ .ready then do
      let data ← takeContent k
      return (r.feedStdin data, none)
    else return (return .idle r, some k)
  | .data =>
    if r.state ≠ .ready then do
      let data ← takeContent k
      return (r.feedData data, none)
    else return (return .idle r, some k)
  | .getValues => return (return .idle r, some k)
  | _ => return (r.unknownType p k.header.type, some k)

/-- The destructor: `cerr` goes before `cout`, and each drops its buffer. -/
def destroy (p : Params) (r : Request) : Tx Unit := do
  r.cerr.internal.destroy p
  r.cout.internal.destroy p

/-! ## Everything the handling of a record can do -/

inductive Handles (p : Params) (junk : Junk) (φ : Fate) (r : Request) :
    Except Crash Handled × List Event → Prop where
  | ignore : Handles p junk φ r (.ok (.idle r), [])
  | accept (got : List Byte) (ready : r.state = .ready) :
      Handles p junk φ r (.ok (.accepted (r.acceptRequest p junk got)), [])
  | more (d d' : Deserializer) (params : Map) (data : List Byte)
      (reading : r.paramsDeserializer = some d) :
      Handles p junk φ r (.ok (.idle { r with params := params, paramsDeserializer := some d' }),
        [.fed .params data])
  | push (d d' : Deserializer) (params : Map) (data : List Byte)
      (reading : r.paramsDeserializer = some d) :
      Handles p junk φ r (.ok (.push { r with
        params := params, state := .pending, paramsDeserializer := some d' }), [.fed .params data])
  | cancel (d : Deserializer) (params : Map) (data : List Byte) (what : String)
      (reading : r.paramsDeserializer = some d) :
      Handles p junk φ r ((Request.cancel p { r with params := params } what φ).1,
        .fed .params data :: (Request.cancel p { r with params := params } what φ).2)
  | fault (d : Deserializer) (data : List Byte) (f : Fault)
      (reading : r.paramsDeserializer = some d) (cause : (d.feed p data).outcome = .fault f) :
      Handles p junk φ r (.error (.undefined f), [.fed .params data])
  | stdin (data : List Byte) (busy : r.state ≠ .ready) :
      Handles p junk φ r (.ok (.idle { r with cin := r.cin.feed data }), [.fed .stdin data])
  | data (data : List Byte) (busy : r.state ≠ .ready) :
      Handles p junk φ r (.ok (.idle { r with cdata := r.cdata.feed data }), [.fed .data data])
  | unknown (type : Byte) :
      Handles p junk φ r (r.unknownType p type φ)

theorem feedParams_handles (p : Params) (junk : Junk) (φ : Fate) {r : Request} {d : Deserializer}
    (h : r.paramsDeserializer = some d) (data : List Byte) :
    Handles p junk φ r (r.feedParams p d data φ) := by
  unfold feedParams
  rw [Tx.bind_quiet (rfl : Tx.note (.fed .params data) φ = _) rfl]
  cases ho : (d.feed p data).outcome with
  | returns finished d' =>
    cases finished with
    | false => exact .more d d' _ data h
    | true => exact .push d d' _ data h
  | throws what => exact .cancel d _ data what h
  | fault f => exact .fault d data f h ho

theorem handlePacket_handles {p : Params} {junk : Junk} {r : Request} {k : Ipacket} {s s' : Sock}
    {tx : Tx Handled} {k' : Option Ipacket}
    (h : r.handlePacket p junk k s = .ok (tx, k') s') (φ : Fate) : Handles p junk φ r (tx φ) := by
  cases ht : k.header.recType with
  | beginRequest =>
    simp only [handlePacket, ht] at h
    split at h
    · cases h
      exact .ignore
    · rename_i hready
      obtain ⟨⟨got, k₁⟩, s₁, -, h⟩ := Rd.bind_eq_ok h
      cases h
      exact .accept got (by simpa using hready)
  | params =>
    simp only [handlePacket, ht] at h
    cases hd : r.paramsDeserializer with
    | none =>
      simp only [hd] at h
      cases h
      exact .ignore
    | some d =>
      simp only [hd] at h
      obtain ⟨data, s₁, -, h⟩ := Rd.bind_eq_ok h
      cases h
      exact feedParams_handles p junk φ hd data
  | stdin =>
    simp only [handlePacket, ht] at h
    split at h
    · rename_i hbusy
      obtain ⟨data, s₁, -, h⟩ := Rd.bind_eq_ok h
      cases h
      exact .stdin data hbusy
    · cases h
      exact .ignore
  | data =>
    simp only [handlePacket, ht] at h
    split at h
    · rename_i hbusy
      obtain ⟨data, s₁, -, h⟩ := Rd.bind_eq_ok h
      cases h
      exact .data data hbusy
    · cases h
      exact .ignore
  | abortRequest | getValues =>
    simp only [handlePacket, ht] at h
    cases h
    exact .ignore
  | endRequest | stdout | stderr | getValuesResult | unknownType | other =>
    simp only [handlePacket, ht] at h
    cases h
    exact .unknown k.header.type

theorem cancel_ok {p : Params} {r : Request} {what : String} {φ : Fate} {h : Handled}
    (hc : (r.cancel p what φ).1 = .ok h) :
    ∃ cerr cout, h = .cancelled
      { r with cerr := cerr, cout := cout, paramsDeserializer := none, state := .ready } := by
  obtain ⟨o₁, es₁, es₂, -, hc, -⟩ := Tx.bind_eq_ok (Prod.ext hc rfl)
  obtain ⟨o₂, es₃, es₄, -, hc, -⟩ := Tx.bind_eq_ok hc
  obtain ⟨cerr, es₅, es₆, -, hc, -⟩ := Tx.bind_eq_ok hc
  obtain ⟨cout, es₇, es₈, -, hc, -⟩ := Tx.bind_eq_ok hc
  obtain ⟨u, es₉, es₁₀, -, hc, -⟩ := Tx.bind_eq_ok hc
  cases hc
  exact ⟨cerr, cout, rfl⟩

theorem unknownType_ok {p : Params} {r : Request} {type : Byte} {φ : Fate} {h : Handled}
    {log : List Event} (hu : r.unknownType p type φ = (.ok h, log)) : h = .idle r := by
  obtain ⟨u, es₁, es₂, -, hu, -⟩ := Tx.bind_eq_ok hu
  cases hu
  rfl

/-- What a record does to the state and to the parser of its request. -/
inductive Shifts (r : Request) : Handled → Prop where
  | idle (r' : Request) (state : r'.state = r.state)
      (parser : r'.paramsDeserializer.isSome = r.paramsDeserializer.isSome) : Shifts r (.idle r')
  | accepted (r' : Request) (ready : r.state = .ready) (state : r'.state = .readingParams)
      (parser : r'.paramsDeserializer.isSome = true) : Shifts r (.accepted r')
  | cancelled (r' : Request) (reading : r.paramsDeserializer.isSome = true)
      (state : r'.state = .ready) (parser : r'.paramsDeserializer = none) :
      Shifts r (.cancelled r')
  | push (r' : Request) (reading : r.paramsDeserializer.isSome = true)
      (state : r'.state = .pending) (parser : r'.paramsDeserializer.isSome = true) :
      Shifts r (.push r')

theorem Handles.shifts {p : Params} {junk : Junk} {φ : Fate} {r : Request} {h : Handled}
    {log : List Event} (hh : Handles p junk φ r (.ok h, log)) : r.Shifts h := by
  generalize hx : (Except.ok h, log) = x at hh
  cases hh with
  | ignore =>
    cases hx
    exact .idle _ rfl rfl
  | accept got ready =>
    cases hx
    exact .accepted _ ready rfl rfl
  | more d d' params data reading =>
    cases hx
    exact .idle _ rfl (by rw [reading]; rfl)
  | push d d' params data reading =>
    cases hx
    exact .push _ (by rw [reading]; rfl) rfl rfl
  | cancel d params data what reading =>
    obtain ⟨cerr, cout, rfl⟩ := cancel_ok (congrArg Prod.fst hx).symm
    exact .cancelled _ (by rw [reading]; rfl) rfl rfl
  | fault d data f reading cause => cases hx
  | stdin data busy =>
    cases hx
    exact .idle _ rfl rfl
  | data data busy =>
    cases hx
    exact .idle _ rfl rfl
  | unknown type =>
    obtain rfl := unknownType_ok hx.symm
    exact .idle _ rfl rfl

theorem unknownTypePacket_recType (p : Params) (requestId : Nat) (type : Byte) :
    (unknownTypePacket p requestId type).recType = .unknownType := rfl

/-- Unless the request is cancelled, only an UNKNOWN_TYPE record is sent. -/
theorem Handles.sent {p : Params} {junk : Junk} {φ : Fate} {r : Request} {h : Handled}
    {log : List Event} (hh : Handles p junk φ r (.ok h, log)) (hc : ∀ r', h ≠ .cancelled r')
    {pkt : Packet} {o : SendOutcome} (hm : .sent pkt o ∈ log) : pkt.recType = .unknownType := by
  generalize hx : (Except.ok h, log) = x at hh
  cases hh with
  | ignore | accept _ _ =>
    cases hx
    cases hm
  | more _ _ _ _ _ | push _ _ _ _ _ | stdin _ _ | data _ _ =>
    cases hx
    cases hm with
    | tail _ hm => cases hm
  | cancel d params data what reading =>
    obtain ⟨cerr, cout, rfl⟩ := cancel_ok (congrArg Prod.fst hx).symm
    exact absurd rfl (hc _)
  | fault d data f reading cause => cases hx
  | unknown type =>
    obtain ⟨u, hu, -⟩ := Tx.bind_return (fun _ => rfl) hx.symm
    rw [sendOrThrow_ok hu, List.mem_singleton] at hm
    cases hm
    exact unknownTypePacket_recType p r.requestId type

theorem takeContent_ne_throws (k : Ipacket) (s : Sock) (e : Exn) :
    takeContent k s ≠ .throws e := by
  intro h
  rcases Rd.bind_eq_throws h with hs | ⟨⟨v, k'⟩, s₁, -, h⟩
  · rcases k.sinkToVector_cases s with hb | ⟨v, s₁, -, hv⟩
    · rw [hb] at hs
      cases hs
    · rw [hv] at hs
      cases hs
  · rcases Rd.bind_eq_throws h with hd | ⟨u, s₂, -, h⟩
    · rcases k'.destroy_cases s₁ with hb | ⟨s₂, hv⟩
      · rw [hb] at hd
        cases hd
      · rw [hv] at hd
        cases hd
    · cases h

/-- Only a BEGIN_REQUEST record that is too short makes the reading part throw. -/
theorem handlePacket_throws {p : Params} {junk : Junk} {r : Request} {k : Ipacket} {s : Sock}
    {e : Exn} (h : r.handlePacket p junk k s = .throws e) :
    k.header.recType = .beginRequest ∧ r.state = .ready ∧ k.remaining < BeginRequestBody.size := by
  have htake : ∀ f : List Byte → Tx Handled,
      (do let data ← takeContent k; return (f data, none) :
        Rd (Tx Handled × Option Ipacket)) s ≠ .throws e := by
    intro f hf
    rcases Rd.bind_eq_throws hf with hs | ⟨data, s₁, -, hs⟩
    · exact takeContent_ne_throws k s e hs
    · cases hs
  cases ht : k.header.recType with
  | beginRequest =>
    simp only [handlePacket, ht] at h
    by_cases hr : r.state = .ready
    · rw [if_neg (by simpa using hr)] at h
      refine ⟨rfl, hr, ?_⟩
      by_contra hlen
      rcases k.recvAll_cases (n := BeginRequestBody.size) (by omega) s with hs | ⟨got, s₁, -, hs⟩
      · rw [Rd.bind_blocked hs] at h
        cases h
      · rw [Rd.bind_ok hs] at h
        cases h
    · rw [if_pos hr] at h
      cases h
  | params =>
    simp only [handlePacket, ht] at h
    cases hd : r.paramsDeserializer with
    | none =>
      simp only [hd] at h
      cases h
    | some d =>
      simp only [hd] at h
      exact absurd h (htake _)
  | stdin =>
    simp only [handlePacket, ht] at h
    by_cases hr : r.state = .ready
    · rw [if_neg (by simpa using hr)] at h
      cases h
    · rw [if_pos hr] at h
      exact absurd h (htake _)
  | data =>
    simp only [handlePacket, ht] at h
    by_cases hr : r.state = .ready
    · rw [if_neg (by simpa using hr)] at h
      cases h
    · rw [if_pos hr] at h
      exact absurd h (htake _)
  | abortRequest | getValues | endRequest | stdout | stderr | getValuesResult | unknownType
  | other =>
    simp only [handlePacket, ht] at h
    cases h

end Request

end Tfcgi.RequestSlot
