import Tfcgi.NvpRuns
import Tfcgi.OutputStream
import Tfcgi.ConnectionThread

/-!
# The answers to GET_VALUES

A GET_VALUES stream is a list of records of whole pairs and then an empty
record. The reply goes through `new_key` into the one stream that a connection
has for GET_VALUES_RESULT, which the end of the first stream closes for good.
`new_key` logs each key with `%s`, so a key with no NUL byte behind it in its
record is undefined behaviour.

* `newKeys_wrote`: what `new_key` writes for the pairs of a record is the
  encoding of the known keys with their values;
* `record_plain`, `record_dropped`, `record_crashes`: what one record does;
* `serve_taken`, `serve_needs`: the records of a stream;
* `answered_iff`: when every stream is answered.
-/

namespace Tfcgi.GetValues

open Tfcgi.HostOrder Tfcgi.Protocol Tfcgi.NameValuePairs Tfcgi.NvpGrammar Tfcgi.NvpRuns
open Tfcgi.SendPacket Tfcgi.Iostream Tfcgi.RequestSlot Tfcgi.ConnectionThread Tfcgi.OutputStream
open Tfcgi.NameValuePairs.Deserializer

/-! ## The answers that are due -/

/-- The value of a key that the server knows. -/
def knownValue (p : Params) (key : List Byte) : Option (List Byte) :=
  if key = ascii "FCGI_MPXS_CONNS" then some (ascii "1")
  else if key = ascii "FCGI_MAX_REQS" then
    some (ascii (toString (p.hardwareConcurrency * 20 % 4294967296)))
  else if key = ascii "FCGI_MAX_CONNS" then some (ascii (toString p.hardwareConcurrency))
  else none

/-- The answer to a pair of the request. -/
def reply (p : Params) (pair : Pair) : Option Pair :=
  (knownValue p pair.1).map fun value => (pair.1, value)

/-- The GET_VALUES_RESULT content that left. -/
def resultContent (es : List Event) : List Byte :=
  ((packets es).filter fun pkt => pkt.recType == .getValuesResult).flatMap Packet.body

/-- The handling of GET_VALUES records, by their content. -/
def serve (p : Params) : Connection → List (List Byte) → Tx Connection
  | c, [] => return c
  | c, data :: records => do
    let c ← c.getValues p data
    serve p c records

/-- A stream: the pairs of each of its records. -/
abbrev Request := List (List Entry)

/-- The records of a stream, the empty one behind the others. -/
def contents (s : Request) : List (List Byte) := s.map encode ++ [[]]

/-- Every stream is handled to its end, and what left in the meantime are the
answers to its pairs. -/
def Answered (p : Params) : Connection → List Request → Prop
  | _, [] => True
  | c, s :: streams =>
    ∃ c' es, serve p c (contents s) Fate.sent = (.ok c', es) ∧
      decode (resultContent es) = some ((s.flatten.map Entry.pair).filterMap (reply p)) ∧
      Answered p c' streams

/-! ## `new_key` -/

theorem syslogKey_nul {buffer : List Byte} (h : 0 ∈ buffer) (φ : Fate) :
    Connection.syslogKey buffer φ = (.ok (), []) := by
  rw [Connection.syslogKey, if_pos h]
  rfl

theorem syslogKey_past {buffer : List Byte} (h : 0 ∉ buffer) (φ : Fate) :
    Connection.syslogKey buffer φ = (.error (.undefined .readPastRecord), []) := by
  rw [Connection.syslogKey, if_neg h]
  rfl

theorem answerKey_eq (p : Params) (o : Ostream) (pair : Pair) (buffer : List Byte) :
    Connection.answerKey p o pair buffer =
      match knownValue p pair.1 with
      | some value => Connection.serializeTo p o pair.1 value
      | none => do
        Connection.syslogKey buffer
        return o := by
  unfold Connection.answerKey knownValue
  by_cases h₁ : pair.1 = ascii "FCGI_MPXS_CONNS"
  · simp only [h₁, if_true]
  · by_cases h₂ : pair.1 = ascii "FCGI_MAX_REQS"
    · simp only [h₂, if_true, show ascii "FCGI_MAX_REQS" ≠ ascii "FCGI_MPXS_CONNS" by decide,
        if_false]
    · by_cases h₃ : pair.1 = ascii "FCGI_MAX_CONNS"
      · simp only [h₃, if_true, show ascii "FCGI_MAX_CONNS" ≠ ascii "FCGI_MPXS_CONNS" by decide,
          show ascii "FCGI_MAX_CONNS" ≠ ascii "FCGI_MAX_REQS" by decide, if_false]
      · simp only [h₁, h₂, h₃, if_false]

theorem answerKey_known {p : Params} {pair : Pair} {value : List Byte}
    (h : knownValue p pair.1 = some value) (o : Ostream) (buffer : List Byte) :
    Connection.answerKey p o pair buffer = Connection.serializeTo p o pair.1 value := by
  rw [answerKey_eq, h]

theorem answerKey_unknown {p : Params} {pair : Pair} (h : knownValue p pair.1 = none)
    (o : Ostream) (buffer : List Byte) :
    Connection.answerKey p o pair buffer = (do
      Connection.syslogKey buffer
      return o) := by
  rw [answerKey_eq, h]

/-- A key without a NUL byte behind it is not got past, whatever its answer does. -/
theorem newKey_past (p : Params) (o : Ostream) (pair : Pair) {buffer : List Byte}
    (h : 0 ∉ buffer) (φ : Fate) :
    ∃ crash es, Connection.newKey p o pair buffer φ = (.error crash, es) := by
  unfold Connection.newKey
  cases ha : Connection.answerKey p o pair buffer φ with
  | mk result es =>
    cases result with
    | error crash => exact ⟨crash, es, Tx.bind_error ha⟩
    | ok o' =>
      rw [Tx.bind_ok ha, Tx.bind_error (syslogKey_past h _)]
      exact ⟨_, _, rfl⟩

theorem ascii_toString_length {n : Nat} (h : n < 4294967296) :
    (ascii (toString n)).length ≤ 10 := by
  have hlen : (Nat.toDigits 10 n).length ≤ 10 :=
    (Nat.length_toDigits_le_iff (by omega) (by omega)).mpr (by omega)
  simpa [ascii, toString] using hlen

/-- Known keys and their values are short. -/
theorem knownValue_short {p : Params} (hp : p.hardwareConcurrency < 4294967296)
    {key value : List Byte} (h : knownValue p key = some value) :
    key.length ≤ 127 ∧ value.length ≤ 127 := by
  unfold knownValue at h
  by_cases h₁ : key = ascii "FCGI_MPXS_CONNS"
  · rw [if_pos h₁] at h
    cases h
    rw [h₁]
    decide
  · rw [if_neg h₁] at h
    by_cases h₂ : key = ascii "FCGI_MAX_REQS"
    · rw [if_pos h₂] at h
      cases h
      have hv := ascii_toString_length
        (Nat.mod_lt (p.hardwareConcurrency * 20) (show 0 < 4294967296 by decide))
      rw [h₂]
      exact ⟨by decide, by omega⟩
    · rw [if_neg h₂] at h
      by_cases h₃ : key = ascii "FCGI_MAX_CONNS"
      · rw [if_pos h₃] at h
        cases h
        have hv := ascii_toString_length hp
        rw [h₃]
        exact ⟨by decide, by omega⟩
      · rw [if_neg h₃] at h
        cases h

theorem write_flows_ok (p : Params) {o : Ostream} (ho : IsOpen o) (bytes : List Byte) :
    ∃ o' es, o.write p bytes Fate.sent = (.ok o', es) ∧ Flows p o bytes o' es := by
  obtain ⟨o', es, hw, hf⟩ := write_flows p ho bytes
  exact ⟨o', _, hw, hf.isOpen, hf.header, hf.records, hf.flow, hf.eof⟩

/-- A name-value pair is written as one entry of the format. -/
theorem serializeTo_flows (p : Params) {o : Ostream} (ho : IsOpen o) (e : Entry) :
    ∃ o' es, Connection.serializeTo p o e.name e.value Fate.sent = (.ok o', es) ∧
      Flows p o e.canonical.bytes o' es := by
  have hn := serializeSize_eq p e.nameFits.lt
  have hv := serializeSize_eq p e.valueFits.lt
  obtain ⟨o₁, es₁, h₁, f₁⟩ := write_flows_ok p ho
    (lengthBytes (.ofSize e.name.length) e.name.length)
  obtain ⟨o₂, es₂, h₂, f₂⟩ := write_flows_ok p f₁.isOpen
    (lengthBytes (.ofSize e.value.length) e.value.length)
  obtain ⟨o₃, es₃, h₃, f₃⟩ := write_flows_ok p f₂.isOpen e.name
  obtain ⟨o₄, es₄, h₄, f₄⟩ := write_flows_ok p f₃.isOpen e.value
  refine ⟨o₄, es₁ ++ (es₂ ++ (es₃ ++ es₄)), ?_, f₁.trans (f₂.trans (f₃.trans f₄))⟩
  unfold Connection.serializeTo Connection.serializeSizeTo
  simp only [hn, hv]
  rw [Tx.bind_sent h₁, Tx.bind_sent h₂, Tx.bind_sent h₃, h₄]

/-- What the replies `rs` do to the stream of a connection: they flow into it, unless it is
closed. -/
structure Wrote (p : Params) (o : Ostream) (rs : List Entry) (o' : Ostream) (es : List Event) :
    Prop where
  flows : IsOpen o → Flows p o (encode rs) o' es
  closed : o.attached = false → o' = o ∧ packets es = []

theorem Wrote.refl (p : Params) (o : Ostream) : Wrote p o [] o [] :=
  ⟨fun ho => .refl p ho, fun _ => ⟨rfl, rfl⟩⟩

theorem Wrote.trans {p : Params} {o o₁ o' : Ostream} {rs rs' : List Entry} {es es' : List Event}
    (h : Wrote p o rs o₁ es) (h' : Wrote p o₁ rs' o' es') :
    Wrote p o (rs ++ rs') o' (es ++ es') where
  flows := by
    intro ho
    have hf := h.flows ho
    rw [encode_append]
    exact hf.trans (h'.flows hf.isOpen)
  closed := by
    intro ho
    obtain ⟨rfl, hes⟩ := h.closed ho
    obtain ⟨rfl, hes'⟩ := h'.closed ho
    exact ⟨rfl, by rw [packets_append, hes, hes']; rfl⟩

/-- Any stream: it takes characters, or it is closed. -/
def Usable (o : Ostream) : Prop := IsOpen o ∨ o.attached = false

theorem Wrote.usable {p : Params} {o o' : Ostream} {rs : List Entry} {es : List Event}
    (h : Wrote p o rs o' es) (ho : Usable o) : Usable o' := by
  rcases ho with ho | ho
  · exact Or.inl (h.flows ho).isOpen
  · rw [(h.closed ho).1]
    exact Or.inr ho

/-- Nothing is written into a closed stream. -/
theorem serializeTo_closed {p : Params} {o : Ostream} (ho : o.attached = false)
    {key value : List Byte} (hk : key.length ≤ 127) (hv : value.length ≤ 127) :
    Connection.serializeTo p o key value Fate.sent = (.ok o, []) := by
  have hgood : o.good = false := by simp [Ostream.good, ho]
  have hwrite : ∀ bytes, o.write p bytes Fate.sent = (.ok o, []) := by
    intro bytes
    rw [Ostream.write_bad p hgood, ho]
    rfl
  simp only [Connection.serializeTo, Connection.serializeSizeTo,
    serializeSize_eq p (show key.length < 2147483648 by omega),
    serializeSize_eq p (show value.length < 2147483648 by omega)]
  rw [Tx.bind_sent (hwrite _), Tx.bind_sent (hwrite _), Tx.bind_sent (hwrite _), hwrite]
  rfl

theorem serializeTo_wrote (p : Params) {o : Ostream} (ho : Usable o) (e : Entry)
    (hk : e.name.length ≤ 127) (hv : e.value.length ≤ 127) :
    ∃ o' es, Connection.serializeTo p o e.name e.value Fate.sent = (.ok o', es) ∧
      Wrote p o [e.canonical] o' es := by
  have hend : encode [e.canonical] = e.canonical.bytes := by simp
  rcases ho with ho | ho
  · obtain ⟨o', es, hw, hf⟩ := serializeTo_flows p ho e
    refine ⟨o', es, hw, fun _ => by rw [hend]; exact hf, fun hc => ?_⟩
    rw [ho.attached] at hc
    cases hc
  · refine ⟨o, [], serializeTo_closed ho hk hv, fun hopen => ?_, fun _ => ⟨rfl, rfl⟩⟩
    rw [hopen.attached] at ho
    cases ho

theorem newKey_wrote (p : Params) (hp : p.hardwareConcurrency < 4294967296) {o : Ostream}
    (ho : Usable o) (pair : Pair) {buffer : List Byte} (hb : 0 ∈ buffer) :
    ∃ o' es rs, Connection.newKey p o pair buffer Fate.sent = (.ok o', es) ∧
      Wrote p o rs o' es ∧ rs.map Entry.pair = (reply p pair).toList := by
  rw [Connection.newKey, reply]
  cases hk : knownValue p pair.1 with
  | none =>
    have hunknown : Connection.answerKey p o pair buffer Fate.sent = (.ok o, []) := by
      rw [answerKey_unknown hk, Tx.bind_sent (syslogKey_nul hb _)]
      rfl
    refine ⟨o, [], [], ?_, .refl p o, rfl⟩
    rw [Tx.bind_sent hunknown, Tx.bind_sent (syslogKey_nul hb _)]
    rfl
  | some value =>
    obtain ⟨hkey, hvalue⟩ := knownValue_short hp hk
    let e : Entry := ⟨pair.1, value, .short, .short, hkey, hvalue⟩
    obtain ⟨o', es, hw, hwrote⟩ := serializeTo_wrote p ho e hkey hvalue
    have hanswer : Connection.answerKey p o pair buffer Fate.sent = (.ok o', es) := by
      rw [answerKey_known hk, hw]
    refine ⟨o', es, [e.canonical], ?_, hwrote, rfl⟩
    rw [Tx.bind_sent hanswer, Tx.bind_sent (syslogKey_nul hb _)]
    simp only [Tx.pure_apply, List.append_nil]

/-- What `new_key` writes for the pairs of a record. -/
theorem newKeys_wrote (p : Params) (hp : p.hardwareConcurrency < 4294967296)
    (views : List (Pair × List Byte)) (hb : ∀ view ∈ views, 0 ∈ view.2) :
    ∀ {o : Ostream}, Usable o →
      ∃ o' es rs, Connection.newKeys p o views Fate.sent = (.ok o', es) ∧ Wrote p o rs o' es ∧
        rs.map Entry.pair = (views.map Prod.fst).filterMap (reply p) := by
  induction views with
  | nil =>
    intro o _
    exact ⟨o, [], [], rfl, .refl p o, rfl⟩
  | cons view views ih =>
    intro o ho
    obtain ⟨pair, buffer⟩ := view
    simp only [List.mem_cons, forall_eq_or_imp] at hb
    obtain ⟨o₁, es₁, rs₁, h₁, w₁, hrs₁⟩ := newKey_wrote p hp ho pair hb.1
    obtain ⟨o', es, rs, hrest, w, hrs⟩ := ih hb.2 (w₁.usable ho)
    refine ⟨o', es₁ ++ es, rs₁ ++ rs, ?_, w₁.trans w, ?_⟩
    · rw [Connection.newKeys, Tx.bind_sent h₁, hrest]
    · rw [List.map_append, hrs₁, hrs, List.map_cons, List.filterMap_cons]
      cases reply p pair <;> rfl

theorem newKeys_past (p : Params) (views : List (Pair × List Byte))
    (hb : ¬ ∀ view ∈ views, 0 ∈ view.2) :
    ∀ (o : Ostream) (φ : Fate), ∃ crash es,
      Connection.newKeys p o views φ = (.error crash, es) := by
  induction views with
  | nil => exact absurd (by simp) hb
  | cons view views ih =>
    intro o φ
    obtain ⟨pair, buffer⟩ := view
    simp only [List.mem_cons, forall_eq_or_imp, not_and] at hb
    cases hk : Connection.newKey p o pair buffer φ with
    | mk result es =>
      cases result with
      | error crash => exact ⟨crash, es, Tx.bind_error hk⟩
      | ok o₁ =>
        have hnul : 0 ∈ buffer := by
          by_contra hno
          obtain ⟨crash, es', hpast⟩ := newKey_past p o pair hno φ
          rw [hpast] at hk
          cases hk
        obtain ⟨crash, es', hrest⟩ := ih (hb hnul) o₁ fun n => φ (n + sends es)
        refine ⟨crash, es ++ es', ?_⟩
        rw [Connection.newKeys, Tx.bind_ok hk, hrest]

/-! ## One record -/

/-- The parser waits for a pair, as a new connection's does. -/
structure Waiting (p : Params) (c : Connection) : Prop where
  ready : c.getValueHandler.Ready
  limit : c.getValueHandler.effectiveMaxPairSize p = p.nvpMaxPairSize

/-- No GET_VALUES record was handled yet. -/
structure Untouched (p : Params) (c : Connection) : Prop where
  waiting : Waiting p c
  stream : c.getValueResultStream = .new p 0 .getValuesResult

theorem new_untouched (p : Params) (junk : Junk) : Untouched p (.new p junk) :=
  ⟨⟨fresh_ready _ _ _, rfl⟩, rfl⟩

theorem untouched_open {p : Params} {c : Connection} (hc : Untouched p c) :
    IsOpen c.getValueResultStream := by
  rw [hc.stream]
  exact new_open p 0 .getValuesResult

/-- Behind the start of every key of `es` a NUL byte comes before the record ends with `rest`. -/
def Terminated (es : List Entry) (rest : List Byte) : Prop :=
  ∀ view ∈ entryViews es rest, 0 ∈ view.2

/-- Every pair of the record is handed to `new_key`, which logs its key inside the record. -/
structure Plain (p : Params) (es : List Entry) : Prop where
  oneByte : ∀ e ∈ es, e.Short
  within : ∀ e ∈ es, e.size ≤ p.nvpMaxPairSize
  terminated : Terminated es []

/-- The parser drops what is behind the first four-byte length of `e`, and with it `post`. -/
structure Cut (p : Params) (pre : List Entry) (e : Entry) (post : List Entry) : Prop where
  oneByte : ∀ f ∈ pre, f.Short
  within : ∀ f ∈ pre, f.size ≤ p.nvpMaxPairSize
  terminated : Terminated pre (e.bytes ++ encode post)
  long : ¬ e.Short
  behind : (e.behindLong (encode post)).length ≠ 4

/-- `handle_packet` once the parser and `new_key` are known. -/
theorem getValues_fed {p : Params} {c : Connection} {data : List Byte} {d : Deserializer}
    {o : Ostream} {es : List Event}
    (hf : (c.getValueHandler.feed p data).outcome = .returns false d)
    (hk : Connection.newKeys p c.getValueResultStream (c.getValueHandler.feedViews p data)
      Fate.sent = (.ok o, es)) :
    c.getValues p data Fate.sent =
      (.ok { c with getValueHandler := d, getValueResultStream := o },
        .fed .getValues data :: es) := by
  unfold Connection.getValues
  rw [Tx.bind_sent (rfl : Tx.note (.fed .getValues data) Fate.sent = _), Tx.bind_sent hk, hf]
  simp only [Tx.pure_apply, List.append_nil, List.singleton_append]

/-- A key that runs past the record, or a pair over the limit. -/
theorem getValues_crash {p : Params} {c : Connection} {data : List Byte}
    (h : (¬ ∀ view ∈ c.getValueHandler.feedViews p data, 0 ∈ view.2) ∨
      Throws (c.getValueHandler.feed p data)) :
    ∃ crash, (c.getValues p data Fate.sent).1 = .error crash := by
  unfold Connection.getValues
  rw [Tx.bind_sent (rfl : Tx.note (.fed .getValues data) Fate.sent = _)]
  cases hk : Connection.newKeys p c.getValueResultStream (c.getValueHandler.feedViews p data)
      Fate.sent with
  | mk result es =>
    cases result with
    | error crash => exact ⟨crash, by rw [Tx.bind_error hk]⟩
    | ok o =>
      rcases h with h | ⟨what, h⟩
      · obtain ⟨crash, es', hpast⟩ := newKeys_past p _ h c.getValueResultStream Fate.sent
        rw [hpast] at hk
        cases hk
      · rw [Tx.bind_sent hk, h]
        exact ⟨_, rfl⟩

/-- The empty record. -/
theorem getValues_empty {p : Params} {c : Connection} {o : Ostream} {es : List Event}
    (hc : c.getValueResultStream.close p Fate.sent = (.ok o, es)) :
    c.getValues p [] Fate.sent =
      (.ok { c with getValueResultStream := o }, .fed .getValues [] :: es) := by
  have hf : c.getValueHandler.feed p [] = ⟨[], .returns true c.getValueHandler⟩ := by
    simp [Deserializer.feed]
  unfold Connection.getValues
  rw [Tx.bind_sent (rfl : Tx.note (.fed .getValues []) Fate.sent = _), hf,
    Deserializer.feedViews_nil (by rw [hf])]
  simp only [Connection.newKeys]
  rw [Tx.bind_sent (Tx.pure_apply c.getValueResultStream Fate.sent)]
  simp only
  rw [Tx.bind_sent hc]
  simp only [Tx.pure_apply, List.append_nil, List.nil_append, List.singleton_append]

theorem wrote_fed {p : Params} {o o' : Ostream} {rs : List Entry} {es : List Event}
    (h : Wrote p o rs o' es) (data : List Byte) :
    Wrote p o rs o' (.fed .getValues data :: es) where
  flows := by
    intro ho
    have hf := h.flows ho
    exact ⟨hf.isOpen, hf.header, hf.records, hf.flow, hf.eof⟩
  closed := h.closed

/-- What a record that does not end the process comes to: its keys are answered, as far as
they are in `es`. -/
def Replies (p : Params) (c : Connection) (data : List Byte) (es : List Entry)
    (after : Connection → Prop) : Prop :=
  ∃ c' ev rs, c.getValues p data Fate.sent = (.ok c', ev) ∧ after c' ∧
    Wrote p c.getValueResultStream rs c'.getValueResultStream ev ∧
    rs.map Entry.pair = (es.map Entry.pair).filterMap (reply p)

theorem replies_of_feed {p : Params} (hp : p.hardwareConcurrency < 4294967296) {c : Connection}
    {data rest : List Byte} {es : List Entry} {d : Deserializer} {after : Connection → Prop}
    (ho : Usable c.getValueResultStream)
    (hf : (c.getValueHandler.feed p data).outcome = .returns false d)
    (hv : c.getValueHandler.feedViews p data = entryViews es rest) (ht : Terminated es rest)
    (hafter : ∀ o, after { c with getValueHandler := d, getValueResultStream := o }) :
    Replies p c data es after := by
  obtain ⟨o, ev, rs, hk, hw, hrs⟩ := newKeys_wrote p hp (entryViews es rest) ht ho
  rw [← hv] at hk
  rw [entryViews_pairs] at hrs
  exact ⟨_, _, rs, getValues_fed hf hk, hafter o, wrote_fed hw data, hrs⟩

theorem record_plain {p : Params} (hp : p.hardwareConcurrency < 4294967296) {c : Connection}
    {es : List Entry} (hc : Waiting p c) (ho : Usable c.getValueResultStream) (hne : es ≠ [])
    (h : Plain p es) : Replies p c (encode es) es (Waiting p) := by
  have hle : ∀ e ∈ es, e.size ≤ c.getValueHandler.effectiveMaxPairSize p := by
    rw [hc.limit]
    exact h.within
  obtain ⟨d, hr, hm, hf⟩ := feed_short p hc.ready hne h.oneByte hle
  exact replies_of_feed hp ho (by rw [hf]) (feedViews_all p hc.ready hne h.oneByte hle)
    h.terminated fun o => ⟨hr, hm.trans hc.limit⟩

/-- The parser stands behind a value length that kept its marker. -/
structure Stuck (p : Params) (c : Connection) : Prop where
  state : c.getValueHandler.parseState = .readValueLen
  remaining : c.getValueHandler.remainingLen = 0
  limit : c.getValueHandler.effectiveMaxPairSize p = p.nvpMaxPairSize
  marked : 2147483648 ≤ c.getValueHandler.nameLen.be + c.getValueHandler.valueLen.be
  bounded : c.getValueHandler.nameLen.be + c.getValueHandler.valueLen.be < 4294967296

/-- The records of a stream whose names have one-byte lengths. -/
structure Framed (es : List Entry) : Prop where
  names : ∀ e ∈ es, e.nameForm = .short
  length : (encode es).length ≤ 65535

theorem loopViews_stops {p : Params} {d : Deserializer} {data : List Byte} {fuel : Nat}
    (h : ∀ pair d' rest, turn p d data ≠ .again pair d' rest) :
    loopViews p (fuel + 1) d data = [] := by
  rw [loopViews]
  split
  · rename_i pair d' rest ht
    exact absurd ht (h pair d' rest)
  · rfl

theorem record_cut {p : Params} (hp : p.hardwareConcurrency < 4294967296) {c : Connection}
    {pre post : List Entry} {e : Entry} (hc : Waiting p c) (ho : Usable c.getValueResultStream)
    (h : Cut p pre e post) :
    Replies p c (encode (pre ++ e :: post)) pre fun c' =>
      Framed (pre ++ e :: post) → Stuck p c' := by
  have hle : ∀ f ∈ pre, f.size ≤ c.getValueHandler.effectiveMaxPairSize p := by
    rw [hc.limit]
    exact h.within
  have hne : e.bytes ++ encode post ≠ [] := by simp [bytes_ne_nil]
  have hsplit : encode (pre ++ e :: post) = encode pre ++ (e.bytes ++ encode post) := by
    rw [encode_append, encode_cons]
  have hviews := feedViews_short p hc.ready pre hne h.oneByte hle fun d' hd' _ fuel =>
    loopViews_stops (turn_long p hd' h.long (encode post))
  obtain ⟨d₁, fuel, hn₁, hr₁, hm₁, hf⟩ := feed_prefix p hc.ready pre hne h.oneByte hle
  -- the loop comes to the long length and ends there
  obtain ⟨d₂, ht, hr₂, hm₂, hstate⟩ := turn_long_waits p hn₁ h.long h.behind
  have hfeed : (c.getValueHandler.feed p (encode pre ++ (e.bytes ++ encode post))).outcome =
      .returns false d₂ := by
    rw [hf, loop, ht]
    rfl
  rw [hsplit]
  refine replies_of_feed hp ho hfeed hviews h.terminated fun o hframed => ?_
  obtain ⟨hst, hname, hvalue⟩ := hstate (hframed.names e (by simp))
  have hlim : d₂.effectiveMaxPairSize p = d₁.effectiveMaxPairSize p := by
    simp only [effectiveMaxPairSize, hm₂]
  have hlen := hframed.length
  rw [hsplit] at hlen
  simp only [List.length_append, Entry.bytes] at hlen
  exact ⟨hst, by rw [hr₂, hr₁], by rw [hlim, hm₁, hc.limit],
    by rw [hname, hvalue]; omega, by rw [hname, hvalue]; omega⟩

/-- Whatever comes next is over the limit. -/
theorem record_stuck {p : Params} {c : Connection} (hc : Stuck p c)
    (hlim : p.nvpMaxPairSize < 2147483648) {data : List Byte} (hne : data ≠ []) :
    ∃ crash, (c.getValues p data Fate.sent).1 = .error crash := by
  refine getValues_crash (Or.inr ?_)
  have hsize : pairSize c.getValueHandler.nameLen.be c.getValueHandler.valueLen.be =
      c.getValueHandler.nameLen.be + c.getValueHandler.valueLen.be := Nat.mod_eq_of_lt hc.bounded
  have hmarked := hc.marked
  obtain ⟨what, ht⟩ : ∃ what, Deserializer.turn p c.getValueHandler data = .throws what := by
    simp only [Deserializer.turn, hc.state, willReadBuffer_eq, hsize, hc.limit]
    rw [if_pos (by omega)]
    exact ⟨_, rfl⟩
  refine ⟨what, ?_⟩
  rw [feed_now hc.remaining hne, loop, ht]

/-- Any other record, with its names in the one-byte form. -/
theorem record_crashes {p : Params} {c : Connection} {es : List Entry} (hc : Waiting p c)
    (hlim : p.nvpMaxPairSize < 2147483648) (hne : es ≠ [])
    (hnames : ∀ e ∈ es, e.nameForm = .short) (hplain : ¬ Plain p es)
    (hcut : ∀ pre e post, es = pre ++ e :: post → ¬ Cut p pre e post) :
    ∃ crash, (c.getValues p (encode es) Fate.sent).1 = .error crash := by
  refine getValues_crash ?_
  have hover : ∀ pre e post, es = pre ++ e :: post → (∀ f ∈ pre, f.Short) → e.Short →
      (∀ f ∈ pre, f.size ≤ p.nvpMaxPairSize) → p.nvpMaxPairSize < e.size →
      Throws (c.getValueHandler.feed p (encode es)) := by
    rintro pre e post rfl hs he hle hlt
    exact (feed_oversize p hc.ready post hs he (by rw [hc.limit]; exact hle)
      (by rw [hc.limit]; exact hlt)).2
  by_cases hshort : ∀ e ∈ es, e.Short
  · by_cases hle : ∀ e ∈ es, e.size ≤ p.nvpMaxPairSize
    · refine Or.inl ?_
      rw [feedViews_all p hc.ready hne hshort (by rw [hc.limit]; exact hle)]
      exact fun h => hplain ⟨hshort, hle, h⟩
    · obtain ⟨pre, e, post, rfl, hpre, he⟩ := exists_first_not hle
      simp only [List.mem_append, List.mem_cons] at hshort
      exact Or.inr (hover pre e post rfl (fun f h => hshort f (Or.inl h))
        (hshort e (Or.inr (Or.inl rfl))) hpre (by omega))
  · obtain ⟨pre, e, post, rfl, hpre, he⟩ := exists_first_not hshort
    by_cases hle : ∀ f ∈ pre, f.size ≤ p.nvpMaxPairSize
    · have hne' : e.bytes ++ encode post ≠ [] := by simp [bytes_ne_nil]
      have hviews := feedViews_short p hc.ready pre hne' hpre (by rw [hc.limit]; exact hle)
        fun d' hd' _ fuel => loopViews_stops (turn_long p hd' he (encode post))
      by_cases ht : Terminated pre (e.bytes ++ encode post)
      · have hbehind : (e.behindLong (encode post)).length = 4 := by
          by_contra hne4
          exact hcut pre e post rfl ⟨hpre, hle, ht, he, hne4⟩
        obtain ⟨d₁, fuel, hn₁, -, hm₁, hf⟩ := feed_prefix p hc.ready pre hne' hpre
          (by rw [hc.limit]; exact hle)
        obtain ⟨what, hthrows⟩ := turn_long_throws p hn₁ he (hnames e (by simp)) hbehind
          (by rw [hm₁, hc.limit]; exact hlim)
        refine Or.inr ⟨what, ?_⟩
        rw [encode_append, encode_cons, hf, loop, hthrows]
        rfl
      · refine Or.inl ?_
        rw [encode_append, encode_cons, hviews]
        exact ht
    · obtain ⟨pre', f, mid, rfl, hpre', hf⟩ := exists_first_not hle
      simp only [List.mem_append, List.mem_cons] at hpre
      exact Or.inr (hover pre' f (mid ++ e :: post) (by simp)
        (fun g h => hpre g (Or.inl h)) (hpre f (Or.inr (Or.inl rfl))) hpre' (by omega))

/-! ## One stream -/

/-- Every record of the stream has a pair. -/
def Filled (s : Request) : Prop := ∀ es ∈ s, es ≠ []

/-- The stream asks for no key that the server knows. -/
def AsksNothing (p : Params) (s : Request) : Prop :=
  ∀ es ∈ s, ∀ e ∈ es, knownValue p e.name = none

/-- The records of a connection that lose no answer: plain ones, and a last one may be cut
before pairs that ask for nothing. -/
inductive Taken (p : Params) : List (List Entry) → Prop where
  | nil : Taken p []
  | plain {es : List Entry} {rs : List (List Entry)} (h : Plain p es) (hr : Taken p rs) :
      Taken p (es :: rs)
  | cut {pre post : List Entry} {e : Entry} (h : Cut p pre e post)
      (hn : ∀ f ∈ e :: post, knownValue p f.name = none) : Taken p [pre ++ e :: post]

/-- The parser has still the records `rs` before it. -/
def Faces (p : Params) (c : Connection) (rs : List (List Entry)) : Prop :=
  Waiting p c ∧ Taken p rs ∨ rs = []

theorem serve_append {p : Params} {records : List (List Byte)} {c c' : Connection}
    {es : List Event} (h : serve p c records Fate.sent = (.ok c', es)) (more : List (List Byte)) :
    serve p c (records ++ more) Fate.sent =
      ((serve p c' more Fate.sent).1, es ++ (serve p c' more Fate.sent).2) := by
  induction records generalizing c es with
  | nil =>
    cases h
    simp
  | cons data records ih =>
    obtain ⟨c₁, es₁, es₂, h₁, h₂, rfl⟩ := Tx.bind_eq_ok h
    rw [List.cons_append, serve, Tx.bind_sent h₁, ih h₂, List.append_assoc]

theorem reply_none_iff {p : Params} {es : List Entry} :
    (∀ e ∈ es, knownValue p e.name = none) ↔ (es.map Entry.pair).filterMap (reply p) = [] := by
  simp only [List.filterMap_eq_nil_iff, List.mem_map, forall_exists_index, and_imp,
    forall_apply_eq_imp_iff₂, reply, Option.map_eq_none_iff]
  rfl

/-- The records of a stream, with `more` behind them on the connection. -/
theorem serve_taken (p : Params) (hp : p.hardwareConcurrency < 4294967296) (s : Request)
    (more : List (List Entry)) :
    ∀ {c : Connection}, Filled s → Faces p c (s ++ more) → Usable c.getValueResultStream →
      ∃ c' es rs, serve p c (s.map encode) Fate.sent = (.ok c', es) ∧ Faces p c' more ∧
        Wrote p c.getValueResultStream rs c'.getValueResultStream es ∧
        rs.map Entry.pair = (s.flatten.map Entry.pair).filterMap (reply p) := by
  induction s with
  | nil =>
    intro c _ hf _
    exact ⟨c, [], [], rfl, hf, .refl p _, rfl⟩
  | cons es s ih =>
    intro c hfill hf ho
    simp only [Filled, List.mem_cons, forall_eq_or_imp] at hfill
    obtain ⟨hc, ht⟩ := hf.resolve_right (by simp)
    rw [List.cons_append] at ht
    have hstep : Replies p c (encode es) es fun c' => Faces p c' (s ++ more) := by
      generalize hrs : s ++ more = rs at ht
      cases ht with
      | plain h hr =>
        obtain ⟨c', ev, rs', hgave, hc', hw, hrs'⟩ := record_plain hp hc ho hfill.1 h
        exact ⟨c', ev, rs', hgave, Or.inl ⟨hc', hr⟩, hw, hrs'⟩
      | @cut pre post e h hn =>
        obtain ⟨c', ev, rs', hgave, -, hw, hrs'⟩ := record_cut hp hc ho h
        refine ⟨c', ev, rs', hgave, Or.inr rfl, hw, ?_⟩
        rw [hrs', List.map_append, List.filterMap_append, reply_none_iff.mp hn, List.append_nil]
    obtain ⟨c₁, es₁, rs₁, h₁, hf₁, w₁, hrs₁⟩ := hstep
    obtain ⟨c', es', rs, hserve, hf', w, hrs⟩ := ih hfill.2 hf₁ (w₁.usable ho)
    refine ⟨c', es₁ ++ es', rs₁ ++ rs, ?_, hf', w₁.trans w, ?_⟩
    · rw [List.map_cons, serve, Tx.bind_sent h₁, hserve]
    · rw [List.map_append, hrs₁, hrs, List.flatten_cons, List.map_append, List.filterMap_append]

/-- The records of a stream that did not end the process, the pairs that were answered, and
the parser behind them. -/
inductive Passed (p : Params) (c' : Connection) : Request → List Pair → Prop where
  | whole {s : Request} (hs : ∀ es ∈ s, Plain p es) (hc : Waiting p c') :
      Passed p c' s ((s.flatten.map Entry.pair).filterMap (reply p))
  | cut {init : Request} {pre post : List Entry} {e : Entry} (hs : ∀ es ∈ init, Plain p es)
      (h : Cut p pre e post) (hc : Stuck p c') :
      Passed p c' (init ++ [pre ++ e :: post])
        (((init.flatten ++ pre).map Entry.pair).filterMap (reply p))

theorem passed_cons {p : Params} {c' : Connection} {es : List Entry} {s : Request}
    {pairs : List Pair} (h : Plain p es) (hs : Passed p c' s pairs) :
    Passed p c' (es :: s) ((es.map Entry.pair).filterMap (reply p) ++ pairs) := by
  have hall : ∀ {s : Request}, (∀ es ∈ s, Plain p es) → ∀ fs ∈ es :: s, Plain p fs := by
    intro s hs fs hfs
    rcases List.mem_cons.mp hfs with rfl | hfs
    · exact h
    · exact hs fs hfs
  cases hs with
  | whole hs hc =>
    rw [← List.filterMap_append, ← List.map_append, ← List.flatten_cons]
    exact .whole (hall hs) hc
  | @cut init pre post e hs hcut hc =>
    rw [← List.filterMap_append, ← List.map_append, ← List.append_assoc, ← List.flatten_cons,
      ← List.cons_append]
    exact .cut (hall hs) hcut hc

theorem serve_needs (p : Params) (hp : p.hardwareConcurrency < 4294967296)
    (hlim : p.nvpMaxPairSize < 2147483648) (s : Request) (more : List (List Byte)) :
    ∀ {c c' : Connection} {ev : List Event}, Filled s → (∀ es ∈ s, Framed es) → Waiting p c →
      Usable c.getValueResultStream →
      serve p c (s.map encode ++ more) Fate.sent = (.ok c', ev) →
      ∃ c₁ es₁ rs, serve p c (s.map encode) Fate.sent = (.ok c₁, es₁) ∧
        Wrote p c.getValueResultStream rs c₁.getValueResultStream es₁ ∧
        Passed p c₁ s (rs.map Entry.pair) := by
  induction s with
  | nil =>
    intro c c' ev _ _ hc _ _
    exact ⟨c, [], [], rfl, .refl p _, .whole (by simp) hc⟩
  | cons es s ih =>
    intro c c' ev hfill hframed hc ho hserve
    simp only [Filled, List.mem_cons, forall_eq_or_imp] at hfill hframed
    rw [List.map_cons, List.cons_append] at hserve
    obtain ⟨c₀, es₀, es', h₀, hrest, -⟩ := Tx.bind_eq_ok hserve
    by_cases hplain : Plain p es
    · obtain ⟨c₁, es₁, rs₁, h₁, hc₁, w₁, hrs₁⟩ := record_plain hp hc ho hfill.1 hplain
      rw [h₁] at h₀
      cases h₀
      obtain ⟨c₂, es₂, rs₂, h₂, w₂, hpassed⟩ := ih hfill.2 hframed.2 hc₁ (w₁.usable ho) hrest
      refine ⟨c₂, es₀ ++ es₂, rs₁ ++ rs₂, ?_, w₁.trans w₂, ?_⟩
      · rw [List.map_cons, serve, Tx.bind_sent h₁, h₂]
      · rw [List.map_append, hrs₁]
        exact passed_cons hplain hpassed
    · by_cases hcut : ∃ pre e post, es = pre ++ e :: post ∧ Cut p pre e post
      · obtain ⟨pre, e, post, rfl, hcut⟩ := hcut
        obtain ⟨c₁, es₁, rs₁, h₁, hstuck, w₁, hrs₁⟩ := record_cut hp hc ho hcut
        rw [h₁] at h₀
        cases h₀
        cases s with
        | nil =>
          refine ⟨c₀, es₀, rs₁, ?_, w₁, ?_⟩
          · rw [List.map_cons, List.map_nil, serve, Tx.bind_sent h₁]
            simp only [serve, Tx.pure_apply, List.append_nil]
          · rw [hrs₁]
            have hnone : ∀ es ∈ ([] : Request), Plain p es := by simp
            exact .cut hnone hcut (hstuck hframed.1)
        | cons fs s =>
          -- the next record is over the limit
          obtain ⟨crash, hcrash⟩ := record_stuck (hstuck hframed.1) hlim
            (encode_ne_nil.mpr (hfill.2 fs List.mem_cons_self))
          rw [List.map_cons, List.cons_append] at hrest
          obtain ⟨c₂, es₂, es₃, h₂, -, -⟩ := Tx.bind_eq_ok hrest
          rw [show (fun n => Fate.sent (n + sends es₀)) = Fate.sent from rfl] at h₂
          rw [h₂] at hcrash
          cases hcrash
      · obtain ⟨crash, hcrash⟩ := record_crashes hc hlim hfill.1 hframed.1.names hplain
          fun pre e post hes h => hcut ⟨pre, e, post, hes, h⟩
        rw [h₀] at hcrash
        cases hcrash

theorem resultContent_eq {es : List Event}
    (h : ∀ pkt ∈ packets es, pkt.recType = .getValuesResult) :
    resultContent es = (packets es).flatMap Packet.body := by
  have hall : (packets es).filter (fun pkt => pkt.recType == .getValuesResult) = packets es := by
    rw [List.filter_eq_self]
    intro pkt hpkt
    rw [h pkt hpkt]
    rfl
  rw [resultContent, hall]

theorem mem_ending {p : Params} {o : Ostream} {eof : Bool} {pkt : Packet}
    (h : pkt ∈ ending p o eof) : pkt = o.internal.packet p [] := by
  cases eof with
  | false => cases h
  | true => exact List.mem_singleton.mp h

theorem ending_bodies (p : Params) (o : Ostream) (eof : Bool) :
    (ending p o eof).flatMap Packet.body = [] := by
  cases eof <;> rfl

/-- The end of the first stream sends the replies and closes the reply stream. -/
theorem serve_first {p : Params} {s : Request} {c c₁ : Connection} {es₁ : List Event}
    {rs : List Entry} (hc : c.getValueResultStream = .new p 0 .getValuesResult)
    (h₁ : serve p c (s.map encode) Fate.sent = (.ok c₁, es₁))
    (hw : Wrote p c.getValueResultStream rs c₁.getValueResultStream es₁) :
    ∃ c' es, serve p c (contents s) Fate.sent = (.ok c', es) ∧
      c'.getValueHandler = c₁.getValueHandler ∧ c'.getValueResultStream.attached = false ∧
      decode (resultContent es) = some (rs.map Entry.pair) := by
  have hflow := hw.flows (by rw [hc]; exact new_open p 0 .getValuesResult)
  obtain ⟨es₂, data, hclose, hpackets, hrecords, hdata⟩ := close_flows p hflow.isOpen
  have hserve : serve p c (contents s) Fate.sent =
      (.ok { c₁ with getValueResultStream := c₁.getValueResultStream.closed p },
        es₁ ++ (.fed .getValues [] :: es₂)) := by
    rw [contents, serve_append h₁, serve, Tx.bind_sent (getValues_empty hclose)]
    simp [serve, Tx.pure_apply]
  refine ⟨_, _, hserve, rfl, rfl, ?_⟩
  have hsent : packets (es₁ ++ (.fed .getValues [] :: es₂)) = packets es₁ ++ (data ++
      ending p c₁.getValueResultStream (c₁.getValueResultStream.internal.sendEof ||
        !data.isEmpty)) := by
    rw [packets_append, ← hpackets]
    rfl
  have htype : ∀ pkt ∈ packets (es₁ ++ (.fed .getValues [] :: es₂)),
      pkt.recType = .getValuesResult := by
    have hstamp : ∀ d, (c₁.getValueResultStream.internal.packet p d).recType =
        .getValuesResult := by
      intro d
      rw [Packet.recType, Ostreambuf.packet, hflow.header, hc]
      rfl
    intro pkt hpkt
    rw [hsent, List.mem_append, List.mem_append] at hpkt
    rcases hpkt with hpkt | hpkt | hpkt
    · obtain ⟨d, rfl, -⟩ := hflow.records pkt hpkt
      rw [← hstamp d, Ostreambuf.packet, Ostreambuf.packet, hflow.header]
    · obtain ⟨d, rfl, -⟩ := hrecords pkt hpkt
      exact hstamp d
    · obtain rfl := mem_ending hpkt
      exact hstamp []
  have hpending : c.getValueResultStream.internal.pending = [] := by
    rw [hc]
    rfl
  -- all that left is the encoding of the replies
  have hbytes := hflow.flow
  rw [hpending, List.nil_append] at hbytes
  rw [resultContent_eq htype, hsent, List.flatMap_append, List.flatMap_append, hdata,
    ending_bodies, List.append_nil, ← hbytes, decode_encode]

/-- A closed stream sends nothing. -/
theorem serve_later {p : Params} {s : Request} {c c₁ : Connection} {es₁ : List Event}
    {rs : List Entry} (hc : c.getValueResultStream.attached = false)
    (h₁ : serve p c (s.map encode) Fate.sent = (.ok c₁, es₁))
    (hw : Wrote p c.getValueResultStream rs c₁.getValueResultStream es₁) :
    ∃ c' es, serve p c (contents s) Fate.sent = (.ok c', es) ∧
      c'.getValueHandler = c₁.getValueHandler ∧ c'.getValueResultStream.attached = false ∧
      resultContent es = [] := by
  obtain ⟨hstream, hnone⟩ := hw.closed hc
  have ho₁ : c₁.getValueResultStream.attached = false := by rw [hstream, hc]
  have hserve : serve p c (contents s) Fate.sent = (.ok c₁, es₁ ++ [.fed .getValues []]) := by
    rw [contents, serve_append h₁, serve,
      Tx.bind_sent (getValues_empty (Ostream.close_detached p ho₁ Fate.sent))]
    simp [serve, Tx.pure_apply]
  refine ⟨c₁, _, hserve, rfl, ho₁, ?_⟩
  rw [resultContent, packets_append, hnone]
  rfl

/-! ## All streams -/

theorem asksNothing_iff (p : Params) (s : Request) :
    AsksNothing p s ↔ (s.flatten.map Entry.pair).filterMap (reply p) = [] := by
  rw [← reply_none_iff]
  simp only [AsksNothing, List.mem_flatten]
  exact ⟨fun h e ⟨es, hes, he⟩ => h es hes e he, fun h es hes e he => h e ⟨es, hes, he⟩⟩

/-- No stream after the first asks for a known key, and the records are taken. -/
structure Heard (p : Params) (streams : List Request) : Prop where
  first : ∀ s ∈ streams.tail, AsksNothing p s
  taken : Taken p streams.flatten

theorem waiting_handler {p : Params} {c c' : Connection} (h : Waiting p c)
    (hc : c'.getValueHandler = c.getValueHandler) : Waiting p c' :=
  ⟨hc ▸ h.ready, hc ▸ h.limit⟩

theorem stuck_handler {p : Params} {c c' : Connection} (h : Stuck p c)
    (hc : c'.getValueHandler = c.getValueHandler) : Stuck p c' :=
  ⟨hc ▸ h.state, hc ▸ h.remaining, hc ▸ h.limit, hc ▸ h.marked, hc ▸ h.bounded⟩

theorem faces_handler {p : Params} {c c' : Connection} {rs : List (List Entry)}
    (h : Faces p c rs) (hc : c'.getValueHandler = c.getValueHandler) : Faces p c' rs := by
  rcases h with ⟨hw, ht⟩ | h
  · exact Or.inl ⟨waiting_handler hw hc, ht⟩
  · exact Or.inr h

theorem answered_later (p : Params) (hp : p.hardwareConcurrency < 4294967296)
    (streams : List Request) :
    ∀ {c : Connection}, (∀ s ∈ streams, Filled s) → Faces p c streams.flatten →
      c.getValueResultStream.attached = false → (∀ s ∈ streams, AsksNothing p s) →
      Answered p c streams := by
  induction streams with
  | nil => exact fun _ _ _ _ => trivial
  | cons s streams ih =>
    intro c hfill hf ho hasks
    simp only [List.mem_cons, forall_eq_or_imp] at hfill hasks
    rw [List.flatten_cons] at hf
    obtain ⟨c₁, es₁, rs, h₁, hf₁, hw, -⟩ := serve_taken p hp s _ hfill.1 hf (Or.inr ho)
    obtain ⟨c', es, hserve, hhandler, ho', hnone⟩ := serve_later ho h₁ hw
    refine ⟨c', es, hserve, ?_, ih hfill.2 (faces_handler hf₁ hhandler) ho' hasks.2⟩
    rw [hnone, (asksNothing_iff p s).mp hasks.1]
    rfl

theorem answered_suffices {p : Params} (hp : p.hardwareConcurrency < 4294967296) {c : Connection}
    (hc : Untouched p c) {streams : List Request} (hfill : ∀ s ∈ streams, Filled s)
    (h : Heard p streams) : Answered p c streams := by
  obtain ⟨hasks, ht⟩ := h
  cases streams with
  | nil => trivial
  | cons s streams =>
    simp only [List.mem_cons, forall_eq_or_imp] at hfill
    rw [List.flatten_cons] at ht
    obtain ⟨c₁, es₁, rs, h₁, hf₁, hw, hrs⟩ := serve_taken p hp s _ hfill.1
      (Or.inl ⟨hc.waiting, ht⟩) (Or.inl (untouched_open hc))
    obtain ⟨c', es, hserve, hhandler, ho', hdecode⟩ := serve_first hc.stream h₁ hw
    exact ⟨c', es, hserve, by rw [hdecode, hrs],
      answered_later p hp streams hfill.2 (faces_handler hf₁ hhandler) ho' hasks⟩

theorem taken_append {p : Params} {s : Request} {more : List (List Entry)}
    (hs : ∀ es ∈ s, Plain p es) (h : Taken p more) : Taken p (s ++ more) := by
  induction s with
  | nil => exact h
  | cons es s ih =>
    simp only [List.mem_cons, forall_eq_or_imp] at hs
    exact .plain hs.1 (ih hs.2)

/-- Behind a stuck parser there are only empty streams. -/
theorem answered_stuck {p : Params} (hlim : p.nvpMaxPairSize < 2147483648)
    (streams : List Request) :
    ∀ {c : Connection}, (∀ s ∈ streams, Filled s) → Stuck p c →
      c.getValueResultStream.attached = false → Answered p c streams → streams.flatten = [] := by
  induction streams with
  | nil => exact fun _ _ _ _ => rfl
  | cons s streams ih =>
    intro c hfill hc ho h
    simp only [List.mem_cons, forall_eq_or_imp] at hfill
    obtain ⟨c', es, hserve, -, hrest⟩ := h
    cases s with
    | nil =>
      obtain ⟨c₁, es₁, h₁, hhandler, ho₁, -⟩ := serve_later (s := []) ho rfl (.refl p _)
      rw [h₁] at hserve
      cases hserve
      exact ih hfill.2 (stuck_handler hc hhandler) ho₁ hrest
    | cons fs s =>
      obtain ⟨crash, hcrash⟩ := record_stuck hc hlim
        (encode_ne_nil.mpr (hfill.1 fs List.mem_cons_self))
      rw [contents, List.map_cons, List.cons_append] at hserve
      obtain ⟨c₂, es₂, es₃, h₂, -, -⟩ := Tx.bind_eq_ok hserve
      rw [h₂] at hcrash
      cases hcrash

/-- A stream that was got through without losing an answer. -/
theorem passed_taken {p : Params} {c' : Connection} {s : Request} {pairs : List Pair}
    {more : List (List Entry)} (h : Passed p c' s pairs)
    (hall : pairs = (s.flatten.map Entry.pair).filterMap (reply p) ∨ AsksNothing p s)
    (hwaiting : Waiting p c' → Taken p more) (hstuck : Stuck p c' → more = []) :
    Taken p (s ++ more) := by
  cases h with
  | whole hs hc => exact taken_append hs (hwaiting hc)
  | @cut init pre post e hs h hc =>
    rw [hstuck hc, List.append_nil]
    refine taken_append hs (.cut h ?_)
    rcases hall with hall | hall
    · have hflat : (init ++ [pre ++ e :: post]).flatten = (init.flatten ++ pre) ++ e :: post := by
        simp
      have hsplit : (((init.flatten ++ pre) ++ e :: post).map Entry.pair).filterMap (reply p) =
          ((init.flatten ++ pre).map Entry.pair).filterMap (reply p) ++
            ((e :: post).map Entry.pair).filterMap (reply p) := by
        rw [List.map_append, List.filterMap_append]
      rw [hflat, hsplit] at hall
      exact reply_none_iff.mpr (List.self_eq_append_right.mp hall)
    · intro f hf
      exact hall (pre ++ e :: post) (by simp) f (List.mem_append_right pre hf)

theorem Passed.parser {p : Params} {c' : Connection} {s : Request} {pairs : List Pair}
    (h : Passed p c' s pairs) : Waiting p c' ∨ Stuck p c' := by
  cases h with
  | whole hs hc => exact Or.inl hc
  | cut hs h hc => exact Or.inr hc

theorem asksNothing_of_empty {p : Params} {streams : List Request} (h : streams.flatten = []) :
    ∀ s ∈ streams, AsksNothing p s := by
  intro s hs es hes
  rw [List.flatten_eq_nil_iff.mp h s hs] at hes
  cases hes

theorem answered_later_needs (p : Params) (hp : p.hardwareConcurrency < 4294967296)
    (hlim : p.nvpMaxPairSize < 2147483648) (streams : List Request) :
    ∀ {c : Connection}, (∀ s ∈ streams, Filled s) → (∀ s ∈ streams, ∀ es ∈ s, Framed es) →
      Waiting p c → c.getValueResultStream.attached = false → Answered p c streams →
      (∀ s ∈ streams, AsksNothing p s) ∧ Taken p streams.flatten := by
  induction streams with
  | nil => exact fun _ _ _ _ _ => ⟨by simp, .nil⟩
  | cons s streams ih =>
    intro c hfill hframed hc ho h
    simp only [List.mem_cons, forall_eq_or_imp] at hfill hframed ⊢
    obtain ⟨c', es, hserve, hdecode, hrest⟩ := h
    obtain ⟨c₁, es₁, rs, h₁, hw, hpassed⟩ := serve_needs p hp hlim s [[]] hfill.1 hframed.1 hc
      (Or.inr ho) hserve
    obtain ⟨c₂, es₂, h₂, hhandler, ho₂, hnone⟩ := serve_later ho h₁ hw
    rw [h₂] at hserve
    cases hserve
    rw [hnone] at hdecode
    have hasks : AsksNothing p s := (asksNothing_iff p s).mpr (Option.some.inj hdecode).symm
    have hnext := fun hc₁ : Waiting p c₁ =>
      ih hfill.2 hframed.2 (waiting_handler hc₁ hhandler) ho₂ hrest
    have hempty := fun hc₁ : Stuck p c₁ =>
      answered_stuck hlim streams hfill.2 (stuck_handler hc₁ hhandler) ho₂ hrest
    refine ⟨⟨hasks, ?_⟩, passed_taken hpassed (Or.inr hasks) (fun hc₁ => (hnext hc₁).2) hempty⟩
    rcases hpassed.parser with hc₁ | hc₁
    · exact (hnext hc₁).1
    · exact asksNothing_of_empty (hempty hc₁)

theorem answered_needs {p : Params} (hp : p.hardwareConcurrency < 4294967296)
    (hlim : p.nvpMaxPairSize < 2147483648) {c : Connection} (hc : Untouched p c)
    {streams : List Request} (hfill : ∀ s ∈ streams, Filled s)
    (hframed : ∀ s ∈ streams, ∀ es ∈ s, Framed es) (h : Answered p c streams) :
    Heard p streams := by
  cases streams with
  | nil => exact ⟨by simp, .nil⟩
  | cons s streams =>
    simp only [List.mem_cons, forall_eq_or_imp] at hfill hframed
    obtain ⟨c', es, hserve, hdecode, hrest⟩ := h
    obtain ⟨c₁, es₁, rs, h₁, hw, hpassed⟩ := serve_needs p hp hlim s [[]] hfill.1 hframed.1
      hc.waiting (Or.inl (untouched_open hc)) hserve
    obtain ⟨c₂, es₂, h₂, hhandler, ho₂, hreplies⟩ := serve_first hc.stream h₁ hw
    rw [h₂] at hserve
    cases hserve
    rw [hreplies] at hdecode
    have hnext := fun hc₁ : Waiting p c₁ =>
      answered_later_needs p hp hlim streams hfill.2 hframed.2 (waiting_handler hc₁ hhandler)
        ho₂ hrest
    have hempty := fun hc₁ : Stuck p c₁ =>
      answered_stuck hlim streams hfill.2 (stuck_handler hc₁ hhandler) ho₂ hrest
    refine ⟨?_, passed_taken hpassed (Or.inl (Option.some.inj hdecode))
      (fun hc₁ => (hnext hc₁).2) hempty⟩
    rcases hpassed.parser with hc₁ | hc₁
    · exact (hnext hc₁).1
    · exact asksNothing_of_empty (hempty hc₁)

/-- **GET_VALUES.** The streams of a connection that had none are all answered when their
records are taken and no stream but the first asks for a key that the server knows. With
names in the one-byte form and a limit below 2^31, only then. -/
theorem answered_iff (p : Params) (hp : p.hardwareConcurrency < 4294967296) {c : Connection}
    (hc : Untouched p c) (streams : List Request) (hfill : ∀ s ∈ streams, Filled s) :
    (Heard p streams → Answered p c streams) ∧
      (p.nvpMaxPairSize < 2147483648 → (∀ s ∈ streams, ∀ es ∈ s, Framed es) →
        (Answered p c streams ↔ Heard p streams)) :=
  ⟨answered_suffices hp hc hfill, fun hlim hframed =>
    ⟨answered_needs hp hlim hc hfill hframed, answered_suffices hp hc hfill⟩⟩

/-- A key with an empty value. -/
def maxConnsEntry : Entry :=
  ⟨ascii "FCGI_MAX_CONNS", [], .short, .short, by decide, by decide⟩

/-- A key whose value is a NUL byte. -/
def mpxsEntry : Entry :=
  ⟨ascii "FCGI_MPXS_CONNS", [0], .short, .short, by decide, by decide⟩

/-- A key that the server does not know, with a value whose length needs four bytes. -/
def otherEntry : Entry :=
  ⟨ascii "FCGI_OTHER", List.replicate 200 0, .short, .long, by decide, by
    rw [List.length_replicate]
    decide⟩

/-- Two known keys, then one that is not known and ends the last record. -/
def askedOnce : List Request := [[[maxConnsEntry, mpxsEntry]], [], [[otherEntry]]]

theorem askedOnce_heard : Heard .standard askedOnce where
  first := by
    simp only [askedOnce, List.tail_cons, List.mem_cons, List.not_mem_nil, or_false,
      forall_eq_or_imp, forall_eq, AsksNothing, false_implies, implies_true, true_and]
    decide
  taken := by
    have hplain : Plain .standard [maxConnsEntry, mpxsEntry] := by
      refine ⟨?_, by decide, by unfold Terminated; decide⟩
      simp only [List.mem_cons, List.not_mem_nil, or_false, forall_eq_or_imp, forall_eq]
      exact ⟨⟨rfl, rfl⟩, rfl, rfl⟩
    have hbehind : (otherEntry.behindLong (encode [])).length ≠ 4 := by
      simp only [otherEntry, Entry.behindLong, List.length_append, List.length_replicate]
      omega
    have hcut : Cut .standard [] otherEntry [] :=
      ⟨by simp, by simp, by simp [Terminated, entryViews], fun h => LenForm.noConfusion h.2,
        hbehind⟩
    exact .plain hplain (.cut hcut (by decide))

theorem askedOnce_framed : ∀ s ∈ askedOnce, ∀ es ∈ s, Framed es := by
  have hfirst : Framed [maxConnsEntry, mpxsEntry] := ⟨by decide, by decide⟩
  have hlast : Framed [otherEntry] := by
    have hname : (ascii "FCGI_OTHER").length = 10 := by decide
    refine ⟨by decide, ?_⟩
    simp only [encode_cons, encode_nil, Entry.bytes, otherEntry, lengthBytes, List.length_append,
      List.length_replicate, List.length_cons, List.length_nil, hname]
    omega
  simp only [askedOnce, List.mem_cons, List.not_mem_nil, or_false, forall_eq_or_imp, forall_eq,
    false_implies, implies_true, true_and]
  exact ⟨hfirst, hlast⟩

theorem answered_iff_once :
    Answered .standard (.new .standard Junk.zeros) askedOnce :=
  ((answered_iff .standard (by decide) (new_untouched _ _) askedOnce
    (by simp [askedOnce, Filled])).2 (by decide) askedOnce_framed).mpr askedOnce_heard

/-- A taken record of one-byte lengths is plain. -/
theorem taken_short {p : Params} {rs : List (List Entry)} (h : Taken p rs) :
    ∀ es ∈ rs, (∀ e ∈ es, e.Short) → Plain p es := by
  induction h with
  | nil => simp
  | @plain es rs h hr ih =>
    intro fs hfs hs
    rcases List.mem_cons.mp hfs with rfl | hfs
    · exact h
    · exact ih fs hfs hs
  | @cut pre post e h hn =>
    intro fs hfs hs
    rw [List.mem_singleton.mp hfs] at hs
    exact absurd (hs e (by simp)) h.long

/-- The same question twice gets one answer; and a lone key with an empty value is logged past
the end of its record. -/
theorem second_unanswered :
    ¬ Answered .standard (.new .standard Junk.zeros) [[[mpxsEntry]], [[mpxsEntry]]] ∧
      ¬ Answered .standard (.new .standard Junk.zeros) [[[maxConnsEntry]]] := by
  have hframed : ∀ e : Entry, e.nameForm = .short → e.bytes.length ≤ 100 → Framed [e] := by
    intro e he hl
    refine ⟨by simpa using he, ?_⟩
    rw [encode_cons, encode_nil, List.append_nil]
    omega
  constructor
  · intro h
    have hheard := answered_needs (by decide) (by decide) (new_untouched _ _) (by simp [Filled])
      (by simpa using hframed mpxsEntry rfl (by decide)) h
    have hnone := hheard.first [[mpxsEntry]] (by simp) [mpxsEntry] (by simp) mpxsEntry (by simp)
    exact absurd hnone (by decide)
  · intro h
    have hheard := answered_needs (by decide) (by decide) (new_untouched _ _) (by simp [Filled])
      (by simpa using hframed maxConnsEntry rfl (by decide)) h
    have hnone := (taken_short hheard.taken [maxConnsEntry] (by simp)
      (by simpa using ⟨rfl, rfl⟩)).terminated
    unfold Terminated at hnone
    revert hnone
    decide

end Tfcgi.GetValues
