import Tfcgi.Protocol

/-!
# `src/name-value-pairs.cpp`: the deserializer and the serializer

`Deserializer.feed` works on the content that `ipacket::sink_to_vector` gave.
The pointer `data` and the counter `len` move together, so both are the list of
bytes that are left of the record. A read, write or view outside its object is
undefined behaviour in C++ and ends the call with a `Fault`; the pointer
`current_buffer` is the object it points into and an offset.

* `readKeyvalLength_short`, `readKeyvalLength_cut`, `readKeyvalLength_long`: the
  three ways to read a length;
* `willReadBuffer_eq`: what follows the two lengths, for every parser state;
* `loop_stable`: the number of passes given to the parse loop is enough.
-/

namespace Tfcgi.NameValuePairs

open Tfcgi.HostOrder Tfcgi.Protocol

/-- `string_view_pair`. -/
abbrev Pair := List Byte × List Byte

inductive ParseState where
  | readNew
  | readNameLen
  | readValueLen
  | willReadBuffer
  | readBuffer
  deriving DecidableEq, Repr

/-- The length fields that `read_keyval_length` is called for. -/
inductive Field where
  | name
  | value
  deriving DecidableEq, Repr

/-- The object `current_buffer` points into; `wild` before the first store. -/
inductive Target where
  | wild
  | length (dest : Field)
  | stringBuffer
  deriving DecidableEq, Repr

structure Pointer where
  target : Target
  offset : Nat
  deriving DecidableEq, Repr

/-- Undefined behaviour of the parser. -/
inductive Fault where
  /-- `data[0]` or `memcpy` reads past the end of the record -/
  | readPastRecord
  /-- `memcpy(current_buffer,…)` writes outside the object -/
  | writePastTarget
  /-- a view handed to `new_key` leaves its buffer -/
  | viewPastBuffer
  /-- `len` would go below zero -/
  | lenWraps
  deriving DecidableEq, Repr

structure Deserializer where
  stringBuffer : List Byte
  nameLen : U32
  valueLen : U32
  currentBuffer : Pointer
  remainingLen : Nat
  parseState : ParseState
  maxPairSize : Nat
  deriving DecidableEq, Repr

/-- A new object whose `max_pair_size` was set; the two lengths hold whatever
the memory held. -/
def Deserializer.fresh (maxPairSize : Nat) (nameLen valueLen : U32) : Deserializer where
  stringBuffer := []
  nameLen := nameLen
  valueLen := valueLen
  currentBuffer := ⟨.wild, 0⟩
  remainingLen := 0
  parseState := .readNew
  maxPairSize := maxPairSize

namespace Deserializer

def effectiveMaxPairSize (p : Params) (d : Deserializer) : Nat :=
  if d.maxPairSize ≠ 0 then d.maxPairSize else p.nvpMaxPairSize

def field (d : Deserializer) : Field → U32
  | .name => d.nameLen
  | .value => d.valueLen

def setField (d : Deserializer) (dest : Field) (m : U32) : Deserializer :=
  match dest with
  | .name => { d with nameLen := m }
  | .value => { d with valueLen := m }

/-- `memcpy(current_buffer,src,src.length)`. -/
def store (d : Deserializer) (src : List Byte) : Except Fault Deserializer :=
  let off := d.currentBuffer.offset
  if src = [] then .ok d
  else match d.currentBuffer.target with
    | .wild => .error .writePastTarget
    | .length dest =>
      if off + src.length ≤ 4 then .ok (d.setField dest ((d.field dest).write off src))
      else .error .writePastTarget
    | .stringBuffer =>
      if off + src.length ≤ d.stringBuffer.length then
        .ok { d with stringBuffer := overwrite d.stringBuffer off src }
      else .error .writePastTarget

/-- The macro `forward`. -/
def forward (amount : Nat) (d : Deserializer) (data : List Byte) :
    Except Fault (Deserializer × List Byte) :=
  if amount ≤ data.length then
    .ok ({ d with currentBuffer := ⟨d.currentBuffer.target, d.currentBuffer.offset + amount⟩ },
      data.drop amount)
  else .error .lenWraps

/-- The flag is the result: `true` when the caller must wait for more data. -/
def readKeyvalLength (dest : Field) (d : Deserializer) (data : List Byte) :
    Except Fault (Bool × Deserializer × List Byte) :=
  match data with
  | [] => .error .readPastRecord
  | b :: _ =>
    if b &&& 0x80 ≠ 0 then
      if data.length < 4 then
        let m := (d.field dest).write 0 data
        .ok (true,
          { d.setField dest { m with b0 := m.b0 &&& 0x7F } with
            remainingLen := 4 - data.length
            currentBuffer := ⟨.length dest, data.length⟩ },
          data)
      else do
        let (d, data) ← forward 4 (d.setField dest (.ofBytes data)) data
        -- the two results are the wrong way round in the source, kept as they are
        if data.length = 4 then .ok (false, d, data) else .ok (true, d, data)
    else do
      let (d, data) ← forward 1 (d.setField dest ⟨0, 0, 0, b⟩) data
      .ok (false, d, data)

/-- The two views that `new_key` gets, cut from `buffer`. -/
def handleKeyval (p : Params) (d : Deserializer) (buffer : List Byte) : Except Fault Pair :=
  let nameLen := d.nameLen.load p.host
  let valueLen := d.valueLen.load p.host
  if nameLen + valueLen ≤ buffer.length then
    .ok (buffer.take nameLen, (buffer.drop nameLen).take valueLen)
  else .error .viewPastBuffer

/-- The text of the `pair_size_error`. -/
def pairSizeMessage (nameLen valueLen limit : Nat) : String :=
  "Deserializing a FastCGI NVP exceeding max_pair_size (" ++ toString nameLen ++ "+" ++
    toString valueLen ++ "<" ++ toString limit ++ ")."

/-- `std::vector::resize`. -/
def resize (l : List Byte) (n : Nat) : List Byte := l.take n ++ List.replicate (n - l.length) 0

/-- One pass through the body of the parse loop. -/
inductive Turn where
  /-- a pair was handed to `new_key`; `while (len)` is tested next -/
  | again (pair : Pair) (d : Deserializer) (data : List Byte)
  /-- `return false` -/
  | wait (d : Deserializer)
  | throws (what : String)
  | fault (f : Fault)
  deriving DecidableEq, Repr

/-- `name_len = ntohl(name_len); value_len = ntohl(value_len);` -/
def ntohlLengths (p : Params) (d : Deserializer) : Deserializer :=
  { d with
    nameLen := .store p.host (ntohl p.host (d.nameLen.load p.host))
    valueLen := .store p.host (ntohl p.host (d.valueLen.load p.host)) }

/-- `name_len + value_len` in `uint32_t`. -/
def pairSize (nameLen valueLen : Nat) : Nat := (nameLen + valueLen) % 4294967296

/-- The limit check, then a whole pair or the start of a split one. -/
def readPair (p : Params) (d : Deserializer) (data : List Byte) : Turn :=
  let nameLen := d.nameLen.load p.host
  let valueLen := d.valueLen.load p.host
  let size := pairSize nameLen valueLen
  if d.effectiveMaxPairSize p < size then
    .throws (pairSizeMessage nameLen valueLen (d.effectiveMaxPairSize p))
  else if size ≤ data.length then
    match d.handleKeyval p data with
    | .error f => .fault f
    | .ok pair =>
      match forward size { d with parseState := .readNew } data with
      | .error f => .fault f
      | .ok (d, data) => .again pair d data
  else
    let d :=
      { d with
        remainingLen := size
        stringBuffer := resize d.stringBuffer size
        currentBuffer := ⟨.stringBuffer, 0⟩ }
    match d.store data with
    | .error f => .fault f
    | .ok d =>
      .wait { d with
        remainingLen := d.remainingLen - data.length
        currentBuffer := ⟨.stringBuffer, d.currentBuffer.offset + data.length⟩ }

/-- The cases `READ_VALUE_LEN` and `WILL_READ_BUFFER`. -/
def willReadBuffer (p : Params) (d : Deserializer) (data : List Byte) : Turn :=
  readPair p (d.ntohlLengths p) data

/-- The case `READ_NAME_LEN`, which falls through. -/
def readNameLen (p : Params) (d : Deserializer) (data : List Byte) : Turn :=
  match readKeyvalLength .value d data with
  | .error f => .fault f
  | .ok (true, d, _) => .wait { d with parseState := .readValueLen }
  | .ok (false, d, data) => willReadBuffer p d data

/-- The case `READ_NEW`, which falls through. -/
def readNew (p : Params) (d : Deserializer) (data : List Byte) : Turn :=
  match readKeyvalLength .name d data with
  | .error f => .fault f
  | .ok (true, d, _) => .wait { d with parseState := .readNameLen }
  | .ok (false, d, data) => readNameLen p d data

def turn (p : Params) (d : Deserializer) (data : List Byte) : Turn :=
  match d.parseState with
  | .readNew => readNew p d data
  | .readNameLen => readNameLen p d data
  | .readValueLen => willReadBuffer p d data
  | .willReadBuffer => willReadBuffer p d data
  | .readBuffer =>
    match d.handleKeyval p d.stringBuffer with
    | .error f => .fault f
    | .ok pair => .again pair { d with parseState := .readNew } data

end Deserializer

/-- How a call of `feed` ends. -/
inductive Outcome where
  | returns (finished : Bool) (d : Deserializer)
  /-- `pair_size_error` -/
  | throws (what : String)
  | fault (f : Fault)
  deriving DecidableEq, Repr

/-- The `new_key` calls of a run of the parser, in order, and how it ended. -/
structure Fed where
  calls : List Pair
  outcome : Outcome
  deriving DecidableEq, Repr

def Fed.cons (pair : Pair) (r : Fed) : Fed := ⟨pair :: r.calls, r.outcome⟩

def Fed.prepend (calls : List Pair) (r : Fed) : Fed := ⟨calls ++ r.calls, r.outcome⟩

namespace Deserializer

/-- The parse loop, at most `fuel` passes. -/
def loop (p : Params) : Nat → Deserializer → List Byte → Fed
  | 0, d, _ => ⟨[], .returns false d⟩
  | fuel + 1, d, data =>
    match turn p d data with
    | .again pair d data =>
      if data = [] then ⟨[pair], .returns false d⟩ else (loop p fuel d data).cons pair
    | .wait d => ⟨[], .returns false d⟩
    | .throws what => ⟨[], .throws what⟩
    | .fault f => ⟨[], .fault f⟩

/-- `feed` on the content `data` of the record. -/
def feed (p : Params) (d : Deserializer) (data : List Byte) : Fed :=
  if data = [] then ⟨[], .returns true d⟩
  else if d.remainingLen > data.length then
    match d.store data with
    | .error f => ⟨[], .fault f⟩
    | .ok d => ⟨[], .returns false { d with remainingLen := d.remainingLen - data.length }⟩
  else
    match d.store (data.take d.remainingLen) with
    | .error f => ⟨[], .fault f⟩
    | .ok d =>
      -- `remaining_len` keeps its value here
      match forward d.remainingLen d data with
      | .error f => ⟨[], .fault f⟩
      | .ok (d, data) => loop p (data.length + 2) d data

/-- What `pair.first.data()` points at when `handle_keyval` made the views and left `rest`: the
bytes from the key to the end of the buffer, which nothing terminates. -/
def keyBuffer (d : Deserializer) (pair : Pair) (rest : List Byte) : List Byte :=
  match d.parseState with
  | .readBuffer => d.stringBuffer
  | _ => pair.1 ++ (pair.2 ++ rest)

/-- The `new_key` calls of the parse loop with the buffer of each key. -/
def loopViews (p : Params) : Nat → Deserializer → List Byte → List (Pair × List Byte)
  | 0, _, _ => []
  | fuel + 1, d, data =>
    match turn p d data with
    | .again pair d' rest =>
      (pair, d.keyBuffer pair rest) :: if rest = [] then [] else loopViews p fuel d' rest
    | _ => []

/-- The `new_key` calls of `feed` with the buffer of each key. -/
def feedViews (p : Params) (d : Deserializer) (data : List Byte) : List (Pair × List Byte) :=
  if data = [] then []
  else if d.remainingLen > data.length then []
  else
    match d.store (data.take d.remainingLen) with
    | .error _ => []
    | .ok d =>
      match forward d.remainingLen d data with
      | .error _ => []
      | .ok (d, data) => loopViews p (data.length + 2) d data

theorem loopViews_calls (p : Params) (fuel : Nat) (d : Deserializer) (data : List Byte) :
    (loopViews p fuel d data).map Prod.fst = (loop p fuel d data).calls := by
  induction fuel generalizing d data with
  | zero => rfl
  | succ fuel ih =>
    rw [loopViews, loop]
    cases turn p d data with
    | again pair d' rest =>
      by_cases hr : rest = []
      · simp [hr]
      · simp [hr, ih, Fed.cons]
    | wait d' | throws what | fault f => rfl

/-- The views are those of the calls of `feed`. -/
theorem feedViews_calls (p : Params) (d : Deserializer) (data : List Byte) :
    (d.feedViews p data).map Prod.fst = (d.feed p data).calls := by
  unfold feedViews feed
  by_cases hne : data = []
  · rw [if_pos hne, if_pos hne]
    rfl
  · rw [if_neg hne, if_neg hne]
    by_cases hl : d.remainingLen > data.length
    · rw [if_pos hl, if_pos hl]
      cases d.store data <;> rfl
    · rw [if_neg hl, if_neg hl]
      cases d.store (data.take d.remainingLen) with
      | error f => rfl
      | ok d₁ =>
        simp only
        cases forward d₁.remainingLen d₁ data with
        | error f => rfl
        | ok r => exact loopViews_calls p _ r.1 r.2

theorem feedViews_nil {p : Params} {d : Deserializer} {data : List Byte}
    (h : (d.feed p data).calls = []) : d.feedViews p data = [] := by
  rw [← List.map_eq_nil_iff, feedViews_calls, h]

/-- Calls of `feed`, one a record, up to the first that does not return. -/
def feedAll (p : Params) (d : Deserializer) : List (List Byte) → Fed
  | [] => ⟨[], .returns false d⟩
  | data :: records =>
    let r := d.feed p data
    match r.outcome with
    | .returns _ d => (feedAll p d records).prepend r.calls
    | _ => r

/-- The ways a run of the parse loop returns: behind a pair that ends the record, later,
or in its first pass. -/
theorem loop_cases {p : Params} {fuel : Nat} {d d' : Deserializer} {data : List Byte}
    {finished : Bool} (h : (loop p (fuel + 1) d data).outcome = .returns finished d') :
    (finished = false ∧ ∃ pair, turn p d data = .again pair d' []) ∨
      (∃ pair d₁ rest, turn p d data = .again pair d₁ rest ∧ rest ≠ [] ∧
        (loop p fuel d₁ rest).outcome = .returns finished d') ∨
      (finished = false ∧ turn p d data = .wait d') := by
  rw [loop] at h
  cases ht : turn p d data with
  | again pair d₁ rest =>
    simp only [ht] at h
    by_cases hr : rest = []
    · rw [if_pos hr] at h
      cases h
      exact Or.inl ⟨rfl, pair, by rw [hr]⟩
    · rw [if_neg hr] at h
      exact Or.inr (Or.inl ⟨pair, d₁, rest, rfl, hr, h⟩)
  | wait d₁ =>
    simp only [ht] at h
    cases h
    exact Or.inr (Or.inr ⟨rfl, rfl⟩)
  | throws what | fault f =>
    simp only [ht] at h
    cases h

theorem loop_returns {p : Params} {fuel : Nat} {d d' : Deserializer} {data : List Byte}
    {finished : Bool} (h : (loop p fuel d data).outcome = .returns finished d') :
    finished = false := by
  induction fuel generalizing d data with
  | zero =>
    cases h
    rfl
  | succ fuel ih =>
    rcases loop_cases h with ⟨hf, -⟩ | ⟨pair, d₁, rest, -, -, hrest⟩ | ⟨hf, -⟩
    · exact hf
    · exact ih hrest
    · exact hf

/-- Only an empty record ends the stream. -/
theorem feed_returns {p : Params} {d d' : Deserializer} {data : List Byte} {finished : Bool}
    (hne : data ≠ []) (h : (d.feed p data).outcome = .returns finished d') : finished = false := by
  unfold feed at h
  rw [if_neg hne] at h
  split at h
  · split at h
    · cases h
    · cases h
      rfl
  · split at h
    · cases h
    · split at h
      · cases h
      · exact loop_returns h

/-- The parser waits for a new pair, as a new object does. -/
def Ready (d : Deserializer) : Prop := d.parseState = .readNew ∧ d.remainingLen = 0

theorem fresh_ready (m : Nat) (n v : U32) : (fresh m n v).Ready := ⟨rfl, rfl⟩

theorem feed_now {p : Params} {d : Deserializer} (hd : d.remainingLen = 0) {data : List Byte}
    (hne : data ≠ []) : d.feed p data = loop p (data.length + 2) d data := by
  obtain ⟨stringBuffer, nameLen, valueLen, currentBuffer, remainingLen, state, max⟩ := d
  obtain rfl : remainingLen = 0 := hd
  simp [feed, hne, store, forward]

theorem feed_ready {p : Params} {d : Deserializer} (hd : d.Ready) {data : List Byte}
    (hne : data ≠ []) : d.feed p data = loop p (data.length + 2) d data := feed_now hd.2 hne

/-! ### One lemma for each part -/

theorem readKeyvalLength_short (dest : Field) (d : Deserializer) (b : Byte) (data : List Byte)
    (hb : b.toNat < 128) :
    readKeyvalLength dest d (b :: data) = .ok (false,
      { d.setField dest ⟨0, 0, 0, b⟩ with
        currentBuffer := ⟨d.currentBuffer.target, d.currentBuffer.offset + 1⟩ }, data) := by
  have h : b &&& 0x80 = 0 := (and_marker b).mpr hb
  cases dest <;> simp [readKeyvalLength, h, forward, setField, bind, Except.bind]

theorem readKeyvalLength_cut (dest : Field) (d : Deserializer) (b : Byte) (data : List Byte)
    (hb : 128 ≤ b.toNat) (hl : data.length < 3) :
    readKeyvalLength dest d (b :: data) = .ok (true,
      { d.setField dest { (d.field dest).write 0 (b :: data) with
          b0 := ((d.field dest).write 0 (b :: data)).b0 &&& 0x7F } with
        remainingLen := 3 - data.length
        currentBuffer := ⟨.length dest, data.length + 1⟩ }, b :: data) := by
  have h : b &&& 0x80 ≠ 0 := fun e => by have := (and_marker b).mp e; omega
  have hr : 4 - (data.length + 1) = 3 - data.length := by omega
  simp [readKeyvalLength, h, hr, show data.length + 1 < 4 by omega]

/-- All four bytes are there: the marker bit stays in the value, and the caller
goes on only when exactly four bytes are left. -/
theorem readKeyvalLength_long (dest : Field) (d : Deserializer) (b c e f : Byte)
    (data : List Byte) (hb : 128 ≤ b.toNat) :
    readKeyvalLength dest d (b :: c :: e :: f :: data) = .ok (decide (data.length ≠ 4),
      { d.setField dest ⟨b, c, e, f⟩ with
        currentBuffer := ⟨d.currentBuffer.target, d.currentBuffer.offset + 4⟩ }, data) := by
  have h : b &&& 0x80 ≠ 0 := fun e => by have := (and_marker b).mp e; omega
  have hlen : ¬ data.length + 1 + 1 + 1 + 1 < 4 := by omega
  by_cases hl : data.length = 4 <;>
    cases dest <;> simp [readKeyvalLength, h, hlen, forward, setField, bind, Except.bind, hl]

theorem resize_length (l : List Byte) (n : Nat) : (resize l n).length = n := by
  simp only [resize, List.length_append, List.length_take, List.length_replicate]
  omega

theorem load_ntohlLengths (p : Params) (d : Deserializer) :
    (d.ntohlLengths p).nameLen.load p.host = d.nameLen.be ∧
      (d.ntohlLengths p).valueLen.load p.host = d.valueLen.be := by
  have hn := d.nameLen.be_lt
  have hv := d.valueLen.be_lt
  simp only [ntohlLengths, ntohl_load, U32.load_store]
  omega

theorem readPair_eq (p : Params) (d : Deserializer) (data : List Byte) {n v : Nat}
    (hn : d.nameLen.load p.host = n) (hv : d.valueLen.load p.host = v) :
    readPair p d data =
      if d.effectiveMaxPairSize p < pairSize n v then
        .throws (pairSizeMessage n v (d.effectiveMaxPairSize p))
      else if pairSize n v ≤ data.length then
        if n + v ≤ data.length then
          .again (data.take n, (data.drop n).take v)
            { d with
              parseState := .readNew
              currentBuffer := ⟨d.currentBuffer.target, d.currentBuffer.offset + pairSize n v⟩ }
            (data.drop (pairSize n v))
        else .fault .viewPastBuffer
      else
        .wait { d with
          remainingLen := pairSize n v - data.length
          stringBuffer := overwrite (resize d.stringBuffer (pairSize n v)) 0 data
          currentBuffer := ⟨.stringBuffer, data.length⟩ } := by
  simp only [readPair, hn, hv]
  generalize pairSize n v = size
  split
  · rfl
  · by_cases hl : size ≤ data.length
    · by_cases hw : n + v ≤ data.length
      · simp [handleKeyval, hn, hv, hl, hw, forward]
      · simp [handleKeyval, hn, hv, hl, hw]
    · have hr := resize_length d.stringBuffer size
      have hle : data.length ≤ size := by omega
      by_cases hd : data = []
      · have hz : size ≠ 0 := by rw [hd] at hl; simpa using hl
        simp [store, hd, hz]
      · simp [store, hd, hl, hr, hle]

theorem willReadBuffer_eq (p : Params) (d : Deserializer) (data : List Byte) :
    willReadBuffer p d data =
      let size := pairSize d.nameLen.be d.valueLen.be
      if d.effectiveMaxPairSize p < size then
        .throws (pairSizeMessage d.nameLen.be d.valueLen.be (d.effectiveMaxPairSize p))
      else if size ≤ data.length then
        if d.nameLen.be + d.valueLen.be ≤ data.length then
          .again (data.take d.nameLen.be, (data.drop d.nameLen.be).take d.valueLen.be)
            { d.ntohlLengths p with
              parseState := .readNew
              currentBuffer := ⟨d.currentBuffer.target, d.currentBuffer.offset + size⟩ }
            (data.drop size)
        else .fault .viewPastBuffer
      else
        .wait { d.ntohlLengths p with
          remainingLen := size - data.length
          stringBuffer := overwrite (resize d.stringBuffer size) 0 data
          currentBuffer := ⟨.stringBuffer, data.length⟩ } := by
  obtain ⟨hn, hv⟩ := load_ntohlLengths p d
  rw [willReadBuffer, readPair_eq p _ data hn hv]
  rfl

theorem three_cons {data : List Byte} (h : ¬ data.length < 3) :
    ∃ b c e rest, data = b :: c :: e :: rest := by
  rcases data with _ | ⟨b, _ | ⟨c, _ | ⟨e, rest⟩⟩⟩
  iterate 3 · simp at h
  · exact ⟨b, c, e, rest, rfl⟩

theorem readKeyvalLength_false {dest : Field} {d d' : Deserializer} {data data' : List Byte}
    (h : readKeyvalLength dest d data = .ok (false, d', data')) :
    data'.length < data.length ∧ d'.parseState = d.parseState ∧
      d'.remainingLen = d.remainingLen ∧ d'.maxPairSize = d.maxPairSize := by
  cases data with
  | nil => simp [readKeyvalLength] at h
  | cons b data =>
    by_cases hb : b.toNat < 128
    · rw [readKeyvalLength_short dest d b data hb] at h
      cases h
      cases dest <;> simp [setField]
    · by_cases hl : data.length < 3
      · rw [readKeyvalLength_cut dest d b data (by omega) hl] at h
        cases h
      · obtain ⟨c, e, f, rest, rfl⟩ := three_cons hl
        rw [readKeyvalLength_long dest d b c e f rest (by omega)] at h
        simp only [Except.ok.injEq, Prod.mk.injEq] at h
        obtain ⟨-, rfl, rfl⟩ := h
        cases dest <;> simp [setField] <;> omega

theorem readPair_again {p : Params} {d d' : Deserializer} {data data' : List Byte} {pair : Pair}
    (h : readPair p d data = .again pair d' data') :
    data'.length ≤ data.length ∧ d'.parseState = .readNew ∧
      d'.remainingLen = d.remainingLen ∧ d'.maxPairSize = d.maxPairSize := by
  rw [readPair_eq p d data rfl rfl] at h
  split at h
  · cases h
  · split at h
    · split at h
      · cases h
        simp
      · cases h
    · cases h

theorem readNameLen_again {p : Params} {d d' : Deserializer} {data data' : List Byte}
    {pair : Pair} (h : readNameLen p d data = .again pair d' data') :
    data'.length < data.length ∧ d'.parseState = .readNew ∧
      d'.remainingLen = d.remainingLen ∧ d'.maxPairSize = d.maxPairSize := by
  unfold readNameLen at h
  split at h
  · cases h
  · cases h
  · rename_i d₁ data₁ hk
    obtain ⟨hl, -, hr, hm⟩ := readKeyvalLength_false hk
    obtain ⟨hl', hs', hr', hm'⟩ := readPair_again h
    exact ⟨by omega, hs', by rw [hr']; exact hr, by rw [hm']; exact hm⟩

/-- A pass that delivers a pair leaves the parser at a new pair, with
`remaining_len` as it was. -/
theorem turn_again {p : Params} {d d' : Deserializer} {data data' : List Byte} {pair : Pair}
    (h : turn p d data = .again pair d' data') :
    data'.length ≤ data.length ∧ (d.parseState = .readNew → data'.length < data.length) ∧
      d'.parseState = .readNew ∧ d'.remainingLen = d.remainingLen ∧
      d'.maxPairSize = d.maxPairSize := by
  unfold turn at h
  cases hs : d.parseState with
  | readNew =>
    simp only [hs, readNew] at h
    split at h
    · cases h
    · cases h
    · rename_i d₁ data₁ hk
      obtain ⟨hl, -, hr, hm⟩ := readKeyvalLength_false hk
      obtain ⟨hl', hs', hr', hm'⟩ := readNameLen_again h
      exact ⟨by omega, fun _ => by omega, hs', by rw [hr', hr], by rw [hm', hm]⟩
  | readNameLen =>
    simp only [hs] at h
    obtain ⟨hl', hs', hr', hm'⟩ := readNameLen_again h
    exact ⟨by omega, by simp, hs', hr', hm'⟩
  | readValueLen =>
    simp only [hs, willReadBuffer] at h
    obtain ⟨hl', hs', hr', hm'⟩ := readPair_again h
    exact ⟨hl', by simp, hs', hr', hm'⟩
  | willReadBuffer =>
    simp only [hs, willReadBuffer] at h
    obtain ⟨hl', hs', hr', hm'⟩ := readPair_again h
    exact ⟨hl', by simp, hs', hr', hm'⟩
  | readBuffer =>
    simp only [hs] at h
    split at h
    · cases h
    · cases h
      simp

private theorem loop_stable_new (p : Params) (fuel : Nat) (d : Deserializer) (data : List Byte)
    (hs : d.parseState = .readNew) (h : data.length < fuel) :
    loop p (fuel + 1) d data = loop p fuel d data := by
  induction fuel generalizing d data with
  | zero => omega
  | succ fuel ih =>
    rw [loop, loop]
    split
    · rename_i pair d' data' ht
      obtain ⟨-, hlt, hs', -, -⟩ := turn_again ht
      have hlt' := hlt hs
      rw [ih d' data' hs' (by omega)]
    all_goals rfl

/-- The loop needs at most `len + 2` passes. -/
theorem loop_stable (p : Params) (fuel : Nat) (d : Deserializer) (data : List Byte)
    (h : data.length + 2 ≤ fuel) : loop p (fuel + 1) d data = loop p fuel d data := by
  obtain ⟨fuel, rfl⟩ : ∃ k, fuel = k + 1 := ⟨fuel - 1, by omega⟩
  rw [loop, loop]
  split
  · rename_i pair d' data' ht
    obtain ⟨hle, -, hs', -, -⟩ := turn_again ht
    rw [loop_stable_new p fuel d' data' hs' (by omega)]
  all_goals rfl

end Deserializer

/-! ## `NVP::ToMap` -/

/-- `NVP::map`. -/
abbrev Map := List Pair

/-- `map[key] = value`. -/
def Map.insert (m : Map) (pair : Pair) : Map := pair :: m.filter (·.1 ≠ pair.1)

/-- The `new_key` calls of `ToMap`. -/
def Map.newKeys (m : Map) (calls : List Pair) : Map := calls.foldl Map.insert m

/-! ## The serializer -/

/-- The bytes of a length, or the `length_error`. -/
def serializeSize (p : Params) (size : Nat) : Except String (List Byte) :=
  if size > 0x8FFFFFFF then
    .error "Name or value of a FastCGI Name-Value Pair exceed 0x8FFFFFFF chars."
  else if size > 127 then
    let length := U32.store p.host (ntohl p.host size)
    .ok { length with b0 := length.b0 ||| 0x80 }.bytes
  else .ok [.ofNat size]

/-- What `serialize` has written when it returns or throws. -/
structure Written where
  bytes : List Byte
  thrown : Option String
  deriving DecidableEq, Repr

def serialize (p : Params) (key val : List Byte) : Written :=
  match serializeSize p key.length with
  | .error what => ⟨[], some what⟩
  | .ok keySize =>
    match serializeSize p val.length with
    | .error what => ⟨keySize, some what⟩
    | .ok valSize => ⟨keySize ++ valSize ++ key ++ val, none⟩

end Tfcgi.NameValuePairs
