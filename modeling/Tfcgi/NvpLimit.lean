import Mathlib.Data.List.Forall2
import Tfcgi.NvpBounds

/-!
# The pair size limit

`allChecks` lists the limit checks of a run with what follows each of them, and
`streamSizes` the sizes of the pairs that the stream itself holds, its lengths
being natural numbers. The limit is enforced when the checks are those of the
first pairs of the stream, and `pair_size_error` comes for the pairs over it.

* `feedAll_accounts`: the checks account for the calls and the exception of
  `feedAll`;
* `Clean`: no record leads the parser to a length that it reads wrongly;
* `clean_enforced`: on clean records the limit is enforced exactly.
-/

namespace Tfcgi.NvpLimit

open Tfcgi.HostOrder Tfcgi.Protocol Tfcgi.NameValuePairs Tfcgi.NvpGrammar Tfcgi.NvpRuns
open Tfcgi.NvpBounds
open Tfcgi.NameValuePairs.Deserializer

/-! ## The checks of a run -/

/-- What follows a limit check. -/
inductive Check where
  /-- `new_key` is called, even with views that leave the record -/
  | newKey
  /-- `string_buffer.resize` -/
  | resize
  /-- `pair_size_error` -/
  | throws
  deriving DecidableEq, Repr

/-- The check that a pass which comes to `WILL_READ_BUFFER` makes. -/
def checkOf : Turn → Check
  | .again _ _ _ | .fault _ => .newKey
  | .wait _ => .resize
  | .throws _ => .throws

/-- The checks behind a length. -/
def lengthThen (k : Deserializer → List Byte → List Check) :
    Except Fault (Bool × Deserializer × List Byte) → List Check
  | .ok (false, d, data) => k d data
  | _ => []

def pairChecks (p : Params) (d : Deserializer) (data : List Byte) : List Check :=
  [checkOf (willReadBuffer p d data)]

def valueChecks (p : Params) (d : Deserializer) (data : List Byte) : List Check :=
  lengthThen (pairChecks p) (readKeyvalLength .value d data)

def nameChecks (p : Params) (d : Deserializer) (data : List Byte) : List Check :=
  lengthThen (valueChecks p) (readKeyvalLength .name d data)

/-- The checks of one pass, at most one. -/
def turnChecks (p : Params) (d : Deserializer) (data : List Byte) : List Check :=
  match d.parseState with
  | .readNew => nameChecks p d data
  | .readNameLen => valueChecks p d data
  | .readValueLen | .willReadBuffer => pairChecks p d data
  | .readBuffer => []

def loopChecks (p : Params) : Nat → Deserializer → List Byte → List Check
  | 0, _, _ => []
  | fuel + 1, d, data =>
    turnChecks p d data ++
      match turn p d data with
      | .again _ d data => if data = [] then [] else loopChecks p fuel d data
      | _ => []

def feedChecks (p : Params) (d : Deserializer) (data : List Byte) : List Check :=
  if data = [] then []
  else if d.remainingLen > data.length then []
  else
    match d.store (data.take d.remainingLen) with
    | .error _ => []
    | .ok d =>
      match forward d.remainingLen d data with
      | .error _ => []
      | .ok (d, data) => loopChecks p (data.length + 2) d data

def allChecks (p : Params) (d : Deserializer) : List (List Byte) → List Check
  | [] => []
  | data :: records =>
    feedChecks p d data ++
      match (d.feed p data).outcome with
      | .returns _ d => allChecks p d records
      | _ => []

theorem feedChecks_resumes (p : Params) {d : Deserializer} {data : List Byte} (hne : data ≠ [])
    (hl : d.remainingLen ≤ data.length) (hr : d.remainingLen ≤ room d) :
    feedChecks p d data = loopChecks p (data.length - d.remainingLen + 2)
      (resumed d (data.take d.remainingLen)) (data.drop d.remainingLen) := by
  have htake : (data.take d.remainingLen).length = d.remainingLen := by
    rw [List.length_take, Nat.min_eq_left hl]
  obtain ⟨hc, hrem, -, -⟩ := stored_fields d (data.take d.remainingLen)
  unfold feedChecks
  rw [if_neg hne, if_neg (by omega), store_eq, htake, if_pos hr]
  simp only [forward, hrem, hl, if_true, hc, List.length_drop, resumed]

/-- No check is made of a record that ends before the missing bytes do, or overruns
them. -/
theorem feedChecks_none (p : Params) {d : Deserializer} {data : List Byte}
    (h : ¬ (d.remainingLen ≤ data.length ∧ d.remainingLen ≤ room d)) :
    feedChecks p d data = [] := by
  unfold feedChecks
  by_cases hne : data = []
  · rw [if_pos hne]
  · rw [if_neg hne]
    by_cases hl : d.remainingLen ≤ data.length
    · have htake : (data.take d.remainingLen).length = d.remainingLen := by
        rw [List.length_take, Nat.min_eq_left hl]
      rw [if_neg (by omega), store_eq, htake, if_neg (fun hr => h ⟨hl, hr⟩)]
    · rw [if_pos (by omega)]

/-! ### The checks are those of the parser -/

/-- A pass makes one check, or ends before it comes to one. -/
def OneCheck (checks : List Check) (t : Turn) : Prop :=
  checks = [checkOf t] ∨ (checks = [] ∧ ((∃ d, t = .wait d) ∨ ∃ f, t = .fault f))

theorem valueChecks_turn (p : Params) (d : Deserializer) (data : List Byte) :
    OneCheck (valueChecks p d data) (readNameLen p d data) := by
  unfold valueChecks readNameLen
  match readKeyvalLength .value d data with
  | .error f => exact Or.inr ⟨rfl, Or.inr ⟨f, rfl⟩⟩
  | .ok (true, d', _) => exact Or.inr ⟨rfl, Or.inl ⟨_, rfl⟩⟩
  | .ok (false, d', rest) => exact Or.inl rfl

theorem nameChecks_turn (p : Params) (d : Deserializer) (data : List Byte) :
    OneCheck (nameChecks p d data) (readNew p d data) := by
  unfold nameChecks readNew
  match readKeyvalLength .name d data with
  | .error f => exact Or.inr ⟨rfl, Or.inr ⟨f, rfl⟩⟩
  | .ok (true, d', _) => exact Or.inr ⟨rfl, Or.inl ⟨_, rfl⟩⟩
  | .ok (false, d', rest) => exact valueChecks_turn p d' rest

theorem turnChecks_turn (p : Params) {d : Deserializer} (hs : d.parseState ≠ .readBuffer)
    (data : List Byte) : OneCheck (turnChecks p d data) (turn p d data) := by
  unfold turnChecks turn
  cases hst : d.parseState with
  | readNew => exact nameChecks_turn p d data
  | readNameLen => exact valueChecks_turn p d data
  | readValueLen | willReadBuffer => exact Or.inl rfl
  | readBuffer => exact absurd hst hs

/-- The checks account for the calls and the exception of a run. -/
structure Accounts (checks : List Check) (r : Fed) : Prop where
  throws : Check.throws ∈ checks ↔ Throws r
  calls : r.calls.length ≤ checks.count .newKey

theorem accounts_nil {o : Outcome} (ho : ∀ what, o ≠ .throws what) : Accounts [] ⟨[], o⟩ where
  throws := by simp [Throws, ho]
  calls := Nat.le_refl _

theorem accounts_prepend {checks checks' : List Check} {calls : List Pair} {r : Fed}
    (hn : Check.throws ∉ checks) (hc : calls.length ≤ checks.count .newKey)
    (h : Accounts checks' r) : Accounts (checks ++ checks') (r.prepend calls) where
  throws := by
    rw [List.mem_append, throws_prepend, ← h.throws]
    exact or_iff_right hn
  calls := by
    have hr := h.calls
    simp only [Fed.prepend, List.length_append, List.count_append]
    omega

theorem loop_accounts (p : Params) (fuel : Nat) :
    ∀ (d : Deserializer) (data : List Byte), d.parseState ≠ .readBuffer →
      Accounts (loopChecks p fuel d data) (loop p fuel d data) := by
  induction fuel with
  | zero =>
    intro d data _
    exact accounts_nil fun _ => Outcome.noConfusion
  | succ fuel ih =>
    intro d data hs
    rw [loopChecks, loop]
    rcases turnChecks_turn p hs data with h | ⟨h, ⟨d', ht⟩ | ⟨f, ht⟩⟩
    · rw [h]
      cases ht : turn p d data with
      | again pair d' rest =>
        have hs' : d'.parseState ≠ .readBuffer := by
          rw [(turn_again ht).2.2.1]
          exact ParseState.noConfusion
        by_cases hr : rest = []
        · simp only [hr, if_true, checkOf, List.append_nil]
          exact ⟨by simp [Throws], by simp⟩
        · simp only [hr, if_false, checkOf]
          show Accounts ([.newKey] ++ _) (Fed.prepend [pair] _)
          exact accounts_prepend (by simp) (by simp) (ih d' rest hs')
      | wait d' => exact ⟨by simp [checkOf, Throws], by simp⟩
      | throws what => exact ⟨by simp [checkOf, Throws], by simp⟩
      | fault f => exact ⟨by simp [checkOf, Throws], by simp⟩
    · rw [h, ht]
      exact accounts_nil fun _ => Outcome.noConfusion
    · rw [h, ht]
      exact accounts_nil fun _ => Outcome.noConfusion

theorem feed_accounts (p : Params) {d : Deserializer} (hs : d.parseState ≠ .readBuffer)
    (data : List Byte) : Accounts (feedChecks p d data) (d.feed p data) := by
  by_cases hne : data = []
  · simp only [feedChecks, feed, hne, if_true]
    exact accounts_nil fun _ => Outcome.noConfusion
  · by_cases hr : min d.remainingLen data.length ≤ room d
    · by_cases hl : d.remainingLen ≤ data.length
      · rw [Nat.min_eq_left hl] at hr
        rw [feedChecks_resumes p hne hl hr, feed_resumes p hne hl hr]
        exact loop_accounts p _ _ _ (by rw [(resumed_fields d _).2.1]; exact hs)
      · rw [Nat.min_eq_right (by omega)] at hr
        rw [feedChecks_none p (fun h => hl h.1), feed_waits p hne (by omega) hr]
        exact accounts_nil fun _ => Outcome.noConfusion
    · rw [feedChecks_none p (by omega), feed_overruns p hne hr]
      exact accounts_nil fun _ => Outcome.noConfusion

/-- `new_key` is called at most once a check, and the run ends in
`pair_size_error` exactly when a check does. -/
theorem feedAll_accounts (p : Params) (records : List (List Byte)) :
    ∀ d : Deserializer, d.parseState ≠ .readBuffer →
      Accounts (allChecks p d records) (feedAll p d records) := by
  induction records with
  | nil =>
    intro d _
    exact accounts_nil fun _ => Outcome.noConfusion
  | cons data records ih =>
    intro d hs
    have hf := feed_accounts p hs data
    cases hr : d.feed p data with
    | mk calls o =>
      rw [hr] at hf
      cases o with
      | returns b d' =>
        have hs' : d'.parseState ≠ .readBuffer := feed_state hs (by rw [hr])
        have hn : Check.throws ∉ feedChecks p d data := by
          rw [hf.throws]
          simp [Throws]
        rw [feedAll_returns hr, allChecks, hr]
        exact accounts_prepend hn hf.calls (ih d' hs')
      | throws what | fault f =>
        simp only [allChecks, feedAll, hr, List.append_nil]
        exact hf

/-! ## The stream -/

/-- The size of the pair whose lengths are read from `s` on, and what follows
them. -/
def header : Stage → List Byte → Option (Nat × List Byte)
  | .name, w => do
    let (n, w) ← decodeLength w
    let (v, w) ← decodeLength w
    some (n + v, w)
  | .value n, w => do
    let (v, w) ← decodeLength w
    some (n + v, w)
  | .pair n v, w => some (n + v, w)

def sizes : Nat → List Byte → List Nat
  | 0, _ => []
  | fuel + 1, w =>
    match header .name w with
    | none => []
    | some (size, w) => size :: sizes fuel (w.drop size)

/-- The sizes of the pairs of the stream `w` whose lengths are there. -/
def streamSizes (w : List Byte) : List Nat := sizes w.length w

/-- The same from the middle of a pair on. -/
def stageSizes (s : Stage) (w : List Byte) : List Nat :=
  match header s w with
  | none => []
  | some (size, w) => size :: streamSizes (w.drop size)

theorem decodeLength_shorter {w w' : List Byte} {n : Nat} (h : decodeLength w = some (n, w')) :
    w'.length < w.length := by
  cases w with
  | nil => cases h
  | cons b w =>
    by_cases hb : b.toNat < 128
    · simp only [decodeLength, if_pos hb, Option.some.injEq, Prod.mk.injEq] at h
      rw [← h.2, List.length_cons]
      omega
    · rcases w with _ | ⟨c, _ | ⟨d, _ | ⟨e, w⟩⟩⟩
      iterate 3 · simp [decodeLength, hb] at h
      simp only [decodeLength, if_neg hb, Option.some.injEq, Prod.mk.injEq] at h
      rw [← h.2]
      simp only [List.length_cons]
      omega

theorem header_name_shorter {w w' : List Byte} {size : Nat}
    (h : header .name w = some (size, w')) : w'.length < w.length := by
  simp only [header, Option.bind_eq_bind, Option.bind_eq_some_iff, Option.some.injEq,
    Prod.mk.injEq] at h
  obtain ⟨⟨n, w₁⟩, h₁, ⟨v, w₂⟩, h₂, -, rfl⟩ := h
  have hl₁ := decodeLength_shorter h₁
  have hl₂ := decodeLength_shorter h₂
  simp only at hl₁ hl₂ ⊢
  omega

theorem sizes_stable (fuel : Nat) :
    ∀ w : List Byte, w.length ≤ fuel → sizes (fuel + 1) w = sizes fuel w := by
  induction fuel with
  | zero =>
    intro w hw
    have hnil : w = [] := List.length_eq_zero_iff.mp (by omega)
    rw [hnil]
    rfl
  | succ fuel ih =>
    intro w hw
    rw [sizes, sizes]
    cases hh : header .name w with
    | none => rfl
    | some r =>
      obtain ⟨size, w'⟩ := r
      have hl := header_name_shorter hh
      have hd : (w'.drop size).length ≤ fuel := by
        rw [List.length_drop]
        omega
      simp only [ih _ hd]

theorem sizes_enough {fuel : Nat} {w : List Byte} (h : w.length ≤ fuel) :
    sizes fuel w = streamSizes w := by
  obtain ⟨k, rfl⟩ : ∃ k, fuel = w.length + k := ⟨fuel - w.length, by omega⟩
  induction k with
  | zero => rfl
  | succ k ih => rw [← Nat.add_assoc, sizes_stable _ w (by omega), ih (by omega)]

theorem stageSizes_name (w : List Byte) : stageSizes .name w = streamSizes w := by
  have hs : streamSizes w = sizes (w.length + 1) w := (sizes_enough (by omega)).symm
  rw [hs, sizes, stageSizes]
  cases hh : header .name w with
  | none => rfl
  | some r =>
    obtain ⟨size, w'⟩ := r
    have hl := header_name_shorter hh
    simp only
    rw [sizes_enough (by rw [List.length_drop]; omega)]

/-- A length in front of the stream is the one that the stage reads. -/
theorem header_length {s : Stage} (hs : s.IsLength) {l w : List Byte} {n : Nat}
    (hn : decodeLength (l ++ w) = some (n, w)) :
    header s (l ++ w) = header (s.read n) w := by
  cases s with
  | name => simp [header, Stage.read, hn]
  | value m => simp [header, Stage.read, hn]
  | pair n v => exact hs.elim

theorem stageSizes_length {s : Stage} (hs : s.IsLength) {l w : List Byte} {n : Nat}
    (hn : decodeLength (l ++ w) = some (n, w)) :
    stageSizes s (l ++ w) = stageSizes (s.read n) w := by
  rw [stageSizes, stageSizes, header_length hs hn]

theorem stageSizes_pair (n v : Nat) (w : List Byte) :
    stageSizes (.pair n v) w = (n + v) :: streamSizes (w.drop (n + v)) := rfl

/-! ## Clean records -/

/-- What the end of a record leaves of a pair. -/
inductive Pending where
  /-- the record ended between pairs -/
  | none
  /-- the first bytes of a four-byte length that is read from `s` -/
  | length (s : Stage) (bytes : List Byte)
  /-- so many bytes of the name and the value are missing -/
  | content (missing : Nat)
  /-- the same of a pair with a torn length, behind which `parse_state` is not `READ_NEW` -/
  | lost (missing : Nat)
  /-- `remaining_len` keeps its value of the last pair -/
  | stale
  /-- a pair was over the limit -/
  | thrown
  deriving DecidableEq, Repr

/-- The bytes that the parser waits for. -/
def Pending.missing : Pending → Nat
  | .length _ bytes => 4 - bytes.length
  | .content m | .lost m => m
  | .none | .stale | .thrown => 0

/-- A record, from `s` on, whose lengths have the one-byte form or are torn by
its end, and what it leaves. `begun` says that the record started inside a pair
and `torn` that a length of this pair was torn. -/
inductive Holds (lim : Nat) (begun : Bool) : Bool → Stage → List Byte → Pending → Prop where
  | short {torn : Bool} {s : Stage} {b : Byte} {data : List Byte} {q : Pending}
      (hs : s.IsLength) (hb : b.toNat < 128) (hr : Holds lim begun torn (s.read b.toNat) data q) :
      Holds lim begun torn s (b :: data) q
  | cut {torn : Bool} {s : Stage} {b : Byte} {data : List Byte} (hs : s.IsLength)
      (hb : 128 ≤ b.toNat) (hl : data.length < 3) :
      Holds lim begun torn s (b :: data) (.length s (b :: data))
  | exceeds {torn : Bool} {n v : Nat} {data : List Byte} (hlt : lim < n + v) :
      Holds lim begun torn (.pair n v) data .thrown
  | split {torn : Bool} {n v : Nat} {data : List Byte} (hle : n + v ≤ lim)
      (hlt : data.length < n + v) :
      Holds lim begun torn (.pair n v) data
        (if torn then .lost (n + v - data.length) else .content (n + v - data.length))
  | last {torn : Bool} {n v : Nat} {data : List Byte} (hle : n + v ≤ lim)
      (he : data.length = n + v) :
      Holds lim begun torn (.pair n v) data (if begun then .stale else .none)
  | next {torn : Bool} {n v : Nat} {data : List Byte} {q : Pending} (hle : n + v ≤ lim)
      (hlt : n + v < data.length) (hr : Holds lim begun false .name (data.drop (n + v)) q) :
      Holds lim begun torn (.pair n v) data q

/-- The records that the parser reads without a slip after what is pending, up
to the first pair over the limit. -/
inductive Clean (lim : Nat) : Pending → List (List Byte) → Prop where
  | done {q : Pending} : Clean lim q []
  /-- the stream ends before the missing bytes are there -/
  | idle {q : Pending} {records : List (List Byte)} (hlt : records.flatten.length < q.missing) :
      Clean lim q records
  | skip {q : Pending} {records : List (List Byte)} (h : Clean lim q records) :
      Clean lim q ([] :: records)
  | thrown {records : List (List Byte)} : Clean lim .thrown records
  | start {data : List Byte} {q : Pending} {records : List (List Byte)}
      (hd : Holds lim false false .name data q) (h : Clean lim q records) :
      Clean lim .none (data :: records)
  | more {m : Nat} {data : List Byte} {records : List (List Byte)} (hlt : data.length < m)
      (h : Clean lim (.content (m - data.length)) records) :
      Clean lim (.content m) (data :: records)
  | content {a data : List Byte} {q : Pending} {records : List (List Byte)}
      (hd : Holds lim true false .name data q) (h : Clean lim q records) :
      Clean lim (.content a.length) ((a ++ data) :: records)
  | length {s : Stage} {bytes a data : List Byte} {n : Nat} {q : Pending}
      {records : List (List Byte)} (hn : decodeLength (bytes ++ a) = some (n, []))
      (hd : Holds lim true true (s.read n) data q) (h : Clean lim q records) :
      Clean lim (.length s bytes) ((a ++ data) :: records)

/-- The checks are those of the first pairs of the stream, and exactly the ones
over the limit throw. -/
def Enforced (lim : Nat) (checks : List Check) (stream : List Nat) : Prop :=
  ∃ first rest, stream = first ++ rest ∧
    List.Forall₂ (fun c size => c = Check.throws ↔ lim < size) checks first

theorem decodeLength_append {l r : List Byte} {n : Nat} (h : decodeLength l = some (n, r))
    (w : List Byte) : decodeLength (l ++ w) = some (n, r ++ w) := by
  cases l with
  | nil => cases h
  | cons b l =>
    by_cases hb : b.toNat < 128
    · simp only [decodeLength, if_pos hb, Option.some.injEq, Prod.mk.injEq] at h
      obtain ⟨rfl, rfl⟩ := h
      simp only [List.cons_append, decodeLength, if_pos hb]
    · rcases l with _ | ⟨c, _ | ⟨d, _ | ⟨e, l⟩⟩⟩
      iterate 3 · simp [decodeLength, hb] at h
      simp only [decodeLength, if_neg hb, Option.some.injEq, Prod.mk.injEq] at h
      obtain ⟨rfl, rfl⟩ := h
      simp only [List.cons_append, decodeLength, if_neg hb]

/-! ## The parser on clean records -/

/-- `s` is what the fields of the parser say. -/
def Stands (d : Deserializer) : Stage → Prop
  | .name => d.parseState = .readNew
  | .value n => d.nameLen.be = n ∧ n < 2147483648
  | .pair n v => d.nameLen.be = n ∧ n < 2147483648 ∧ d.valueLen.be = v ∧ v < 2147483648

/-- The first byte of a torn length is stored without its marker. -/
def unmarked : List Byte → List Byte
  | [] => []
  | b :: t => (b &&& 0x7F) :: t

/-- The state that the records so far left, for what is pending. -/
def Waits (d : Deserializer) : Pending → Prop
  | .none => d.parseState = .readNew ∧ d.remainingLen = 0
  | .length s bytes =>
    bytes.length + d.remainingLen = 4 ∧ 0 < d.remainingLen ∧
      (∃ b t, bytes = b :: t ∧ 128 ≤ b.toNat) ∧
      match s with
      | .name => d.parseState = .readNameLen ∧ d.currentBuffer = ⟨.length .name, bytes.length⟩ ∧
          ∃ rest, d.nameLen.bytes = unmarked bytes ++ rest
      | .value n => d.parseState = .readValueLen ∧
          d.currentBuffer = ⟨.length .value, bytes.length⟩ ∧ d.nameLen.be = n ∧ n < 2147483648 ∧
          ∃ rest, d.valueLen.bytes = unmarked bytes ++ rest
      | .pair _ _ => False
  | .content m => d.parseState = .readNew ∧ d.remainingLen = m ∧ 0 < m ∧ m ≤ room d
  | .lost m => d.remainingLen = m ∧ m ≤ room d
  | .stale => True
  | .thrown => False

/-! ### A pass from a stage on -/

def turnFrom (s : Stage) (p : Params) (d : Deserializer) (data : List Byte) : Turn :=
  match s with
  | .name => readNew p d data
  | .value _ => readNameLen p d data
  | .pair _ _ => willReadBuffer p d data

def checksFrom (s : Stage) (p : Params) (d : Deserializer) (data : List Byte) : List Check :=
  match s with
  | .name => nameChecks p d data
  | .value _ => valueChecks p d data
  | .pair _ _ => pairChecks p d data

/-- The parser stays as it is but for its length fields and the pointer. -/
structure SameBut (d d' : Deserializer) : Prop where
  maxPairSize : d'.maxPairSize = d.maxPairSize
  remainingLen : d'.remainingLen = d.remainingLen
  parseState : d'.parseState = d.parseState

theorem SameBut.effectiveMaxPairSize {p : Params} {d d' : Deserializer} (h : SameBut d d') :
    d'.effectiveMaxPairSize p = d.effectiveMaxPairSize p := by
  simp only [Deserializer.effectiveMaxPairSize, h.maxPairSize]

theorem be_byte (b : Byte) : (⟨0, 0, 0, b⟩ : U32).be = b.toNat := by simp [U32.be]

theorem turnFrom_short {p : Params} {s : Stage} (hs : s.IsLength) {d : Deserializer}
    (hd : Stands d s) {b : Byte} (hb : b.toNat < 128) (data : List Byte) :
    ∃ d', SameBut d d' ∧ Stands d' (s.read b.toNat) ∧
      turnFrom s p d (b :: data) = turnFrom (s.read b.toNat) p d' data ∧
      checksFrom s p d (b :: data) = checksFrom (s.read b.toNat) p d' data := by
  have hlt : b.toNat < 2147483648 := by omega
  cases s with
  | name =>
    refine ⟨{ d.setField .name ⟨0, 0, 0, b⟩ with
      currentBuffer := ⟨d.currentBuffer.target, d.currentBuffer.offset + 1⟩ },
      ⟨rfl, rfl, rfl⟩, ⟨be_byte b, hlt⟩, ?_, ?_⟩
    · simp only [turnFrom, Stage.read, readNew, readKeyvalLength_short .name d b data hb]
    · simp only [checksFrom, Stage.read, nameChecks, readKeyvalLength_short .name d b data hb,
        lengthThen]
  | value n =>
    refine ⟨{ d.setField .value ⟨0, 0, 0, b⟩ with
      currentBuffer := ⟨d.currentBuffer.target, d.currentBuffer.offset + 1⟩ },
      ⟨rfl, rfl, rfl⟩, ⟨hd.1, hd.2, be_byte b, hlt⟩, ?_, ?_⟩
    · simp only [turnFrom, Stage.read, readNameLen, readKeyvalLength_short .value d b data hb]
    · simp only [checksFrom, Stage.read, valueChecks, readKeyvalLength_short .value d b data hb,
        lengthThen]
  | pair n v => exact hs.elim

theorem write_cut (m : U32) (b : Byte) {data : List Byte} (hl : data.length < 3) :
    ∃ rest, ({ m.write 0 (b :: data) with b0 := (m.write 0 (b :: data)).b0 &&& 0x7F } : U32).bytes =
      unmarked (b :: data) ++ rest := by
  match data with
  | [] => exact ⟨[m.b1, m.b2, m.b3], rfl⟩
  | [c] => exact ⟨[m.b2, m.b3], rfl⟩
  | [c, e] => exact ⟨[m.b3], rfl⟩
  | _ :: _ :: _ :: _ => simp only [List.length_cons] at hl; omega

theorem turnFrom_cut {p : Params} {s : Stage} (hs : s.IsLength) {d : Deserializer}
    (hd : Stands d s) {b : Byte} (hb : 128 ≤ b.toNat) {data : List Byte} (hl : data.length < 3) :
    ∃ d', turnFrom s p d (b :: data) = .wait d' ∧ checksFrom s p d (b :: data) = [] ∧
      d'.maxPairSize = d.maxPairSize ∧ Waits d' (.length s (b :: data)) := by
  have hlen : (b :: data).length + (3 - data.length) = 4 := by
    rw [List.length_cons]
    omega
  have hpos : 0 < 3 - data.length := by omega
  cases s with
  | name =>
    simp only [turnFrom, checksFrom, readNew, nameChecks, readKeyvalLength_cut .name d b data hb hl,
      lengthThen, Turn.wait.injEq]
    obtain ⟨rest, hrest⟩ := write_cut d.nameLen b hl
    exact ⟨_, rfl, trivial, rfl, hlen, hpos, ⟨b, data, rfl, hb⟩, rfl, rfl, rest, hrest⟩
  | value n =>
    simp only [turnFrom, checksFrom, readNameLen, valueChecks,
      readKeyvalLength_cut .value d b data hb hl, lengthThen, Turn.wait.injEq]
    obtain ⟨rest, hrest⟩ := write_cut d.valueLen b hl
    exact ⟨_, rfl, trivial, rfl, hlen, hpos, ⟨b, data, rfl, hb⟩, rfl, rfl, hd.1, hd.2, rest, hrest⟩
  | pair n v => exact hs.elim

/-- The limit check on lengths that are what the stream says. -/
theorem willReadBuffer_stands (p : Params) {d : Deserializer} {n v : Nat}
    (hd : Stands d (.pair n v)) (data : List Byte) :
    willReadBuffer p d data =
      if d.effectiveMaxPairSize p < n + v then
        .throws (pairSizeMessage n v (d.effectiveMaxPairSize p))
      else if n + v ≤ data.length then
        .again (data.take n, (data.drop n).take v)
          { d.ntohlLengths p with
            parseState := .readNew
            currentBuffer := ⟨d.currentBuffer.target, d.currentBuffer.offset + (n + v)⟩ }
          (data.drop (n + v))
      else
        .wait { d.ntohlLengths p with
          remainingLen := n + v - data.length
          stringBuffer := overwrite (resize d.stringBuffer (n + v)) 0 data
          currentBuffer := ⟨.stringBuffer, data.length⟩ } := by
  obtain ⟨rfl, hn, rfl, hv⟩ := hd
  have hsize : pairSize d.nameLen.be d.valueLen.be = d.nameLen.be + d.valueLen.be := by
    simp only [pairSize]
    omega
  simp only [willReadBuffer_eq, hsize]
  by_cases hover : d.effectiveMaxPairSize p < d.nameLen.be + d.valueLen.be
  · rw [if_pos hover, if_pos hover]
  · rw [if_neg hover, if_neg hover]
    by_cases hfit : d.nameLen.be + d.valueLen.be ≤ data.length
    · simp only [if_pos hfit]
    · simp only [if_neg hfit]

/-! ### What the loop does after a pass -/

def moreChecks (p : Params) (fuel : Nat) : Turn → List Check
  | .again _ d data => if data = [] then [] else loopChecks p fuel d data
  | _ => []

def finish (p : Params) (fuel : Nat) : Turn → Outcome
  | .again _ d data => if data = [] then .returns false d else (loop p fuel d data).outcome
  | .wait d => .returns false d
  | .throws what => .throws what
  | .fault f => .fault f

theorem loop_finish (p : Params) (fuel : Nat) (d : Deserializer) (data : List Byte) :
    (loop p (fuel + 1) d data).outcome = finish p fuel (turn p d data) := by
  rw [loop]
  cases turn p d data with
  | again pair d' rest =>
    by_cases hr : rest = []
    · simp [finish, hr]
    · simp [finish, hr, Fed.cons]
  | wait d' | throws what | fault f => rfl

theorem loopChecks_more (p : Params) (fuel : Nat) (d : Deserializer) (data : List Byte) :
    loopChecks p (fuel + 1) d data = turnChecks p d data ++ moreChecks p fuel (turn p d data) := by
  rw [loopChecks]
  cases turn p d data with
  | again pair d' rest => rfl
  | wait d' | throws what | fault f => rfl

/-! ### A record from a stage on -/

/-- The sizes that are left of the stream when `w` follows the record. -/
def Rest (w : List Byte) : Pending → List Nat → Prop
  | .none, rest => rest = streamSizes w
  | .length s bytes, rest => rest = stageSizes s (bytes ++ w)
  | .content m, rest | .lost m, rest => rest = streamSizes (w.drop m)
  | .stale, rest => rest = streamSizes w
  | .thrown, _ => True

/-- How the record ends. -/
def Left (p : Params) (lim : Nat) (w : List Byte) (q : Pending) (checks : List Check)
    (o : Outcome) (rest : List Nat) : Prop :=
  (q = .thrown ∧ Check.throws ∈ checks ∧ ∃ what, o = .throws what) ∨
    ∃ d, o = .returns false d ∧ d.effectiveMaxPairSize p = lim ∧ Waits d q ∧ Rest w q rest

/-- The checks are those of the first pairs of `stream`, and the rest of it is
what the end of the record leaves. -/
def Follows (p : Params) (lim : Nat) (w : List Byte) (q : Pending) (checks : List Check)
    (o : Outcome) (stream : List Nat) : Prop :=
  ∃ first rest, stream = first ++ rest ∧
    List.Forall₂ (fun c size => c = Check.throws ↔ lim < size) checks first ∧
    Left p lim w q checks o rest

theorem follows_cons {p : Params} {lim : Nat} {w : List Byte} {q : Pending} {c : Check}
    {checks : List Check} {o : Outcome} {size : Nat} {stream : List Nat}
    (hc : c = .throws ↔ lim < size) (h : Follows p lim w q checks o stream) :
    Follows p lim w q (c :: checks) o (size :: stream) := by
  obtain ⟨first, rest, rfl, hf, hl⟩ := h
  refine ⟨size :: first, rest, rfl, .cons hc hf, ?_⟩
  exact hl.imp (fun ⟨hq, ht, ho⟩ => ⟨hq, List.mem_cons_of_mem c ht, ho⟩) id

/-- The last check of the record. -/
theorem follows_last {p : Params} {lim : Nat} {w : List Byte} {q : Pending} {c : Check}
    {o : Outcome} {size : Nat} {rest : List Nat} (hc : c = .throws ↔ lim < size)
    (h : Left p lim w q [c] o rest) : Follows p lim w q [c] o (size :: rest) :=
  ⟨[size], rest, rfl, .cons hc .nil, h⟩

/-- The passes that are left are enough for the record. -/
def Enough (fuel : Nat) (data : List Byte) : Stage → Prop
  | .pair _ _ => data.length < fuel
  | _ => data.length ≤ fuel

theorem turn_name {p : Params} {d : Deserializer} (hd : d.parseState = .readNew)
    (data : List Byte) :
    turn p d data = turnFrom .name p d data ∧ turnChecks p d data = checksFrom .name p d data := by
  simp only [turn, turnChecks, hd, turnFrom, checksFrom, and_self]

/-- What one pass and those behind it do with the rest of a record. -/
theorem holds_follows {p : Params} {lim : Nat} {begun torn : Bool} {s : Stage}
    {data : List Byte} {q : Pending} (h : Holds lim begun torn s data q) (w : List Byte) :
    ∀ (d : Deserializer) (fuel : Nat), Stands d s → d.effectiveMaxPairSize p = lim →
      (begun = false → d.remainingLen = 0) → (torn = false → d.parseState = .readNew) →
      Enough fuel data s →
      Follows p lim w q
        (checksFrom s p d data ++ moreChecks p fuel (turnFrom s p d data))
        (finish p fuel (turnFrom s p d data)) (stageSizes s (data ++ w)) := by
  induction h with
  | @short torn s b data q hs hb hr ih =>
    intro d fuel hd hm hrem hst hf
    obtain ⟨d', hsame, hd', ht, hc⟩ := turnFrom_short (p := p) hs hd hb data
    have hn : decodeLength ([b] ++ (data ++ w)) = some (b.toNat, data ++ w) := by
      simp [decodeLength, hb]
    have hsizes : stageSizes s (b :: data ++ w) = stageSizes (s.read b.toNat) (data ++ w) :=
      stageSizes_length hs hn
    have hf' : Enough fuel data (s.read b.toNat) := by
      cases s with
      | name | value n => simp only [Enough, Stage.read, List.length_cons] at hf ⊢; omega
      | pair n v => exact hs.elim
    rw [ht, hc, hsizes]
    exact ih d' fuel hd' (by rw [hsame.effectiveMaxPairSize, hm])
      (fun hb => by rw [hsame.remainingLen]; exact hrem hb)
      (fun ht => by rw [hsame.parseState]; exact hst ht) hf'
  | @cut torn s b data hs hb hl =>
    intro d fuel hd hm hrem hst hf
    obtain ⟨d', ht, hc, hm', hw⟩ := turnFrom_cut (p := p) hs hd hb hl
    rw [ht, hc]
    refine ⟨[], _, rfl, .nil, Or.inr ⟨d', rfl, ?_, hw, rfl⟩⟩
    rw [← hm]
    simp only [effectiveMaxPairSize, hm']
  | @exceeds torn n v data hlt =>
    intro d fuel hd hm hrem hst hf
    have ht := willReadBuffer_stands p hd data
    rw [hm, if_pos hlt] at ht
    simp only [turnFrom, checksFrom, pairChecks, ht, stageSizes_pair]
    exact follows_last (by simp [checkOf, hlt])
      (Or.inl ⟨rfl, List.mem_singleton.mpr rfl, _, rfl⟩)
  | @split torn n v data hle hlt =>
    intro d fuel hd hm hrem hst hf
    have ht := willReadBuffer_stands p hd data
    rw [hm, if_neg (by omega), if_neg (by omega)] at ht
    have hdrop : (data ++ w).drop (n + v) = w.drop (n + v - data.length) := by
      rw [List.drop_append, List.drop_eq_nil_of_le (by omega), List.nil_append]
    simp only [turnFrom, checksFrom, pairChecks, ht, stageSizes_pair]
    refine follows_last (by simp only [checkOf, reduceCtorEq, false_iff]; omega)
      (Or.inr ⟨_, rfl, hm, ?_, ?_⟩)
    · have hlen : (resize d.stringBuffer (n + v)).length = n + v := resize_length _ _
      have hroom : n + v - data.length ≤
          (overwrite (resize d.stringBuffer (n + v)) 0 data).length - data.length :=
        Nat.sub_le_sub_right
          (by rw [overwrite_length _ _ _ (by omega)]; exact Nat.le_of_eq hlen.symm) _
      cases torn with
      | true => exact ⟨rfl, hroom⟩
      | false => exact ⟨hst rfl, rfl, by omega, hroom⟩
    · cases torn with
      | true | false => exact congrArg streamSizes hdrop
  | @last torn n v data hle he =>
    intro d fuel hd hm hrem hst hf
    have ht := willReadBuffer_stands p hd data
    rw [hm, if_neg (by omega), if_pos (by omega)] at ht
    have hnil : data.drop (n + v) = [] := List.drop_eq_nil_of_le (by omega)
    have hdrop : (data ++ w).drop (n + v) = w := by rw [← he, List.drop_left]
    simp only [turnFrom, checksFrom, pairChecks, ht, stageSizes_pair, finish, moreChecks, hnil,
      if_true]
    refine follows_last (by simp only [checkOf, reduceCtorEq, false_iff]; omega)
      (Or.inr ⟨_, rfl, hm, ?_, ?_⟩)
    · cases begun with
      | true => trivial
      | false => exact ⟨rfl, hrem rfl⟩
    · cases begun with
      | true | false => exact congrArg streamSizes hdrop
  | @next torn n v data q hle hlt hr ih =>
    intro d fuel hd hm hrem hst hf
    have ht := willReadBuffer_stands p hd data
    rw [hm, if_neg (by omega), if_pos (by omega)] at ht
    have hne : data.drop (n + v) ≠ [] := by
      intro h
      have := congrArg List.length h
      simp only [List.length_drop, List.length_nil] at this
      omega
    have hdrop : (data ++ w).drop (n + v) = data.drop (n + v) ++ w := by
      rw [List.drop_append_of_le_length (by omega)]
    obtain ⟨k, rfl⟩ : ∃ k, fuel = k + 1 := ⟨fuel - 1, by simp only [Enough] at hf; omega⟩
    have hk : Enough k (data.drop (n + v)) .name := by
      simp only [Enough, List.length_drop] at hf ⊢
      omega
    -- the rest of the record is read by the next passes of the loop
    simp only [turnFrom, checksFrom, pairChecks, ht, stageSizes_pair, finish, moreChecks, hne,
      if_false, loop_finish, loopChecks_more]
    refine follows_cons (by simp only [checkOf, reduceCtorEq, false_iff]; omega) ?_
    generalize hd₁ : ({ d.ntohlLengths p with
      parseState := .readNew
      currentBuffer := ⟨d.currentBuffer.target, d.currentBuffer.offset + (n + v)⟩ } :
        Deserializer) = d₁
    have hs₁ : d₁.parseState = .readNew := by rw [← hd₁]
    obtain ⟨ht₁, hc₁⟩ := turn_name (p := p) hs₁ (data.drop (n + v))
    have hrest := ih d₁ k hs₁ (by rw [← hd₁]; exact hm) (by rw [← hd₁]; exact hrem)
      (fun _ => hs₁) hk
    rw [ht₁, hc₁, hdrop, ← stageSizes_name]
    exact hrest

/-! ### A record -/

/-- The pass that the parser resumes at is the one of stage `s`. -/
def ResumesAt (p : Params) (d : Deserializer) (s : Stage) : Prop :=
  ∀ data, turn p d data = turnFrom s p d data ∧ turnChecks p d data = checksFrom s p d data

theorem resumesAt_name {p : Params} {d : Deserializer} (hd : d.parseState = .readNew) :
    ResumesAt p d .name := turn_name hd

theorem resumesAt_value {p : Params} {d : Deserializer} (hd : d.parseState = .readNameLen)
    (n : Nat) : ResumesAt p d (.value n) := by
  intro data
  simp only [turn, turnChecks, hd, turnFrom, checksFrom, and_self]

theorem resumesAt_pair {p : Params} {d : Deserializer} (hd : d.parseState = .readValueLen)
    (n v : Nat) : ResumesAt p d (.pair n v) := by
  intro data
  simp only [turn, turnChecks, hd, turnFrom, checksFrom, and_self]

/-- A record that holds the missing bytes `a` and then is read from `s` on. -/
theorem feed_holds {p : Params} {lim : Nat} {begun torn : Bool} {s : Stage} {a data : List Byte}
    {q : Pending} (h : Holds lim begun torn s data q) {d : Deserializer}
    (hne : a ++ data ≠ []) (ha : d.remainingLen = a.length) (hroom : a.length ≤ room d)
    (hm : d.effectiveMaxPairSize p = lim) (hs : Stands (resumed d a) s)
    (hat : ResumesAt p (resumed d a) s) (hb : begun = false → a = [])
    (ht : torn = false → d.parseState = .readNew) (w : List Byte) :
    Follows p lim w q (feedChecks p d (a ++ data)) (d.feed p (a ++ data)).outcome
      (stageSizes s (data ++ w)) := by
  have hl : d.remainingLen ≤ (a ++ data).length := by
    rw [ha, List.length_append]
    omega
  have htake : (a ++ data).take d.remainingLen = a := by rw [ha, List.take_left]
  have hdrop : (a ++ data).drop d.remainingLen = data := by rw [ha, List.drop_left]
  have hfuel : (a ++ data).length - d.remainingLen + 2 = data.length + 1 + 1 := by
    rw [ha, List.length_append]
    omega
  obtain ⟨hr', hs', hm'⟩ := resumed_fields d a
  obtain ⟨ht₁, hc₁⟩ := hat data
  rw [feedChecks_resumes p hne hl (by omega), feed_resumes p hne hl (by omega), htake, hdrop,
    hfuel, loopChecks_more, loop_finish, ht₁, hc₁]
  refine holds_follows h w (resumed d a) (data.length + 1) hs ?_ ?_ ?_ ?_
  · rw [← hm]
    simp only [effectiveMaxPairSize, hm']
  · intro hbf
    rw [hr', ha, hb hbf]
    rfl
  · intro htf
    rw [hs']
    exact ht htf
  · cases s <;> simp only [Enough] <;> omega

/-- Less than the bytes that the parser waits for. -/
theorem feed_less (p : Params) {d : Deserializer} {data : List Byte}
    (hlt : data.length < d.remainingLen) (hroom : d.remainingLen ≤ room d) :
    feedChecks p d data = [] ∧ ∃ d' b, d.feed p data = ⟨[], .returns b d'⟩ ∧
      d'.maxPairSize = d.maxPairSize ∧ d'.parseState = d.parseState ∧
      d'.remainingLen = d.remainingLen - data.length ∧ d.remainingLen ≤ room d' := by
  by_cases hne : data = []
  · subst hne
    exact ⟨rfl, d, true, rfl, rfl, rfl, rfl, hroom⟩
  · obtain ⟨hc, -, hs', hm'⟩ := stored_fields d data
    have hfit : data.length ≤ room d := by omega
    refine ⟨feedChecks_none p (by omega),
      { stored d data with remainingLen := d.remainingLen - data.length }, false,
      feed_waits p hne hlt hfit, hm', hs', rfl, ?_⟩
    -- the pointer stays where it was
    have hroom' : room d ≤ room (stored d data) := by
      unfold room
      rw [hc]
      cases htg : d.currentBuffer.target with
      | wild | length dest => exact Nat.le_refl _
      | stringBuffer =>
        simp only [room, htg] at hfit
        simp only [stored, htg]
        by_cases hz : d.currentBuffer.offset + data.length ≤ d.stringBuffer.length
        · exact Nat.le_of_eq (by rw [overwrite_length _ _ _ hz])
        · omega
    simp only [room] at hroom hroom' ⊢
    omega

/-- Less than the missing bytes of a split pair. -/
theorem feed_more (p : Params) {d : Deserializer} {m : Nat} {data : List Byte}
    (hd : Waits d (.content m)) (hlt : data.length < m) :
    feedChecks p d data = [] ∧ ∃ d' b, d.feed p data = ⟨[], .returns b d'⟩ ∧
      d'.maxPairSize = d.maxPairSize ∧ Waits d' (.content (m - data.length)) := by
  obtain ⟨hs, rfl, hpos, hroom⟩ := hd
  obtain ⟨hc, d', b, hf, hm', hs', hr', hroom'⟩ := feed_less p hlt hroom
  exact ⟨hc, d', b, hf, hm', hs'.trans hs, hr', by omega, by omega⟩

/-- A parser that waits for more bytes than there are makes no check and no call. -/
theorem idle_run (p : Params) (records : List (List Byte)) :
    ∀ d : Deserializer, records.flatten.length < d.remainingLen → d.remainingLen ≤ room d →
      allChecks p d records = [] ∧ ∃ d' b, feedAll p d records = ⟨[], .returns b d'⟩ := by
  induction records with
  | nil => exact fun d _ _ => ⟨rfl, d, false, rfl⟩
  | cons data records ih =>
    intro d hlt hroom
    rw [List.flatten_cons, List.length_append] at hlt
    obtain ⟨hc, d₁, b₁, hf, -, -, hr₁, hroom₁⟩ := feed_less p
      (show data.length < d.remainingLen by omega) hroom
    obtain ⟨hcs, d', b, hfs⟩ := ih d₁ (by omega) (by omega)
    refine ⟨by simp only [allChecks, hc, hf, hcs, List.append_nil], d', b, ?_⟩
    rw [feedAll_returns hf, hfs]
    rfl

/-! ### A torn length -/

theorem unmarked_toNat {b : Byte} (hb : 128 ≤ b.toNat) : (b &&& 0x7F).toNat = b.toNat - 128 := by
  have h : ∀ n : Fin 256, 128 ≤ n.val → (UInt8.ofNat n.val &&& 0x7F).toNat = n.val - 128 := by
    decide +kernel
  have hb' := h ⟨b.toNat, b.toNat_lt⟩
  simpa using hb' hb

/-- The two parts of a torn length are put together in the field. -/
theorem write_torn {m : U32} {bytes a rest : List Byte} {n : Nat}
    (hb : ∃ b t, bytes = b :: t ∧ 128 ≤ b.toNat) (hl : bytes.length + a.length = 4)
    (hm : m.bytes = unmarked bytes ++ rest) (hn : decodeLength (bytes ++ a) = some (n, [])) :
    (m.write bytes.length a).be = n ∧ n < 2147483648 := by
  obtain ⟨b, t, rfl, hb⟩ := hb
  have hlen : (unmarked (b :: t)).length = (b :: t).length := rfl
  have hml : m.bytes.length = 4 := rfl
  have hover : overwrite m.bytes (b :: t).length a = unmarked (b :: t) ++ a := by
    have hdrop : m.bytes.drop ((b :: t).length + a.length) = [] :=
      List.drop_eq_nil_of_le (by omega)
    rw [overwrite, hdrop, List.append_nil, hm, ← hlen, List.take_left]
  obtain ⟨c, e, f, ht⟩ : ∃ c e f, t ++ a = [c, e, f] := by
    refine List.length_eq_three.mp ?_
    simp only [List.length_append, List.length_cons] at hl ⊢
    omega
  rw [U32.write, hover]
  simp only [List.cons_append, ht, decodeLength, if_neg (show ¬ b.toNat < 128 by omega),
    Option.some.injEq, Prod.mk.injEq, and_true] at hn
  simp only [unmarked, List.cons_append, ht, U32.ofBytes_cons, U32.be, unmarked_toNat hb]
  have hb' := b.toNat_lt
  have hc := c.toNat_lt
  have he := e.toNat_lt
  have hf := f.toNat_lt
  omega

theorem torn_length {l a : List Byte} {n : Nat} (hb : ∃ b t, l = b :: t ∧ 128 ≤ b.toNat)
    (h : decodeLength (l ++ a) = some (n, [])) : (l ++ a).length = 4 := by
  obtain ⟨b, t, rfl, hb⟩ := hb
  rw [List.cons_append] at h ⊢
  generalize t ++ a = l at h ⊢
  match l with
  | [] | [_] | [_, _] => simp [decodeLength, show ¬ b.toNat < 128 by omega] at h
  | c :: e :: f :: rest =>
    simp only [decodeLength, if_neg (show ¬ b.toNat < 128 by omega), Option.some.injEq,
      Prod.mk.injEq] at h
    rw [h.2]
    rfl

theorem resumed_torn_name {d : Deserializer} {bytes a : List Byte} {n : Nat}
    (hd : Waits d (.length .name bytes)) (hn : decodeLength (bytes ++ a) = some (n, []))
    (ha : d.remainingLen = a.length) :
    Stands (resumed d a) (.value n) ∧ (resumed d a).parseState = .readNameLen ∧
      a.length ≤ room d := by
  obtain ⟨hl, -, hb, hs, hc, rest, hm⟩ := hd
  have hw := write_torn hb (by omega) hm hn
  refine ⟨⟨?_, hw.2⟩, (resumed_fields d a).2.1.trans hs, ?_⟩
  · rw [← hw.1]
    simp only [resumed, stored, hc, setField, field]
  · simp only [room, hc]
    omega

theorem resumed_torn_value {d : Deserializer} {bytes a : List Byte} {n v : Nat}
    (hd : Waits d (.length (.value n) bytes)) (hv : decodeLength (bytes ++ a) = some (v, []))
    (ha : d.remainingLen = a.length) :
    Stands (resumed d a) (.pair n v) ∧ (resumed d a).parseState = .readValueLen ∧
      a.length ≤ room d := by
  obtain ⟨hl, -, hb, hs, hc, hn, hnlt, rest, hm⟩ := hd
  have hw := write_torn hb (by omega) hm hv
  refine ⟨⟨?_, hnlt, ?_, hw.2⟩, (resumed_fields d a).2.1.trans hs, ?_⟩
  · rw [← hn]
    simp only [resumed, stored, hc, setField]
  · rw [← hw.1]
    simp only [resumed, stored, hc, setField, field]
  · simp only [room, hc]
    omega

/-! ## A run -/

/-- The checks of the records behind one that ended with `o`. -/
def behind (p : Params) (records : List (List Byte)) : Outcome → List Check
  | .returns _ d => allChecks p d records
  | _ => []

/-- The checks are those of the first pairs of the stream, with the outcomes they ought to
have, up to the first pair over the limit or up to the last pair. -/
def Covered (lim : Nat) (checks : List Check) (stream : List Nat) : Prop :=
  ∃ first rest, stream = first ++ rest ∧
    List.Forall₂ (fun c size => c = Check.throws ↔ lim < size) checks first ∧
    (Check.throws ∈ checks ∨ rest = [])

theorem covered_follows {p : Params} {lim : Nat} {w : List Byte} {q : Pending}
    {checks : List Check} {o : Outcome} {stream : List Nat} {records : List (List Byte)}
    (h : Follows p lim w q checks o stream)
    (hrest : ∀ d rest, Waits d q → d.effectiveMaxPairSize p = lim → Rest w q rest →
      Covered lim (allChecks p d records) rest) :
    Covered lim (checks ++ behind p records o) stream := by
  obtain ⟨first, rest, rfl, hf, ⟨-, ht, what, rfl⟩ | ⟨d, rfl, hm, hw, hr⟩⟩ := h
  · refine ⟨first, rest, rfl, ?_⟩
    rw [show behind p records (.throws what) = [] from rfl, List.append_nil]
    exact ⟨hf, Or.inl ht⟩
  · obtain ⟨first', rest', rfl, hf', hend⟩ := hrest d rest hw hm hr
    exact ⟨first ++ first', rest', by rw [List.append_assoc], List.rel_append hf hf',
      hend.imp_left (List.mem_append_right checks)⟩

theorem decodeLength_short {l : List Byte} (hb : ∃ b t, l = b :: t ∧ 128 ≤ b.toNat)
    (hl : l.length < 4) : decodeLength l = none := by
  obtain ⟨b, t, rfl, hb⟩ := hb
  have hb' : ¬ b.toNat < 128 := by omega
  match t with
  | [] | [_] | [_, _] => simp [decodeLength, hb']
  | _ :: _ :: _ :: _ => simp only [List.length_cons] at hl; omega

theorem waits_short {d : Deserializer} {s : Stage} {bytes w : List Byte}
    (h : Waits d (.length s bytes)) (hl : w = [] ∨ w.length < (Pending.length s bytes).missing) :
    decodeLength (bytes ++ w) = .none := by
  obtain ⟨hlen, hpos, ⟨b, t, rfl, hb⟩, -⟩ := h
  refine decodeLength_short ⟨b, t ++ w, rfl, hb⟩ ?_
  rw [List.length_append]
  rcases hl with rfl | hl
  · simp only [List.length_nil]
    omega
  · simp only [Pending.missing] at hl
    omega

theorem drop_missing {q : Pending} {w : List Byte} (hl : w = [] ∨ w.length < q.missing) :
    w.drop q.missing = [] := by
  rcases hl with rfl | hl
  · exact List.drop_nil
  · exact List.drop_eq_nil_of_le (Nat.le_of_lt hl)

/-- The stream ends before the next pair has its lengths. -/
theorem rest_short {d : Deserializer} {q : Pending} {w : List Byte} {stream : List Nat}
    (hw : Waits d q) (hl : w = [] ∨ w.length < q.missing) (hr : Rest w q stream) : stream = [] := by
  cases q with
  | none | stale =>
    have hnil : w = [] := hl.resolve_right (Nat.not_lt_zero _)
    rw [show stream = streamSizes w from hr, hnil]
    rfl
  | length s bytes =>
    have hshort := waits_short hw hl
    rw [show stream = stageSizes s (bytes ++ w) from hr, stageSizes]
    cases s with
    | name | value n => simp only [header, hshort, Option.bind_eq_bind, Option.bind_none]
    | pair n v => exact hw.2.2.2.elim
  | content m | lost m =>
    rw [show stream = streamSizes (w.drop m) from hr, show w.drop m = [] from drop_missing hl]
    rfl
  | thrown => exact hw.elim

theorem holds_name_ne_nil {lim : Nat} {begun torn : Bool} {data : List Byte} {q : Pending}
    (h : Holds lim begun torn .name data q) : data ≠ [] := by
  cases h with
  | short | cut => exact List.cons_ne_nil _ _

theorem waits_missing {d : Deserializer} {q : Pending} (h : Waits d q) (hpos : 0 < q.missing) :
    d.remainingLen = q.missing ∧ d.remainingLen ≤ room d := by
  cases q with
  | length s bytes =>
    obtain ⟨hlen, hpos', -, hs⟩ := h
    have hbuffer : room d = 4 - bytes.length := by
      cases s with
      | name => simp only [room, hs.2.1]
      | value n => simp only [room, hs.2.1]
      | pair n v => exact hs.elim
    rw [hbuffer, Pending.missing]
    omega
  | content m => exact ⟨h.2.1, h.2.1 ▸ h.2.2.2⟩
  | lost m => exact ⟨h.1, h.1 ▸ h.2⟩
  | none | stale | thrown => exact absurd hpos (Nat.lt_irrefl 0)

theorem clean_follows {p : Params} {lim : Nat} {q : Pending} {records : List (List Byte)}
    (h : Clean lim q records) :
    ∀ (d : Deserializer) (stream : List Nat), Waits d q → d.effectiveMaxPairSize p = lim →
      Rest records.flatten q stream → Covered lim (allChecks p d records) stream := by
  induction h with
  | done =>
    intro d stream hw _ hr
    rw [rest_short hw (Or.inl rfl) hr]
    exact ⟨[], [], rfl, .nil, Or.inr rfl⟩
  | @idle q records hlt =>
    intro d stream hw _ hr
    obtain ⟨hrem, hroom⟩ := waits_missing hw (Nat.zero_lt_of_lt hlt)
    rw [rest_short hw (Or.inr hlt) hr, (idle_run p records d (by omega) hroom).1]
    exact ⟨[], [], rfl, .nil, Or.inr rfl⟩
  | skip h ih =>
    intro d stream hw hm hr
    exact ih d stream hw hm hr
  | thrown =>
    intro d stream hw _ _
    exact hw.elim
  | @start data q records hd h ih =>
    rintro d stream ⟨hs, hrem⟩ hm hr
    have hne := holds_name_ne_nil hd
    have hrs : (resumed d []).parseState = .readNew := (resumed_fields d []).2.1.trans hs
    have hfollows := feed_holds (p := p) (a := []) hd hne hrem (Nat.zero_le _) hm hrs
      (resumesAt_name hrs) (fun _ => rfl) (fun _ => hs) records.flatten
    rw [List.nil_append, stageSizes_name] at hfollows
    rw [show stream = streamSizes (data ++ records.flatten) from hr]
    exact covered_follows hfollows fun d' rest hw hm' hr' => ih d' rest hw hm' hr'
  | @more m data records hlt h ih =>
    intro d stream hw hm hr
    obtain ⟨hc, d', b, hf, hm', hw'⟩ := feed_more p hw hlt
    have hr' : Rest records.flatten (.content (m - data.length)) stream := by
      rw [show stream = streamSizes ((data ++ records.flatten).drop m) from hr, List.drop_append,
        List.drop_eq_nil_of_le (by omega), List.nil_append]
      rfl
    simp only [allChecks, hc, hf, List.nil_append]
    refine ih d' stream hw' ?_ hr'
    rw [← hm]
    simp only [effectiveMaxPairSize, hm']
  | @content a data q records hd h ih =>
    rintro d stream ⟨hs, hrem, hpos, hroom⟩ hm hr
    have hne : a ++ data ≠ [] := by
      intro h
      exact holds_name_ne_nil hd (List.append_eq_nil_iff.mp h).2
    have hrs : (resumed d a).parseState = .readNew := (resumed_fields d a).2.1.trans hs
    have hfollows := feed_holds (p := p) hd hne hrem hroom hm hrs (resumesAt_name hrs)
      Bool.noConfusion (fun _ => hs) records.flatten
    have hdrop : ((a ++ data) ++ records.flatten).drop a.length = data ++ records.flatten := by
      rw [List.append_assoc, List.drop_left]
    rw [stageSizes_name] at hfollows
    rw [show stream = streamSizes (((a ++ data) ++ records.flatten).drop a.length) from hr, hdrop]
    exact covered_follows hfollows fun d' rest hw hm' hr' => ih d' rest hw hm' hr'
  | @length s bytes a data n q records hn hd h ih =>
    intro d stream hw hm hr
    obtain ⟨hlen, hpos, hb, -⟩ := id hw
    have ha : d.remainingLen = a.length := by
      have hfour := torn_length hb hn
      rw [List.length_append] at hfour
      omega
    have hne : a ++ data ≠ [] := by
      intro h
      have hz := congrArg List.length h
      rw [List.length_append, List.length_nil] at hz
      omega
    have hfull := decodeLength_append hn (data ++ records.flatten)
    have hstream : stream = stageSizes s (bytes ++ a ++ (data ++ records.flatten)) := by
      rw [show stream = stageSizes s (bytes ++ ((a ++ data) ++ records.flatten)) from hr]
      simp only [List.append_assoc]
    have hfinish : ∀ s', Stands (resumed d a) s' → ResumesAt p (resumed d a) s' →
        Holds lim true true s' data q → stream = stageSizes s' (data ++ records.flatten) →
        a.length ≤ room d → Covered lim (allChecks p d ((a ++ data) :: records)) stream := by
      intro s' hs hat hd' hst hroom
      have hfollows := feed_holds (p := p) hd' hne ha hroom hm hs hat Bool.noConfusion
        Bool.noConfusion records.flatten
      rw [hst]
      exact covered_follows hfollows fun d' rest hw hm' hr' => ih d' rest hw hm' hr'
    cases s with
    | name =>
      obtain ⟨hs, hst, hroom⟩ := resumed_torn_name hw hn ha
      rw [stageSizes_length (s := .name) trivial hfull] at hstream
      exact hfinish (.value n) hs (resumesAt_value hst n) hd hstream hroom
    | value m =>
      obtain ⟨hs, hst, hroom⟩ := resumed_torn_value hw hn ha
      rw [stageSizes_length (s := .value m) trivial hfull] at hstream
      exact hfinish (.pair m n) hs (resumesAt_pair hst m n) hd hstream hroom
    | pair m v => exact hw.2.2.2.elim

/-- **The pair size limit.** On clean records every pair within the limit passes
and every pair over it throws, the lengths being those of the stream. -/
theorem clean_enforced (p : Params) (m : Nat) (n v : U32) (records : List (List Byte))
    (h : Clean ((fresh m n v).effectiveMaxPairSize p) .none records) :
    Enforced ((fresh m n v).effectiveMaxPairSize p) (allChecks p (fresh m n v) records)
      (streamSizes records.flatten) := by
  obtain ⟨first, rest, hs, hf, -⟩ := clean_follows h (fresh m n v) _ ⟨rfl, rfl⟩ rfl rfl
  exact ⟨first, rest, hs, hf⟩

/-- A whole pair, then one whose name length is torn by the end of the record. -/
def tornRecords : List (List Byte) := [[1, 1, 97, 98, 0x80], [0, 0, 1, 1, 97, 98]]

theorem tornRecords_clean : Clean 65535 .none tornRecords := by
  have hfirst : Holds 65535 false false .name [1, 1, 97, 98, 0x80] (.length .name [0x80]) := by
    refine .short trivial (by decide) (.short trivial (by decide) ?_)
    refine .next (by decide) (by decide) ?_
    exact .cut trivial (by decide) (by decide)
  have hsecond : Holds 65535 true true (.value 1) [1, 97, 98] .stale :=
    .short trivial (by decide) (.last (by decide) (by decide))
  exact .start hfirst (.length (a := [0, 0, 1]) (by decide) hsecond .done)

theorem clean_enforced_torn :
    Enforced 65535 (allChecks .standard (fresh 0 ⟨0, 0, 0, 0⟩ ⟨0, 0, 0, 0⟩) tornRecords)
      (streamSizes tornRecords.flatten) :=
  clean_enforced .standard 0 ⟨0, 0, 0, 0⟩ ⟨0, 0, 0, 0⟩ tornRecords tornRecords_clean

theorem not_enforced {lim size : Nat} {c : Check} {checks : List Check} {stream : List Nat}
    (h : ¬ (c = .throws ↔ lim < size)) :
    ¬ Enforced lim (c :: checks) (size :: stream) := by
  rintro ⟨first, rest, hs, hf⟩
  cases hf with
  | cons hc _ =>
    rw [List.cons_append, List.cons.injEq] at hs
    rw [← hs.1] at hc
    exact h hc

/-- A pair of three bytes throws when its value length is a whole four-byte one;
a pair of 2^31 bytes passes when the marker of its name length makes the sum
wrap to zero. -/
theorem marker_not_enforced :
    ¬ Enforced 65535
        (allChecks .standard (fresh 0 ⟨0, 0, 0, 0⟩ ⟨0, 0, 0, 0⟩)
          [[1, 0x80, 0, 0, 2, 97, 98, 99, 0]])
        (streamSizes [1, 0x80, 0, 0, 2, 97, 98, 99, 0]) ∧
      ¬ Enforced 65535
        (allChecks .standard (fresh 0 ⟨0, 0, 0, 0⟩ ⟨0, 0, 0, 0⟩)
          [[0xFF, 0xFF, 0xFF, 0xFF, 1, 97, 97, 97]])
        (streamSizes [0xFF, 0xFF, 0xFF, 0xFF, 1, 97, 97, 97]) := by
  have hc₁ : allChecks .standard (fresh 0 ⟨0, 0, 0, 0⟩ ⟨0, 0, 0, 0⟩)
      [[1, 0x80, 0, 0, 2, 97, 98, 99, 0]] = [.throws] := by decide +kernel
  have hs₁ : streamSizes [1, 0x80, 0, 0, 2, 97, 98, 99, 0] = [3] := by decide +kernel
  have hc₂ : allChecks .standard (fresh 0 ⟨0, 0, 0, 0⟩ ⟨0, 0, 0, 0⟩)
      [[0xFF, 0xFF, 0xFF, 0xFF, 1, 97, 97, 97]] = [.newKey] := by decide +kernel
  have hs₂ : streamSizes [0xFF, 0xFF, 0xFF, 0xFF, 1, 97, 97, 97] = [2147483648] := by
    decide +kernel
  rw [hc₁, hs₁, hc₂, hs₂]
  exact ⟨not_enforced (by decide), not_enforced (by decide)⟩

end Tfcgi.NvpLimit
