import Tfcgi.NvpRuns

/-!
# The memory the deserializer touches

`Readable lim s data` is the part of the name-value format that the parse loop
reads without leaving the record, from the place `s` where it stands. A record
is safe when the bytes that complete an earlier length or pair fit where
`current_buffer` points and what follows them is readable.

* `feed_resumes`, `feed_waits`, `feed_overruns`: what a call of `feed` does with the
  bytes that were missing;
* `loop_iff`, `feed_iff`: one call of `feed` stays inside its buffers exactly on
  the safe records;
* `inBounds_iff`: so does a run over any list of records, exactly when each
  record is safe for the parser that the records before it left;
* `feed_counts`: `len` never goes below zero.
-/

namespace Tfcgi.NvpBounds

open Tfcgi.HostOrder Tfcgi.Protocol Tfcgi.NameValuePairs Tfcgi.NvpRuns
open Tfcgi.NameValuePairs.Deserializer

/-! ## What a record may hold -/

/-- What the parser reads next, with the lengths it has. -/
inductive Stage where
  | name
  | value (n : Nat)
  | pair (n v : Nat)
  deriving DecidableEq, Repr

/-- A length is read next. -/
def Stage.IsLength : Stage → Prop
  | .pair _ _ => False
  | _ => True

/-- The length `m` was read. -/
def Stage.read (m : Nat) : Stage → Stage
  | .name => .value m
  | .value n => .pair n m
  | .pair n v => .pair n v

/-- The parse loop can read `data` up to the end of the record, or up to the
first pair over `lim`. -/
inductive Readable (lim : Nat) : Stage → List Byte → Prop where
  | short {s : Stage} {b : Byte} {data : List Byte} (hs : s.IsLength) (hb : b.toNat < 128)
      (hr : Readable lim (s.read b.toNat) data) : Readable lim s (b :: data)
  /-- the record ends inside a four-byte length -/
  | cut {s : Stage} {b : Byte} {data : List Byte} (hs : s.IsLength) (hb : 128 ≤ b.toNat)
      (hl : data.length < 3) : Readable lim s (b :: data)
  /-- what follows a whole four-byte length is dropped -/
  | dropped {s : Stage} {b c e f : Byte} {data : List Byte} (hs : s.IsLength)
      (hb : 128 ≤ b.toNat) (hl : data.length ≠ 4) : Readable lim s (b :: c :: e :: f :: data)
  /-- unless four bytes follow it; the marker bit stays in the length -/
  | long {s : Stage} {b c e f : Byte} {data : List Byte} (hs : s.IsLength)
      (hb : 128 ≤ b.toNat) (hl : data.length = 4)
      (hr : Readable lim (s.read (⟨b, c, e, f⟩ : U32).be) data) :
      Readable lim s (b :: c :: e :: f :: data)
  | exceeds {n v : Nat} {data : List Byte} (hlt : lim < pairSize n v) :
      Readable lim (.pair n v) data
  | split {n v : Nat} {data : List Byte} (hlt : data.length < pairSize n v) :
      Readable lim (.pair n v) data
  | last {n v : Nat} {data : List Byte} (hle : n + v ≤ data.length)
      (he : data.drop (pairSize n v) = []) : Readable lim (.pair n v) data
  | next {n v : Nat} {data : List Byte} (hle : n + v ≤ data.length)
      (hr : Readable lim .name (data.drop (pairSize n v))) : Readable lim (.pair n v) data

/-- The bytes between `current_buffer` and the end of the object it points into. -/
def room (d : Deserializer) : Nat :=
  match d.currentBuffer.target with
  | .wild => 0
  | .length _ => 4 - d.currentBuffer.offset
  | .stringBuffer => d.stringBuffer.length - d.currentBuffer.offset

/-- A length field once `src` is stored through `current_buffer`. -/
def fieldAfter (d : Deserializer) (dest : Field) (src : List Byte) : Nat :=
  if d.currentBuffer.target = .length dest then
    ((d.field dest).write d.currentBuffer.offset src).be
  else (d.field dest).be

/-- Where the parse loop starts once the missing bytes `src` are stored. -/
def stage (d : Deserializer) (src : List Byte) : Stage :=
  match d.parseState with
  | .readNameLen => .value (fieldAfter d .name src)
  | .readValueLen | .willReadBuffer => .pair (fieldAfter d .name src) (fieldAfter d .value src)
  | .readNew | .readBuffer => .name

/-- The record `data` for a parser in state `d`. -/
def Safe (p : Params) (d : Deserializer) (data : List Byte) : Prop :=
  data = [] ∨
    (min d.remainingLen data.length ≤ room d ∧
      (d.remainingLen ≤ data.length →
        Readable (d.effectiveMaxPairSize p) (stage d (data.take d.remainingLen))
          (data.drop d.remainingLen)))

/-! ## One length -/

theorem readable_length_cons {lim : Nat} {s : Stage} (hs : s.IsLength) {b : Byte}
    {data : List Byte} (h : Readable lim s (b :: data)) (hb : b.toNat < 128) :
    Readable lim (s.read b.toNat) data := by
  cases h with
  | short _ _ hr => exact hr
  | cut _ hb' _ | dropped _ hb' _ | long _ hb' _ _ => omega
  | exceeds _ | split _ | last _ _ | next _ _ => exact hs.elim

theorem readable_length_four {lim : Nat} {s : Stage} (hs : s.IsLength) {b c e f : Byte}
    {data : List Byte} (h : Readable lim s (b :: c :: e :: f :: data)) (hb : 128 ≤ b.toNat)
    (hl : data.length = 4) : Readable lim (s.read (⟨b, c, e, f⟩ : U32).be) data := by
  cases h with
  | short _ hb' _ => omega
  | cut _ _ hl' => simp only [List.length_cons] at hl'; omega
  | dropped _ _ hl' => exact absurd hl hl'
  | long _ _ _ hr => exact hr
  | exceeds _ | split _ | last _ _ | next _ _ => exact hs.elim

theorem not_readable_nil {lim : Nat} {s : Stage} (hs : s.IsLength) : ¬ Readable lim s [] := by
  intro h
  cases h with
  | exceeds _ | split _ | last _ _ | next _ _ => exact hs.elim

/-- What the caller of `read_keyval_length` goes on with. -/
def Continues (Q : Deserializer → List Byte → Prop) :
    Except Fault (Bool × Deserializer × List Byte) → Prop
  | .error _ => False
  | .ok (true, _, _) => True
  | .ok (false, d, data) => Q d data

/-- The other fields are as they were. -/
theorem length_iff {lim : Nat} {s : Stage} (hs : s.IsLength) (dest : Field) (d : Deserializer)
    (data : List Byte) {Q : Deserializer → List Byte → Prop}
    (hQ : ∀ (m : U32) (o : Pointer) (rest : List Byte), rest.length < data.length →
      (Q { d.setField dest m with currentBuffer := o } rest ↔
        Readable lim (s.read m.be) rest)) :
    Continues Q (readKeyvalLength dest d data) ↔ Readable lim s data := by
  cases data with
  | nil =>
    simp only [readKeyvalLength, Continues, false_iff]
    exact not_readable_nil hs
  | cons b data =>
    by_cases hb : b.toNat < 128
    · have hbe : (⟨0, 0, 0, b⟩ : U32).be = b.toNat := by simp [U32.be]
      rw [readKeyvalLength_short dest d b data hb, Continues, hQ _ _ _ (by simp), hbe]
      exact ⟨Readable.short hs hb, fun h => readable_length_cons hs h hb⟩
    · have hb' : 128 ≤ b.toNat := by omega
      by_cases hcut : data.length < 3
      · rw [readKeyvalLength_cut dest d b _ hb' hcut]
        exact ⟨fun _ => .cut hs hb' hcut, fun _ => trivial⟩
      · obtain ⟨c, e, f, rest, rfl⟩ := three_cons hcut
        rw [readKeyvalLength_long dest d b c e f rest hb']
        by_cases hl : rest.length = 4
        · simp only [hl, ne_eq, not_true_eq_false, decide_false, Continues]
          rw [hQ _ _ _ (by simp only [List.length_cons]; omega)]
          exact ⟨Readable.long hs hb' hl, fun h => readable_length_four hs h hb' hl⟩
        · simp only [ne_eq, hl, not_false_eq_true, decide_true, Continues, true_iff]
          exact .dropped hs hb' hl

/-! ## One pass of the loop -/

/-- The pass is defined, and so is what the loop goes on with. -/
def Stays (Q : Deserializer → List Byte → Prop) : Turn → Prop
  | .again _ d data => data = [] ∨ Q d data
  | .wait _ | .throws _ => True
  | .fault _ => False

/-- `Q` holds of a parser at a new pair exactly on the readable records, as far
as they are shorter than `n`. -/
def Reads (p : Params) (lim n : Nat) (Q : Deserializer → List Byte → Prop) : Prop :=
  ∀ d data, d.parseState = .readNew → d.effectiveMaxPairSize p = lim → data.length < n →
    (Q d data ↔ Readable lim .name data)

theorem pair_iff {p : Params} {lim n : Nat} {Q : Deserializer → List Byte → Prop}
    (hQ : Reads p lim n Q) {d : Deserializer} (hd : d.effectiveMaxPairSize p = lim)
    {data : List Byte} (hl : data.length < n) :
    Stays Q (willReadBuffer p d data) ↔
      Readable lim (.pair d.nameLen.be d.valueLen.be) data := by
  simp only [willReadBuffer_eq, hd]
  generalize hs : pairSize d.nameLen.be d.valueLen.be = size
  by_cases hover : lim < size
  · rw [if_pos hover]
    exact ⟨fun _ => .exceeds (by rw [hs]; exact hover), fun _ => trivial⟩
  · rw [if_neg hover]
    by_cases hfit : size ≤ data.length
    · rw [if_pos hfit]
      by_cases hle : d.nameLen.be + d.valueLen.be ≤ data.length
      · rw [if_pos hle, Stays, hQ]
        · constructor
          · rintro (he | hr)
            · exact .last hle (by rw [hs]; exact he)
            · exact .next hle (by rw [hs]; exact hr)
          · intro h
            cases h with
            | exceeds h => omega
            | split h => omega
            | last _ he => exact Or.inl (by rw [← hs]; exact he)
            | next _ hr => exact Or.inr (by rw [← hs]; exact hr)
            | short hs | cut hs | dropped hs | long hs => exact hs.elim
        · rfl
        · exact hd
        · rw [List.length_drop]
          omega
      · rw [if_neg hle]
        refine ⟨False.elim, ?_⟩
        intro h
        cases h with
        | exceeds h => omega
        | split h => omega
        | last h _ | next h _ => exact absurd h hle
        | short hs | cut hs | dropped hs | long hs => exact hs.elim
    · rw [if_neg hfit]
      exact ⟨fun _ => .split (by rw [hs]; omega), fun _ => trivial⟩

theorem value_iff {p : Params} {lim n : Nat} {Q : Deserializer → List Byte → Prop}
    (hQ : Reads p lim n Q) {d : Deserializer} (hd : d.effectiveMaxPairSize p = lim)
    {data : List Byte} (hl : data.length ≤ n) :
    Stays Q (readNameLen p d data) ↔ Readable lim (.value d.nameLen.be) data := by
  rw [← length_iff (s := .value d.nameLen.be) trivial .value d data
    (Q := fun d data => Stays Q (willReadBuffer p d data))]
  · unfold readNameLen
    match readKeyvalLength .value d data with
    | .error _ | .ok (true, _, _) | .ok (false, _, _) => rfl
  · intro m o rest hrest
    have hrest' : rest.length < n := by omega
    exact pair_iff hQ (d := { d.setField .value m with currentBuffer := o }) hd hrest'

theorem name_iff {p : Params} {lim n : Nat} {Q : Deserializer → List Byte → Prop}
    (hQ : Reads p lim n Q) {d : Deserializer} (hd : d.effectiveMaxPairSize p = lim)
    {data : List Byte} (hl : data.length ≤ n) :
    Stays Q (readNew p d data) ↔ Readable lim .name data := by
  rw [← length_iff (s := .name) trivial .name d data
    (Q := fun d data => Stays Q (readNameLen p d data))]
  · unfold readNew
    match readKeyvalLength .name d data with
    | .error _ | .ok (true, _, _) | .ok (false, _, _) => rfl
  · intro m o rest hrest
    have hrest' : rest.length ≤ n := by omega
    exact value_iff hQ (d := { d.setField .name m with currentBuffer := o }) hd hrest'

/-! ## The loop -/

theorem loop_stays (p : Params) (fuel : Nat) (d : Deserializer) (data : List Byte) :
    ¬ Faults (loop p (fuel + 1) d data) ↔
      Stays (fun d data => ¬ Faults (loop p fuel d data)) (turn p d data) := by
  rw [loop]
  cases turn p d data with
  | again pair d' rest =>
    by_cases hr : rest = []
    · simp [hr, Stays, Faults]
    · simp [hr, Stays, Faults, Fed.cons]
  | wait d' | throws what => simp [Stays, Faults]
  | fault f => simp [Stays, Faults]

/-- The parse loop at a new pair. -/
theorem loop_iff (p : Params) (lim fuel : Nat) :
    Reads p lim fuel (fun d data => ¬ Faults (loop p fuel d data)) := by
  induction fuel with
  | zero =>
    intro d data _ _ hl
    omega
  | succ fuel ih =>
    intro d data hs hd hl
    have h := name_iff ih hd (show data.length ≤ fuel by omega)
    simp only [loop_stays, turn, hs]
    exact h

/-- The parse loop anywhere. -/
theorem loop_stage_iff (p : Params) {d : Deserializer} (hs : d.parseState ≠ .readBuffer)
    (fuel : Nat) (data : List Byte) (hl : data.length + 1 < fuel) :
    ¬ Faults (loop p fuel d data) ↔
      Readable (d.effectiveMaxPairSize p) (stage d []) data := by
  obtain ⟨fuel, rfl⟩ : ∃ k, fuel = k + 1 := ⟨fuel - 1, by omega⟩
  have hQ := loop_iff p (d.effectiveMaxPairSize p) fuel
  have hfield : ∀ dest, fieldAfter d dest [] = (d.field dest).be := by
    intro dest
    simp [fieldAfter, U32.write, U32.bytes, U32.ofBytes]
  rw [loop_stays, turn, stage]
  cases hst : d.parseState with
  | readNew => exact name_iff hQ rfl (by omega)
  | readNameLen =>
    simp only [hfield]
    exact value_iff hQ rfl (by omega)
  | readValueLen | willReadBuffer =>
    simp only [hfield]
    exact pair_iff hQ rfl (by omega)
  | readBuffer => exact absurd hst hs

/-! ## A record -/

/-- What a `memcpy` that fits leaves. -/
def stored (d : Deserializer) (src : List Byte) : Deserializer :=
  match d.currentBuffer.target with
  | .wild => d
  | .length dest => d.setField dest ((d.field dest).write d.currentBuffer.offset src)
  | .stringBuffer =>
    { d with stringBuffer := overwrite d.stringBuffer d.currentBuffer.offset src }

theorem write_nil (m : U32) (off : Nat) : m.write off [] = m := by
  simp [U32.write, U32.bytes, U32.ofBytes]

theorem stored_nil (d : Deserializer) : stored d [] = d := by
  unfold stored
  cases d.currentBuffer.target with
  | wild => rfl
  | length dest => cases dest <;> simp [write_nil, setField, field]
  | stringBuffer => simp

/-- `memcpy(current_buffer,src,src.length)` is defined exactly when `src` fits. -/
theorem store_eq (d : Deserializer) (src : List Byte) :
    d.store src =
      if src.length ≤ room d then .ok (stored d src) else .error .writePastTarget := by
  by_cases hne : src = []
  · simp [store, hne, stored_nil]
  · have hpos : 0 < src.length := List.length_pos_iff.mpr hne
    unfold store room stored
    rw [if_neg hne]
    cases d.currentBuffer.target with
    | wild => exact (if_neg (show ¬ src.length ≤ 0 by omega)).symm
    | length dest =>
      simp only [show d.currentBuffer.offset + src.length ≤ 4 ↔
        src.length ≤ 4 - d.currentBuffer.offset by omega]
    | stringBuffer =>
      simp only [show d.currentBuffer.offset + src.length ≤ d.stringBuffer.length ↔
        src.length ≤ d.stringBuffer.length - d.currentBuffer.offset by omega]

theorem stored_fields (d : Deserializer) (src : List Byte) :
    (stored d src).currentBuffer = d.currentBuffer ∧
      (stored d src).remainingLen = d.remainingLen ∧
      (stored d src).parseState = d.parseState ∧
      (stored d src).maxPairSize = d.maxPairSize := by
  unfold stored
  cases d.currentBuffer.target with
  | wild | stringBuffer => exact ⟨rfl, rfl, rfl, rfl⟩
  | length dest => cases dest <;> exact ⟨rfl, rfl, rfl, rfl⟩

theorem stored_field (d : Deserializer) (src : List Byte) (dest : Field) :
    ((stored d src).field dest).be = fieldAfter d dest src := by
  unfold stored fieldAfter
  cases d.currentBuffer.target with
  | wild | stringBuffer => cases dest <;> rfl
  | length dest' => cases dest <;> cases dest' <;> rfl

/-- After the missing bytes, `current_buffer` stands behind them. -/
def resumed (d : Deserializer) (src : List Byte) : Deserializer :=
  { stored d src with
    currentBuffer := ⟨d.currentBuffer.target, d.currentBuffer.offset + d.remainingLen⟩ }

theorem resumed_fields (d : Deserializer) (src : List Byte) :
    (resumed d src).remainingLen = d.remainingLen ∧
      (resumed d src).parseState = d.parseState ∧
      (resumed d src).maxPairSize = d.maxPairSize := by
  obtain ⟨-, hr, hs, hm⟩ := stored_fields d src
  exact ⟨hr, hs, hm⟩

theorem field_resumed (d : Deserializer) (src : List Byte) (dest : Field) :
    ((resumed d src).field dest).be = fieldAfter d dest src := by
  rw [← stored_field d src dest]
  cases dest <;> rfl

theorem stage_resumed (d : Deserializer) (src : List Byte) :
    stage (resumed d src) [] = stage d src := by
  have hfield : ∀ dest, fieldAfter (resumed d src) dest [] = fieldAfter d dest src := by
    intro dest
    rw [← field_resumed d src dest]
    unfold fieldAfter
    rw [write_nil, ite_self]
  unfold stage
  rw [(resumed_fields d src).2.1, hfield, hfield]

/-- `feed` on a record that holds the missing bytes. -/
theorem feed_resumes (p : Params) {d : Deserializer} {data : List Byte} (hne : data ≠ [])
    (hl : d.remainingLen ≤ data.length) (hr : d.remainingLen ≤ room d) :
    d.feed p data = loop p (data.length - d.remainingLen + 2)
      (resumed d (data.take d.remainingLen)) (data.drop d.remainingLen) := by
  have htake : (data.take d.remainingLen).length = d.remainingLen := by
    rw [List.length_take, Nat.min_eq_left hl]
  obtain ⟨hc, hrem, -, -⟩ := stored_fields d (data.take d.remainingLen)
  unfold feed
  rw [if_neg hne, if_neg (by omega), store_eq, htake, if_pos hr]
  simp only [forward, hrem, hl, if_true, hc, List.length_drop, resumed]

/-- `feed` on a record that holds only some of the missing bytes. -/
theorem feed_waits (p : Params) {d : Deserializer} {data : List Byte} (hne : data ≠ [])
    (hl : data.length < d.remainingLen) (hr : data.length ≤ room d) :
    d.feed p data = ⟨[], .returns false
      { stored d data with remainingLen := d.remainingLen - data.length }⟩ := by
  have hrem := (stored_fields d data).2.1
  unfold feed
  rw [if_neg hne, if_pos hl, store_eq, if_pos hr]
  simp only [hrem]

/-- `feed` on a record whose bytes do not fit where the missing ones go. -/
theorem feed_overruns (p : Params) {d : Deserializer} {data : List Byte} (hne : data ≠ [])
    (hr : ¬ min d.remainingLen data.length ≤ room d) :
    d.feed p data = ⟨[], .fault .writePastTarget⟩ := by
  unfold feed
  rw [if_neg hne]
  by_cases hl : d.remainingLen ≤ data.length
  · have htake : (data.take d.remainingLen).length = d.remainingLen := by
      rw [List.length_take, Nat.min_eq_left hl]
    rw [Nat.min_eq_left hl] at hr
    rw [if_neg (by omega), store_eq, htake, if_neg hr]
  · rw [Nat.min_eq_right (by omega)] at hr
    rw [if_pos (by omega), store_eq, if_neg hr]

/-- The ways a call of `feed` returns. -/
theorem feed_cases {p : Params} {d d' : Deserializer} {data : List Byte} {finished : Bool}
    (h : (d.feed p data).outcome = .returns finished d') :
    (data = [] ∧ d' = d) ∨
      (data.length < d.remainingLen ∧
        d' = { stored d data with remainingLen := d.remainingLen - data.length }) ∨
      (d.remainingLen ≤ data.length ∧
        (loop p (data.length - d.remainingLen + 2) (resumed d (data.take d.remainingLen))
          (data.drop d.remainingLen)).outcome = .returns finished d') := by
  by_cases hne : data = []
  · simp only [feed, hne, if_true] at h
    cases h
    exact Or.inl ⟨hne, rfl⟩
  · by_cases hr : min d.remainingLen data.length ≤ room d
    · by_cases hl : d.remainingLen ≤ data.length
      · rw [Nat.min_eq_left hl] at hr
        rw [feed_resumes p hne hl hr] at h
        exact Or.inr (Or.inr ⟨hl, h⟩)
      · rw [Nat.min_eq_right (by omega)] at hr
        rw [feed_waits p hne (by omega) hr] at h
        cases h
        exact Or.inr (Or.inl ⟨by omega, rfl⟩)
    · rw [feed_overruns p hne hr] at h
      cases h

/-- One record stays inside the buffers exactly when it is safe. -/
theorem feed_iff (p : Params) {d : Deserializer} (hs : d.parseState ≠ .readBuffer)
    (data : List Byte) : ¬ Faults (d.feed p data) ↔ Safe p d data := by
  unfold Safe
  by_cases hne : data = []
  · simp [feed, hne, Faults]
  · by_cases hr : min d.remainingLen data.length ≤ room d
    · by_cases hl : d.remainingLen ≤ data.length
      · obtain ⟨-, hs', hm'⟩ := resumed_fields d (data.take d.remainingLen)
        have hlim : (resumed d (data.take d.remainingLen)).effectiveMaxPairSize p =
            d.effectiveMaxPairSize p := by
          simp only [effectiveMaxPairSize, hm']
        have hloop := loop_stage_iff p (d := resumed d (data.take d.remainingLen))
          (by rw [hs']; exact hs) (data.length - d.remainingLen + 2)
          (data.drop d.remainingLen) (by rw [List.length_drop]; omega)
        simp only [hne, hr, hl, false_or, true_and, forall_const]
        rw [Nat.min_eq_left hl] at hr
        rw [feed_resumes p hne hl hr, hloop, hlim, stage_resumed]
      · simp only [hne, hr, hl, false_or, true_and, false_implies, iff_true]
        rw [Nat.min_eq_right (by omega)] at hr
        rw [feed_waits p hne (by omega) hr]
        simp [Faults]
    · simp only [hne, hr, false_or, false_and, iff_false, not_not, feed_overruns p hne hr]
      exact ⟨_, rfl⟩

/-! ## The counter `len` -/

theorem readKeyvalLength_counts {dest : Field} {d : Deserializer} {data : List Byte} {f : Fault}
    (h : readKeyvalLength dest d data = .error f) : f = .readPastRecord := by
  match data with
  | [] =>
    cases h
    rfl
  | b :: data =>
    by_cases hb : b.toNat < 128
    · rw [readKeyvalLength_short dest d b data hb] at h
      cases h
    · by_cases hl : data.length < 3
      · rw [readKeyvalLength_cut dest d b data (by omega) hl] at h
        cases h
      · obtain ⟨c, e, f, rest, rfl⟩ := three_cons hl
        rw [readKeyvalLength_long dest d b c e f rest (by omega)] at h
        cases h

theorem willReadBuffer_counts {p : Params} {d : Deserializer} {data : List Byte} {f : Fault}
    (h : willReadBuffer p d data = .fault f) : f = .viewPastBuffer := by
  simp only [willReadBuffer_eq] at h
  split at h
  · cases h
  · split at h
    · split at h
      · cases h
      · cases h
        rfl
    · cases h

theorem readNameLen_counts {p : Params} {d : Deserializer} {data : List Byte} {f : Fault}
    (h : readNameLen p d data = .fault f) : f ≠ .lenWraps := by
  unfold readNameLen at h
  split at h
  · rename_i g hk
    cases h
    rw [readKeyvalLength_counts hk]
    exact Fault.noConfusion
  · cases h
  · rw [willReadBuffer_counts h]
    exact Fault.noConfusion

theorem turn_counts {p : Params} {d : Deserializer} {data : List Byte} {f : Fault}
    (hs : d.parseState ≠ .readBuffer) (h : turn p d data = .fault f) : f ≠ .lenWraps := by
  unfold turn at h
  cases hst : d.parseState with
  | readNew =>
    simp only [hst, readNew] at h
    split at h
    · rename_i g hk
      cases h
      rw [readKeyvalLength_counts hk]
      exact Fault.noConfusion
    · cases h
    · exact readNameLen_counts h
  | readNameLen =>
    simp only [hst] at h
    exact readNameLen_counts h
  | readValueLen | willReadBuffer =>
    simp only [hst] at h
    rw [willReadBuffer_counts h]
    exact Fault.noConfusion
  | readBuffer => exact absurd hst hs

theorem loop_counts {p : Params} {fuel : Nat} :
    ∀ {d : Deserializer} {data : List Byte}, d.parseState ≠ .readBuffer →
      (loop p fuel d data).outcome ≠ .fault .lenWraps := by
  induction fuel with
  | zero =>
    intro d data _
    exact Outcome.noConfusion
  | succ fuel ih =>
    intro d data hs
    rw [loop]
    cases ht : turn p d data with
    | again pair d₁ rest =>
      have hs₁ : d₁.parseState ≠ .readBuffer := by
        rw [(turn_again ht).2.2.1]
        exact ParseState.noConfusion
      by_cases hr : rest = []
      · simp [hr]
      · simp only [hr, if_false, Fed.cons]
        exact ih hs₁
    | wait d₁ | throws what => exact Outcome.noConfusion
    | fault f =>
      intro h
      cases h
      exact turn_counts hs ht rfl

/-- A record never moves `len` below zero. -/
theorem feed_counts (p : Params) {d : Deserializer} (hs : d.parseState ≠ .readBuffer)
    (data : List Byte) : (d.feed p data).outcome ≠ .fault .lenWraps := by
  by_cases hne : data = []
  · simp [feed, hne]
  · by_cases hr : min d.remainingLen data.length ≤ room d
    · by_cases hl : d.remainingLen ≤ data.length
      · rw [Nat.min_eq_left hl] at hr
        rw [feed_resumes p hne hl hr]
        exact loop_counts (by rw [(resumed_fields d _).2.1]; exact hs)
      · rw [Nat.min_eq_right (by omega)] at hr
        rw [feed_waits p hne (by omega) hr]
        exact Outcome.noConfusion
    · rw [feed_overruns p hne hr]
      simp

/-! ## A run -/

theorem willReadBuffer_wait {p : Params} {d d' : Deserializer} {data : List Byte}
    (h : willReadBuffer p d data = .wait d') : d'.parseState = d.parseState := by
  simp only [willReadBuffer_eq] at h
  split at h
  · cases h
  · split at h
    · split at h <;> cases h
    · cases h
      rfl

theorem readNameLen_wait {p : Params} {d d' : Deserializer} {data : List Byte}
    (h : readNameLen p d data = .wait d') :
    d'.parseState = d.parseState ∨ d'.parseState = .readValueLen := by
  unfold readNameLen at h
  split at h
  · cases h
  · cases h
    exact Or.inr rfl
  · rename_i d₁ data₁ hk
    exact Or.inl ((willReadBuffer_wait h).trans (readKeyvalLength_false hk).2.1)

/-- The parser never waits in the state `READ_BUFFER`. -/
theorem turn_wait {p : Params} {d d' : Deserializer} {data : List Byte}
    (hs : d.parseState ≠ .readBuffer) (h : turn p d data = .wait d') :
    d'.parseState ≠ .readBuffer := by
  unfold turn at h
  cases hst : d.parseState with
  | readNew =>
    simp only [hst, readNew] at h
    split at h
    · cases h
    · cases h
      exact ParseState.noConfusion
    · rename_i d₁ data₁ hk
      have hs₁ := (readKeyvalLength_false hk).2.1
      rcases readNameLen_wait h with h | h
      · rw [h, hs₁]
        exact hs
      · rw [h]
        exact ParseState.noConfusion
  | readNameLen =>
    simp only [hst] at h
    rcases readNameLen_wait h with h | h
    · rw [h]
      exact hs
    · rw [h]
      exact ParseState.noConfusion
  | readValueLen | willReadBuffer =>
    simp only [hst] at h
    rw [willReadBuffer_wait h]
    exact hs
  | readBuffer => exact absurd hst hs

theorem loop_state {p : Params} {fuel : Nat} :
    ∀ {d d' : Deserializer} {data : List Byte} {b : Bool}, d.parseState ≠ .readBuffer →
      (loop p fuel d data).outcome = .returns b d' → d'.parseState ≠ .readBuffer := by
  have hagain : ∀ {d d' : Deserializer} {data rest : List Byte} {pair : Pair},
      turn p d data = .again pair d' rest → d'.parseState ≠ .readBuffer := by
    intro d d' data rest pair ht
    rw [(turn_again ht).2.2.1]
    exact ParseState.noConfusion
  induction fuel with
  | zero =>
    intro d d' data b hs h
    cases h
    exact hs
  | succ fuel ih =>
    intro d d' data b hs h
    rcases loop_cases h with ⟨-, pair, ht⟩ | ⟨pair, d₁, rest, ht, -, hrest⟩ | ⟨-, ht⟩
    · exact hagain ht
    · exact ih (hagain ht) hrest
    · exact turn_wait hs ht

theorem feed_state {p : Params} {d d' : Deserializer} {data : List Byte} {b : Bool}
    (hs : d.parseState ≠ .readBuffer) (h : (d.feed p data).outcome = .returns b d') :
    d'.parseState ≠ .readBuffer := by
  rcases feed_cases h with ⟨-, rfl⟩ | ⟨-, rfl⟩ | ⟨-, hloop⟩
  · exact hs
  · exact fun e => hs ((stored_fields d data).2.2.1.symm.trans e)
  · exact loop_state (by rw [(resumed_fields d _).2.1]; exact hs) hloop

theorem feedAll_iff (p : Params) (records : List (List Byte)) :
    ∀ d : Deserializer, d.parseState ≠ .readBuffer →
      (¬ Faults (feedAll p d records) ↔
        ∀ pre data post, records = pre ++ data :: post → ∀ b d',
          (feedAll p d pre).outcome = .returns b d' → Safe p d' data) := by
  induction records with
  | nil =>
    intro d _
    simp [feedAll, Faults]
  | cons data records ih =>
    intro d hs
    -- the record itself, then the rest from the state it leaves
    have hfirst := feed_iff p hs data
    constructor
    · intro hn pre data' post hsplit b d' hrun
      cases pre with
      | nil =>
        simp only [List.nil_append, List.cons.injEq] at hsplit
        obtain ⟨rfl, rfl⟩ := hsplit
        cases hrun
        exact hfirst.mp fun hf => hn (feedAll_faults hf _)
      | cons data₀ pre =>
        simp only [List.cons_append, List.cons.injEq] at hsplit
        obtain ⟨rfl, rfl⟩ := hsplit
        cases hr : d.feed p data with
        | mk calls o =>
          cases o with
          | returns b₁ d₁ =>
            rw [feedAll_returns hr] at hrun hn
            have hs₁ : d₁.parseState ≠ .readBuffer := feed_state hs (by rw [hr])
            exact (ih d₁ hs₁).mp hn pre data' post rfl b d' hrun
          | throws what | fault f => simp [feedAll, hr] at hrun
    · intro hall
      have hsafe := hall [] data records rfl false d rfl
      cases hr : d.feed p data with
      | mk calls o =>
        cases o with
        | returns b₁ d₁ =>
          have hs₁ : d₁.parseState ≠ .readBuffer := feed_state hs (by rw [hr])
          rw [feedAll_returns hr, faults_prepend]
          refine (ih d₁ hs₁).mpr fun pre data' post hsplit b d' hrun => ?_
          refine hall (data :: pre) data' post (by rw [hsplit]; rfl) b d' ?_
          rw [feedAll_returns hr]
          exact hrun
        | throws what => simp [feedAll, hr, Faults]
        | fault f =>
          refine absurd ⟨f, ?_⟩ (hfirst.mpr hsafe)
          rw [hr]

/-- **Bounds.** A new parser stays inside the records and its own buffers exactly
when each record is safe for the state that the records before it left. -/
theorem inBounds_iff (p : Params) (m : Nat) (n v : U32) (records : List (List Byte)) :
    ¬ Faults (feedAll p (fresh m n v) records) ↔
      ∀ pre data post, records = pre ++ data :: post → ∀ b d,
        (feedAll p (fresh m n v) pre).outcome = .returns b d → Safe p d data :=
  feedAll_iff p records (fresh m n v) ParseState.noConfusion

/-- A record that ends behind a one-byte length. -/
theorem inBounds_lengthByte :
    Faults (feedAll .standard (fresh 0 ⟨0, 0, 0, 0⟩ ⟨0, 0, 0, 0⟩) [[1]]) :=
  ⟨.readPastRecord, by decide +kernel⟩

end Tfcgi.NvpBounds
