import Tfcgi.NvpLimit

/-!
# Cutting a name-value stream into records

`Cut w c` says that the records `c` are a cut of the stream `w`. The parser
forgets a pair whose name and value are split once its bytes are complete, so
its calls depend on the cut: `kept` lists the pairs of the stream that no record
ends inside of.

* `holds_calls`, `clean_runs`: on clean records `new_key` gets the kept pairs up
  to the first one over the limit;
* `throws_iff`: whether they throw is a matter of the stream;
* `chunking_iff`: two clean cuts agree exactly when they keep the same pairs.
-/

namespace Tfcgi.NvpChunking

open Tfcgi.HostOrder Tfcgi.Protocol Tfcgi.NameValuePairs Tfcgi.NvpGrammar Tfcgi.NvpRuns
open Tfcgi.NvpBounds Tfcgi.NvpLimit
open Tfcgi.NameValuePairs.Deserializer

/-- The records `c` laid end to end are `w`. -/
def Cut (w : List Byte) (c : List (List Byte)) : Prop :=
  c.flatten = w ∧ ∀ r ∈ c, r ≠ [] ∧ r.length ≤ 65535

/-- Both runs are defined, with the same `new_key` calls and the same outcome. -/
structure Agree (a b : Fed) : Prop where
  left : ¬ Faults a
  right : ¬ Faults b
  calls : a.calls = b.calls
  throws : Throws a ↔ Throws b

/-! ## The pairs of a stream and of a cut -/

/-- The pair read from `s` on, and what follows it. -/
def decodeFrom : Stage → List Byte → Option (Pair × List Byte)
  | .name, w => decodeEntry w
  | .value n, w => do
    let (v, w) ← decodeLength w
    if n + v ≤ w.length then some ((w.take n, (w.drop n).take v), w.drop (n + v)) else none
  | .pair n v, w =>
    if n + v ≤ w.length then some ((w.take n, (w.drop n).take v), w.drop (n + v)) else none

def pairsAux : Nat → List Byte → List (Pair × Nat)
  | 0, _ => []
  | fuel + 1, w =>
    match decodeEntry w with
    | none => []
    | some (pair, w) => (pair, w.length) :: pairsAux fuel w

/-- The whole pairs of the stream `w`, each with the number of bytes behind it. -/
def streamPairs (w : List Byte) : List (Pair × Nat) := pairsAux w.length w

/-- The same from the middle of a pair on. -/
def stagePairs (s : Stage) (w : List Byte) : List (Pair × Nat) :=
  match decodeFrom s w with
  | none => []
  | some (pair, w) => (pair, w.length) :: streamPairs w

/-- Where the records end: the number of bytes behind each. -/
def ends : List (List Byte) → List Nat
  | [] => []
  | _ :: c => c.flatten.length :: ends c

/-- A record ends before the last byte of the name and the value, or right before the first. -/
def split (marks : List Nat) (e : Pair × Nat) : Bool :=
  marks.any fun x => e.2 < x && x ≤ e.2 + (e.1.1.length + e.1.2.length)

/-- The pairs before the first one over the limit that are not split. -/
def keep (lim : Nat) (marks : List Nat) (es : List (Pair × Nat)) : List Pair :=
  ((es.takeWhile fun e => within lim e.1).filter fun e => !split marks e).map Prod.fst

/-- The pairs of a cut that lie in one record each, before the first one over the limit. -/
def kept (lim : Nat) (c : List (List Byte)) : List Pair :=
  keep lim (ends c) (streamPairs c.flatten)

theorem keep_cons (lim : Nat) (marks : List Nat) (e : Pair × Nat) (es : List (Pair × Nat)) :
    keep lim marks (e :: es) =
      if within lim e.1 then
        if split marks e then keep lim marks es else e.1 :: keep lim marks es
      else [] := by
  unfold keep
  by_cases hw : within lim e.1 = true
  · by_cases hs : split marks e = true
    · simp [hw, hs]
    · simp [hw, hs]
  · simp [hw]

theorem decodeEntry_shorter {w w' : List Byte} {pair : Pair}
    (h : decodeEntry w = some (pair, w')) : w'.length < w.length := by
  simp only [decodeEntry, Option.bind_eq_bind, Option.bind_eq_some_iff] at h
  obtain ⟨⟨n, w₁⟩, h₁, ⟨v, w₂⟩, h₂, h⟩ := h
  have hl₁ := decodeLength_shorter h₁
  have hl₂ := decodeLength_shorter h₂
  simp only at hl₁ hl₂ h
  split at h
  · cases h
    simp only [List.length_drop]
    omega
  · cases h

theorem pairsAux_stable (fuel : Nat) :
    ∀ w : List Byte, w.length ≤ fuel → pairsAux (fuel + 1) w = pairsAux fuel w := by
  induction fuel with
  | zero =>
    intro w hw
    rw [List.length_eq_zero_iff.mp (Nat.le_zero.mp hw)]
    rfl
  | succ fuel ih =>
    intro w hw
    rw [pairsAux, pairsAux]
    cases hd : decodeEntry w with
    | none => rfl
    | some r =>
      have hl := decodeEntry_shorter hd
      simp only [ih r.2 (by omega)]

theorem pairsAux_enough {fuel : Nat} {w : List Byte} (h : w.length ≤ fuel) :
    pairsAux fuel w = streamPairs w := by
  obtain ⟨k, rfl⟩ : ∃ k, fuel = w.length + k := ⟨fuel - w.length, by omega⟩
  induction k with
  | zero => rfl
  | succ k ih => rw [← Nat.add_assoc, pairsAux_stable _ w (by omega), ih (by omega)]

theorem stagePairs_name (w : List Byte) : stagePairs .name w = streamPairs w := by
  have hs : streamPairs w = pairsAux (w.length + 1) w := (pairsAux_enough (by omega)).symm
  rw [hs, pairsAux, stagePairs, decodeFrom]
  cases hd : decodeEntry w with
  | none => rfl
  | some r =>
    have hl := decodeEntry_shorter hd
    simp only [pairsAux_enough (show r.2.length ≤ w.length by omega)]

/-- A length in front of the stream is the one that the stage reads. -/
theorem stagePairs_length {s : Stage} (hs : s.IsLength) {l w : List Byte} {n : Nat}
    (hn : decodeLength (l ++ w) = some (n, w)) :
    stagePairs s (l ++ w) = stagePairs (s.read n) w := by
  have hd : decodeFrom s (l ++ w) = decodeFrom (s.read n) w := by
    cases s with
    | name => simp [decodeFrom, Stage.read, decodeEntry, hn]
    | value m => simp [decodeFrom, Stage.read, hn]
    | pair n v => exact hs.elim
  rw [stagePairs, stagePairs, hd]

theorem stagePairs_pair (n v : Nat) (w : List Byte) :
    stagePairs (.pair n v) w =
      if n + v ≤ w.length then
        ((w.take n, (w.drop n).take v), w.length - (n + v)) :: streamPairs (w.drop (n + v))
      else [] := by
  rw [stagePairs, decodeFrom]
  split_ifs <;> simp

theorem ends_le (c : List (List Byte)) : ∀ x ∈ ends c, x ≤ c.flatten.length := by
  induction c with
  | nil => simp [ends]
  | cons r c ih =>
    intro x hx
    rw [List.flatten_cons, List.length_append]
    rcases List.mem_cons.mp hx with rfl | hx
    · omega
    · exact Nat.le_trans (ih x hx) (Nat.le_add_left ..)

/-! ## The calls of a record -/

/-- The calls of a pass and of those behind it. -/
def finishCalls (p : Params) (fuel : Nat) : Turn → List Pair
  | .again pair d data => if data = [] then [pair] else pair :: (loop p fuel d data).calls
  | _ => []

theorem loop_calls (p : Params) (fuel : Nat) (d : Deserializer) (data : List Byte) :
    (loop p (fuel + 1) d data).calls = finishCalls p fuel (turn p d data) := by
  rw [loop]
  cases turn p d data with
  | again pair d' rest =>
    by_cases hr : rest = []
    · simp [finishCalls, hr]
    · simp [finishCalls, hr, Fed.cons]
  | wait d' | throws what | fault f => rfl

/-- The pairs that are left of the stream when `w` follows the record. -/
def restPairs (w : List Byte) : Pending → List (Pair × Nat)
  | .none | .stale => streamPairs w
  | .length s bytes => stagePairs s (bytes ++ w)
  | .content m | .lost m => streamPairs (w.drop m)
  | .thrown => []

/-- The record that ended with `x` bytes behind it ended before the content of the pair that
is read next, when `left` bytes of the stream are left. -/
def Before : Stage → Nat → Nat → Prop
  | .pair _ _, left, x => left < x
  | _, left, x => left ≤ x

/-- The marks, seen from inside a record that has `behind` bytes of the stream behind it. -/
structure Marked (marks : List Nat) (s : Stage) (left behind : Nat) : Prop where
  own : behind ∈ marks
  others : ∀ x ∈ marks, x ≤ behind ∨ Before s left x

theorem Marked.mono {marks : List Nat} {s s' : Stage} {left left' behind : Nat}
    (h : Marked marks s left behind) (hs : ∀ x, Before s left x → Before s' left' x) :
    Marked marks s' left' behind := ⟨h.own, fun x hx => (h.others x hx).imp_right (hs x)⟩

theorem before_read {s : Stage} {n left x : Nat} (hs : s.IsLength) (h : Before s (left + 1) x) :
    Before (s.read n) left x := by
  cases s with
  | name => exact Nat.le_of_succ_le h
  | value m => exact h
  | pair n v => exact hs.elim

theorem pair_lengths {n v : Nat} {w : List Byte} (h : n + v ≤ w.length) :
    (w.take n).length = n ∧ ((w.drop n).take v).length = v := by
  simp only [List.length_take, List.length_drop]
  omega

theorem pair_append {n v : Nat} {data : List Byte} (h : n + v ≤ data.length) (w : List Byte) :
    ((data ++ w).take n, ((data ++ w).drop n).take v) = (data.take n, (data.drop n).take v) := by
  rw [List.take_append_of_le_length (by omega), List.drop_append_of_le_length (by omega),
    List.take_append_of_le_length (by rw [List.length_drop]; omega)]

theorem keep_over {lim n v : Nat} (hlt : lim < n + v) (marks : List Nat) (w : List Byte) :
    keep lim marks (stagePairs (.pair n v) w) = [] := by
  rw [stagePairs_pair]
  split_ifs with hw
  · obtain ⟨hn, hv⟩ := pair_lengths hw
    have hover : within lim (w.take n, (w.drop n).take v) = false := by
      simp only [within, hn, hv, decide_eq_false_iff_not]
      omega
    rw [keep_cons, hover]
    rfl
  · rfl

/-- A pair within the limit with a record's end in it. -/
theorem keep_split {lim n v : Nat} {marks : List Nat} {w : List Byte} {x : Nat} (hle : n + v ≤ lim)
    (hx : x ∈ marks) (hlo : w.length < x + (n + v)) (hhi : x ≤ w.length) :
    keep lim marks (stagePairs (.pair n v) w) =
      keep lim marks (streamPairs (w.drop (n + v))) := by
  rw [stagePairs_pair]
  split_ifs with hw
  · obtain ⟨hn, hv⟩ := pair_lengths hw
    have hwithin : within lim (w.take n, (w.drop n).take v) = true := by
      simp only [within, hn, hv, decide_eq_true_eq]
      omega
    have hsplit : split marks ((w.take n, (w.drop n).take v), w.length - (n + v)) = true := by
      rw [split, List.any_eq_true]
      refine ⟨x, hx, ?_⟩
      simp only [hn, hv, Bool.and_eq_true, decide_eq_true_eq]
      omega
    rw [keep_cons, hwithin, hsplit]
    rfl
  · rw [List.drop_eq_nil_of_le (by omega)]
    rfl

/-- A pair within the limit that ends in the record. -/
theorem keep_whole {lim n v behind : Nat} {marks : List Nat} {w : List Byte} (hle : n + v ≤ lim)
    (h : Marked marks (.pair n v) w.length behind) (hw : behind + (n + v) ≤ w.length) :
    keep lim marks (stagePairs (.pair n v) w) =
      (w.take n, (w.drop n).take v) :: keep lim marks (streamPairs (w.drop (n + v))) := by
  obtain ⟨hn, hv⟩ := pair_lengths (show n + v ≤ w.length by omega)
  have hwithin : within lim (w.take n, (w.drop n).take v) = true := by
    simp only [within, hn, hv, decide_eq_true_eq]
    omega
  have hsplit : split marks ((w.take n, (w.drop n).take v), w.length - (n + v)) = false := by
    rw [split, List.any_eq_false]
    intro x hx
    simp only [hn, hv, Bool.and_eq_true, decide_eq_true_eq, not_and]
    intro hlt
    rcases h.others x hx with hle' | hlt'
    · omega
    · simp only [Before] at hlt'
      omega
  rw [stagePairs_pair, if_pos (by omega), keep_cons, hwithin, hsplit]
  rfl

/-- What one pass and those behind it hand to `new_key`. -/
theorem holds_calls {p : Params} {lim : Nat} {begun torn : Bool} {s : Stage} {data : List Byte}
    {q : Pending} (h : Holds lim begun torn s data q) (w : List Byte) (marks : List Nat) :
    ∀ (d : Deserializer) (fuel : Nat), Stands d s → d.effectiveMaxPairSize p = lim →
      Enough fuel data s → Marked marks s (data.length + w.length) w.length →
      keep lim marks (stagePairs s (data ++ w)) =
        finishCalls p fuel (turnFrom s p d data) ++ keep lim marks (restPairs w q) := by
  induction h with
  | @short torn s b data q hs hb hr ih =>
    intro d fuel hd hm hf hmarks
    obtain ⟨d', hsame, hd', ht, -⟩ := turnFrom_short (p := p) hs hd hb data
    have hn : decodeLength ([b] ++ (data ++ w)) = some (b.toNat, data ++ w) := by
      simp [decodeLength, hb]
    have hpairs : stagePairs s (b :: data ++ w) = stagePairs (s.read b.toNat) (data ++ w) :=
      stagePairs_length hs hn
    have hf' : Enough fuel data (s.read b.toNat) := by
      cases s with
      | name | value n => simp only [Enough, Stage.read, List.length_cons] at hf ⊢; omega
      | pair n v => exact hs.elim
    rw [ht, hpairs]
    refine ih d' fuel hd' (by rw [hsame.effectiveMaxPairSize, hm]) hf' (hmarks.mono ?_)
    intro x hx
    rw [List.length_cons, Nat.add_right_comm] at hx
    exact before_read hs hx
  | @cut torn s b data hs hb hl =>
    intro d fuel hd hm hf hmarks
    obtain ⟨d', ht, -, -, -⟩ := turnFrom_cut (p := p) hs hd hb hl
    rw [ht]
    rfl
  | @exceeds torn n v data hlt =>
    intro d fuel hd hm hf hmarks
    have ht := willReadBuffer_stands p hd data
    rw [hm, if_pos hlt] at ht
    rw [keep_over hlt, turnFrom, ht]
    rfl
  | @split torn n v data hle hlt =>
    intro d fuel hd hm hf hmarks
    have ht := willReadBuffer_stands p hd data
    rw [hm, if_neg (by omega), if_neg (by omega)] at ht
    have hdrop : (data ++ w).drop (n + v) = w.drop (n + v - data.length) := by
      rw [List.drop_append, List.drop_eq_nil_of_le (by omega), List.nil_append]
    have hrest : restPairs w (if torn then .lost (n + v - data.length)
        else .content (n + v - data.length)) = streamPairs ((data ++ w).drop (n + v)) := by
      rw [hdrop]
      cases torn <;> rfl
    have hlen : (data ++ w).length = data.length + w.length := List.length_append
    rw [keep_split (w := data ++ w) hle hmarks.own (by omega) (by omega), hrest, turnFrom, ht]
    rfl
  | @last torn n v data hle he =>
    intro d fuel hd hm hf hmarks
    have ht := willReadBuffer_stands p hd data
    rw [hm, if_neg (by omega), if_pos (by omega)] at ht
    have hrest : restPairs w (if begun then .stale else .none) =
        streamPairs ((data ++ w).drop (n + v)) := by
      rw [← he, List.drop_left]
      cases begun <;> rfl
    have hlen : (data ++ w).length = data.length + w.length := List.length_append
    have hnil : data.drop (n + v) = [] := List.drop_eq_nil_of_le (by omega)
    rw [keep_whole (w := data ++ w) hle (hlen ▸ hmarks) (by omega), hrest, turnFrom, ht,
      pair_append (show n + v ≤ data.length by omega), finishCalls, if_pos hnil]
    rfl
  | @next torn n v data q hle hlt hr ih =>
    intro d fuel hd hm hf hmarks
    have ht := willReadBuffer_stands p hd data
    rw [hm, if_neg (by omega), if_pos (by omega)] at ht
    have hlen : (data ++ w).length = data.length + w.length := List.length_append
    have hne : data.drop (n + v) ≠ [] := by
      intro h
      have := congrArg List.length h
      simp only [List.length_drop, List.length_nil] at this
      omega
    have hdrop : (data ++ w).drop (n + v) = data.drop (n + v) ++ w :=
      List.drop_append_of_le_length (by omega)
    obtain ⟨k, rfl⟩ : ∃ k, fuel = k + 1 := ⟨fuel - 1, by simp only [Enough] at hf; omega⟩
    have hk : Enough k (data.drop (n + v)) .name := by
      simp only [Enough, List.length_drop] at hf ⊢
      omega
    rw [keep_whole (w := data ++ w) hle (hlen ▸ hmarks) (by omega), turnFrom, ht,
      pair_append (show n + v ≤ data.length by omega), finishCalls, if_neg hne, hdrop,
      ← stagePairs_name, List.cons_append, loop_calls]
    generalize hd₁ : ({ d.ntohlLengths p with
      parseState := .readNew
      currentBuffer := ⟨d.currentBuffer.target, d.currentBuffer.offset + (n + v)⟩ } :
        Deserializer) = d₁
    have hs₁ : d₁.parseState = .readNew := by rw [← hd₁]
    have hrest := ih d₁ k hs₁ (by rw [← hd₁]; exact hm) hk (hmarks.mono ?_)
    · rw [hrest, (turn_name (p := p) hs₁ (data.drop (n + v))).1]
    · intro x hx
      simp only [Before, List.length_drop] at hx ⊢
      omega

/-- The calls of a record that holds the missing bytes `a` and then is read from `s` on. -/
theorem feed_calls {p : Params} {lim : Nat} {begun torn : Bool} {s : Stage} {a data : List Byte}
    {q : Pending} (h : Holds lim begun torn s data q) {d : Deserializer} (hne : a ++ data ≠ [])
    (ha : d.remainingLen = a.length) (hroom : a.length ≤ room d)
    (hm : d.effectiveMaxPairSize p = lim) (hs : Stands (resumed d a) s)
    (hat : ResumesAt p (resumed d a) s) {w : List Byte} {marks : List Nat}
    (hmarks : Marked marks s (data.length + w.length) w.length) :
    keep lim marks (stagePairs s (data ++ w)) =
      (d.feed p (a ++ data)).calls ++ keep lim marks (restPairs w q) := by
  have hl : d.remainingLen ≤ (a ++ data).length := by
    rw [ha, List.length_append]
    omega
  have htake : (a ++ data).take d.remainingLen = a := by rw [ha, List.take_left]
  have hdrop : (a ++ data).drop d.remainingLen = data := by rw [ha, List.drop_left]
  have hfuel : (a ++ data).length - d.remainingLen + 2 = data.length + 1 + 1 := by
    rw [ha, List.length_append]
    omega
  rw [feed_resumes p hne hl (by omega), htake, hdrop, hfuel, loop_calls, (hat data).1]
  refine holds_calls h w marks (resumed d a) (data.length + 1) hs ?_ ?_ hmarks
  · rw [← hm]
    simp only [effectiveMaxPairSize, (resumed_fields d a).2.2]
  · cases s <;> simp only [Enough] <;> omega

/-! ## The calls of a run -/

/-- The marks, seen from the start of the next record. -/
structure Marks (marks : List Nat) (records : List (List Byte)) : Prop where
  own : ∀ x ∈ ends records, x ∈ marks
  others : ∀ x ∈ marks, x ∈ ends records ∨ records.flatten.length ≤ x

theorem ends_marks (c : List (List Byte)) : Marks (ends c) c :=
  ⟨fun _ hx => hx, fun _ hx => Or.inl hx⟩

theorem Marks.tail {marks : List Nat} {data : List Byte} {records : List (List Byte)}
    (h : Marks marks (data :: records)) : Marks marks records where
  own := fun x hx => h.own x (List.mem_cons_of_mem _ hx)
  others := by
    intro x hx
    rcases h.others x hx with hx | hx
    · rcases List.mem_cons.mp hx with rfl | hx
      · exact Or.inr (Nat.le_refl _)
      · exact Or.inl hx
    · rw [List.flatten_cons, List.length_append] at hx
      exact Or.inr (by omega)

theorem Marks.marked {marks : List Nat} {a data : List Byte} {records : List (List Byte)}
    (h : Marks marks ((a ++ data) :: records)) {s : Stage} (hs : s.IsLength ∨ 0 < a.length) :
    Marked marks s (data.length + records.flatten.length) records.flatten.length where
  own := h.own _ List.mem_cons_self
  others := by
    intro x hx
    rcases h.others x hx with hx | hx
    · rcases List.mem_cons.mp hx with rfl | hx
      · exact Or.inl (Nat.le_refl _)
      · exact Or.inl (ends_le records x hx)
    · rw [List.flatten_cons, List.length_append, List.length_append] at hx
      refine Or.inr ?_
      cases s with
      | name | value n => simp only [Before]; omega
      | pair n v =>
        have ha := hs.resolve_left id
        simp only [Before]
        omega

/-- A record and the run behind it. -/
theorem runs_follows {p : Params} {lim : Nat} {w : List Byte} {q : Pending} {checks : List Check}
    {stream : List Nat} {d : Deserializer} {data : List Byte} {records : List (List Byte)}
    {marks : List Nat} {pairs : List Pair}
    (hf : Follows p lim w q checks (d.feed p data).outcome stream)
    (hc : pairs = (d.feed p data).calls ++ keep lim marks (restPairs w q))
    (hrest : ∀ d', Waits d' q → d'.effectiveMaxPairSize p = lim →
      ¬ Faults (feedAll p d' records) ∧
        (feedAll p d' records).calls = keep lim marks (restPairs w q)) :
    ¬ Faults (feedAll p d (data :: records)) ∧ (feedAll p d (data :: records)).calls = pairs := by
  obtain ⟨first, rest, -, -, ⟨rfl, -, what, ho⟩ | ⟨d', ho, hm, hw, -⟩⟩ := hf
  · rw [feedAll_throws ⟨what, ho⟩, hc]
    refine ⟨?_, (List.append_nil _).symm⟩
    rintro ⟨f, hf⟩
    rw [ho] at hf
    cases hf
  · obtain ⟨hnf, hcalls⟩ := hrest d' hw hm
    have hfeed : d.feed p data = ⟨(d.feed p data).calls, .returns false d'⟩ := by rw [← ho]
    rw [feedAll_returns hfeed, faults_prepend, hc, ← hcalls]
    exact ⟨hnf, rfl⟩

/-- Nothing is kept of a stream that ends before the next pair is whole. -/
theorem restPairs_short {d : Deserializer} {q : Pending} {w : List Byte} (hw : Waits d q)
    (hl : w = [] ∨ w.length < q.missing) : restPairs w q = [] := by
  cases q with
  | none | stale =>
    rw [restPairs, hl.resolve_right (Nat.not_lt_zero _)]
    rfl
  | length s bytes =>
    have hshort := waits_short hw hl
    rw [restPairs, stagePairs]
    cases s with
    | name | value n => simp [decodeFrom, decodeEntry, hshort]
    | pair n v => exact hw.2.2.2.elim
  | content m | lost m =>
    rw [restPairs, show w.drop m = [] from drop_missing hl]
    rfl
  | thrown => rfl

/-- On clean records `new_key` gets the pairs that are kept. -/
theorem clean_runs {p : Params} {lim : Nat} {q : Pending} {records : List (List Byte)}
    (h : Clean lim q records) {marks : List Nat} :
    ∀ d : Deserializer, Waits d q → d.effectiveMaxPairSize p = lim → Marks marks records →
      ¬ Faults (feedAll p d records) ∧
        (feedAll p d records).calls = keep lim marks (restPairs records.flatten q) := by
  induction h with
  | done =>
    intro d hw _ _
    rw [List.flatten_nil, restPairs_short hw (Or.inl rfl)]
    exact ⟨by simp [feedAll, Faults], rfl⟩
  | @idle q records hlt =>
    intro d hw _ _
    obtain ⟨hrem, hroom⟩ := waits_missing hw (Nat.zero_lt_of_lt hlt)
    obtain ⟨-, d', b, hrun⟩ := idle_run p records d (by omega) hroom
    rw [hrun, restPairs_short hw (Or.inr hlt)]
    exact ⟨by simp [Faults], rfl⟩
  | @skip q records h ih =>
    intro d hw hm hmarks
    have hf : d.feed p [] = ⟨[], .returns true d⟩ := by simp [Deserializer.feed]
    rw [feedAll_returns hf]
    exact ih d hw hm hmarks.tail
  | thrown =>
    intro d hw _ _
    exact hw.elim
  | @start data q records hd h ih =>
    rintro d ⟨hs, hrem⟩ hm hmarks
    have hne := holds_name_ne_nil hd
    have hrs : (resumed d []).parseState = .readNew := (resumed_fields d []).2.1.trans hs
    have hfollows := feed_holds (p := p) (a := []) hd hne hrem (Nat.zero_le _) hm hrs
      (resumesAt_name hrs) (fun _ => rfl) (fun _ => hs) records.flatten
    have hcalls := feed_calls (p := p) (a := []) hd hne hrem (Nat.zero_le _) hm hrs
      (resumesAt_name hrs) (Marks.marked (a := []) hmarks (Or.inl trivial))
    rw [stagePairs_name] at hcalls
    exact runs_follows hfollows hcalls fun d' hw' hm' => ih d' hw' hm' hmarks.tail
  | @more m data records hlt h ih =>
    intro d hw hm hmarks
    obtain ⟨-, d', b, hf, hm', hw'⟩ := feed_more p hw hlt
    have hdrop : ((data :: records).flatten).drop m =
        records.flatten.drop (m - data.length) := by
      rw [List.flatten_cons, List.drop_append, List.drop_eq_nil_of_le (by omega), List.nil_append]
    rw [feedAll_returns hf, restPairs, hdrop]
    refine ih d' hw' ?_ hmarks.tail
    rw [← hm]
    simp only [effectiveMaxPairSize, hm']
  | @content a data q records hd h ih =>
    rintro d ⟨hs, hrem, hpos, hroom⟩ hm hmarks
    have hne : a ++ data ≠ [] := by
      intro h
      exact holds_name_ne_nil hd (List.append_eq_nil_iff.mp h).2
    have hrs : (resumed d a).parseState = .readNew := (resumed_fields d a).2.1.trans hs
    have hfollows := feed_holds (p := p) hd hne hrem hroom hm hrs (resumesAt_name hrs)
      Bool.noConfusion (fun _ => hs) records.flatten
    have hcalls := feed_calls (p := p) hd hne hrem hroom hm hrs (resumesAt_name hrs)
      (hmarks.marked (Or.inr hpos))
    have hdrop : ((a ++ data) :: records).flatten.drop a.length = data ++ records.flatten := by
      rw [List.flatten_cons, List.append_assoc, List.drop_left]
    rw [stagePairs_name] at hcalls
    rw [restPairs, hdrop]
    exact runs_follows hfollows hcalls fun d' hw' hm' => ih d' hw' hm' hmarks.tail
  | @length s bytes a data n q records hn hd h ih =>
    intro d hw hm hmarks
    obtain ⟨hlen, hpos, hb, -⟩ := id hw
    have ha : d.remainingLen = a.length := by
      have hfour := torn_length hb hn
      rw [List.length_append] at hfour
      omega
    have hne : a ++ data ≠ [] := by
      intro h
      have hz := congrArg List.length h
      rw [List.length_append, List.length_nil] at hz
      omega
    have hfull := decodeLength_append hn (data ++ records.flatten)
    have hpairs : s.IsLength → restPairs ((a ++ data) :: records).flatten (.length s bytes) =
        stagePairs (s.read n) (data ++ records.flatten) := by
      intro hs
      rw [restPairs, List.flatten_cons, List.append_assoc, ← List.append_assoc]
      exact stagePairs_length hs hfull
    have hfinish : ∀ s', Stands (resumed d a) s' → ResumesAt p (resumed d a) s' →
        Holds lim true true s' data q →
        restPairs ((a ++ data) :: records).flatten (.length s bytes) =
          stagePairs s' (data ++ records.flatten) →
        a.length ≤ room d →
        ¬ Faults (feedAll p d ((a ++ data) :: records)) ∧
          (feedAll p d ((a ++ data) :: records)).calls =
            keep lim marks (restPairs ((a ++ data) :: records).flatten (.length s bytes)) := by
      intro s' hs hat hd' hst hroom
      have hfollows := feed_holds (p := p) hd' hne ha hroom hm hs hat Bool.noConfusion
        Bool.noConfusion records.flatten
      have hcalls := feed_calls (p := p) hd' hne ha hroom hm hs hat
        (hmarks.marked (Or.inr (by omega)))
      rw [hst]
      exact runs_follows hfollows hcalls fun d' hw' hm' => ih d' hw' hm' hmarks.tail
    cases s with
    | name =>
      obtain ⟨hs, hst, hroom⟩ := resumed_torn_name hw hn ha
      exact hfinish (.value n) hs (resumesAt_value hst n) hd (hpairs trivial) hroom
    | value m =>
      obtain ⟨hs, hst, hroom⟩ := resumed_torn_value hw hn ha
      exact hfinish (.pair m n) hs (resumesAt_pair hst m n) hd (hpairs trivial) hroom
    | pair m v => exact hw.2.2.2.elim

/-! ## Two cuts of a stream -/

theorem forall₂_throws {lim : Nat} {checks : List Check} {sizes : List Nat}
    (h : List.Forall₂ (fun c size => c = Check.throws ↔ lim < size) checks sizes) :
    Check.throws ∈ checks ↔ ∃ size ∈ sizes, lim < size := by
  induction h with
  | nil => simp
  | cons hc _ ih =>
    simp only [List.mem_cons, exists_eq_or_imp, ← ih, ← hc]
    exact or_congr_left eq_comm

/-- Clean records throw exactly when the stream has the lengths of a pair over the limit. -/
theorem throws_iff {p : Params} {lim : Nat} {records : List (List Byte)}
    (h : Clean lim .none records) {d : Deserializer} (hd : d.Ready)
    (hm : d.effectiveMaxPairSize p = lim) :
    Throws (feedAll p d records) ↔ ∃ size ∈ streamSizes records.flatten, lim < size := by
  have hstate : d.parseState ≠ .readBuffer := by
    rw [hd.1]
    exact ParseState.noConfusion
  rw [← (feedAll_accounts p records d hstate).throws]
  obtain ⟨first, rest, hs, hf, hend⟩ := clean_follows h d _ hd hm rfl
  rw [forall₂_throws hf, hs]
  constructor
  · rintro ⟨size, hsize, hlt⟩
    exact ⟨size, List.mem_append_left rest hsize, hlt⟩
  · rintro ⟨size, hsize, hlt⟩
    rcases hend with ht | rfl
    · exact (forall₂_throws hf).mp ht
    · rw [List.append_nil] at hsize
      exact ⟨size, hsize, hlt⟩

/-- **Chunking.** Two clean cuts of a stream agree exactly when they keep the same pairs. -/
theorem chunking_iff (p : Params) (m : Nat) (n v n' v' : U32) {w : List Byte}
    {c c' : List (List Byte)} (hc : Cut w c) (hc' : Cut w c')
    (h : Clean ((fresh m n v).effectiveMaxPairSize p) .none c)
    (h' : Clean ((fresh m n v).effectiveMaxPairSize p) .none c') :
    Agree (feedAll p (fresh m n v) c) (feedAll p (fresh m n' v') c') ↔
      kept ((fresh m n v).effectiveMaxPairSize p) c =
        kept ((fresh m n v).effectiveMaxPairSize p) c' := by
  obtain ⟨hnf, hcalls⟩ := clean_runs (p := p) h (fresh m n v) ⟨rfl, rfl⟩ rfl (ends_marks c)
  obtain ⟨hnf', hcalls'⟩ := clean_runs (p := p) h' (fresh m n' v') ⟨rfl, rfl⟩ rfl (ends_marks c')
  have ht := throws_iff h (fresh_ready m n v) rfl
  have ht' := throws_iff h' (fresh_ready m n' v') rfl
  rw [hc.1] at ht
  rw [hc'.1] at ht'
  constructor
  · intro hagree
    have := hagree.calls
    rw [hcalls, hcalls'] at this
    exact this
  · intro hkept
    refine ⟨hnf, hnf', ?_, ht.trans ht'.symm⟩
    rw [hcalls, hcalls']
    exact hkept

/-- `a=b`, then `cd=` with its content split and `e=` with its name length torn. -/
def earlyCut : List (List Byte) := [[1, 1, 97, 98, 2, 0], [99, 100, 0x80, 0], [0, 1, 0, 101]]

def lateCut : List (List Byte) := [[1, 1, 97, 98, 2, 0, 99], [100, 0x80], [0, 0, 1, 0, 101]]

theorem earlyCut_clean : Clean 65535 .none earlyCut := by
  have hlast : Holds 65535 true true (.value 1) [0, 101] .stale :=
    .short trivial (by decide) (.last (by decide) (by decide))
  have hmid : Holds 65535 true false .name [0x80, 0] (.length .name [0x80, 0]) :=
    .cut trivial (by decide) (by decide)
  have hfirst : Holds 65535 false false .name [1, 1, 97, 98, 2, 0] (.content 2) := by
    refine .short trivial (by decide) (.short trivial (by decide) ?_)
    refine .next (by decide) (by decide) ?_
    exact .short trivial (by decide) (.short trivial (by decide) (.split (by decide) (by decide)))
  exact .start hfirst (.content (a := [99, 100]) hmid
    (.length (a := [0, 1]) (by decide) hlast .done))

theorem lateCut_clean : Clean 65535 .none lateCut := by
  have hlast : Holds 65535 true true (.value 1) [0, 101] .stale :=
    .short trivial (by decide) (.last (by decide) (by decide))
  have hmid : Holds 65535 true false .name [0x80] (.length .name [0x80]) :=
    .cut trivial (by decide) (by decide)
  have hfirst : Holds 65535 false false .name [1, 1, 97, 98, 2, 0, 99] (.content 1) := by
    refine .short trivial (by decide) (.short trivial (by decide) ?_)
    refine .next (by decide) (by decide) ?_
    exact .short trivial (by decide) (.short trivial (by decide) (.split (by decide) (by decide)))
  exact .start hfirst (.content (a := [100]) hmid
    (.length (a := [0, 0, 1]) (by decide) hlast .done))

/-- Both cuts lose `cd=` and deliver the other two pairs. -/
theorem chunking_iff_torn :
    kept 65535 earlyCut = [([97], [98]), ([101], [])] ∧
      Agree (feedAll .standard (fresh 0 ⟨0, 0, 0, 0⟩ ⟨0, 0, 0, 0⟩) earlyCut)
        (feedAll .standard (fresh 0 ⟨0, 0, 0, 0⟩ ⟨0, 0, 0, 0⟩) lateCut) := by
  have hkept : kept 65535 earlyCut = [([97], [98]), ([101], [])] := by decide +kernel
  have hkept' : kept 65535 lateCut = [([97], [98]), ([101], [])] := by decide +kernel
  have hearly : Cut earlyCut.flatten earlyCut := ⟨rfl, by decide⟩
  have hlate : Cut earlyCut.flatten lateCut := ⟨by decide, by decide⟩
  have hiff := chunking_iff .standard 0 ⟨0, 0, 0, 0⟩ ⟨0, 0, 0, 0⟩ ⟨0, 0, 0, 0⟩ ⟨0, 0, 0, 0⟩
    hearly hlate earlyCut_clean lateCut_clean
  exact ⟨hkept, hiff.mpr (hkept.trans hkept'.symm)⟩

/-- `a=b` and an empty pair: whole, both are delivered; cut before the `b`, the
first one is lost. -/
theorem split_pair_lost :
    Cut [1, 1, 97, 98, 0, 0] [[1, 1, 97, 98, 0, 0]] ∧
      Cut [1, 1, 97, 98, 0, 0] [[1, 1, 97], [98, 0, 0]] ∧
      (feedAll .standard (fresh 0 ⟨0, 0, 0, 0⟩ ⟨0, 0, 0, 0⟩) [[1, 1, 97, 98, 0, 0]]).calls =
        [([97], [98]), ([], [])] ∧
      (feedAll .standard (fresh 0 ⟨0, 0, 0, 0⟩ ⟨0, 0, 0, 0⟩) [[1, 1, 97], [98, 0, 0]]).calls =
        [([], [])] ∧
      ¬ Agree (feedAll .standard (fresh 0 ⟨0, 0, 0, 0⟩ ⟨0, 0, 0, 0⟩) [[1, 1, 97, 98, 0, 0]])
        (feedAll .standard (fresh 0 ⟨0, 0, 0, 0⟩ ⟨0, 0, 0, 0⟩) [[1, 1, 97], [98, 0, 0]]) := by
  have h₁ : (feedAll .standard (fresh 0 ⟨0, 0, 0, 0⟩ ⟨0, 0, 0, 0⟩)
      [[1, 1, 97, 98, 0, 0]]).calls = [([97], [98]), ([], [])] := by decide +kernel
  have h₂ : (feedAll .standard (fresh 0 ⟨0, 0, 0, 0⟩ ⟨0, 0, 0, 0⟩)
      [[1, 1, 97], [98, 0, 0]]).calls = [([], [])] := by decide +kernel
  refine ⟨⟨rfl, by simp⟩, ⟨rfl, by simp⟩, h₁, h₂, ?_⟩
  rintro ⟨-, -, h, -⟩
  rw [h₁, h₂] at h
  exact absurd h (by decide)

end Tfcgi.NvpChunking
