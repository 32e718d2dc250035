import Tfcgi.NvpGrammar

/-!
# Runs of the deserializer

`feedAll` goes on with the next record as long as `feed` returns.

* `feedAll_returns`, `feedAll_faults`, `feedAll_throws`: a run by its first record;
* `feedAll_aligned`: on records that end between pairs with one-byte lengths the
  parser delivers the pairs up to the first one over the limit.
-/

namespace Tfcgi.NvpRuns

open Tfcgi.HostOrder Tfcgi.Protocol Tfcgi.NameValuePairs Tfcgi.NvpGrammar
open Tfcgi.NameValuePairs.Deserializer

def Throws (r : Fed) : Prop := ∃ what, r.outcome = .throws what

def Faults (r : Fed) : Prop := ∃ f, r.outcome = .fault f

theorem feedAll_returns {p : Params} {d d' : Deserializer} {data : List Byte}
    {calls : List Pair} {b : Bool} (h : d.feed p data = ⟨calls, .returns b d'⟩)
    (records : List (List Byte)) :
    feedAll p d (data :: records) = (feedAll p d' records).prepend calls := by
  simp [feedAll, h]

theorem feedAll_faults {p : Params} {d : Deserializer} {data : List Byte}
    (h : Faults (d.feed p data)) (records : List (List Byte)) :
    Faults (feedAll p d (data :: records)) := by
  obtain ⟨f, h⟩ := h
  simp [feedAll, h, Faults]

theorem feedAll_throws {p : Params} {d : Deserializer} {data : List Byte}
    (h : Throws (d.feed p data)) (records : List (List Byte)) :
    feedAll p d (data :: records) = d.feed p data := by
  obtain ⟨f, h⟩ := h
  simp [feedAll, h]

theorem faults_prepend {calls : List Pair} {r : Fed} : Faults (r.prepend calls) ↔ Faults r :=
  Iff.rfl

theorem throws_prepend {calls : List Pair} {r : Fed} : Throws (r.prepend calls) ↔ Throws r :=
  Iff.rfl

/-! ## Records that end between pairs -/

/-- Every record is a list of whole pairs with one-byte lengths. -/
def Aligned (c : List (List Byte)) : Prop :=
  ∀ r ∈ c, ∃ es : List Entry, r = encode es ∧ ∀ e ∈ es, e.Short

/-- The pair is within the limit. -/
def within (lim : Nat) (pair : Pair) : Bool := decide (pair.1.length + pair.2.length ≤ lim)

theorem within_pair (lim : Nat) (e : Entry) : within lim e.pair = decide (e.size ≤ lim) := rfl

theorem feed_oversize (p : Params) {d : Deserializer} (hd : d.Ready) {pre : List Entry}
    (post : List Entry) {e : Entry} (hs : ∀ e ∈ pre, e.Short) (he : e.Short)
    (hle : ∀ e ∈ pre, e.size ≤ d.effectiveMaxPairSize p)
    (hlt : d.effectiveMaxPairSize p < e.size) :
    (d.feed p (encode (pre ++ e :: post))).calls = pre.map Entry.pair ∧
      Throws (d.feed p (encode (pre ++ e :: post))) := by
  have hrest : e.bytes ++ encode post ≠ [] := by simp [bytes_ne_nil]
  obtain ⟨d₁, fuel, hn₁, -, hm₁, hf⟩ := feed_prefix p hd pre hrest hs hle
  obtain ⟨what, ht⟩ := (turn_short p hn₁ he (encode post)).2 (by rw [hm₁]; exact hlt)
  rw [encode_append, encode_cons, hf, throws_prepend, loop, ht]
  exact ⟨by simp [Fed.prepend], what, rfl⟩

/-- Records of whole pairs with one-byte lengths: the pairs before the first one
over the limit are delivered, and that one is thrown for. -/
theorem feedAll_aligned (p : Params) {lim : Nat} (ess : List (List Entry))
    (hne : ∀ es ∈ ess, es ≠ []) (hs : ∀ es ∈ ess, ∀ e ∈ es, e.Short) :
    ∀ d : Deserializer, d.Ready → d.effectiveMaxPairSize p = lim →
      let r := feedAll p d (ess.map encode)
      r.calls = (ess.flatten.map Entry.pair).takeWhile (within lim) ∧ ¬ Faults r ∧
        (Throws r ↔ ∃ e ∈ ess.flatten, lim < e.size) := by
  induction ess with
  | nil =>
    intro d _ _
    simp [feedAll, Faults, Throws]
  | cons es ess ih =>
    intro d hd hm
    simp only [List.mem_cons, forall_eq_or_imp] at hne hs
    by_cases hle : ∀ e ∈ es, e.size ≤ lim
    · obtain ⟨d', hd', hm', hf⟩ := feed_short p hd hne.1 hs.1 (by rw [hm]; exact hle)
      obtain ⟨hc, hnf, ht⟩ := ih hne.2 hs.2 d' hd' (by rw [hm', hm])
      have hw : ∀ q ∈ es.map Entry.pair, within lim q = true := by
        intro q hq
        obtain ⟨e, he, rfl⟩ := List.mem_map.mp hq
        rw [within_pair]
        exact decide_eq_true (hle e he)
      simp only [List.map_cons, feedAll_returns hf, faults_prepend, throws_prepend]
      refine ⟨?_, hnf, ?_⟩
      · rw [List.flatten_cons, List.map_append, List.takeWhile_append_of_pos hw]
        simp [Fed.prepend, hc]
      · rw [ht, List.flatten_cons]
        constructor
        · rintro ⟨e, he, hlt⟩
          exact ⟨e, by simp [he], hlt⟩
        · rintro ⟨e, he, hlt⟩
          rcases List.mem_append.mp he with h | h
          · exact absurd (hle e h) (by omega)
          · exact ⟨e, h, hlt⟩
    · obtain ⟨pre, e, post, rfl, hpre, he⟩ := exists_first_not hle
      have hlt : lim < e.size := by omega
      simp only [List.mem_append, List.mem_cons] at hs
      obtain ⟨hc, ht⟩ := feed_oversize p hd post (fun f h => hs.1 f (Or.inl h))
        (hs.1 e (Or.inr (Or.inl rfl))) (by rw [hm]; exact hpre) (by rw [hm]; exact hlt)
      have hw : ∀ q ∈ pre.map Entry.pair, within lim q = true := by
        intro q hq
        obtain ⟨e, he, rfl⟩ := List.mem_map.mp hq
        rw [within_pair]
        exact decide_eq_true (hpre e he)
      have hwe : within lim e.pair = false := by
        rw [within_pair]
        exact decide_eq_false (by omega)
      simp only [List.map_cons, feedAll_throws ht]
      refine ⟨?_, ?_, ?_⟩
      · rw [hc, List.flatten_cons, List.map_append, List.map_append, List.append_assoc,
          List.takeWhile_append_of_pos hw]
        simp [hwe]
      · rintro ⟨f, hf⟩
        obtain ⟨what, hwhat⟩ := ht
        simp [hf] at hwhat
      · exact ⟨fun _ => ⟨e, by simp, hlt⟩, fun _ => ht⟩

end Tfcgi.NvpRuns
