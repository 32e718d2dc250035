import Tfcgi.NvpBounds

/-!
# A parser that is used for one stream after another

`feed` returns `true` on an empty record and leaves the parser as it is. A stuck
parser waits for bytes of the stream before, or for a pair that no record can hold.

* `feedAll_ready`: a stream of records of whole pairs with one-byte lengths leaves
  the parser at a new pair, every other one leaves it stuck, and it stays so;
* `feedAll_alike`: parsers that differ in memory which is written before it is read
  have the same results, as have a parser at a new pair and a new object;
* `Stuck.not_resets`: a stuck parser misreads one of three short records;
* `resets_iff`: when the parser is as good as a new one for the next stream.
-/

namespace Tfcgi.NvpReset

open Tfcgi.HostOrder Tfcgi.Protocol Tfcgi.NameValuePairs Tfcgi.NvpGrammar Tfcgi.NvpRuns
open Tfcgi.NvpBounds Tfcgi.NameValuePairs.Deserializer

/-- The same `new_key` calls, the same exception and the same undefined behaviour. -/
structure Same (a b : Fed) : Prop where
  calls : a.calls = b.calls
  throws : ∀ what, a.outcome = .throws what ↔ b.outcome = .throws what
  faults : Faults a ↔ Faults b

/-- The content of a record. -/
def Fits (records : List (List Byte)) : Prop := ∀ r ∈ records, r.length ≤ 65535

/-- After an empty record the parser treats all further records as a new object does,
with some content of its two lengths. -/
def Resets (p : Params) (d : Deserializer) : Prop :=
  ∃ n v, ∀ further, Fits further →
    Same (feedAll p d ([] :: further)) (feedAll p (fresh d.maxPairSize n v) further)

/-! ## Where a stream can stop -/

/-- The state in which the length `dest` was read last. -/
def stateOf : Field → ParseState
  | .name => .readNameLen
  | .value => .readValueLen

/-- `current_buffer` has left the first byte of a length behind. -/
def Behind (d : Deserializer) : Prop :=
  ∀ dest, d.currentBuffer.target = .length dest → 1 ≤ d.currentBuffer.offset

/-- What keeps the parser from a new pair. -/
inductive Blocks (d : Deserializer) : Prop where
  /-- bytes of the last pair or of a length were missing, and are waited for again -/
  | pair (state : d.parseState = .readNew) (missing : 0 < d.remainingLen)
  /-- a length kept its marker bit -/
  | marked (dest : Field) (state : d.parseState = stateOf dest)
      (marker : 128 ≤ (d.field dest).b0.toNat)
  | split (dest : Field) (state : d.parseState = stateOf dest) (missing : 0 < d.remainingLen)
      (target : d.currentBuffer.target = .length dest ∨ d.currentBuffer.target = .stringBuffer)

structure Stuck (d : Deserializer) : Prop where
  behind : Behind d
  blocks : Blocks d

theorem be_marked {m : U32} (h : 128 ≤ m.b0.toNat) : 2147483648 ≤ m.be := by
  simp only [U32.be]
  omega

/-! ### One length -/

theorem length_waits (dest : Field) {d d' : Deserializer} {data data' : List Byte}
    (h : readKeyvalLength dest d data = .ok (true, d', data')) :
    Stuck { d' with parseState := stateOf dest } := by
  cases data with
  | nil => cases h
  | cons b data =>
    by_cases hb : b.toNat < 128
    · rw [readKeyvalLength_short dest d b data hb] at h
      cases h
    · have hb' : 128 ≤ b.toNat := by omega
      by_cases hl : data.length < 3
      · rw [readKeyvalLength_cut dest d b data hb' hl] at h
        cases h
        refine ⟨?_, .split dest rfl (by simp only; omega) (Or.inl rfl)⟩
        exact fun _ _ => Nat.succ_pos _
      · obtain ⟨c, e, f, rest, rfl⟩ := three_cons hl
        rw [readKeyvalLength_long dest d b c e f rest hb'] at h
        simp only [Except.ok.injEq, Prod.mk.injEq] at h
        obtain ⟨-, rfl, -⟩ := h
        refine ⟨?_, .marked dest rfl ?_⟩
        · exact fun _ _ => Nat.le_add_left 1 _
        · cases dest <;> exact hb'

/-- A length that was read to its end: one byte, or four with four bytes behind them. -/
theorem length_goes {dest : Field} {d d' : Deserializer} {data data' : List Byte}
    (h : readKeyvalLength dest d data = .ok (false, d', data')) :
    ∃ m k, d' = { d.setField dest m with
        currentBuffer := ⟨d.currentBuffer.target, d.currentBuffer.offset + k⟩ } ∧
      ((∃ b, data = b :: data' ∧ b.toNat < 128 ∧ m = ⟨0, 0, 0, b⟩) ∨
        data'.length = 4 ∧ 128 ≤ m.b0.toNat) := by
  cases data with
  | nil => cases h
  | cons b data =>
    by_cases hb : b.toNat < 128
    · rw [readKeyvalLength_short dest d b data hb] at h
      cases h
      exact ⟨⟨0, 0, 0, b⟩, 1, rfl, Or.inl ⟨b, rfl, hb, rfl⟩⟩
    · have hb' : 128 ≤ b.toNat := by omega
      by_cases hl : data.length < 3
      · rw [readKeyvalLength_cut dest d b data hb' hl] at h
        cases h
      · obtain ⟨c, e, f, rest, rfl⟩ := three_cons hl
        rw [readKeyvalLength_long dest d b c e f rest hb'] at h
        simp only [Except.ok.injEq, Prod.mk.injEq, decide_eq_false_iff_not, ne_eq, not_not] at h
        obtain ⟨hlen, rfl, rfl⟩ := h
        exact ⟨⟨b, c, e, f⟩, 4, rfl, Or.inr ⟨hlen, hb'⟩⟩

/-! ### One pair -/

/-- The pair was there. -/
theorem pair_again {p : Params} {d d' : Deserializer} {data rest : List Byte} {pair : Pair}
    (hl : data.length ≤ 65535) (h : willReadBuffer p d data = .again pair d' rest) :
    d.nameLen.be + d.valueLen.be ≤ data.length ∧
      pair = (data.take d.nameLen.be, (data.drop d.nameLen.be).take d.valueLen.be) ∧
      rest = data.drop (d.nameLen.be + d.valueLen.be) ∧
      d'.parseState = .readNew ∧ d'.remainingLen = d.remainingLen ∧
      ∃ k, d'.currentBuffer = ⟨d.currentBuffer.target, d.currentBuffer.offset + k⟩ := by
  simp only [willReadBuffer_eq] at h
  generalize hs : pairSize d.nameLen.be d.valueLen.be = size at h
  split at h
  · cases h
  · split at h
    · split at h
      · rename_i hle
        have hsize : size = d.nameLen.be + d.valueLen.be :=
          hs.symm.trans (Nat.mod_eq_of_lt (by omega))
        cases h
        exact ⟨hle, rfl, by rw [hsize], rfl, rfl, size, rfl⟩
      · cases h
    · cases h

/-- The pair was split. -/
theorem pair_waits {p : Params} {d d' : Deserializer} {data : List Byte}
    (h : willReadBuffer p d data = .wait d') :
    d'.parseState = d.parseState ∧ 0 < d'.remainingLen ∧
      d'.currentBuffer.target = .stringBuffer := by
  simp only [willReadBuffer_eq] at h
  generalize pairSize d.nameLen.be d.valueLen.be = size at h
  split at h
  · cases h
  · split at h
    · split at h <;> cases h
    · cases h
      exact ⟨rfl, by simp only; omega, rfl⟩

theorem waits_stuck {p : Params} {d d' : Deserializer} {data : List Byte}
    (hs : d.parseState = .readNew ∨ ∃ dest, d.parseState = stateOf dest)
    (h : willReadBuffer p d data = .wait d') : Stuck d' := by
  obtain ⟨hstate, hrem, htarget⟩ := pair_waits h
  rw [← hstate] at hs
  constructor
  · intro dest ht
    rw [htarget] at ht
    cases ht
  · rcases hs with hs | ⟨dest, hs⟩
    · exact .pair hs hrem
    · exact .split dest hs hrem (Or.inr htarget)

theorem Behind.moved {d d' : Deserializer} (h : Behind d) {k : Nat}
    (hk : d'.currentBuffer = ⟨d.currentBuffer.target, d.currentBuffer.offset + k⟩) : Behind d' := by
  intro dest ht
  rw [hk] at ht ⊢
  exact Nat.le_trans (h dest ht) (Nat.le_add_right _ k)

/-! ### One pass of the parse loop -/

theorem value_waits {p : Params} {d d' : Deserializer} {data : List Byte}
    (hs : d.parseState = .readNew ∨ ∃ dest, d.parseState = stateOf dest)
    (h : readNameLen p d data = .wait d') : Stuck d' := by
  unfold readNameLen at h
  split at h
  · cases h
  · rename_i d₁ rest hk
    cases h
    exact length_waits .value hk
  · rename_i d₁ data₁ hk
    obtain ⟨m, k, rfl, -⟩ := length_goes hk
    refine waits_stuck ?_ h
    exact hs

theorem value_again {p : Params} {d d' : Deserializer} {data rest : List Byte} {pair : Pair}
    (hl : data.length ≤ 65535) (h : readNameLen p d data = .again pair d' rest) :
    d.nameLen.be ≤ data.length ∧ (∃ b, b.toNat < 128 ∧ d.nameLen.be + b.toNat + 1 ≤ data.length ∧
        data = b :: data.tail ∧ rest = data.tail.drop (d.nameLen.be + b.toNat)) ∧
      d'.parseState = .readNew ∧ d'.remainingLen = d.remainingLen ∧
      ∃ k, d'.currentBuffer = ⟨d.currentBuffer.target, d.currentBuffer.offset + k⟩ := by
  unfold readNameLen at h
  split at h
  · cases h
  · cases h
  · rename_i d₁ data₁ hk
    obtain ⟨m, k, rfl, hlen⟩ := length_goes hk
    rcases hlen with ⟨b, rfl, hb, rfl⟩ | ⟨hfour, hm⟩
    · rw [List.length_cons] at hl
      obtain ⟨hle, -, hrest, hstate, hrem, k', hbuf⟩ := pair_again (by omega) h
      have hv : (⟨0, 0, 0, b⟩ : U32).be = b.toNat := by simp [U32.be]
      change d.nameLen.be + (⟨0, 0, 0, b⟩ : U32).be ≤ data₁.length at hle
      change rest = data₁.drop (d.nameLen.be + (⟨0, 0, 0, b⟩ : U32).be) at hrest
      rw [hv] at hle hrest
      refine ⟨?_, ⟨b, hb, ?_, rfl, hrest⟩, hstate, hrem, k + k', ?_⟩
      · rw [List.length_cons]
        omega
      · rw [List.length_cons]
        omega
      · rw [hbuf, Nat.add_assoc]
    · obtain ⟨hle, -⟩ := pair_again (by omega) h
      have hm' := be_marked hm
      change d.nameLen.be + m.be ≤ data₁.length at hle
      omega

/-- The bytes of a whole pair with one-byte lengths. -/
theorem short_entry {b c : Byte} (hb : b.toNat < 128) (hc : c.toNat < 128) {data : List Byte}
    (hl : b.toNat + c.toNat ≤ data.length) :
    ∃ e : Entry, e.Short ∧ b :: c :: data = e.bytes ++ data.drop (b.toNat + c.toNat) := by
  have hname : (data.take b.toNat).length = b.toNat := by
    rw [List.length_take]
    omega
  have hvalue : ((data.drop b.toNat).take c.toNat).length = c.toNat := by
    rw [List.length_take, List.length_drop]
    omega
  refine ⟨⟨data.take b.toNat, (data.drop b.toNat).take c.toNat, .short, .short, ?_, ?_⟩,
    ⟨rfl, rfl⟩, ?_⟩
  · rw [hname]
    exact Nat.le_of_lt_succ hb
  · rw [hvalue]
    exact Nat.le_of_lt_succ hc
  · have hdata : data = data.take b.toNat ++ ((data.drop b.toNat).take c.toNat ++
        data.drop (b.toNat + c.toNat)) := by
      rw [← List.drop_drop, List.take_append_drop, List.take_append_drop]
    simp only [Entry.bytes, lengthBytes, hname, hvalue, UInt8.ofNat_toNat, List.cons_append,
      List.nil_append, List.append_assoc]
    rw [← hdata]

/-- A pass that starts with a new pair stops inside it or takes a whole pair with
one-byte lengths. -/
theorem new_turn {p : Params} {d : Deserializer} (hs : d.parseState = .readNew) {data : List Byte}
    (hl : data.length ≤ 65535) :
    (∀ d', turn p d data = .wait d' → Stuck d') ∧
      ∀ pair d' rest, turn p d data = .again pair d' rest →
        ∃ e : Entry, e.Short ∧ data = e.bytes ++ rest := by
  simp only [turn, hs, readNew]
  constructor
  · intro d' h
    split at h
    · cases h
    · rename_i d₁ rest hk
      cases h
      exact length_waits .name hk
    · rename_i d₁ data₁ hk
      obtain ⟨m, k, rfl, -⟩ := length_goes hk
      refine value_waits (Or.inl ?_) h
      exact hs
  · intro pair d' rest h
    split at h
    · cases h
    · cases h
    · rename_i d₁ data₁ hk
      obtain ⟨m, k, rfl, hlen⟩ := length_goes hk
      rcases hlen with ⟨b, rfl, hb, rfl⟩ | ⟨hfour, hm⟩
      · rw [List.length_cons] at hl
        obtain ⟨-, ⟨c, hc, hle, htail, hrest⟩, -⟩ := value_again (by omega) h
        have hn : (⟨0, 0, 0, b⟩ : U32).be = b.toNat := by simp [U32.be]
        change (⟨0, 0, 0, b⟩ : U32).be + c.toNat + 1 ≤ data₁.length at hle
        change rest = data₁.tail.drop ((⟨0, 0, 0, b⟩ : U32).be + c.toNat) at hrest
        rw [hn] at hle hrest
        rw [htail, hrest]
        exact short_entry hb hc (by rw [List.length_tail]; omega)
      · obtain ⟨hle, -⟩ := value_again (by omega) h
        have hm' := be_marked hm
        change m.be ≤ data₁.length at hle
        omega

theorem turn_moves {p : Params} {d d' : Deserializer} {data rest : List Byte} {pair : Pair}
    (hl : data.length ≤ 65535) (hs : d.parseState ≠ .readBuffer)
    (h : turn p d data = .again pair d' rest) :
    ∃ k, d'.currentBuffer = ⟨d.currentBuffer.target, d.currentBuffer.offset + k⟩ := by
  unfold turn at h
  cases hst : d.parseState with
  | readNew =>
    simp only [hst, readNew] at h
    split at h
    · cases h
    · cases h
    · rename_i d₁ data₁ hk
      have hlt := (readKeyvalLength_false hk).1
      obtain ⟨m, k, rfl, -⟩ := length_goes hk
      obtain ⟨-, -, -, -, k', hbuf⟩ := value_again (by omega) h
      exact ⟨k + k', by rw [hbuf, Nat.add_assoc]⟩
  | readNameLen =>
    simp only [hst] at h
    exact (value_again hl h).2.2.2.2
  | readValueLen | willReadBuffer =>
    simp only [hst] at h
    exact (pair_again hl h).2.2.2.2.2
  | readBuffer => exact absurd hst hs

theorem Stuck.not_readBuffer {d : Deserializer} (h : Stuck d) : d.parseState ≠ .readBuffer := by
  intro hs
  cases h.blocks with
  | pair state missing =>
    rw [hs] at state
    cases state
  | marked dest state marker | split dest state missing target =>
    rw [hs] at state
    cases dest <;> cases state

/-- A length with its marker bit is more than a record holds. -/
theorem marked_turn {p : Params} {d : Deserializer} {dest : Field}
    (hs : d.parseState = stateOf dest) (hm : 128 ≤ (d.field dest).b0.toNat) {data : List Byte}
    (hl : data.length ≤ 65535) (pair : Pair) (d' : Deserializer) (rest : List Byte) :
    turn p d data ≠ .again pair d' rest := by
  intro h
  have hm' := be_marked hm
  unfold turn at h
  cases dest with
  | name =>
    simp only [hs, stateOf] at h
    have hle := (value_again hl h).1
    change 2147483648 ≤ d.nameLen.be at hm'
    omega
  | value =>
    simp only [hs, stateOf] at h
    have hle := (pair_again hl h).1
    change 2147483648 ≤ d.valueLen.be at hm'
    omega

/-- A pass that delivers a pair has bytes that are waited for again. -/
theorem Stuck.missing {p : Params} {d d' : Deserializer} (hd : Stuck d) {data rest : List Byte}
    {pair : Pair} (hl : data.length ≤ 65535) (h : turn p d data = .again pair d' rest) :
    0 < d.remainingLen := by
  cases hd.blocks with
  | pair state missing | split dest state missing target => exact missing
  | marked dest state marker => exact absurd h (marked_turn state marker hl pair d' rest)

theorem stuck_turn {p : Params} {d : Deserializer} (hd : Stuck d) {data : List Byte}
    (hl : data.length ≤ 65535) :
    (∀ d', turn p d data = .wait d' → Stuck d') ∧
      ∀ pair d' rest, turn p d data = .again pair d' rest → Stuck d' := by
  constructor
  · intro d' h
    cases hd.blocks with
    | pair state missing => exact (new_turn state hl).1 d' h
    | marked dest state marker | split dest state missing target =>
      unfold turn at h
      cases dest with
      | name =>
        simp only [state, stateOf] at h
        exact value_waits (Or.inr ⟨.name, state⟩) h
      | value =>
        simp only [state, stateOf] at h
        exact waits_stuck (Or.inr ⟨.value, state⟩) h
  · intro pair d' rest h
    have hmissing := hd.missing hl h
    obtain ⟨-, -, hs', hr', -⟩ := turn_again h
    obtain ⟨k, hk⟩ := turn_moves hl hd.not_readBuffer h
    exact ⟨hd.behind.moved hk, .pair hs' (by rw [hr']; exact hmissing)⟩

/-! ### The parse loop -/

theorem loop_stuck {p : Params} {fuel : Nat} {d d' : Deserializer} {data : List Byte} {b : Bool}
    (hd : Stuck d) (hl : data.length ≤ 65535)
    (h : (loop p fuel d data).outcome = .returns b d') : Stuck d' := by
  induction fuel generalizing d data with
  | zero =>
    cases h
    exact hd
  | succ fuel ih =>
    obtain ⟨hwait, hagain⟩ := stuck_turn (p := p) hd hl
    rcases loop_cases h with ⟨-, pair, ht⟩ | ⟨pair, d₁, rest, ht, -, hrest⟩ | ⟨-, ht⟩
    · exact hagain pair d' [] ht
    · have hle := (turn_again ht).1
      exact ih (hagain pair d₁ rest ht) (by omega) hrest
    · exact hwait d' ht

/-- A record of whole pairs with one-byte lengths. -/
def Whole (data : List Byte) : Prop :=
  ∃ es : List Entry, data = encode es ∧ ∀ e ∈ es, e.Short

theorem loop_new {p : Params} {fuel : Nat} {d d' : Deserializer} {data : List Byte} {b : Bool}
    (hd : d.Ready) (hl : data.length ≤ 65535) (hf : data.length < fuel)
    (h : (loop p fuel d data).outcome = .returns b d') : Stuck d' ∨ d'.Ready ∧ Whole data := by
  induction fuel generalizing d data with
  | zero => omega
  | succ fuel ih =>
    obtain ⟨hwait, hagain⟩ := new_turn (p := p) hd.1 hl
    rcases loop_cases h with ⟨-, pair, ht⟩ | ⟨pair, d₁, rest, ht, -, hrest⟩ | ⟨-, ht⟩
    · obtain ⟨e, he, hdata⟩ := hagain pair d' [] ht
      obtain ⟨-, -, hs', hr', -⟩ := turn_again ht
      refine Or.inr ⟨⟨hs', hr'.trans hd.2⟩, [e], hdata, ?_⟩
      simpa using he
    · obtain ⟨e, he, hdata⟩ := hagain pair d₁ rest ht
      obtain ⟨hle, hlt, hs₁, hr₁, -⟩ := turn_again ht
      have hlt' := hlt hd.1
      rcases ih ⟨hs₁, hr₁.trans hd.2⟩ (by omega) (by omega) hrest with
        hstuck | ⟨hready, es, hes, hshort⟩
      · exact Or.inl hstuck
      · refine Or.inr ⟨hready, e :: es, ?_, ?_⟩
        · rw [hdata, hes]
          rfl
        · simpa using ⟨he, hshort⟩
    · exact Or.inl (hwait d' ht)

/-! ### One record -/

theorem write_marker (m : U32) {off : Nat} (ho : 1 ≤ off) (src : List Byte) :
    (m.write off src).b0 = m.b0 := by
  obtain ⟨k, rfl⟩ : ∃ k, off = k + 1 := ⟨off - 1, by omega⟩
  simp [U32.write, U32.bytes, U32.ofBytes, overwrite]

theorem Behind.marker {d : Deserializer} (h : Behind d) (src : List Byte) (dest : Field) :
    ((NvpBounds.stored d src).field dest).b0 = (d.field dest).b0 := by
  unfold NvpBounds.stored
  cases ht : d.currentBuffer.target with
  | wild | stringBuffer => cases dest <;> rfl
  | length dest' =>
    have hm := write_marker (d.field dest') (h dest' ht) src
    cases dest <;> cases dest'
    · exact hm
    · rfl
    · rfl
    · exact hm

/-- More bytes of what is missing do not help. -/
theorem Stuck.goes_on {d d' : Deserializer} (h : Stuck d) (hs : d'.parseState = d.parseState)
    (hb : ∃ k, d'.currentBuffer = ⟨d.currentBuffer.target, d.currentBuffer.offset + k⟩)
    (hm : ∀ dest, (d'.field dest).b0 = (d.field dest).b0)
    (hr : 0 < d.remainingLen → 0 < d'.remainingLen) : Stuck d' := by
  obtain ⟨k, hk⟩ := hb
  refine ⟨h.behind.moved hk, ?_⟩
  cases h.blocks with
  | pair state missing => exact .pair (hs.trans state) (hr missing)
  | marked dest state marker =>
    rw [← hm dest] at marker
    exact .marked dest (hs.trans state) marker
  | split dest state missing target =>
    refine .split dest (hs.trans state) (hr missing) ?_
    rw [hk]
    exact target

theorem feed_stuck {p : Params} {d d' : Deserializer} {data : List Byte} {b : Bool}
    (hd : Stuck d) (hl : data.length ≤ 65535)
    (h : (d.feed p data).outcome = .returns b d') : Stuck d' := by
  rcases feed_cases h with ⟨-, rfl⟩ | ⟨hlt, rfl⟩ | ⟨-, hloop⟩
  · exact hd
  · obtain ⟨hc, -, hs, -⟩ := stored_fields d data
    refine hd.goes_on hs ⟨0, hc⟩ ?_ ?_
    · intro dest
      rw [← hd.behind.marker data dest]
      cases dest <;> rfl
    · intro _
      exact Nat.sub_pos_of_lt hlt
  · obtain ⟨hr, hs, -⟩ := resumed_fields d (data.take d.remainingLen)
    refine loop_stuck (hd.goes_on hs ⟨_, rfl⟩ ?_ ?_) ?_ hloop
    · intro dest
      rw [← hd.behind.marker (data.take d.remainingLen) dest]
      cases dest <;> rfl
    · rw [hr]
      exact id
    · rw [List.length_drop]
      omega

theorem feed_new {p : Params} {d d' : Deserializer} {data : List Byte} {b : Bool}
    (hd : d.Ready) (hl : data.length ≤ 65535) (h : (d.feed p data).outcome = .returns b d') :
    d'.Ready ∧ Whole data ∨ Stuck d' ∧ ¬ Whole data := by
  by_cases hne : data = []
  · simp only [feed, hne, if_true] at h
    cases h
    exact Or.inl ⟨hd, [], hne, by simp⟩
  · by_cases hw : Whole data
    · obtain ⟨es, rfl, hs⟩ := id hw
      have hes := encode_ne_nil.mp hne
      by_cases hle : ∀ e ∈ es, e.size ≤ d.effectiveMaxPairSize p
      · obtain ⟨d₁, hd₁, -, hf⟩ := feed_short p hd hes hs hle
        rw [hf] at h
        cases h
        exact Or.inl ⟨hd₁, hw⟩
      · obtain ⟨pre, e, post, rfl, hpre, he⟩ := exists_first_not hle
        simp only [List.mem_append, List.mem_cons] at hs
        obtain ⟨-, what, ht⟩ := feed_oversize p hd post (fun f hf => hs f (Or.inl hf))
          (hs e (Or.inr (Or.inl rfl))) hpre (by omega)
        rw [ht] at h
        cases h
    · rw [feed_ready hd hne] at h
      rcases loop_new hd hl (by omega) h with hstuck | ⟨-, hwhole⟩
      · exact Or.inr ⟨hstuck, hw⟩
      · exact absurd hwhole hw

/-! ### A stream -/

theorem feedAll_cons {p : Params} {d d' : Deserializer} {data : List Byte}
    {records : List (List Byte)} {b : Bool}
    (h : (feedAll p d (data :: records)).outcome = .returns b d') :
    ∃ b₁ d₁, (d.feed p data).outcome = .returns b₁ d₁ ∧
      ∃ b', (feedAll p d₁ records).outcome = .returns b' d' := by
  simp only [feedAll] at h
  split at h
  · rename_i b₁ d₁ hf
    exact ⟨b₁, d₁, hf, b, h⟩
  · rename_i hf
    exact absurd h (hf b d')

/-- A stuck parser stays stuck. -/
theorem feedAll_stuck {p : Params} {records : List (List Byte)} {d d' : Deserializer} {b : Bool}
    (hd : Stuck d) (hl : Fits records) (h : (feedAll p d records).outcome = .returns b d') :
    Stuck d' := by
  induction records generalizing d b with
  | nil =>
    cases h
    exact hd
  | cons data records ih =>
    simp only [Fits, List.mem_cons, forall_eq_or_imp] at hl
    obtain ⟨b₁, d₁, hf, b', hrest⟩ := feedAll_cons h
    exact ih (feed_stuck hd hl.1 hf) hl.2 hrest

/-- Where a stream stops, for a parser at a new pair. -/
theorem feedAll_ready {p : Params} {records : List (List Byte)} {d d' : Deserializer} {b : Bool}
    (hd : d.Ready) (hl : Fits records) (h : (feedAll p d records).outcome = .returns b d') :
    d'.Ready ∧ Aligned records ∨ Stuck d' ∧ ¬ Aligned records := by
  induction records generalizing d b with
  | nil =>
    cases h
    exact Or.inl ⟨hd, by simp [Aligned]⟩
  | cons data records ih =>
    simp only [Fits, List.mem_cons, forall_eq_or_imp] at hl
    obtain ⟨b₁, d₁, hf, b', hrest⟩ := feedAll_cons h
    simp only [Aligned, List.mem_cons, forall_eq_or_imp]
    rcases feed_new hd hl.1 hf with ⟨hd₁, hw⟩ | ⟨hd₁, hw⟩
    · rcases ih hd₁ hl.2 hrest with ⟨hd', ha⟩ | ⟨hd', ha⟩
      · exact Or.inl ⟨hd', hw, ha⟩
      · exact Or.inr ⟨hd', fun hall => ha hall.2⟩
    · exact Or.inr ⟨feedAll_stuck hd₁ hl.2 hrest, fun hall => hw hall.1⟩

/-! ## A parser at a new pair -/

/-- `a` and `b` differ in memory that is written before it is read. -/
def Alike (a b : Deserializer) : Prop :=
  a.parseState ≠ .readBuffer ∧
    ∃ l c, b = { a with stringBuffer := l, currentBuffer := c } ∧
      (a.remainingLen ≠ 0 → c = a.currentBuffer ∧
        (c.target = .stringBuffer → l.length = a.stringBuffer.length))

inductive LengthAlike : Except Fault (Bool × Deserializer × List Byte) →
    Except Fault (Bool × Deserializer × List Byte) → Prop where
  | ok {a b : Deserializer} (wait : Bool) (data : List Byte) (h : Alike a b) :
      LengthAlike (.ok (wait, a, data)) (.ok (wait, b, data))
  | error (f : Fault) : LengthAlike (.error f) (.error f)

inductive TurnAlike : Turn → Turn → Prop where
  | again {a b : Deserializer} (pair : Pair) (data : List Byte) (h : Alike a b) :
      TurnAlike (.again pair a data) (.again pair b data)
  | wait {a b : Deserializer} (h : Alike a b) : TurnAlike (.wait a) (.wait b)
  | throws (what : String) : TurnAlike (.throws what) (.throws what)
  | fault (f : Fault) : TurnAlike (.fault f) (.fault f)

inductive FedAlike : Fed → Fed → Prop where
  | returns {a b : Deserializer} (calls : List Pair) (finished : Bool) (h : Alike a b) :
      FedAlike ⟨calls, .returns finished a⟩ ⟨calls, .returns finished b⟩
  | throws (calls : List Pair) (what : String) :
      FedAlike ⟨calls, .throws what⟩ ⟨calls, .throws what⟩
  | fault (calls : List Pair) (f : Fault) : FedAlike ⟨calls, .fault f⟩ ⟨calls, .fault f⟩

theorem FedAlike.prepend {r r' : Fed} (h : FedAlike r r') (calls : List Pair) :
    FedAlike (r.prepend calls) (r'.prepend calls) := by
  cases h with
  | returns calls' finished h => exact .returns _ finished h
  | throws calls' what => exact .throws _ what
  | fault calls' f => exact .fault _ f

theorem FedAlike.same {r r' : Fed} (h : FedAlike r r') : Same r r' := by
  cases h with
  | returns calls finished h =>
    refine ⟨rfl, ?_, ?_⟩
    · simp
    · simp [Faults]
  | throws calls what | fault calls f => exact ⟨rfl, fun _ => Iff.rfl, Iff.rfl⟩

theorem length_alike (dest : Field) {a b : Deserializer} (h : Alike a b) (data : List Byte) :
    LengthAlike (readKeyvalLength dest a data) (readKeyvalLength dest b data) := by
  obtain ⟨hs, l, c, rfl, hp⟩ := h
  -- a whole length is set in both, and both pointers move on
  have hset : ∀ (m : U32) (k : Nat),
      Alike { a.setField dest m with
          currentBuffer := ⟨a.currentBuffer.target, a.currentBuffer.offset + k⟩ }
        { setField { a with stringBuffer := l, currentBuffer := c } dest m with
          currentBuffer := ⟨c.target, c.offset + k⟩ } := by
    intro m k
    refine ⟨?_, l, ⟨c.target, c.offset + k⟩, ?_, ?_⟩
    · cases dest <;> exact hs
    · cases dest <;> rfl
    · intro hrem
      have hrem' : a.remainingLen ≠ 0 := by cases dest <;> exact hrem
      obtain ⟨rfl, hlen⟩ := hp hrem'
      exact ⟨rfl, by cases dest <;> exact hlen⟩
  cases data with
  | nil => exact .error _
  | cons x data =>
    by_cases hx : x.toNat < 128
    · rw [readKeyvalLength_short dest _ x data hx, readKeyvalLength_short dest _ x data hx]
      exact .ok _ _ (hset _ 1)
    · have hx' : 128 ≤ x.toNat := by omega
      by_cases hl : data.length < 3
      · rw [readKeyvalLength_cut dest _ x data hx' hl, readKeyvalLength_cut dest _ x data hx' hl]
        refine .ok _ _ ⟨?_, l, ⟨.length dest, data.length + 1⟩, ?_, ?_⟩
        · cases dest <;> exact hs
        · cases dest <;> rfl
        · intro _
          exact ⟨rfl, fun ht => by cases ht⟩
      · obtain ⟨y, z, w, rest, rfl⟩ := three_cons hl
        rw [readKeyvalLength_long dest _ x y z w rest hx',
          readKeyvalLength_long dest _ x y z w rest hx']
        exact .ok _ _ (hset _ 4)

theorem pair_alike (p : Params) {a b : Deserializer} (h : Alike a b) (data : List Byte) :
    TurnAlike (willReadBuffer p a data) (willReadBuffer p b data) := by
  obtain ⟨hs, l, c, rfl, hp⟩ := h
  have hlim : effectiveMaxPairSize p { a with stringBuffer := l, currentBuffer := c } =
      a.effectiveMaxPairSize p := rfl
  have hntohl : ntohlLengths p { a with stringBuffer := l, currentBuffer := c } =
      { a.ntohlLengths p with stringBuffer := l, currentBuffer := c } := rfl
  have hstate : (a.ntohlLengths p).parseState = a.parseState := rfl
  have hrem : (a.ntohlLengths p).remainingLen = a.remainingLen := rfl
  have hbuf : (a.ntohlLengths p).stringBuffer = a.stringBuffer := rfl
  simp only [willReadBuffer_eq, hlim, hntohl]
  generalize a.ntohlLengths p = e at hstate hrem hbuf ⊢
  generalize pairSize a.nameLen.be a.valueLen.be = size
  by_cases hover : a.effectiveMaxPairSize p < size
  · rw [if_pos hover, if_pos hover]
    exact .throws _
  · rw [if_neg hover, if_neg hover]
    by_cases hfit : size ≤ data.length
    · rw [if_pos hfit, if_pos hfit]
      by_cases hle : a.nameLen.be + a.valueLen.be ≤ data.length
      · rw [if_pos hle, if_pos hle]
        refine .again _ _ ⟨ParseState.noConfusion, l, ⟨c.target, c.offset + size⟩, rfl, ?_⟩
        intro hr
        obtain ⟨rfl, hlen⟩ := hp (by rw [← hrem]; exact hr)
        exact ⟨rfl, fun ht => by rw [hlen ht]; exact congrArg List.length hbuf.symm⟩
      · rw [if_neg hle, if_neg hle]
        exact .fault _
    · rw [if_neg hfit, if_neg hfit]
      refine .wait ⟨?_, overwrite (resize l size) 0 data, ⟨.stringBuffer, data.length⟩, rfl, ?_⟩
      · rw [← hstate] at hs
        exact hs
      · intro _
        refine ⟨rfl, fun _ => ?_⟩
        have hlen : 0 + data.length ≤ size := by omega
        rw [overwrite_length _ _ _ (by rw [resize_length]; exact hlen),
          overwrite_length _ _ _ (by rw [resize_length]; exact hlen), resize_length, resize_length]

theorem value_alike (p : Params) {a b : Deserializer} (h : Alike a b) (data : List Byte) :
    TurnAlike (readNameLen p a data) (readNameLen p b data) := by
  have hk := length_alike .value h data
  unfold readNameLen
  generalize readKeyvalLength .value a data = r at hk ⊢
  generalize readKeyvalLength .value b data = r' at hk ⊢
  cases hk with
  | error f => exact .fault f
  | ok wait rest h' =>
    cases wait with
    | false => exact pair_alike p h' rest
    | true =>
      obtain ⟨-, l, c, rfl, hp⟩ := h'
      exact .wait ⟨ParseState.noConfusion, l, c, rfl, hp⟩

theorem turn_alike (p : Params) {a b : Deserializer} (h : Alike a b) (data : List Byte) :
    TurnAlike (turn p a data) (turn p b data) := by
  have hstate : b.parseState = a.parseState := by
    obtain ⟨-, l, c, rfl, -⟩ := h
    rfl
  unfold turn
  rw [hstate]
  cases hs : a.parseState with
  | readNew =>
    have hk := length_alike .name h data
    simp only [readNew]
    generalize readKeyvalLength .name a data = r at hk ⊢
    generalize readKeyvalLength .name b data = r' at hk ⊢
    cases hk with
    | error f => exact .fault f
    | ok wait rest h' =>
      cases wait with
      | false => exact value_alike p h' rest
      | true =>
        obtain ⟨-, l, c, rfl, hp⟩ := h'
        exact .wait ⟨ParseState.noConfusion, l, c, rfl, hp⟩
  | readNameLen => exact value_alike p h data
  | readValueLen | willReadBuffer => exact pair_alike p h data
  | readBuffer => exact absurd hs h.1

theorem loop_alike (p : Params) (fuel : Nat) {a b : Deserializer} (h : Alike a b)
    (data : List Byte) : FedAlike (loop p fuel a data) (loop p fuel b data) := by
  induction fuel generalizing a b data with
  | zero => exact .returns _ _ h
  | succ fuel ih =>
    have ht := turn_alike p h data
    rw [loop, loop]
    generalize turn p a data = t at ht ⊢
    generalize turn p b data = t' at ht ⊢
    cases ht with
    | again pair rest h' =>
      by_cases hr : rest = []
      · simp only [hr, if_true]
        exact .returns _ _ h'
      · simp only [hr, if_false]
        exact (ih h' rest).prepend [pair]
    | wait h' => exact .returns _ _ h'
    | throws what => exact .throws _ what
    | fault f => exact .fault _ f

theorem Alike.remaining {a b : Deserializer} (h : Alike a b) :
    b.remainingLen = a.remainingLen := by
  obtain ⟨-, l, c, rfl, -⟩ := h
  rfl

theorem Alike.room {a b : Deserializer} (h : Alike a b) {k : Nat} (hk : k ≤ a.remainingLen) :
    k ≤ NvpBounds.room b ↔ k ≤ NvpBounds.room a := by
  obtain ⟨-, l, c, rfl, hp⟩ := h
  by_cases hr : a.remainingLen = 0
  · omega
  · obtain ⟨rfl, hlen⟩ := hp hr
    unfold NvpBounds.room
    cases ht : a.currentBuffer.target with
    | wild | length dest => exact Iff.rfl
    | stringBuffer => simp only [hlen ht]

theorem Alike.stored {a b : Deserializer} (h : Alike a b) {src : List Byte}
    (hk : src.length ≤ a.remainingLen) :
    Alike (NvpBounds.stored a src) (NvpBounds.stored b src) := by
  by_cases hr : a.remainingLen = 0
  · obtain rfl : src = [] := List.length_eq_zero_iff.mp (by omega)
    rw [stored_nil, stored_nil]
    exact h
  · obtain ⟨hs, l, c, rfl, hp⟩ := h
    obtain ⟨rfl, hlen⟩ := hp hr
    unfold NvpBounds.stored
    cases ht : a.currentBuffer.target with
    | wild => exact ⟨hs, l, a.currentBuffer, rfl, hp⟩
    | length dest =>
      refine ⟨?_, l, a.currentBuffer, ?_, ?_⟩
      · cases dest <;> exact hs
      · cases dest <;> rfl
      · intro _
        exact ⟨by cases dest <;> rfl, fun ht' => by rw [ht] at ht'; cases ht'⟩
    | stringBuffer =>
      refine ⟨hs, overwrite l a.currentBuffer.offset src, a.currentBuffer, rfl, ?_⟩
      intro _
      refine ⟨rfl, fun _ => ?_⟩
      simp [overwrite, hlen ht]

theorem Alike.resumed {a b : Deserializer} (h : Alike a b) {src : List Byte}
    (hk : src.length ≤ a.remainingLen) :
    Alike (NvpBounds.resumed a src) (NvpBounds.resumed b src) := by
  obtain ⟨hs, l, c, hb, hp⟩ := h.stored hk
  obtain ⟨hca, hra, -, -⟩ := stored_fields a src
  obtain ⟨hcb, -, -, -⟩ := stored_fields b src
  have hc : c = b.currentBuffer := by
    rw [← hcb, hb]
  refine ⟨hs, l, ⟨b.currentBuffer.target, b.currentBuffer.offset + b.remainingLen⟩, ?_, ?_⟩
  · simp only [NvpBounds.resumed, hb]
  · intro hr
    obtain ⟨hc', hlen⟩ := hp hr
    rw [hc, hca] at hc'
    rw [hc] at hlen
    rw [hc', h.remaining]
    exact ⟨rfl, fun ht => hlen (by rw [hc']; exact ht)⟩

theorem feed_alike (p : Params) {a b : Deserializer} (h : Alike a b) (data : List Byte) :
    FedAlike (a.feed p data) (b.feed p data) := by
  by_cases hne : data = []
  · simp only [feed, hne, if_true]
    exact .returns _ _ h
  · have hroom := h.room (Nat.min_le_left a.remainingLen data.length)
    have hrem := h.remaining
    by_cases hr : min a.remainingLen data.length ≤ NvpBounds.room a
    · by_cases hl : a.remainingLen ≤ data.length
      · have htake : (data.take a.remainingLen).length = a.remainingLen := by
          rw [List.length_take, Nat.min_eq_left hl]
        rw [Nat.min_eq_left hl] at hr hroom
        rw [feed_resumes p hne hl hr,
          feed_resumes p hne (by rw [hrem]; exact hl) (by rw [hrem]; exact hroom.mpr hr), hrem]
        exact loop_alike p _ (h.resumed (Nat.le_of_eq htake)) _
      · have hlt : data.length < a.remainingLen := Nat.lt_of_not_le hl
        rw [Nat.min_eq_right (Nat.le_of_lt hlt)] at hr hroom
        rw [feed_waits p hne hlt hr,
          feed_waits p hne (by rw [hrem]; exact hlt) (hroom.mpr hr), hrem]
        obtain ⟨hs, l, c, hb, hp⟩ := h.stored (Nat.le_of_lt hlt)
        refine .returns _ _ ⟨hs, l, c, ?_, ?_⟩
        · rw [hb]
        · intro _
          exact hp (by rw [(stored_fields a data).2.1]; omega)
    · rw [feed_overruns p hne hr,
        feed_overruns p hne (by rw [hrem]; exact fun hle => hr (hroom.mp hle))]
      exact .fault _ _

theorem feedAll_alike (p : Params) (records : List (List Byte)) {a b : Deserializer}
    (h : Alike a b) : FedAlike (feedAll p a records) (feedAll p b records) := by
  induction records generalizing a b with
  | nil => exact .returns _ _ h
  | cons data records ih =>
    have hf := feed_alike p h data
    simp only [feedAll]
    generalize a.feed p data = r at hf ⊢
    generalize b.feed p data = r' at hf ⊢
    cases hf with
    | returns calls finished h' => exact (ih h').prepend calls
    | throws calls what => exact .throws _ what
    | fault calls f => exact .fault _ f

theorem feedAll_ended (p : Params) (d : Deserializer) (records : List (List Byte)) :
    feedAll p d ([] :: records) = feedAll p d records := by
  simp [feedAll, feed, Fed.prepend]

/-- A parser at a new pair is as good as a new object. -/
theorem ready_resets (p : Params) {d : Deserializer} (hd : d.Ready) : Resets p d := by
  refine ⟨d.nameLen, d.valueLen, ?_⟩
  intro further _
  rw [feedAll_ended]
  refine (feedAll_alike p further ?_).same
  obtain ⟨stringBuffer, nameLen, valueLen, currentBuffer, remainingLen, state, max⟩ := d
  obtain ⟨rfl, rfl⟩ : state = .readNew ∧ remainingLen = 0 := hd
  exact ⟨ParseState.noConfusion, [], ⟨.wild, 0⟩, rfl, fun h => absurd rfl h⟩

/-! ## A parser inside a pair -/

/-- The next pass takes the first `size` bytes of `rest` for a pair. -/
def Sees (p : Params) (d : Deserializer) (data : List Byte) (size : Nat) (rest : List Byte) :
    Prop :=
  ∃ e : Deserializer, e.nameLen.be + e.valueLen.be = size ∧
    e.effectiveMaxPairSize p = d.effectiveMaxPairSize p ∧ turn p d data = willReadBuffer p e rest

section
variable {p : Params} {d : Deserializer} {data rest : List Byte} {size : Nat}

theorem sees_name (hs : d.parseState = .readNameLen) (rest : List Byte) :
    Sees p d (0 :: rest) d.nameLen.be rest := by
  refine ⟨{ d.setField .value ⟨0, 0, 0, 0⟩ with
    currentBuffer := ⟨d.currentBuffer.target, d.currentBuffer.offset + 1⟩ }, ?_, rfl, ?_⟩
  · have hzero : (⟨0, 0, 0, 0⟩ : U32).be = 0 := by decide
    change d.nameLen.be + (⟨0, 0, 0, 0⟩ : U32).be = d.nameLen.be
    rw [hzero, Nat.add_zero]
  · simp only [turn, hs, readNameLen, readKeyvalLength_short .value d 0 rest (by decide)]

theorem sees_value (hs : d.parseState = .readValueLen) (rest : List Byte) :
    Sees p d rest (d.nameLen.be + d.valueLen.be) rest := by
  refine ⟨d, rfl, rfl, ?_⟩
  simp only [turn, hs]

theorem Sees.throws (h : Sees p d data size rest) (hw : size < 4294967296)
    (hlt : d.effectiveMaxPairSize p < size) (fuel : Nat) : Throws (loop p (fuel + 1) d data) := by
  obtain ⟨e, hsize, hlim, ht⟩ := h
  have hsize' : pairSize e.nameLen.be e.valueLen.be = size := by
    rw [pairSize, hsize, Nat.mod_eq_of_lt hw]
  have hthrows : turn p d data = .throws
      (pairSizeMessage e.nameLen.be e.valueLen.be (d.effectiveMaxPairSize p)) := by
    rw [ht, willReadBuffer_eq]
    simp only [hsize', hlim, hlt, if_true]
  rw [loop, hthrows]
  exact ⟨_, rfl⟩

theorem Sees.again (h : Sees p d data size rest) (hw : size < 4294967296)
    (hle : size ≤ d.effectiveMaxPairSize p) (hfit : size ≤ rest.length) :
    ∃ pair d', d'.parseState = .readNew ∧
      turn p d data = .again pair d' (rest.drop size) := by
  obtain ⟨e, hsize, hlim, ht⟩ := h
  have hsize' : pairSize e.nameLen.be e.valueLen.be = size := by
    rw [pairSize, hsize, Nat.mod_eq_of_lt hw]
  rw [ht, willReadBuffer_eq]
  simp only [hsize', hsize, hlim, Nat.not_lt.mpr hle, hfit, if_true, if_false]
  exact ⟨_, _, rfl, rfl⟩

theorem Sees.silent (h : Sees p d data size rest) (hl : rest.length ≤ 65535)
    (hlt : rest.length < size) (fuel : Nat) : (loop p (fuel + 1) d data).calls = [] := by
  obtain ⟨e, rfl, -, ht⟩ := h
  apply loop_stops
  rw [ht]
  intro pair d' data' hagain
  have hle := (pair_again hl hagain).1
  omega

/-- An empty pair is seen, and one byte behind it. -/
theorem Sees.faults (h : Sees p d data 0 [0]) (fuel : Nat) :
    Faults (loop p (fuel + 2) d data) := by
  obtain ⟨pair, d', hs, ht⟩ := h.again (by omega) (Nat.zero_le _) (Nat.zero_le _)
  have hnext : turn p d' [0] = .fault .readPastRecord := by
    simp only [turn, hs, readNew, readKeyvalLength_short .name d' 0 [] (by decide), readNameLen]
    rfl
  rw [loop, ht]
  simp only [List.drop_zero, List.cons_ne_nil, if_false]
  rw [loop, hnext]
  exact ⟨_, rfl⟩

end

/-- The first byte of a record and a zero behind it go into the length that was
split, which makes a pair of `size` bytes. -/
def Misreads (p : Params) (d : Deserializer) (size : Byte → Nat) : Prop :=
  ∀ x rest, ∃ fuel e data, d.feed p (x :: 0 :: rest) = loop p (fuel + 2) e data ∧
    e.effectiveMaxPairSize p = d.effectiveMaxPairSize p ∧ Sees p e data (size x) rest

/-- No record tells the parser from a new object. -/
def AsNew (p : Params) (d : Deserializer) (n v : U32) : Prop :=
  ∀ data : List Byte, data.length ≤ 65535 →
    Same (d.feed p data) ((fresh d.maxPairSize n v).feed p data)

theorem Same.trans_single {p : Params} {a b : Deserializer} {data : List Byte}
    (h : Same (feedAll p a [data]) (feedAll p b [data])) :
    Same (a.feed p data) (b.feed p data) := by
  have hone : ∀ d : Deserializer, Same (d.feed p data) (feedAll p d [data]) := by
    intro d
    simp only [feedAll]
    cases hf : d.feed p data with
    | mk calls o =>
      cases o with
      | returns finished d' => refine ⟨?_, ?_, ?_⟩ <;> simp [Fed.prepend, Faults]
      | throws what | fault f => exact ⟨rfl, fun _ => Iff.rfl, Iff.rfl⟩
  have ha := hone a
  have hb := hone b
  refine ⟨?_, ?_, ?_⟩
  · rw [ha.calls, h.calls, hb.calls]
  · intro what
    rw [ha.throws, h.throws, hb.throws]
  · rw [ha.faults, h.faults, hb.faults]

/-! ### What a new object does -/

section
variable (p : Params) (m : Nat) (n v : U32)

theorem fresh_pair (e : Entry) (he : e.Short) :
    (e.size ≤ (fresh m n v).effectiveMaxPairSize p →
      ((fresh m n v).feed p e.bytes).calls = [e.pair]) ∧
      ¬ Faults ((fresh m n v).feed p e.bytes) := by
  have hbytes : e.bytes = encode [e] := by simp
  have hshort : ∀ f ∈ [e], f.Short := by simpa using he
  rw [hbytes]
  by_cases hle : e.size ≤ (fresh m n v).effectiveMaxPairSize p
  · obtain ⟨d', -, -, hf⟩ := feed_short p (fresh_ready m n v) (List.cons_ne_nil e []) hshort
      (by simpa using hle)
    rw [hf]
    exact ⟨fun _ => rfl, by simp [Faults]⟩
  · have hnone : ∀ f ∈ ([] : List Entry), f.Short := by simp
    obtain ⟨-, what, ht⟩ := feed_oversize p (fresh_ready m n v) [] hnone he (by simp) (by omega)
    rw [List.nil_append] at ht
    refine ⟨fun h => absurd h hle, ?_⟩
    rintro ⟨f, hf⟩
    rw [ht] at hf
    cases hf

/-- Two zero bytes are an empty pair. -/
theorem fresh_empty : ((fresh m n v).feed p [0, 0]).calls = [([], [])] ∧
    ¬ Faults ((fresh m n v).feed p [0, 0]) := by
  obtain ⟨hc, hf⟩ := fresh_pair p m n v ⟨[], [], .short, .short, by decide, by decide⟩ ⟨rfl, rfl⟩
  exact ⟨hc (Nat.zero_le _), hf⟩

/-- A name of one byte. -/
theorem fresh_one : (1 ≤ (fresh m n v).effectiveMaxPairSize p →
      ((fresh m n v).feed p [1, 0, 0]).calls = [([0], [])]) ∧
    ¬ Faults ((fresh m n v).feed p [1, 0, 0]) :=
  fresh_pair p m n v ⟨[0], [], .short, .short, by decide, by decide⟩ ⟨rfl, rfl⟩

/-- A four-byte length, behind which the record is dropped. -/
theorem fresh_long : ((fresh m n v).feed p (128 :: 0 :: List.replicate 128 0)).calls = [] ∧
    ¬ Throws ((fresh m n v).feed p (128 :: 0 :: List.replicate 128 0)) := by
  have hlong := readKeyvalLength_long .name (fresh m n v) 128 0 0 0 (List.replicate 126 0)
    (by decide)
  have hdrop : decide ((List.replicate 126 (0 : Byte)).length ≠ 4) = true := by
    rw [List.length_replicate]
    decide
  have hdata : List.replicate 128 (0 : Byte) = 0 :: 0 :: List.replicate 126 0 := rfl
  have hstate : (fresh m n v).parseState = .readNew := rfl
  rw [hdrop] at hlong
  rw [hdata, feed_ready (fresh_ready m n v) (List.cons_ne_nil _ _), loop]
  simp only [turn, hstate, readNew, hlong, Throws]
  simp

end

/-! ### The difference -/

theorem Misreads.not_asNew {p : Params} {d : Deserializer} {n v : U32} {size : Byte → Nat}
    (h : Misreads p d size) (hw : ∀ x, size x < 4294967296)
    (hsize : (∀ x, size x = 0) ∨ ∃ k, 0 < k ∧ ∀ x, size x = x.toNat * k) : ¬ AsNew p d n v := by
  intro hd
  have hlim : (fresh d.maxPairSize n v).effectiveMaxPairSize p = d.effectiveMaxPairSize p := rfl
  have hone := hd [1, 0, 0] (by decide)
  obtain ⟨hcalls, hfaults⟩ := fresh_one p d.maxPairSize n v
  rcases hsize with hzero | ⟨k, hk, hsize⟩
  · obtain ⟨fuel, e, data, hf, -, hs⟩ := h 1 [0]
    rw [hzero] at hs
    rw [hf] at hone
    exact hfaults (hone.faults.mp (hs.faults fuel))
  · have hlong := hd (128 :: 0 :: List.replicate 128 0) (by
      rw [List.length_cons, List.length_cons, List.length_replicate]
      decide)
    obtain ⟨hnone, hthrows⟩ := fresh_long p d.maxPairSize n v
    obtain ⟨fuel, e, data, hf, he, hs⟩ := h 128 (List.replicate 128 0)
    have h128 : size 128 = 128 * k := hsize 128
    have hw128 := hw 128
    rw [hf] at hlong
    by_cases hover : e.effectiveMaxPairSize p < size 128
    · obtain ⟨what, ht⟩ := hs.throws hw128 hover (fuel + 1)
      exact hthrows ⟨what, (hlong.throws what).mp ht⟩
    · by_cases hfit : size 128 ≤ 128
      · obtain ⟨pair, d', -, ht⟩ := hs.again hw128 (by omega)
          (by rw [List.length_replicate]; exact hfit)
        have hcalls' := hlong.calls.trans hnone
        rw [loop, ht] at hcalls'
        by_cases hr : (List.replicate 128 (0 : Byte)).drop (size 128) = []
        · simp only [hr, if_true] at hcalls'
          exact List.cons_ne_nil _ _ hcalls'
        · simp only [hr, if_false, Fed.cons] at hcalls'
          exact List.cons_ne_nil _ _ hcalls'
      · -- the name is longer than the record with the one byte
        obtain ⟨fuel', e', data', hf', -, hs'⟩ := h 1 [0]
        have h1 : size 1 = k := by
          rw [hsize]
          exact Nat.one_mul k
        have hlt : [(0 : Byte)].length < size 1 := by
          rw [h1, List.length_singleton]
          omega
        rw [hf'] at hone
        have hnone' := hone.calls.symm.trans (hs'.silent (by decide) hlt (fuel' + 1))
        rw [hcalls (by rw [hlim]; omega)] at hnone'
        exact List.cons_ne_nil _ _ hnone'

/-! ### The bytes that a length gets -/

theorem write_first (m : U32) {off : Nat} (ho : 1 ≤ off) {tail : List Byte}
    (hoff : off + tail.length ≤ 3) (ht : tail = [] ∨ tail = [0])
    (h : (m.write off (0 :: tail)).be = 0) :
    ∃ k, 0 < k ∧ ∀ x, (m.write off (x :: tail)).be = x.toNat * k := by
  have hzero := U32.eq_zero_of_be h
  rcases ht with rfl | rfl
  · rw [List.length_nil] at hoff
    obtain rfl | rfl | rfl : off = 1 ∨ off = 2 ∨ off = 3 := by omega
    · obtain ⟨h0, -, h2, h3⟩ := U32.mk.inj hzero
      refine ⟨65536, by omega, fun x => ?_⟩
      change U32.be ⟨m.b0, x, m.b2, m.b3⟩ = _
      rw [show m.b0 = 0 from h0, show m.b2 = 0 from h2, show m.b3 = 0 from h3]
      simp [U32.be]
    · obtain ⟨h0, h1, -, h3⟩ := U32.mk.inj hzero
      refine ⟨256, by omega, fun x => ?_⟩
      change U32.be ⟨m.b0, m.b1, x, m.b3⟩ = _
      rw [show m.b0 = 0 from h0, show m.b1 = 0 from h1, show m.b3 = 0 from h3]
      simp [U32.be]
    · obtain ⟨h0, h1, h2, -⟩ := U32.mk.inj hzero
      refine ⟨1, by omega, fun x => ?_⟩
      change U32.be ⟨m.b0, m.b1, m.b2, x⟩ = _
      rw [show m.b0 = 0 from h0, show m.b1 = 0 from h1, show m.b2 = 0 from h2]
      simp [U32.be]
  · rw [List.length_singleton] at hoff
    obtain rfl | rfl : off = 1 ∨ off = 2 := by omega
    · obtain ⟨h0, -, -, h3⟩ := U32.mk.inj hzero
      refine ⟨65536, by omega, fun x => ?_⟩
      change U32.be ⟨m.b0, x, 0, m.b3⟩ = _
      rw [show m.b0 = 0 from h0, show m.b3 = 0 from h3]
      simp [U32.be]
    · obtain ⟨h0, h1, -, -⟩ := U32.mk.inj hzero
      refine ⟨256, by omega, fun x => ?_⟩
      change U32.be ⟨m.b0, m.b1, x, 0⟩ = _
      rw [show m.b0 = 0 from h0, show m.b1 = 0 from h1]
      simp [U32.be]

theorem feed_delivers {p : Params} {d : Deserializer} {data : List Byte} (hne : data ≠ [])
    (h : (d.feed p data).calls ≠ []) : d.remainingLen ≤ data.length ∧ d.remainingLen ≤ room d := by
  by_cases hr : min d.remainingLen data.length ≤ room d
  · by_cases hl : d.remainingLen ≤ data.length
    · rw [Nat.min_eq_left hl] at hr
      exact ⟨hl, hr⟩
    · rw [Nat.min_eq_right (by omega)] at hr
      rw [feed_waits p hne (by omega) hr] at h
      exact absurd rfl h
  · rw [feed_overruns p hne hr] at h
    exact absurd rfl h

theorem loop_delivers {p : Params} {fuel : Nat} {d : Deserializer} {data : List Byte}
    (h : (loop p (fuel + 1) d data).calls ≠ []) :
    ∃ pair d' rest, turn p d data = .again pair d' rest ∧
      ∃ calls, (loop p (fuel + 1) d data).calls = pair :: calls := by
  rw [loop] at h ⊢
  cases ht : turn p d data with
  | again pair d' rest =>
    refine ⟨pair, d', rest, rfl, ?_⟩
    by_cases hr : rest = []
    · exact ⟨[], by simp only [hr, if_true]⟩
    · exact ⟨(loop p fuel d' rest).calls, by simp only [hr, if_false, Fed.cons]⟩
  | wait d' | throws what | fault f =>
    simp only [ht] at h
    exact absurd rfl h

theorem nameLen_resumed (d : Deserializer) (src : List Byte) :
    (resumed d src).nameLen.be = fieldAfter d .name src :=
  field_resumed d src .name

theorem valueLen_resumed (d : Deserializer) (src : List Byte) :
    (resumed d src).valueLen.be = fieldAfter d .value src :=
  field_resumed d src .value

/-- What a length can become that read zero bytes as zero. -/
theorem fieldAfter_zero {d : Deserializer} (hb : Behind d) {dest : Field}
    (ht : d.currentBuffer.target = .length dest ∨ d.currentBuffer.target = .stringBuffer)
    {tail : List Byte} (htail : tail = [] ∨ tail = [0]) (hroom : tail.length + 1 ≤ room d)
    (h : fieldAfter d dest (0 :: tail) = 0) :
    (∀ x, fieldAfter d dest (x :: tail) = 0) ∨
      ∃ k, 0 < k ∧ ∀ x, fieldAfter d dest (x :: tail) = x.toNat * k := by
  rcases ht with ht | ht
  · have ho := hb dest ht
    simp only [room, ht] at hroom
    simp only [fieldAfter, ht, if_true] at h ⊢
    exact Or.inr (write_first (d.field dest) ho (by omega) htail h)
  · have hne : ¬ d.currentBuffer.target = .length dest := by
      rw [ht]
      exact Target.noConfusion
    simp only [fieldAfter, hne, if_false] at h ⊢
    exact Or.inl fun _ => h

theorem lengths_empty {data : List Byte} {n v : Nat} (hle : n + v ≤ data.length)
    (h : (([], []) : Pair) = (data.take n, (data.drop n).take v)) : n = 0 ∧ v = 0 := by
  obtain ⟨hn, hv⟩ := Prod.mk.inj h
  have hn' := congrArg List.length hn
  have hv' := congrArg List.length hv
  simp only [List.length_take, List.length_drop, List.length_nil] at hn' hv'
  omega

/-- The length `dest` was split; it ends with the first byte of the next record and
`tail` behind it, and zero bytes make both lengths zero. -/
structure Ends (d : Deserializer) (dest : Field) (tail : List Byte) : Prop where
  shape : dest = .name ∧ tail = [] ∨ dest = .value ∧ tail = [0] ∧ fieldAfter d .name [0, 0] = 0
  state : d.parseState = stateOf dest
  target : d.currentBuffer.target = .length dest ∨ d.currentBuffer.target = .stringBuffer
  missing : d.remainingLen = tail.length + 1
  room : d.remainingLen ≤ NvpBounds.room d
  zero : fieldAfter d dest (0 :: tail) = 0

/-- Two zero bytes are delivered as an empty pair, behind the bytes that were missing. -/
theorem AsNew.delivers {p : Params} {d : Deserializer} {n v : U32} (h : AsNew p d n v) :
    d.remainingLen ≤ 2 ∧ d.remainingLen ≤ room d ∧
      ¬ Faults (loop p (2 - d.remainingLen + 2)
        (resumed d (([0, 0] : List Byte).take d.remainingLen))
        (([0, 0] : List Byte).drop d.remainingLen)) ∧
      ∃ d' rest, turn p (resumed d (([0, 0] : List Byte).take d.remainingLen))
        (([0, 0] : List Byte).drop d.remainingLen) = .again ([], []) d' rest := by
  have hsame := h [0, 0] (by decide)
  obtain ⟨hempty, hfaults⟩ := fresh_empty p d.maxPairSize n v
  have hcalls := hsame.calls.trans hempty
  have hsafe : ¬ Faults (d.feed p [0, 0]) := fun hf => hfaults (hsame.faults.mp hf)
  obtain ⟨hl, hr⟩ := feed_delivers (p := p) (d := d) (List.cons_ne_nil 0 [0]) (by
    rw [hcalls]
    exact List.cons_ne_nil _ _)
  rw [feed_resumes p (List.cons_ne_nil 0 [0]) hl hr] at hcalls hsafe
  refine ⟨hl, hr, hsafe, ?_⟩
  obtain ⟨pair, d', rest, ht, calls, hfirst⟩ := loop_delivers (by
    rw [hcalls]
    exact List.cons_ne_nil _ _)
  rw [hcalls] at hfirst
  simp only [List.cons.injEq] at hfirst
  obtain ⟨rfl, -⟩ := hfirst
  exact ⟨d', rest, ht⟩

/-- A stuck parser that takes two zero bytes for an empty pair ends a length with them. -/
theorem Stuck.ends {p : Params} {d : Deserializer} {n v : U32} (hd : Stuck d)
    (h : AsNew p d n v) : ∃ dest tail, Ends d dest tail := by
  obtain ⟨hl, hr, hsafe, d', rest, ht⟩ := h.delivers
  obtain ⟨hrem, hstate, -⟩ := resumed_fields d (([0, 0] : List Byte).take d.remainingLen)
  have hlen : (([0, 0] : List Byte).drop d.remainingLen).length = 2 - d.remainingLen := by
    rw [List.length_drop]
    rfl
  have hlen' : (([0, 0] : List Byte).drop d.remainingLen).length ≤ 65535 := by omega
  cases hd.blocks with
  | pair state missing =>
    -- less than two bytes are left for the new pair
    obtain ⟨e, -, hdata⟩ := (new_turn (hstate.trans state) hlen').2 _ d' rest ht
    have htwo := two_le_bytes_length e
    have hbytes := congrArg List.length hdata
    rw [List.length_append] at hbytes
    omega
  | marked dest state marker =>
    refine absurd ht (marked_turn (hstate.trans state) ?_ hlen' _ d' rest)
    rw [← hd.behind.marker (([0, 0] : List Byte).take d.remainingLen) dest] at marker
    cases dest <;> exact marker
  | split dest state missing target =>
    have hstate' := hstate.trans state
    cases dest with
    | name =>
      simp only [turn, hstate', stateOf] at ht
      obtain ⟨-, ⟨b, -, hle, -, -⟩, -⟩ := value_again hlen' ht
      have hone : d.remainingLen = 1 := by omega
      have hzero : (resumed d (([0, 0] : List Byte).take d.remainingLen)).nameLen.be = 0 := by
        omega
      have hfield := nameLen_resumed d (([0, 0] : List Byte).take d.remainingLen)
      rw [hzero, hone] at hfield
      exact ⟨.name, [], Or.inl ⟨rfl, rfl⟩, state, target, hone, hr, hfield.symm⟩
    | value =>
      simp only [turn, hstate', stateOf] at ht
      obtain ⟨hle, hpair, -⟩ := pair_again hlen' ht
      have hname := nameLen_resumed d (([0, 0] : List Byte).take d.remainingLen)
      have hvalue := valueLen_resumed d (([0, 0] : List Byte).take d.remainingLen)
      obtain ⟨hn, hv⟩ := lengths_empty hle hpair
      have htwo : d.remainingLen = 2 := by
        by_contra hne
        have hone : d.remainingLen = 1 := by omega
        have hsees := sees_value (p := p) hstate' (([0, 0] : List Byte).drop d.remainingLen)
        rw [hn, hv] at hsees
        rw [hone] at hsees hsafe
        exact hsafe (hsees.faults 1)
      rw [hn, htwo] at hname
      rw [hv, htwo] at hvalue
      exact ⟨.value, [0], Or.inr ⟨rfl, rfl, hname.symm⟩, state, target, htwo, hr, hvalue.symm⟩

theorem Ends.misreads {p : Params} {d : Deserializer} {dest : Field} {tail : List Byte}
    (h : Ends d dest tail) : Misreads p d fun x => fieldAfter d dest (x :: tail) := by
  have hlim : ∀ src, (resumed d src).effectiveMaxPairSize p = d.effectiveMaxPairSize p := by
    intro src
    simp only [effectiveMaxPairSize, (resumed_fields d src).2.2]
  intro x rest
  have hr := h.room
  have hstate := h.state
  rcases h.shape with ⟨rfl, rfl⟩ | ⟨rfl, rfl, hname⟩
  · have hone : d.remainingLen = 1 := h.missing
    refine ⟨rest.length + 1, resumed d [x], 0 :: rest, ?_, hlim [x], ?_⟩
    · rw [feed_resumes p (List.cons_ne_nil _ _) (by rw [hone]; exact Nat.le_add_left 1 _) hr, hone]
      rfl
    · have hsees := sees_name (p := p) (d := resumed d [x])
        ((resumed_fields d [x]).2.1.trans hstate) rest
      rw [nameLen_resumed] at hsees
      exact hsees
  · have htwo : d.remainingLen = 2 := h.missing
    refine ⟨rest.length, resumed d [x, 0], rest, ?_, hlim [x, 0], ?_⟩
    · rw [feed_resumes p (List.cons_ne_nil _ _) (by rw [htwo]; exact Nat.le_add_left 2 _) hr, htwo]
      rfl
    · have hsees := sees_value (p := p) (d := resumed d [x, 0])
        ((resumed_fields d [x, 0]).2.1.trans hstate) rest
      -- the bytes do not go into the name length
      have hne : ¬ d.currentBuffer.target = .length .name := by
        rcases h.target with ht | ht <;> rw [ht] <;> decide
      have hkept : fieldAfter d .name [x, 0] = fieldAfter d .name [0, 0] := by
        simp only [fieldAfter, hne, if_false]
      rw [nameLen_resumed, valueLen_resumed, hkept, hname, Nat.zero_add] at hsees
      exact hsees

theorem Stuck.not_asNew {p : Params} {d : Deserializer} {n v : U32} (hd : Stuck d) :
    ¬ AsNew p d n v := by
  intro h
  obtain ⟨dest, tail, he⟩ := hd.ends h
  have htail : tail = [] ∨ tail = [0] := by
    rcases he.shape with ⟨-, ht⟩ | ⟨-, ht, -⟩
    · exact Or.inl ht
    · exact Or.inr ht
  have hroom : tail.length + 1 ≤ room d := by
    rw [← he.missing]
    exact he.room
  have hlt : ∀ x, fieldAfter d dest (x :: tail) < 4294967296 := by
    intro x
    rw [← field_resumed]
    exact U32.be_lt _
  exact he.misreads.not_asNew hlt (fieldAfter_zero hd.behind he.target htail hroom he.zero) h

/-- A stuck parser is not as good as a new object, whatever that finds in memory. -/
theorem Stuck.not_resets {p : Params} {d : Deserializer} (hd : Stuck d) : ¬ Resets p d := by
  rintro ⟨n, v, h⟩
  refine hd.not_asNew (p := p) (n := n) (v := v) ?_
  intro data hl
  have hsame := h [data] (by simpa [Fits] using hl)
  rw [feedAll_ended] at hsame
  exact hsame.trans_single

/-! ## The end of a stream -/

/-- **Reset.** After a stream that was read without an error, the parser treats the
next stream as a new object does exactly when each record of the first one was a list of
whole pairs with one-byte lengths. -/
theorem resets_iff {p : Params} {m : Nat} {n v : U32} {records : List (List Byte)} {b : Bool}
    {d : Deserializer} (hl : Fits records)
    (h : (feedAll p (fresh m n v) records).outcome = .returns b d) :
    Resets p d ↔ Aligned records := by
  rcases feedAll_ready (fresh_ready m n v) hl h with ⟨hready, ha⟩ | ⟨hstuck, ha⟩
  · exact ⟨fun _ => ha, fun _ => ready_resets p hready⟩
  · exact ⟨fun hr => absurd hr hstuck.not_resets, fun ha' => absurd ha' ha⟩

/-- The parser that has read `a=b` in one record and an empty pair in another. -/
def waiting : Deserializer :=
  ⟨[], ⟨0, 0, 0, 0⟩, ⟨0, 0, 0, 0⟩, ⟨.wild, 6⟩, 0, .readNew, 0⟩

theorem resets_iff_wholePairs : Resets .standard waiting := by
  have hl : Fits [[1, 1, 97, 98], [0, 0]] := by simp [Fits]
  have hrun : (feedAll .standard (fresh 0 ⟨0, 0, 0, 0⟩ ⟨0, 0, 0, 0⟩)
      [[1, 1, 97, 98], [0, 0]]).outcome = .returns false waiting := by decide +kernel
  refine (resets_iff hl hrun).mpr ?_
  simp only [Aligned, List.mem_cons, forall_eq_or_imp, List.not_mem_nil, false_implies,
    implies_true, and_true]
  refine ⟨⟨[shortEntry], rfl, ?_⟩, ⟨[⟨[], [], .short, .short, by decide, by decide⟩], rfl, ?_⟩⟩
  · intro e he
    rw [List.mem_singleton.mp he]
    exact ⟨rfl, rfl⟩
  · simp [Entry.Short]

/-- The parser that has read all but the last byte of `a=b`. -/
def inside : Deserializer :=
  ⟨[97, 0], ⟨1, 0, 0, 0⟩, ⟨1, 0, 0, 0⟩, ⟨.stringBuffer, 1⟩, 1, .readNew, 0⟩

/-- The next stream is a whole `a=b`, which a new object would deliver. -/
theorem cut_pair_kept :
    (feedAll .standard (fresh 0 ⟨0, 0, 0, 0⟩ ⟨0, 0, 0, 0⟩) [[1, 1, 97]]).outcome =
        .returns false inside ∧
      (inside.feed .standard []).outcome = .returns true inside ∧
      (feedAll .standard inside [[], [1, 1, 97, 98]]).calls = [] ∧
      (∀ n v, ((fresh 0 n v).feed .standard [1, 1, 97, 98]).calls = [([97], [98])]) ∧
      ¬ Resets .standard inside := by
  have hnew : ∀ n v, ((fresh 0 n v).feed .standard [1, 1, 97, 98]).calls = [([97], [98])] := by
    intro n v
    have hle : shortEntry.size ≤
        effectiveMaxPairSize .standard (fresh 0 ⟨0, 0, 0, 0⟩ ⟨0, 0, 0, 0⟩) := by decide
    exact (fresh_pair .standard 0 n v shortEntry ⟨rfl, rfl⟩).1 hle
  refine ⟨by decide +kernel, by decide +kernel, by decide +kernel, hnew, ?_⟩
  rintro ⟨n, v, h⟩
  have hsame := h [[1, 1, 97, 98]] (by simp [Fits])
  rw [feedAll_ended] at hsame
  have hcalls := hsame.trans_single.calls
  have hnone : (inside.feed .standard [1, 1, 97, 98]).calls = [] := by decide +kernel
  change _ = ((fresh 0 n v).feed .standard [1, 1, 97, 98]).calls at hcalls
  rw [hnone, hnew n v] at hcalls
  exact absurd hcalls (List.cons_ne_nil _ _).symm

end Tfcgi.NvpReset
