import Tfcgi.NameValuePairs

/-!
# The name-value grammar and what the deserializer makes of it

An `Entry` is a pair with a choice of form for each length; `encode` is the
stream a list of entries stands for and `decode` the format's own reader.

* `decode_encode`: the reader gives back the pairs, whatever the forms;
* `feed_encode_iff`: `feed` takes a record of entries exactly when both lengths
  of every entry have the one-byte form, since a four-byte length is either
  left with its marker bit or ends the call.
-/

namespace Tfcgi.NvpGrammar

open Tfcgi.HostOrder Tfcgi.Protocol Tfcgi.NameValuePairs
open Tfcgi.NameValuePairs.Deserializer

/-! ## Entries -/

inductive LenForm where
  | short
  | long
  deriving DecidableEq, Repr

def LenForm.Fits : LenForm → Nat → Prop
  | .short, n => n ≤ 127
  | .long, n => n < 2147483648

instance (f : LenForm) (n : Nat) : Decidable (f.Fits n) :=
  match f with
  | .short => inferInstanceAs (Decidable (n ≤ 127))
  | .long => inferInstanceAs (Decidable (n < 2147483648))

def lengthBytes : LenForm → Nat → List Byte
  | .short, n => [.ofNat n]
  | .long, n => [.ofNat (n / 16777216 + 128), .ofNat (n / 65536), .ofNat (n / 256), .ofNat n]

/-- The form `serialize_size` picks. -/
def LenForm.ofSize (n : Nat) : LenForm := if n ≤ 127 then .short else .long

theorem LenForm.Fits.lt {f : LenForm} {n : Nat} (h : f.Fits n) : n < 2147483648 := by
  cases f <;> simp only [LenForm.Fits] at h <;> omega

theorem LenForm.ofSize_fits {n : Nat} (h : n < 2147483648) : (LenForm.ofSize n).Fits n := by
  unfold LenForm.ofSize
  split <;> assumption

structure Entry where
  name : List Byte
  value : List Byte
  nameForm : LenForm
  valueForm : LenForm
  nameFits : nameForm.Fits name.length
  valueFits : valueForm.Fits value.length

namespace Entry

def pair (e : Entry) : Pair := (e.name, e.value)

/-- Name length plus value length, which the pair size limit bounds. -/
def size (e : Entry) : Nat := e.name.length + e.value.length

def bytes (e : Entry) : List Byte :=
  lengthBytes e.nameForm e.name.length ++ (lengthBytes e.valueForm e.value.length ++
    (e.name ++ e.value))

/-- Both lengths have the one-byte form. -/
def Short (e : Entry) : Prop := e.nameForm = .short ∧ e.valueForm = .short

/-- The same pair with the forms that `serialize_size` picks. -/
def canonical (e : Entry) : Entry where
  name := e.name
  value := e.value
  nameForm := .ofSize e.name.length
  valueForm := .ofSize e.value.length
  nameFits := LenForm.ofSize_fits e.nameFits.lt
  valueFits := LenForm.ofSize_fits e.valueFits.lt

end Entry

def encode (es : List Entry) : List Byte := es.flatMap Entry.bytes

@[simp] theorem encode_nil : encode [] = [] := rfl

@[simp] theorem encode_cons (e : Entry) (es : List Entry) :
    encode (e :: es) = e.bytes ++ encode es := rfl

theorem encode_append (es fs : List Entry) : encode (es ++ fs) = encode es ++ encode fs := by
  simp [encode]

theorem lengthBytes_length_pos (f : LenForm) (n : Nat) : 0 < (lengthBytes f n).length := by
  cases f <;> simp [lengthBytes]

theorem two_le_bytes_length (e : Entry) : 2 ≤ e.bytes.length := by
  have hn := lengthBytes_length_pos e.nameForm e.name.length
  have hv := lengthBytes_length_pos e.valueForm e.value.length
  simp only [Entry.bytes, List.length_append]
  omega

theorem bytes_ne_nil (e : Entry) : e.bytes ≠ [] := by
  intro h
  have h2 := two_le_bytes_length e
  simp [h] at h2

theorem two_mul_le_encode_length (es : List Entry) : 2 * es.length ≤ (encode es).length := by
  induction es with
  | nil => simp
  | cons e es ih =>
    have h2 := two_le_bytes_length e
    simp only [encode_cons, List.length_append, List.length_cons]
    omega

theorem encode_ne_nil {es : List Entry} : encode es ≠ [] ↔ es ≠ [] := by
  cases es with
  | nil => simp
  | cons e es => simp [bytes_ne_nil]

/-! ## The reader of the format -/

def decodeLength : List Byte → Option (Nat × List Byte)
  | [] => none
  | b :: w =>
    if b.toNat < 128 then some (b.toNat, w)
    else match w with
      | c :: d :: e :: w =>
        some ((b.toNat - 128) * 16777216 + c.toNat * 65536 + d.toNat * 256 + e.toNat, w)
      | _ => none

def decodeEntry (w : List Byte) : Option (Pair × List Byte) := do
  let (n, w) ← decodeLength w
  let (v, w) ← decodeLength w
  if n + v ≤ w.length then some ((w.take n, (w.drop n).take v), w.drop (n + v)) else none

def decodeAux : Nat → List Byte → Option (List Pair)
  | fuel, w =>
    if w = [] then some []
    else match fuel with
      | 0 => none
      | fuel + 1 => do
        let (pair, w) ← decodeEntry w
        let pairs ← decodeAux fuel w
        some (pair :: pairs)

def decode (w : List Byte) : Option (List Pair) := decodeAux w.length w

theorem decodeLength_bytes (f : LenForm) (n : Nat) (hf : f.Fits n) (w : List Byte) :
    decodeLength (lengthBytes f n ++ w) = some (n, w) := by
  cases f with
  | short =>
    simp only [LenForm.Fits] at hf
    have hn : (UInt8.ofNat n).toNat = n := by rw [UInt8.toNat_ofNat']; omega
    simp only [lengthBytes, List.cons_append, List.nil_append, decodeLength, hn,
      if_pos (show n < 128 by omega)]
  | long =>
    simp only [LenForm.Fits] at hf
    simp only [lengthBytes, List.cons_append, List.nil_append, decodeLength, UInt8.toNat_ofNat']
    rw [if_neg (by omega)]
    simp only [Option.some.injEq, Prod.mk.injEq, and_true]
    omega

theorem decodeEntry_bytes (e : Entry) (w : List Byte) :
    decodeEntry (e.bytes ++ w) = some (e.pair, w) := by
  simp only [decodeEntry, Entry.bytes, List.append_assoc, decodeLength_bytes _ _ e.nameFits,
    decodeLength_bytes _ _ e.valueFits, Option.bind_eq_bind, Option.bind_some]
  have hd : (e.name ++ (e.value ++ w)).drop (e.name.length + e.value.length) = w := by
    rw [← List.append_assoc, ← List.length_append, List.drop_left]
  simp [Entry.pair, hd]

/-- The format is unambiguous. -/
theorem decode_encode (es : List Entry) : decode (encode es) = some (es.map Entry.pair) := by
  have key : ∀ (es : List Entry) (fuel : Nat), es.length ≤ fuel →
      decodeAux fuel (encode es) = some (es.map Entry.pair) := by
    intro es
    induction es with
    | nil => intro fuel _; unfold decodeAux; simp
    | cons e es ih =>
      intro fuel hf
      obtain ⟨fuel, rfl⟩ : ∃ k, fuel = k + 1 := ⟨fuel - 1, by simp at hf; omega⟩
      have hes := ih fuel (by simpa using hf)
      unfold decodeAux
      simp [bytes_ne_nil, decodeEntry_bytes, hes]
  refine key es _ ?_
  have h2 := two_mul_le_encode_length es
  omega

/-! ## The deserializer on entries -/

theorem be_short {n : Nat} (h : n ≤ 127) : (⟨0, 0, 0, .ofNat n⟩ : U32).be = n := by
  simp only [U32.be, UInt8.toNat_ofNat', UInt8.toNat_ofNat]
  omega

theorem readKeyvalLength_bytes_short (dest : Field) (d : Deserializer) {n : Nat} (h : n ≤ 127)
    (data : List Byte) :
    readKeyvalLength dest d (lengthBytes .short n ++ data) = .ok (false,
      { d.setField dest ⟨0, 0, 0, .ofNat n⟩ with
        currentBuffer := ⟨d.currentBuffer.target, d.currentBuffer.offset + 1⟩ }, data) := by
  apply readKeyvalLength_short
  rw [UInt8.toNat_ofNat']
  omega

/-- An entry with one-byte lengths is delivered, or rejected by the limit. -/
theorem turn_short (p : Params) {d : Deserializer} (hd : d.parseState = .readNew) {e : Entry}
    (he : e.Short) (data : List Byte) :
    (e.size ≤ d.effectiveMaxPairSize p →
      ∃ d', turn p d (e.bytes ++ data) = .again e.pair d' data) ∧
    (d.effectiveMaxPairSize p < e.size →
      ∃ what, turn p d (e.bytes ++ data) = .throws what) := by
  have hn : e.name.length ≤ 127 := by simpa [he.1, LenForm.Fits] using e.nameFits
  have hv : e.value.length ≤ 127 := by simpa [he.2, LenForm.Fits] using e.valueFits
  have hsize : pairSize e.name.length e.value.length = e.size := by
    simp only [pairSize, Entry.size]
    omega
  have hdrop : (e.name ++ (e.value ++ data)).drop e.size = data := by
    rw [← List.append_assoc, Entry.size, ← List.length_append, List.drop_left]
  simp only [turn, hd, readNew, Entry.bytes, he.1, he.2, List.append_assoc,
    readKeyvalLength_bytes_short _ _ hn, readNameLen, readKeyvalLength_bytes_short _ _ hv,
    willReadBuffer_eq, setField, be_short hn, be_short hv, hsize]
  constructor
  · intro hle
    rw [if_neg (by simpa [effectiveMaxPairSize] using hle), if_pos (by simp [Entry.size]),
      if_pos (by simp)]
    exact ⟨_, by simp [Entry.pair, hdrop]; rfl⟩
  · intro hlt
    rw [if_pos (by simpa [effectiveMaxPairSize] using hlt)]
    exact ⟨_, rfl⟩

/-- A length field that keeps its marker bit never fits what is left of the
record. -/
theorem willReadBuffer_marked (p : Params) (d : Deserializer) (data : List Byte)
    (hm : 2147483648 ≤ d.nameLen.be + d.valueLen.be)
    (hw : d.nameLen.be + d.valueLen.be < 4294967296) (hl : data.length ≤ 4) (pair : Pair)
    (d' : Deserializer) (data' : List Byte) :
    willReadBuffer p d data ≠ .again pair d' data' := by
  have hsize : pairSize d.nameLen.be d.valueLen.be = d.nameLen.be + d.valueLen.be := by
    simp only [pairSize]
    omega
  simp only [willReadBuffer_eq, hsize]
  split
  · exact Turn.noConfusion
  · rw [if_neg (by omega)]
    exact Turn.noConfusion

theorem marked_long (n : Nat) (h : n < 2147483648) :
    (U32.mk (.ofNat (n / 16777216 + 128)) (.ofNat (n / 65536)) (.ofNat (n / 256)) (.ofNat n)).be =
      2147483648 + n := by
  simp only [U32.be, UInt8.toNat_ofNat']
  omega

theorem readKeyvalLength_bytes_long (dest : Field) (d : Deserializer) {n : Nat}
    (h : n < 2147483648) (data : List Byte) :
    readKeyvalLength dest d (lengthBytes .long n ++ data) = .ok (decide (data.length ≠ 4),
      { d.setField dest ⟨.ofNat (n / 16777216 + 128), .ofNat (n / 65536), .ofNat (n / 256),
          .ofNat n⟩ with
        currentBuffer := ⟨d.currentBuffer.target, d.currentBuffer.offset + 4⟩ }, data) := by
  apply readKeyvalLength_long
  rw [UInt8.toNat_ofNat']
  omega

/-- An entry with a four-byte length is not delivered, whatever follows it. -/
theorem turn_long (p : Params) {d : Deserializer} (hd : d.parseState = .readNew) {e : Entry}
    (he : ¬ e.Short) (data : List Byte) (pair : Pair) (d' : Deserializer) (data' : List Byte) :
    turn p d (e.bytes ++ data) ≠ .again pair d' data' := by
  obtain ⟨name, value, nameForm, valueForm, nameFits, valueFits⟩ := e
  simp only [turn, hd, readNew, Entry.bytes, List.append_assoc]
  cases nameForm with
  | long =>
    have hn := LenForm.Fits.lt nameFits
    rw [readKeyvalLength_bytes_long _ _ hn]
    by_cases hl : (lengthBytes valueForm value.length ++ (name ++ (value ++ data))).length = 4
    · simp only [hl, ne_eq, not_true_eq_false, decide_false, readNameLen]
      simp only [List.length_append] at hl
      cases valueForm with
      | short =>
        have hv : value.length ≤ 127 := valueFits
        rw [readKeyvalLength_bytes_short _ _ hv]
        simp only [lengthBytes, List.length_singleton] at hl
        apply willReadBuffer_marked <;>
          simp only [setField, marked_long _ hn, be_short hv, List.length_append] <;> omega
      | long =>
        rw [readKeyvalLength_bytes_long _ _ (LenForm.Fits.lt valueFits)]
        simp only [lengthBytes, List.length_cons, List.length_nil] at hl
        simp only [List.length_append, show name.length + (value.length + data.length) ≠ 4 by omega,
          ne_eq, not_false_eq_true, decide_true]
        exact Turn.noConfusion
    · simp only [hl, ne_eq, not_false_eq_true, decide_true]
      exact Turn.noConfusion
  | short =>
    have hn : name.length ≤ 127 := nameFits
    cases valueForm with
    | short => exact absurd ⟨rfl, rfl⟩ he
    | long =>
      have hv := LenForm.Fits.lt valueFits
      rw [readKeyvalLength_bytes_short _ _ hn]
      simp only [readNameLen]
      rw [readKeyvalLength_bytes_long _ _ hv]
      by_cases hl : (name ++ (value ++ data)).length = 4
      · simp only [hl, ne_eq, not_true_eq_false, decide_false]
        simp only [List.length_append] at hl
        apply willReadBuffer_marked <;>
          simp only [setField, marked_long _ hv, be_short hn, List.length_append] <;> omega
      · simp only [hl, ne_eq, not_false_eq_true, decide_true]
        exact Turn.noConfusion

/-- Entries with one-byte lengths within the limit, then something more. -/
theorem loop_short (p : Params) {lim : Nat} (es : List Entry) (hs : ∀ e ∈ es, e.Short)
    (hle : ∀ e ∈ es, e.size ≤ lim) {data : List Byte} (hne : data ≠ []) (fuel : Nat) :
    ∀ d : Deserializer, d.parseState = .readNew → d.effectiveMaxPairSize p = lim →
      ∃ d', d'.parseState = .readNew ∧ d'.remainingLen = d.remainingLen ∧
        d'.effectiveMaxPairSize p = lim ∧
        loop p (fuel + es.length) d (encode es ++ data) =
          (loop p fuel d' data).prepend (es.map Entry.pair) := by
  induction es with
  | nil =>
    intro d hd hm
    exact ⟨d, hd, rfl, hm, by simp [Fed.prepend]⟩
  | cons e es ih =>
    intro d hd hm
    obtain ⟨d₁, ht⟩ := (turn_short p hd (hs e (by simp)) (encode es ++ data)).1
      (by rw [hm]; exact hle e (by simp))
    obtain ⟨-, -, hn₁, hr₁, hm₁⟩ := turn_again ht
    have hm₁' : d₁.effectiveMaxPairSize p = lim := by
      rw [← hm]; simp only [effectiveMaxPairSize, hm₁]
    obtain ⟨d₂, hn₂, hr₂, hm₂, hl⟩ := ih (fun e h => hs e (by simp [h]))
      (fun e h => hle e (by simp [h])) d₁ hn₁ hm₁'
    refine ⟨d₂, hn₂, by rw [hr₂, hr₁], hm₂, ?_⟩
    have hcont : encode es ++ data ≠ [] := by simp [hne]
    rw [encode_cons, List.append_assoc, List.length_cons, ← Nat.add_assoc, loop, ht]
    simp only [hcont, if_false, hl, Fed.cons, Fed.prepend, List.map_cons, List.cons_append]

/-- A record of entries with one-byte lengths within the limit. -/
theorem loop_short_all (p : Params) {lim : Nat} {es : List Entry} (hes : es ≠ [])
    (hs : ∀ e ∈ es, e.Short) (hle : ∀ e ∈ es, e.size ≤ lim) {fuel : Nat}
    (hf : es.length ≤ fuel) {d : Deserializer} (hd : d.parseState = .readNew)
    (hm : d.effectiveMaxPairSize p = lim) :
    ∃ d', d'.parseState = .readNew ∧ d'.remainingLen = d.remainingLen ∧
      d'.effectiveMaxPairSize p = lim ∧
      loop p fuel d (encode es) = ⟨es.map Entry.pair, .returns false d'⟩ := by
  obtain ⟨init, e, rfl⟩ := List.eq_nil_or_concat es |>.resolve_left hes
  simp only [List.concat_eq_append, List.mem_append, List.mem_singleton] at *
  have he : e.Short := hs e (Or.inr rfl)
  obtain ⟨k, rfl⟩ : ∃ k, fuel = (k + 1) + init.length :=
    ⟨fuel - 1 - init.length, by simp at hf; omega⟩
  have hlast : e.bytes ≠ [] := bytes_ne_nil e
  obtain ⟨d₁, hn₁, hr₁, hm₁, hl₁⟩ := loop_short p init (fun e h => hs e (Or.inl h))
    (fun e h => hle e (Or.inl h)) hlast (k + 1) d hd hm
  obtain ⟨d₂, ht⟩ := (turn_short p hn₁ he []).1 (by rw [hm₁]; exact hle e (Or.inr rfl))
  rw [List.append_nil] at ht
  obtain ⟨-, -, hn₂, hr₂, hm₂⟩ := turn_again ht
  refine ⟨d₂, hn₂, by rw [hr₂, hr₁], ?_, ?_⟩
  · rw [← hm₁]; simp only [effectiveMaxPairSize, hm₂]
  · rw [encode_append, encode_cons, encode_nil, List.append_nil, hl₁, loop, ht]
    simp [Fed.prepend]

/-- A pass that delivers no pair ends the run. -/
theorem loop_stops {p : Params} {fuel : Nat} {d : Deserializer} {data : List Byte}
    (h : ∀ pair d' data', turn p d data ≠ .again pair d' data') :
    (loop p (fuel + 1) d data).calls = [] := by
  rw [loop]
  split
  · rename_i ht
    exact absurd ht (h _ _ _)
  all_goals rfl

/-! ## Decoding a record -/

/-- `feed` called `new_key` with `pairs`, threw nothing and waits for a new pair. -/
def Accepts (r : Fed) (pairs : List Pair) : Prop :=
  r.calls = pairs ∧ ∃ d, r.outcome = .returns false d ∧ d.Ready

theorem exists_first_not {P : Entry → Prop} {es : List Entry} (h : ¬ ∀ e ∈ es, P e) :
    ∃ pre e post, es = pre ++ e :: post ∧ (∀ e ∈ pre, P e) ∧ ¬ P e := by
  induction es with
  | nil => simp at h
  | cons e es ih =>
    by_cases he : P e
    · have hes : ¬ ∀ e ∈ es, P e := by
        intro hes
        apply h
        simp only [List.mem_cons, forall_eq_or_imp]
        exact ⟨he, hes⟩
      obtain ⟨pre, f, post, rfl, hpre, hf⟩ := ih hes
      refine ⟨e :: pre, f, post, rfl, ?_, hf⟩
      simp only [List.mem_cons, forall_eq_or_imp]
      exact ⟨he, hpre⟩
    · exact ⟨[], e, es, rfl, by simp, he⟩

theorem feed_short (p : Params) {d : Deserializer} (hd : d.Ready) {es : List Entry}
    (hne : es ≠ []) (hs : ∀ e ∈ es, e.Short) (hle : ∀ e ∈ es, e.size ≤ d.effectiveMaxPairSize p) :
    ∃ d', d'.Ready ∧ d'.effectiveMaxPairSize p = d.effectiveMaxPairSize p ∧
      d.feed p (encode es) = ⟨es.map Entry.pair, .returns false d'⟩ := by
  have h2 := two_mul_le_encode_length es
  have hf : es.length ≤ (encode es).length + 2 := by omega
  obtain ⟨d', hn, hr, hm, hl⟩ := loop_short_all p hne hs hle hf hd.1 rfl
  refine ⟨d', ⟨hn, by rw [hr, hd.2]⟩, hm, ?_⟩
  rw [feed_ready hd (encode_ne_nil.mpr hne), hl]

/-- The entries of a record up to one that is not like them. -/
theorem feed_prefix (p : Params) {d : Deserializer} (hd : d.Ready) (pre : List Entry)
    {rest : List Byte} (hne : rest ≠ []) (hs : ∀ e ∈ pre, e.Short)
    (hle : ∀ e ∈ pre, e.size ≤ d.effectiveMaxPairSize p) :
    ∃ d' fuel, d'.parseState = .readNew ∧ d'.remainingLen = 0 ∧
      d'.effectiveMaxPairSize p = d.effectiveMaxPairSize p ∧
      d.feed p (encode pre ++ rest) = (loop p (fuel + 1) d' rest).prepend (pre.map Entry.pair) := by
  have h2 := two_mul_le_encode_length pre
  obtain ⟨k, hk⟩ : ∃ k, (encode pre ++ rest).length + 2 = (k + 1) + pre.length :=
    ⟨(encode pre ++ rest).length + 1 - pre.length, by
      simp only [List.length_append]
      omega⟩
  obtain ⟨d', hn, hr, hm, hl⟩ := loop_short p pre hs hle hne (k + 1) d hd.1 rfl
  refine ⟨d', k, hn, by rw [hr, hd.2], hm, ?_⟩
  rw [feed_ready hd (by simp [hne]), hk, hl]

/-- After the entries before the first four-byte length, nothing is delivered. -/
theorem feed_long (p : Params) {d : Deserializer} (hd : d.Ready) (pre : List Entry)
    {e : Entry} (post : List Entry) (hs : ∀ e ∈ pre, e.Short) (he : ¬ e.Short)
    (hle : ∀ e ∈ pre, e.size ≤ d.effectiveMaxPairSize p) :
    (d.feed p (encode (pre ++ e :: post))).calls = pre.map Entry.pair := by
  have hrest : e.bytes ++ encode post ≠ [] := by simp [bytes_ne_nil]
  obtain ⟨d', fuel, hn, -, -, hf⟩ := feed_prefix p hd pre hrest hs hle
  rw [encode_append, encode_cons, hf]
  simp [Fed.prepend, loop_stops (turn_long p hn he (encode post))]

theorem serializeSize_eq (p : Params) {n : Nat} (h : n < 2147483648) :
    serializeSize p n = .ok (lengthBytes (.ofSize n) n) := by
  have hlim : ¬ n > 2415919103 := by omega
  by_cases hn : n ≤ 127
  · have hn' : ¬ 127 < n := by omega
    simp [serializeSize, LenForm.ofSize, hlim, hn, hn', lengthBytes]
  · have hb : UInt8.ofNat (n / 16777216) ||| 0x80 = UInt8.ofNat (n / 16777216 + 128) :=
      or_marker (by omega)
    simp [serializeSize, LenForm.ofSize, hlim, hn, lengthBytes, store_ntohl, U32.bytes, hb]

/-! ### What a four-byte length does -/

/-- The bytes of the record behind the first four-byte length of `e`. -/
def Entry.behindLong (e : Entry) (rest : List Byte) : List Byte :=
  match e.nameForm with
  | .long => lengthBytes e.valueForm e.value.length ++ (e.name ++ (e.value ++ rest))
  | .short => e.name ++ (e.value ++ rest)

/-- A four-byte length ends the call, unless exactly four bytes are behind it. -/
theorem turn_long_waits (p : Params) {d : Deserializer} (hd : d.parseState = .readNew) {e : Entry}
    (he : ¬ e.Short) {rest : List Byte} (hl : (e.behindLong rest).length ≠ 4) :
    ∃ d', turn p d (e.bytes ++ rest) = .wait d' ∧ d'.remainingLen = d.remainingLen ∧
      d'.maxPairSize = d.maxPairSize ∧
      (e.nameForm = .short → d'.parseState = .readValueLen ∧ d'.nameLen.be = e.name.length ∧
        d'.valueLen.be = 2147483648 + e.value.length) := by
  obtain ⟨name, value, nameForm, valueForm, nameFits, valueFits⟩ := e
  simp only [turn, hd, readNew, Entry.bytes, List.append_assoc]
  cases nameForm with
  | long =>
    simp only [Entry.behindLong] at hl
    rw [readKeyvalLength_bytes_long _ _ (LenForm.Fits.lt nameFits)]
    simp only [hl, ne_eq, not_false_eq_true, decide_true]
    exact ⟨_, rfl, rfl, rfl, LenForm.noConfusion⟩
  | short =>
    have hn : name.length ≤ 127 := nameFits
    cases valueForm with
    | short => exact absurd ⟨rfl, rfl⟩ he
    | long =>
      have hv := LenForm.Fits.lt valueFits
      simp only [Entry.behindLong] at hl
      rw [readKeyvalLength_bytes_short _ _ hn]
      simp only [readNameLen]
      rw [readKeyvalLength_bytes_long _ _ hv]
      simp only [hl, ne_eq, not_false_eq_true, decide_true]
      exact ⟨_, rfl, rfl, rfl, fun _ => ⟨rfl, be_short hn, marked_long _ hv⟩⟩

/-- Then the marker makes the pair exceed any limit below 2^31. -/
theorem turn_long_throws (p : Params) {d : Deserializer} (hd : d.parseState = .readNew) {e : Entry}
    (he : ¬ e.Short) (hn : e.nameForm = .short) {rest : List Byte}
    (hl : (e.behindLong rest).length = 4) (hlim : d.effectiveMaxPairSize p < 2147483648) :
    ∃ what, turn p d (e.bytes ++ rest) = .throws what := by
  obtain ⟨name, value, nameForm, valueForm, nameFits, valueFits⟩ := e
  obtain rfl : nameForm = .short := hn
  cases valueForm with
  | short => exact absurd ⟨rfl, rfl⟩ he
  | long =>
    have hn : name.length ≤ 127 := nameFits
    have hv := LenForm.Fits.lt valueFits
    simp only [Entry.behindLong] at hl
    simp only [turn, hd, readNew, Entry.bytes, List.append_assoc]
    rw [readKeyvalLength_bytes_short _ _ hn]
    simp only [readNameLen]
    rw [readKeyvalLength_bytes_long _ _ hv]
    have hsize : pairSize name.length (2147483648 + value.length) =
        name.length + (2147483648 + value.length) := by
      simp only [List.length_append] at hl
      simp only [pairSize]
      omega
    simp only [hl, ne_eq, not_true_eq_false, decide_false, willReadBuffer_eq, setField,
      be_short hn, marked_long _ hv, hsize]
    simp only [effectiveMaxPairSize] at hlim ⊢
    rw [if_pos (by omega)]
    exact ⟨_, rfl⟩

/-! ### The buffers of the keys -/

/-- The pairs of `es` with the bytes of the record from their keys on. -/
def entryViews : List Entry → List Byte → List (Pair × List Byte)
  | [], _ => []
  | e :: es, rest => (e.pair, e.name ++ (e.value ++ (encode es ++ rest))) :: entryViews es rest

theorem entryViews_pairs (es : List Entry) (rest : List Byte) :
    (entryViews es rest).map Prod.fst = es.map Entry.pair := by
  induction es with
  | nil => rfl
  | cons e es ih => rw [entryViews, List.map_cons, List.map_cons, ih]

theorem entryViews_append (es fs : List Entry) (rest : List Byte) :
    entryViews (es ++ fs) rest = entryViews es (encode fs ++ rest) ++ entryViews fs rest := by
  induction es with
  | nil => rfl
  | cons e es ih =>
    simp only [List.cons_append, entryViews, ih, encode_append, List.append_assoc]

theorem feedViews_ready {p : Params} {d : Deserializer} (hd : d.Ready) {data : List Byte}
    (hne : data ≠ []) : d.feedViews p data = loopViews p (data.length + 2) d data := by
  obtain ⟨stringBuffer, nameLen, valueLen, currentBuffer, remainingLen, state, max⟩ := d
  obtain ⟨-, rfl⟩ : state = .readNew ∧ remainingLen = 0 := hd
  simp [feedViews, hne, store, forward]

theorem keyBuffer_new {d : Deserializer} (hd : d.parseState = .readNew) (pair : Pair)
    (rest : List Byte) : d.keyBuffer pair rest = pair.1 ++ (pair.2 ++ rest) := by
  simp only [keyBuffer, hd]

theorem loopViews_short (p : Params) {lim : Nat} (es : List Entry) (hs : ∀ e ∈ es, e.Short)
    (hle : ∀ e ∈ es, e.size ≤ lim) {data : List Byte} (hne : data ≠ []) (fuel : Nat) :
    ∀ d : Deserializer, d.parseState = .readNew → d.effectiveMaxPairSize p = lim →
      ∃ d', d'.parseState = .readNew ∧ d'.effectiveMaxPairSize p = lim ∧
        loopViews p (fuel + es.length) d (encode es ++ data) =
          entryViews es data ++ loopViews p fuel d' data := by
  induction es with
  | nil =>
    intro d hd hm
    exact ⟨d, hd, hm, rfl⟩
  | cons e es ih =>
    intro d hd hm
    simp only [List.mem_cons, forall_eq_or_imp] at hs hle
    obtain ⟨d₁, ht⟩ := (turn_short p hd hs.1 (encode es ++ data)).1 (by rw [hm]; exact hle.1)
    obtain ⟨-, -, hn₁, -, hm₁⟩ := turn_again ht
    have hm₁' : d₁.effectiveMaxPairSize p = lim := by
      rw [← hm]; simp only [effectiveMaxPairSize, hm₁]
    obtain ⟨d₂, hn₂, hm₂, hl⟩ := ih hs.2 hle.2 d₁ hn₁ hm₁'
    refine ⟨d₂, hn₂, hm₂, ?_⟩
    have hcont : encode es ++ data ≠ [] := by simp [hne]
    rw [encode_cons, List.append_assoc, List.length_cons, ← Nat.add_assoc, loopViews, ht]
    simp only [hcont, if_false, hl, keyBuffer_new hd, entryViews, Entry.pair, List.cons_append]

/-- The calls for the entries of a record up to the one that ends the call. -/
theorem feedViews_short (p : Params) {d : Deserializer} (hd : d.Ready) (pre : List Entry)
    {rest : List Byte} (hne : rest ≠ []) (hs : ∀ e ∈ pre, e.Short)
    (hle : ∀ e ∈ pre, e.size ≤ d.effectiveMaxPairSize p)
    (hstop : ∀ d', d'.parseState = .readNew →
      d'.effectiveMaxPairSize p = d.effectiveMaxPairSize p → ∀ fuel,
        loopViews p (fuel + 1) d' rest = []) :
    d.feedViews p (encode pre ++ rest) = entryViews pre rest := by
  have h2 := two_mul_le_encode_length pre
  obtain ⟨k, hk⟩ : ∃ k, (encode pre ++ rest).length + 2 = (k + 1) + pre.length :=
    ⟨(encode pre ++ rest).length + 1 - pre.length, by
      simp only [List.length_append]
      omega⟩
  obtain ⟨d₁, hn₁, hm₁, hl₁⟩ := loopViews_short p pre hs hle hne (k + 1) d hd.1 rfl
  rw [feedViews_ready hd (by simp [hne]), hk, hl₁, hstop d₁ hn₁ hm₁ k, List.append_nil]

theorem feedViews_all (p : Params) {d : Deserializer} (hd : d.Ready) {es : List Entry}
    (hne : es ≠ []) (hs : ∀ e ∈ es, e.Short)
    (hle : ∀ e ∈ es, e.size ≤ d.effectiveMaxPairSize p) :
    d.feedViews p (encode es) = entryViews es [] := by
  obtain ⟨init, e, rfl⟩ := List.eq_nil_or_concat es |>.resolve_left hne
  simp only [List.concat_eq_append, List.mem_append, List.mem_singleton] at *
  have hlast : e.bytes ≠ [] := bytes_ne_nil e
  have h2 := two_mul_le_encode_length init
  obtain ⟨k, hk⟩ : ∃ k, (encode init ++ e.bytes).length + 2 = (k + 1) + init.length :=
    ⟨(encode init ++ e.bytes).length + 1 - init.length, by
      simp only [List.length_append]
      omega⟩
  obtain ⟨d₁, hn₁, hm₁, hl₁⟩ := loopViews_short p init (fun e h => hs e (Or.inl h))
    (fun e h => hle e (Or.inl h)) hlast (k + 1) d hd.1 rfl
  obtain ⟨d₂, ht⟩ := (turn_short p hn₁ (hs e (Or.inr rfl)) []).1
    (by rw [hm₁]; exact hle e (Or.inr rfl))
  rw [List.append_nil] at ht
  have hend : encode [e] = e.bytes := by simp
  rw [encode_append, hend, feedViews_ready hd (by simp [hlast]), hk, hl₁, loopViews, ht,
    entryViews_append, encode_cons, encode_nil, List.append_nil, List.append_nil]
  simp only [if_true, keyBuffer_new hn₁, entryViews, Entry.pair, encode_nil, List.append_nil]

/-! ### The records that are accepted -/

/-- `feed` accepts a record of entries exactly when every length has the
one-byte form, and what `serialize` writes is the encoding with its own choice
of forms. -/
theorem feed_encode_iff (p : Params) (m : Nat) (n v : U32) (es : List Entry)
    (hne : encode es ≠ [])
    (hle : ∀ e ∈ es, e.size ≤ (fresh m n v).effectiveMaxPairSize p) :
    (Accepts ((fresh m n v).feed p (encode es)) (es.map Entry.pair) ↔ ∀ e ∈ es, e.Short) ∧
      ∀ e ∈ es, serialize p e.name e.value = ⟨e.canonical.bytes, none⟩ := by
  refine ⟨⟨?_, ?_⟩, ?_⟩
  · intro hacc
    by_contra hlong
    obtain ⟨pre, e, post, rfl, hs, he⟩ := exists_first_not hlong
    have hcalls := feed_long p (fresh_ready m n v) pre post hs he
      (fun e h => hle e (by simp [h]))
    rw [hacc.1] at hcalls
    have hlen := congrArg List.length hcalls
    simp at hlen
  · intro hs
    obtain ⟨d', hd', -, hf⟩ := feed_short p (fresh_ready m n v) (encode_ne_nil.mp hne) hs hle
    rw [hf]
    exact ⟨rfl, d', rfl, hd'⟩
  · intro e _
    simp [serialize, serializeSize_eq p e.nameFits.lt, serializeSize_eq p e.valueFits.lt,
      Entry.canonical, Entry.bytes]

/-- `a=b` with one-byte lengths. -/
def shortEntry : Entry := ⟨[97], [98], .short, .short, by decide, by decide⟩

/-- A pair without a value. -/
def bareEntry : Entry := ⟨[120, 121], [], .short, .short, by decide, (by decide : 0 ≤ 127)⟩

/-- The longest value that has a one-byte length. -/
def fullEntry : Entry :=
  ⟨[122], List.replicate 127 98, .short, .short, by decide, by rw [List.length_replicate]; decide⟩

theorem feed_encode_iff_entries :
    Accepts ((fresh 0 ⟨0, 0, 0, 0⟩ ⟨0, 0, 0, 0⟩).feed .standard
        (encode [shortEntry, bareEntry, fullEntry]))
      [([97], [98]), ([120, 121], []), ([122], List.replicate 127 98)] ∧
    serialize .standard [120, 121] [] = ⟨[2, 0, 120, 121], none⟩ := by
  have hfull : fullEntry.size = 128 := by simp [Entry.size, fullEntry]
  have hsizes : ∀ e ∈ [shortEntry, bareEntry, fullEntry], e.size ≤ 128 := by
    simp only [List.mem_cons, List.not_mem_nil, or_false, forall_eq_or_imp, forall_eq]
    exact ⟨by decide, by decide, Nat.le_of_eq hfull⟩
  have hiff := feed_encode_iff .standard 0 ⟨0, 0, 0, 0⟩ ⟨0, 0, 0, 0⟩
    [shortEntry, bareEntry, fullEntry] (by decide)
    (fun e he => Nat.le_trans (hsizes e he) (by decide))
  refine ⟨hiff.1.mpr ?_, hiff.2 bareEntry (by simp)⟩
  simp only [List.mem_cons, List.not_mem_nil, or_false, forall_eq_or_imp, forall_eq]
  exact ⟨⟨rfl, rfl⟩, ⟨rfl, rfl⟩, rfl, rfl⟩

theorem feed_single_long (p : Params) {d : Deserializer} (hd : d.Ready) {e : Entry}
    (he : ¬ e.Short) : ¬ Accepts (d.feed p (encode [e])) [e.pair] := by
  have hcalls := feed_long p hd [] [] (by simp) he (by simp)
  rintro ⟨h, -⟩
  exact List.cons_ne_nil e.pair [] (h.symm.trans hcalls)

/-- A one-byte name with a value of 200 bytes, whose length needs four bytes. -/
def longEntry : Entry :=
  ⟨[97], List.replicate 200 98, .short, .long, by decide, by rw [List.length_replicate]; decide⟩

theorem longEntry_long : ¬ longEntry.Short := by
  rintro ⟨-, h⟩
  exact LenForm.noConfusion h

/-- The rest of the record is dropped after a four-byte length. -/
theorem feed_longEntry :
    ¬ Accepts ((fresh 0 ⟨0, 0, 0, 0⟩ ⟨0, 0, 0, 0⟩).feed .standard (encode [longEntry]))
      [longEntry.pair] :=
  feed_single_long .standard (fresh_ready 0 ⟨0, 0, 0, 0⟩ ⟨0, 0, 0, 0⟩) longEntry_long

end Tfcgi.NvpGrammar
