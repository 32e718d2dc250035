import Tfcgi.NvpGrammar

/-!
# What the serializer writes

`serialize` checks each length when it writes it: a value that is too long is found
behind the length of its name. `serialize_size` takes lengths up to 0x8FFFFFFF, of
which those from 2^31 on already have the marker bit.

* `serialize_writes`: the three ways a call ends;
* `unambiguous_iff`: what the calls wrote is read back exactly when all lengths
  have 31 bits;
* `atomic_iff`: a rejected pair leaves nothing behind exactly when its name is the
  one that is too long.
-/

namespace Tfcgi.NvpSerializer

open Tfcgi.HostOrder Tfcgi.Protocol Tfcgi.NameValuePairs Tfcgi.NvpGrammar

/-- The bound of `serialize_size`. -/
def maxSize : Nat := 0x8FFFFFFF

/-- What the target holds after a call of `serialize`, whether it returns or throws. -/
def serializeOn (p : Params) (out : List Byte) (q : Pair) : List Byte :=
  out ++ (serialize p q.1 q.2).bytes

/-- The call throws `length_error`. -/
def rejects (p : Params) (q : Pair) : Bool := (serialize p q.1 q.2).thrown.isSome

/-- Calls one behind the other; a pair that is rejected is skipped. -/
def serializeAll (p : Params) (out : List Byte) (pairs : List Pair) : List Byte :=
  pairs.foldl (serializeOn p) out

theorem serializeAll_eq (p : Params) (out : List Byte) (pairs : List Pair) :
    serializeAll p out pairs = out ++ pairs.flatMap fun q => (serialize p q.1 q.2).bytes := by
  unfold serializeAll
  induction pairs generalizing out with
  | nil => simp
  | cons q pairs ih =>
    rw [List.foldl_cons, ih, serializeOn, List.flatMap_cons, List.append_assoc]

/-! ## One call -/

theorem serializeSize_accepts (p : Params) {n : Nat} (h : n ≤ maxSize) :
    ∃ bytes, serializeSize p n = .ok bytes ∧ bytes ≠ [] := by
  have hn : ¬ n > 0x8FFFFFFF := by
    unfold maxSize at h
    omega
  unfold serializeSize
  rw [if_neg hn]
  split
  · exact ⟨_, rfl, by simp [U32.bytes]⟩
  · exact ⟨_, rfl, by simp⟩

theorem serializeSize_rejects (p : Params) {n : Nat} (h : maxSize < n) :
    ∃ what, serializeSize p n = .error what := by
  unfold maxSize at h
  unfold serializeSize
  rw [if_pos h]
  exact ⟨_, rfl⟩

/-- How a call of `serialize` ends. -/
inductive Writes (q : Pair) : Written → Prop where
  | all (nameSize valueSize : List Byte) (name : q.1.length ≤ maxSize)
      (value : q.2.length ≤ maxSize) : Writes q ⟨nameSize ++ valueSize ++ q.1 ++ q.2, none⟩
  | none (what : String) (name : maxSize < q.1.length) : Writes q ⟨[], some what⟩
  /-- only the length of the name is out -/
  | part (nameSize : List Byte) (what : String) (filled : nameSize ≠ [])
      (name : q.1.length ≤ maxSize) (value : maxSize < q.2.length) :
      Writes q ⟨nameSize, some what⟩

theorem serialize_writes (p : Params) (q : Pair) : Writes q (serialize p q.1 q.2) := by
  unfold serialize
  by_cases hn : q.1.length ≤ maxSize
  · obtain ⟨nameSize, hs, hne⟩ := serializeSize_accepts p hn
    rw [hs]
    by_cases hv : q.2.length ≤ maxSize
    · obtain ⟨valueSize, hs', -⟩ := serializeSize_accepts p hv
      rw [hs']
      exact .all nameSize valueSize hn hv
    · obtain ⟨what, hs'⟩ := serializeSize_rejects p (Nat.lt_of_not_le hv)
      rw [hs']
      exact .part nameSize what hne hn (Nat.lt_of_not_le hv)
  · obtain ⟨what, hs⟩ := serializeSize_rejects p (Nat.lt_of_not_le hn)
    rw [hs]
    exact .none what (Nat.lt_of_not_le hn)

theorem rejects_iff (p : Params) (q : Pair) :
    rejects p q = true ↔ maxSize < q.1.length ∨ maxSize < q.2.length := by
  unfold rejects
  have hw := serialize_writes p q
  generalize serialize p q.1 q.2 = w at hw ⊢
  cases hw with
  | all nameSize valueSize name value => simp [name, value]
  | none what name => simp [name]
  | part nameSize what filled name value => simp [value]

/-! ## Reading back -/

theorem decodeLength_lt {w w' : List Byte} {n : Nat} (h : decodeLength w = some (n, w')) :
    n < 2147483648 := by
  cases w with
  | nil => cases h
  | cons b w =>
    have hb := b.toNat_lt
    by_cases hs : b.toNat < 128
    · simp only [decodeLength, if_pos hs, Option.some.injEq, Prod.mk.injEq] at h
      omega
    · rcases w with _ | ⟨c, _ | ⟨d, _ | ⟨e, w⟩⟩⟩
      iterate 3 · simp [decodeLength, hs] at h
      have hc := c.toNat_lt
      have hd := d.toNat_lt
      have he := e.toNat_lt
      simp only [decodeLength, if_neg hs, Option.some.injEq, Prod.mk.injEq] at h
      omega

/-- Both lengths have 31 bits, as the format has them. -/
def Fits (q : Pair) : Prop := q.1.length < 2147483648 ∧ q.2.length < 2147483648

theorem decodeEntry_fits {w w' : List Byte} {q : Pair} (h : decodeEntry w = some (q, w')) :
    Fits q := by
  unfold decodeEntry at h
  simp only [Option.bind_eq_bind, Option.bind_eq_some_iff] at h
  obtain ⟨⟨n, w₁⟩, hn, ⟨v, w₂⟩, hv, h⟩ := h
  split at h
  · cases h
    have hn' := decodeLength_lt hn
    have hv' := decodeLength_lt hv
    simp only [Fits, List.length_take]
    omega
  · cases h

/-- The reader gives no pair with a longer name or value. -/
theorem decodeAux_fits {fuel : Nat} {w : List Byte} {pairs : List Pair}
    (h : decodeAux fuel w = some pairs) : ∀ q ∈ pairs, Fits q := by
  induction fuel generalizing w pairs with
  | zero =>
    unfold decodeAux at h
    split at h
    · cases h
      simp
    · cases h
  | succ fuel ih =>
    unfold decodeAux at h
    split at h
    · cases h
      simp
    · simp only [Option.bind_eq_bind, Option.bind_eq_some_iff] at h
      obtain ⟨⟨q, w₁⟩, hq, rest, hrest, h⟩ := h
      cases h
      simp only [List.mem_cons, forall_eq_or_imp]
      exact ⟨decodeEntry_fits hq, ih hrest⟩

/-- Pairs that fit are written as entries. -/
theorem written_entries (p : Params) {pairs : List Pair} (h : ∀ q ∈ pairs, Fits q) :
    ∃ es : List Entry, serializeAll p [] pairs = encode es ∧ es.map Entry.pair = pairs := by
  rw [serializeAll_eq, List.nil_append]
  induction pairs with
  | nil => exact ⟨[], rfl, rfl⟩
  | cons q pairs ih =>
    simp only [List.mem_cons, forall_eq_or_imp] at h
    obtain ⟨⟨hn, hv⟩, hrest⟩ := h
    obtain ⟨es, hes, hpairs⟩ := ih hrest
    let e : Entry := ⟨q.1, q.2, .ofSize q.1.length, .ofSize q.2.length, LenForm.ofSize_fits hn,
      LenForm.ofSize_fits hv⟩
    have hbytes : (serialize p q.1 q.2).bytes = e.bytes := by
      simp [serialize, serializeSize_eq p hn, serializeSize_eq p hv, e, Entry.bytes]
    refine ⟨e :: es, ?_, ?_⟩
    · rw [List.flatMap_cons, hes, hbytes, encode_cons]
    · rw [List.map_cons, hpairs]
      rfl

/-- **Unambiguous.** Pairs are read back exactly when their lengths have 31 bits, and
so is a single length that is taken. -/
theorem unambiguous_iff (p : Params) :
    (∀ pairs, decode (serializeAll p [] pairs) = some pairs ↔ ∀ q ∈ pairs, Fits q) ∧
      ∀ size bytes, serializeSize p size = .ok bytes →
        ((∀ w, decodeLength (bytes ++ w) = some (size, w)) ↔ size < 2147483648) := by
  refine ⟨fun pairs => ⟨fun hd => decodeAux_fits hd, ?_⟩, ?_⟩
  · intro hfits
    obtain ⟨es, hes, hpairs⟩ := written_entries p hfits
    rw [hes, decode_encode, hpairs]
  · intro size bytes hs
    constructor
    · intro hd
      exact decodeLength_lt (hd [])
    · intro hlt w
      rw [serializeSize_eq p hlt] at hs
      cases hs
      exact decodeLength_bytes _ _ (LenForm.ofSize_fits hlt) w

/-- A value that is taken, but is too long for the format. -/
theorem marked_ambiguous (p : Params) {value : List Byte} (hlt : 2147483648 ≤ value.length)
    (hle : value.length ≤ maxSize) :
    rejects p ([], value) = false ∧
      decode (serializeAll p [] [([], value)]) ≠ some [([], value)] := by
  constructor
  · rw [← Bool.not_eq_true, rejects_iff]
    simp only [List.length_nil]
    omega
  · intro hd
    have hfits := (decodeAux_fits hd ([], value) List.mem_cons_self).2
    simp only at hfits
    omega

/-- A value of 2^31 bytes: its length is taken, and read as 0. -/
theorem markedValue_ambiguous :
    serializeSize .standard 2147483648 = .ok [128, 0, 0, 0] ∧
      decodeLength [128, 0, 0, 0] = some (0, []) ∧
      ∃ value : List Byte, value.length = 2147483648 ∧ rejects .standard ([], value) = false ∧
        decode (serializeAll .standard [] [([], value)]) ≠ some [([], value)] := by
  have hlen : (List.replicate 2147483648 (0 : Byte)).length = 2147483648 := List.length_replicate
  refine ⟨rfl, by decide, List.replicate 2147483648 0, hlen, ?_⟩
  exact marked_ambiguous .standard (Nat.le_of_eq hlen.symm) (by rw [hlen]; decide)

/-! ## Rejected pairs -/

/-- The name alone decides whether the pair is rejected. -/
def NameDecides (q : Pair) : Prop := q.1.length ≤ maxSize → q.2.length ≤ maxSize

theorem serializeOn_untouched (p : Params) (out : List Byte) (q : Pair) :
    (rejects p q = true → serializeOn p out q = out) ↔ NameDecides q := by
  rw [rejects_iff]
  unfold serializeOn NameDecides
  have hw := serialize_writes p q
  generalize serialize p q.1 q.2 = w at hw ⊢
  cases hw with
  | all nameSize valueSize name value =>
    constructor
    · exact fun _ _ => value
    · rintro - (h | h) <;> omega
  | none what name =>
    constructor
    · intro _ h
      omega
    · intro _ _
      rw [List.append_nil]
  | part nameSize what filled name value =>
    constructor
    · intro h
      have hout := h (Or.inr value)
      exact absurd (List.append_right_eq_self.mp hout) filled
    · intro h
      have := h name
      omega

/-- What the calls that return have written. -/
def accepted (p : Params) (pairs : List Pair) : List Byte :=
  (pairs.filter fun q => !rejects p q).flatMap fun q => (serialize p q.1 q.2).bytes

theorem accepted_cons (p : Params) (q : Pair) (pairs : List Pair) :
    accepted p (q :: pairs) =
      (if rejects p q then [] else (serialize p q.1 q.2).bytes) ++ accepted p pairs := by
  unfold accepted
  cases h : rejects p q with
  | true => simp [h]
  | false => simp [h]

theorem accepted_length_le (p : Params) (pairs : List Pair) :
    (accepted p pairs).length ≤
      (pairs.flatMap fun q => (serialize p q.1 q.2).bytes).length := by
  induction pairs with
  | nil => exact Nat.le_refl _
  | cons q pairs ih =>
    rw [accepted_cons, List.flatMap_cons, List.length_append, List.length_append]
    split
    · simp only [List.length_nil]
      omega
    · omega

/-- Bytes left behind by a rejected pair make the output too long, so they show. -/
theorem written_accepted_iff (p : Params) (pairs : List Pair) :
    pairs.flatMap (fun q => (serialize p q.1 q.2).bytes) = accepted p pairs ↔
      ∀ q ∈ pairs, NameDecides q := by
  induction pairs with
  | nil => simp [accepted]
  | cons q pairs ih =>
    have hq := serializeOn_untouched p [] q
    unfold serializeOn at hq
    rw [List.flatMap_cons, accepted_cons, List.forall_mem_cons, ← ih, ← hq, List.nil_append]
    cases hr : rejects p q with
    | false => simp
    | true =>
      simp only [if_true, List.nil_append, true_implies]
      constructor
      · intro h
        have hlen := congrArg List.length h
        have hle := accepted_length_le p pairs
        rw [List.length_append] at hlen
        have hnil : (serialize p q.1 q.2).bytes = [] :=
          List.eq_nil_of_length_eq_zero (by omega)
        rw [hnil, List.nil_append] at h
        exact ⟨hnil, h⟩
      · rintro ⟨hnil, h⟩
        rw [hnil, List.nil_append, h]

/-- **Rejected pairs.** A call that throws leaves the target as it was, and any list
of calls writes the accepted pairs alone, exactly when no value is too long behind a
name that is not. -/
theorem atomic_iff (p : Params) (out : List Byte) :
    (∀ q, (rejects p q = true → serializeOn p out q = out) ↔ NameDecides q) ∧
      ∀ pairs, serializeAll p out pairs = out ++ accepted p pairs ↔ ∀ q ∈ pairs, NameDecides q := by
  refine ⟨serializeOn_untouched p out, ?_⟩
  intro pairs
  rw [serializeAll_eq, List.append_cancel_left_eq, written_accepted_iff]

theorem longValue_left (p : Params) {name value : List Byte} {nameSize : List Byte}
    (hs : serializeSize p name.length = .ok nameSize) (hlt : maxSize < value.length) :
    rejects p (name, value) = true ∧ serializeOn p [] (name, value) = nameSize := by
  constructor
  · exact (rejects_iff p (name, value)).mpr (Or.inr hlt)
  · obtain ⟨what, hv⟩ := serializeSize_rejects p hlt
    simp only [serializeOn, serialize, hs, hv, List.nil_append]

/-- The value is too long behind a name of one byte, whose length stays in the
output. -/
theorem longValue_torn : ∃ value : List Byte, value.length = 2415919104 ∧
    rejects .standard ([97], value) = true ∧ serializeOn .standard [] ([97], value) = [1] := by
  have hlen : (List.replicate 2415919104 (0 : Byte)).length = 2415919104 := List.length_replicate
  refine ⟨List.replicate 2415919104 0, hlen, ?_⟩
  exact longValue_left .standard rfl (by rw [hlen]; decide)

end Tfcgi.NvpSerializer
