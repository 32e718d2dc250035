import Mathlib.Data.List.Basic

/-!
# Self-delimiting codes

A reader takes one value off the front of a list and leaves what is behind it. It does
not change its mind when more arrives.

* `decodeAll_encodeAll`: values laid end to end are read back;
* `decode_cut`: a value that is cut short is not read;
* `decodeAll_eq_iff`: values are read back exactly when the code is for all of them.
-/

namespace Tfcgi.Lib

structure Code (α β : Type) where
  encode : α → List β
  decode : List β → Option (α × List β)
  /-- the values that the code is for -/
  Valid : α → Prop
  decode_encode : ∀ a, Valid a → decode (encode a) = some (a, [])
  decode_append : ∀ {w a r}, decode w = some (a, r) → ∀ v, decode (w ++ v) = some (a, r ++ v)
  decode_shorter : ∀ {w a r}, decode w = some (a, r) → r.length < w.length

namespace Code

variable {α β : Type} (K : Code α β)

def encodeAll (as : List α) : List β := as.flatMap K.encode

def readAll : Nat → List β → List α × List β
  | 0, w => ([], w)
  | n + 1, w =>
    match K.decode w with
    | none => ([], w)
    | some (a, rest) => (a :: (readAll n rest).1, (readAll n rest).2)

/-- All the values at the front, and what is left. -/
def decodeAll (w : List β) : List α × List β := K.readAll w.length w

variable {K}

theorem decode_encode_append {a : α} (ha : K.Valid a) (w : List β) :
    K.decode (K.encode a ++ w) = some (a, w) := by
  rw [K.decode_append (K.decode_encode a ha), List.nil_append]

/-- Where nothing is read, nothing more is read with more steps. -/
theorem readAll_length {w : List β} {n : Nat} (h : w.length ≤ n) :
    K.readAll n w = K.decodeAll w := by
  suffices hall : ∀ (m : Nat) (w : List β) (n n' : Nat), w.length ≤ m → w.length ≤ n →
      w.length ≤ n' → K.readAll n w = K.readAll n' w from
    hall w.length w n w.length (Nat.le_refl _) h (Nat.le_refl _)
  intro m
  induction m with
  | zero =>
    intro w n n' hm hn hn'
    have hnone : K.decode w = none := by
      cases hd : K.decode w with
      | none => rfl
      | some x =>
        have := K.decode_shorter (a := x.1) (r := x.2) hd
        omega
    cases n <;> cases n' <;> simp [readAll, hnone]
  | succ m ih =>
    intro w n n' hm hn hn'
    cases hd : K.decode w with
    | none => cases n <;> cases n' <;> simp [readAll, hd]
    | some x =>
      have hlt := K.decode_shorter (a := x.1) (r := x.2) hd
      obtain ⟨n, rfl⟩ : ∃ k, n = k + 1 := ⟨n - 1, by omega⟩
      obtain ⟨n', rfl⟩ : ∃ k, n' = k + 1 := ⟨n' - 1, by omega⟩
      simp only [readAll, hd, ih x.2 n n' (by omega) (by omega) (by omega)]

theorem decodeAll_cons {a : α} (ha : K.Valid a) (w : List β) :
    K.decodeAll (K.encode a ++ w) = (a :: (K.decodeAll w).1, (K.decodeAll w).2) := by
  have hd := decode_encode_append ha w
  have hlt := K.decode_shorter hd
  rw [decodeAll]
  obtain ⟨n, hn⟩ : ∃ n, (K.encode a ++ w).length = n + 1 :=
    ⟨(K.encode a ++ w).length - 1, by omega⟩
  rw [hn]
  simp only [readAll, hd]
  rw [readAll_length (by omega)]

theorem decodeAll_append {as : List α} (has : ∀ a ∈ as, K.Valid a) (w : List β) :
    K.decodeAll (K.encodeAll as ++ w) = (as ++ (K.decodeAll w).1, (K.decodeAll w).2) := by
  induction as with
  | nil => rfl
  | cons a as ih =>
    rw [encodeAll, List.flatMap_cons, List.append_assoc, ← encodeAll,
      decodeAll_cons (has a List.mem_cons_self),
      ih fun b hb => has b (List.mem_cons_of_mem a hb)]
    rfl

theorem decodeAll_none {w : List β} (h : K.decode w = none) : K.decodeAll w = ([], w) := by
  unfold decodeAll
  cases w.length <;> simp [readAll, h]

theorem decode_nil : K.decode [] = none := by
  cases hd : K.decode [] with
  | none => rfl
  | some x => exact absurd (K.decode_shorter (a := x.1) (r := x.2) hd) (Nat.not_lt_zero _)

theorem decodeAll_encodeAll {as : List α} (has : ∀ a ∈ as, K.Valid a) :
    K.decodeAll (K.encodeAll as) = (as, []) := by
  have h := decodeAll_append has []
  rw [List.append_nil, decodeAll_none decode_nil, List.append_nil] at h
  exact h

/-- A value that is cut short is not read. -/
theorem decode_cut {a : α} (ha : K.Valid a) {w v : List β} (h : w ++ v = K.encode a)
    (hv : v ≠ []) : K.decode w = none := by
  cases hd : K.decode w with
  | none => rfl
  | some x =>
    have hx := K.decode_append (a := x.1) (r := x.2) hd v
    rw [h, K.decode_encode a ha] at hx
    simp only [Option.some.injEq, Prod.mk.injEq] at hx
    exact absurd (List.append_eq_nil_iff.mp hx.2.symm).2 hv

/-- The reader gives no other values than those that the code is for. -/
def Sound (K : Code α β) : Prop := ∀ {w a r}, K.decode w = some (a, r) → K.Valid a

theorem readAll_valid (h : K.Sound) (n : Nat) (w : List β) :
    ∀ a ∈ (K.readAll n w).1, K.Valid a := by
  induction n generalizing w with
  | zero =>
    intro a ha
    cases ha
  | succ n ih =>
    unfold readAll
    split
    · intro a ha
      cases ha
    · rename_i b rest hd
      rw [List.forall_mem_cons]
      exact ⟨h hd, ih rest⟩

/-- **Values are read back exactly when the code is for all of them.** -/
theorem decodeAll_eq_iff (h : K.Sound) {w : List β} (hw : K.decode w = none) (as : List α) :
    K.decodeAll (K.encodeAll as ++ w) = (as, w) ↔ ∀ a ∈ as, K.Valid a := by
  constructor
  · intro hd
    have hvalid := readAll_valid h (K.encodeAll as ++ w).length (K.encodeAll as ++ w)
    rw [← decodeAll, hd] at hvalid
    exact hvalid
  · intro has
    rw [decodeAll_append has, decodeAll_none hw, List.append_nil]

end Code

end Tfcgi.Lib
