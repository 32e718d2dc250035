import Mathlib.Data.List.Basic

/-!
# Memory images of unsigned integers and the host byte order

A C object of type `uint16_t` or `uint32_t` is kept here as its memory image,
lowest address first, so that a program may both copy bytes into it and do
arithmetic with it.

* `U16.load`, `U16.store`, `U32.load`, `U32.store`: the value an image has on a
  host, and the image of a value;
* `U16.be`, `U32.be`: the value the image has in network byte order;
* `ntohs`, `ntohl`: the conversions of `<arpa/inet.h>`; `ntohs_load` and
  `ntohl_load` say that they read network order on every host;
* `overwrite`: what `memcpy` leaves in the target.
-/

namespace Tfcgi.HostOrder

abbrev Byte := UInt8

inductive Host where
  | little
  | big
  deriving DecidableEq, Repr

/-- `memcpy(&target[off], src, src.length)` on a buffer that holds the copy. -/
def overwrite (target : List Byte) (off : Nat) (src : List Byte) : List Byte :=
  target.take off ++ src ++ target.drop (off + src.length)

@[simp] theorem overwrite_nil (target : List Byte) (off : Nat) :
    overwrite target off [] = target := by
  simp [overwrite]

theorem overwrite_length (target src : List Byte) (off : Nat)
    (h : off + src.length ≤ target.length) :
    (overwrite target off src).length = target.length := by
  simp only [overwrite, List.length_append, List.length_take, List.length_drop]
  omega

/-- A copy that goes on where the last one ended. -/
theorem overwrite_overwrite (target : List Byte) {off : Nat} (src : List Byte) {src' : List Byte}
    (h : off + src.length ≤ target.length) :
    overwrite (overwrite target off src) (off + src.length) src' =
      overwrite target off (src ++ src') := by
  have hpre : (target.take off ++ src).length = off + src.length := by
    simp only [List.length_append, List.length_take]
    omega
  have hdrop : (overwrite target off src).drop (off + src.length + src'.length) =
      target.drop (off + (src ++ src').length) := by
    rw [overwrite, ← hpre, List.drop_length_add_append, List.drop_drop, hpre, List.length_append,
      Nat.add_assoc]
  rw [overwrite, hdrop, overwrite, List.take_left' hpre]
  simp [overwrite, List.append_assoc]

/-! ## 16-bit images -/

/-- The memory image of a `uint16_t`. -/
structure U16 where
  b0 : Byte
  b1 : Byte
  deriving DecidableEq, Repr

def U16.bytes (m : U16) : List Byte := [m.b0, m.b1]

/-- The value of the image in network byte order. -/
def U16.be (m : U16) : Nat := m.b0.toNat * 256 + m.b1.toNat

def U16.load : Host → U16 → Nat
  | .little, m => m.b1.toNat * 256 + m.b0.toNat
  | .big, m => m.be

def U16.store : Host → Nat → U16
  | .little, n => ⟨.ofNat n, .ofNat (n / 256)⟩
  | .big, n => ⟨.ofNat (n / 256), .ofNat n⟩

/-- `ntohs`, which is also `htons`: both swap the two bytes on a little-endian
host and do nothing on a big-endian one. -/
def ntohs : Host → Nat → Nat
  | .little, n => n % 256 * 256 + n / 256 % 256
  | .big, n => n % 65536

theorem U16.be_lt (m : U16) : m.be < 65536 := by
  have h0 := m.b0.toNat_lt
  have h1 := m.b1.toNat_lt
  simp only [U16.be]
  omega

theorem U16.load_lt (h : Host) (m : U16) : m.load h < 65536 := by
  have h0 := m.b0.toNat_lt
  have h1 := m.b1.toNat_lt
  cases h <;> simp only [U16.load, U16.be] <;> omega

theorem U16.load_store (h : Host) (n : Nat) : (U16.store h n).load h = n % 65536 := by
  cases h <;> simp only [U16.store, U16.load, U16.be, UInt8.toNat_ofNat'] <;> omega

/-- Reading a network-order field with `ntohs` gives its value on every host. -/
theorem ntohs_load (h : Host) (m : U16) : ntohs h (m.load h) = m.be := by
  have h0 := m.b0.toNat_lt
  have h1 := m.b1.toNat_lt
  cases h <;> simp only [ntohs, U16.load, U16.be] <;> omega

/-- Storing `htons n` leaves `n` in network order on every host. -/
theorem be_store_ntohs (h : Host) (n : Nat) : (U16.store h (ntohs h n)).be = n % 65536 := by
  cases h with
  | big => simp only [ntohs, U16.store, U16.be, UInt8.toNat_ofNat']; omega
  | little =>
    simp only [ntohs, U16.store, U16.be, UInt8.toNat_ofNat']
    have e : n % 65536 = n / 256 % 256 * 256 + n % 256 := by omega
    have h0 : n % 256 < 256 := by omega
    have h1 : n / 256 % 256 < 256 := by omega
    rw [e]
    clear e
    generalize n % 256 = a at *
    generalize n / 256 % 256 = b at *
    omega

/-! ## 32-bit images -/

/-- The memory image of a `uint32_t`. -/
structure U32 where
  b0 : Byte
  b1 : Byte
  b2 : Byte
  b3 : Byte
  deriving DecidableEq, Repr

def U32.bytes (m : U32) : List Byte := [m.b0, m.b1, m.b2, m.b3]

def U32.ofBytes (l : List Byte) : U32 := ⟨l.getD 0 0, l.getD 1 0, l.getD 2 0, l.getD 3 0⟩

/-- The value of the image in network byte order. -/
def U32.be (m : U32) : Nat :=
  m.b0.toNat * 16777216 + m.b1.toNat * 65536 + m.b2.toNat * 256 + m.b3.toNat

def U32.load : Host → U32 → Nat
  | .little, m => m.b3.toNat * 16777216 + m.b2.toNat * 65536 + m.b1.toNat * 256 + m.b0.toNat
  | .big, m => m.be

def U32.store : Host → Nat → U32
  | .little, n => ⟨.ofNat n, .ofNat (n / 256), .ofNat (n / 65536), .ofNat (n / 16777216)⟩
  | .big, n => ⟨.ofNat (n / 16777216), .ofNat (n / 65536), .ofNat (n / 256), .ofNat n⟩

/-- `ntohl`, which is also `htonl`. -/
def ntohl : Host → Nat → Nat
  | .little, n => n % 256 * 16777216 + n / 256 % 256 * 65536 + n / 65536 % 256 * 256 +
      n / 16777216 % 256
  | .big, n => n % 4294967296

theorem U32.be_lt (m : U32) : m.be < 4294967296 := by
  have h0 := m.b0.toNat_lt
  have h1 := m.b1.toNat_lt
  have h2 := m.b2.toNat_lt
  have h3 := m.b3.toNat_lt
  simp only [U32.be]
  omega

theorem U32.eq_zero_of_be {m : U32} (h : m.be = 0) : m = ⟨0, 0, 0, 0⟩ := by
  obtain ⟨b0, b1, b2, b3⟩ := m
  unfold U32.be at h
  rw [U32.mk.injEq]
  refine ⟨?_, ?_, ?_, ?_⟩ <;> apply UInt8.toNat_inj.mp
  all_goals
    rw [UInt8.toNat_zero]
    simp only at h
    omega

theorem U32.load_store (h : Host) (n : Nat) : (U32.store h n).load h = n % 4294967296 := by
  cases h <;> simp only [U32.store, U32.load, U32.be, UInt8.toNat_ofNat'] <;> omega

/-- Reading a network-order field with `ntohl` gives its value on every host. -/
theorem ntohl_load (h : Host) (m : U32) : ntohl h (m.load h) = m.be := by
  have h0 := m.b0.toNat_lt
  have h1 := m.b1.toNat_lt
  have h2 := m.b2.toNat_lt
  have h3 := m.b3.toNat_lt
  cases h <;> simp only [ntohl, U32.load, U32.be] <;> omega

/-- The image of `htonl n` is the same on every host. -/
theorem store_ntohl (h : Host) (n : Nat) : U32.store h (ntohl h n) =
    ⟨.ofNat (n / 16777216), .ofNat (n / 65536), .ofNat (n / 256), .ofNat n⟩ := by
  cases h with
  | big =>
    simp only [ntohl, U32.store, U32.mk.injEq]
    refine ⟨?_, ?_, ?_, ?_⟩ <;> apply UInt8.toNat_inj.mp <;>
      simp only [UInt8.toNat_ofNat'] <;> omega
  | little =>
    have h0 : n % 256 < 256 := by omega
    have h1 : n / 256 % 256 < 256 := by omega
    have h2 : n / 65536 % 256 < 256 := by omega
    have h3 : n / 16777216 % 256 < 256 := by omega
    simp only [ntohl, U32.store, U32.mk.injEq]
    refine ⟨?_, ?_, ?_, ?_⟩ <;> apply UInt8.toNat_inj.mp <;>
      simp only [UInt8.toNat_ofNat', Nat.reducePow] <;>
      generalize n % 256 = a at * <;> generalize n / 256 % 256 = b at * <;>
      generalize n / 65536 % 256 = c at * <;> generalize n / 16777216 % 256 = d at * <;> omega

@[simp] theorem U32.ofBytes_cons (a b c d : Byte) (l : List Byte) :
    U32.ofBytes (a :: b :: c :: d :: l) = ⟨a, b, c, d⟩ := rfl

/-- `memcpy` into the image, `off + src.length ≤ 4`. -/
def U32.write (m : U32) (off : Nat) (src : List Byte) : U32 :=
  .ofBytes (overwrite m.bytes off src)

/-! ## The marker bit of a byte -/

theorem and_marker (b : Byte) : b &&& 0x80 = 0 ↔ b.toNat < 128 := by
  have h : ∀ n : Fin 256, (UInt8.ofNat n.val &&& 0x80 = 0 ↔ n.val < 128) := by decide +kernel
  have hb := h ⟨b.toNat, b.toNat_lt⟩
  simpa using hb

theorem or_marker {n : Nat} (hn : n < 128) :
    UInt8.ofNat n ||| 0x80 = UInt8.ofNat (n + 128) := by
  have h : ∀ n : Fin 128, UInt8.ofNat n.val ||| 0x80 = UInt8.ofNat (n.val + 128) := by
    decide +kernel
  exact h ⟨n, hn⟩

end Tfcgi.HostOrder
