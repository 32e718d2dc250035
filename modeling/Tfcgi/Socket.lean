import Tfcgi.SendPacket

/-!
# Reading: `Connection::recv_all` and `src/ipacket.cpp`

`Sock.reads` is the script of what `read(2)` will give. A piece of code that
reads is an `Rd`: it blocks when the script runs out, throws, or goes on with
what is left of the script.

* `recvAll_arrives`: when `recv_all` stores all it is asked for;
* `recvAll_cases`, `sinkToVector_cases`, `destroy_cases`: on any socket these
  block or succeed, they never throw;
* `holds_new`, `holds_recvAll`, `holds_sinkToVector`, `holds_destroy`: what they
  take from a socket without errors.
-/

namespace Tfcgi.Socket

open Tfcgi.HostOrder Tfcgi.Protocol Tfcgi.SendPacket

/-- One result of `read(2)`. A chunk that is longer than the buffer is given in
several calls. -/
inductive ReadResult where
  | data (b : Byte) (bs : List Byte)
  | eof
  | error (e : Errno)
  deriving DecidableEq, Repr

structure Sock where
  reads : List ReadResult
  /-- `socket_insane`, which is true while nothing went wrong -/
  insane : Bool
  deriving DecidableEq, Repr

inductive Exn where
  | logicError (what : String)
  | pairSizeError (what : String)
  | systemError (e : Errno)
  deriving DecidableEq, Repr

inductive Out (α : Type) where
  | blocked
  | throws (e : Exn)
  | ok (a : α) (s : Sock)

/-- Code of the connection thread that reads from the socket. -/
def Rd (α : Type) : Type := Sock → Out α

namespace Rd

def pure {α : Type} (a : α) : Rd α := fun s => .ok a s

def bind {α β : Type} (m : Rd α) (f : α → Rd β) : Rd β := fun s =>
  match m s with
  | .blocked => .blocked
  | .throws e => .throws e
  | .ok a s => f a s

def throw {α : Type} (e : Exn) : Rd α := fun _ => .throws e

instance : Monad Rd where
  pure := Rd.pure
  bind := Rd.bind

theorem bind_ok {α β : Type} {m : Rd α} {f : α → Rd β} {s s' : Sock} {a : α}
    (h : m s = .ok a s') : (m >>= f) s = f a s' := by
  change Rd.bind m f s = f a s'
  simp only [Rd.bind, h]

theorem bind_blocked {α β : Type} {m : Rd α} {f : α → Rd β} {s : Sock}
    (h : m s = .blocked) : (m >>= f) s = .blocked := by
  change Rd.bind m f s = .blocked
  simp only [Rd.bind, h]

theorem bind_throws {α β : Type} {m : Rd α} {f : α → Rd β} {s : Sock} {e : Exn}
    (h : m s = .throws e) : (m >>= f) s = .throws e := by
  change Rd.bind m f s = .throws e
  simp only [Rd.bind, h]

theorem bind_eq_ok {α β : Type} {m : Rd α} {f : α → Rd β} {s s' : Sock} {b : β}
    (h : (m >>= f) s = .ok b s') : ∃ a s₁, m s = .ok a s₁ ∧ f a s₁ = .ok b s' := by
  change Rd.bind m f s = .ok b s' at h
  unfold Rd.bind at h
  split at h
  · cases h
  · cases h
  · rename_i a s₁ hm
    exact ⟨a, s₁, hm, h⟩

theorem bind_eq_throws {α β : Type} {m : Rd α} {f : α → Rd β} {s : Sock} {e : Exn}
    (h : (m >>= f) s = .throws e) :
    m s = .throws e ∨ ∃ a s₁, m s = .ok a s₁ ∧ f a s₁ = .throws e := by
  change Rd.bind m f s = .throws e at h
  unfold Rd.bind at h
  split at h
  · cases h
  · rename_i e' hm
    cases h
    exact Or.inl hm
  · rename_i a s₁ hm
    exact Or.inr ⟨a, s₁, hm, h⟩

theorem pure_apply {α : Type} (a : α) (s : Sock) : (Pure.pure a : Rd α) s = .ok a s := rfl

end Rd

/-! ## `Connection::recv_all` -/

/-- `read(2)` is tried again after these. -/
def retried : Errno → Bool
  | .enobufs => true
  | .eintr => true
  | _ => false

/-- The loop of `recv_all`: the bytes it stores, `socket_insane` and the rest of
the script. -/
def recvLoop : Nat → Bool → List ReadResult → Option (List Byte × Sock)
  | 0, insane, rs => some ([], ⟨rs, insane⟩)
  | _ + 1, _, [] => none
  | size + 1, insane, .data b bs :: rs =>
    match bs.drop size with
    | [] => (recvLoop (size - bs.length) insane rs).map fun x => (b :: bs ++ x.1, x.2)
    | c :: cs => some (b :: bs.take size, ⟨.data c cs :: rs, insane⟩)
  | _ + 1, _, .eof :: rs => some ([], ⟨rs, false⟩)
  | size + 1, _, .error e :: rs =>
    if retried e then recvLoop (size + 1) false rs else some ([], ⟨rs, false⟩)

/-- The bytes that were stored in front of the buffer; the rest of the buffer is
untouched. -/
def Connection.recvAll (size : Nat) : Rd (List Byte) := fun s =>
  match recvLoop size s.insane s.reads with
  | none => .blocked
  | some (got, s) => .ok got s

theorem recvAll_ne_throws (size : Nat) (s : Sock) (e : Exn) :
    Connection.recvAll size s ≠ .throws e := by
  unfold Connection.recvAll
  split <;> simp

/-- Whether the next `size` bytes come before an end of file or an error that
ends the read. -/
def arrives : Nat → List ReadResult → Bool
  | 0, _ => true
  | _ + 1, [] => false
  | size + 1, .data _ bs :: rs => arrives (size - bs.length) rs
  | _ + 1, .eof :: _ => false
  | size + 1, .error e :: rs => retried e && arrives (size + 1) rs

/-- `recv_all` stores no more than it is asked for, and all of it exactly when
it arrives; `socket_insane` stays true only then. -/
theorem recvLoop_arrives {size : Nat} {insane : Bool} {rs : List ReadResult} {got : List Byte}
    {s : Sock} (h : recvLoop size insane rs = some (got, s)) :
    got.length ≤ size ∧ (got.length = size ↔ arrives size rs = true) ∧
      (s.insane = true → got.length = size ∧ insane = true) := by
  fun_induction recvLoop size insane rs generalizing got s with
  | case1 insane rs =>
    cases h
    simp [arrives]
  | case2 => cases h
  | case3 size insane b bs rs hd ih =>
    obtain ⟨⟨got', s'⟩, hr, he⟩ := Option.map_eq_some_iff.mp h
    simp only [Prod.mk.injEq] at he
    obtain ⟨rfl, rfl⟩ := he
    obtain ⟨hle, hiff, hsane⟩ := ih hr
    have hbs : bs.length ≤ size := by simpa using hd
    simp only [arrives, ← hiff, List.length_append, List.length_cons]
    refine ⟨by omega, by omega, ?_⟩
    intro hs
    have := hsane hs
    exact ⟨by omega, this.2⟩
  | case4 size insane b bs rs c cs hd =>
    cases h
    have hbs : size < bs.length := by
      by_contra hle
      rw [List.drop_of_length_le (by omega)] at hd
      cases hd
    have hz : size - bs.length = 0 := by omega
    simp only [arrives, hz, List.length_cons, List.length_take, iff_true]
    exact ⟨by omega, by omega, fun hs => ⟨by omega, hs⟩⟩
  | case5 size insane rs =>
    cases h
    simp [arrives]
  | case6 size insane e rs hr ih =>
    obtain ⟨hle, hiff, hsane⟩ := ih h
    refine ⟨hle, by simp only [arrives, hr, Bool.true_and]; exact hiff, ?_⟩
    intro hs
    cases (hsane hs).2
  | case7 size insane e rs hr =>
    cases h
    simp [arrives, hr]

theorem recvAll_arrives {size : Nat} {s s' : Sock} {got : List Byte}
    (h : Connection.recvAll size s = .ok got s') :
    got.length ≤ size ∧ (got.length = size ↔ arrives size s.reads = true) ∧
      (s'.insane = true → got.length = size ∧ s.insane = true) := by
  unfold Connection.recvAll at h
  split at h
  · cases h
  · rename_i got' s₁ hl
    cases h
    exact recvLoop_arrives hl

/-! ## Sockets without errors -/

def ReadResult.bytes : ReadResult → List Byte
  | .data b bs => b :: bs
  | .eof => []
  | .error _ => []

/-- All the bytes that the socket will give. -/
def Sock.bytes (s : Sock) : List Byte := s.reads.flatMap ReadResult.bytes

/-- The socket is sound and gives the bytes `w`, in chunks of any size. -/
structure Sock.Carries (s : Sock) (w : List Byte) : Prop where
  sane : s.insane = true
  data : ∀ r ∈ s.reads, ∃ b bs, r = .data b bs
  bytes : s.bytes = w

theorem recvLoop_carries {rs : List ReadResult} {u w : List Byte}
    (h : (⟨rs, true⟩ : Sock).Carries (u ++ w)) :
    ∃ s, recvLoop u.length true rs = some (u, s) ∧ s.Carries w := by
  induction rs generalizing u with
  | nil =>
    obtain ⟨-, -, hw⟩ := h
    simp only [Sock.bytes, List.flatMap_nil, List.nil_eq, List.append_eq_nil_iff] at hw
    obtain ⟨rfl, rfl⟩ := hw
    exact ⟨⟨[], true⟩, by rw [List.length_nil, recvLoop], rfl, by simp, rfl⟩
  | cons r rs ih =>
    cases u with
    | nil => exact ⟨⟨r :: rs, true⟩, by rw [List.length_nil, recvLoop], h⟩
    | cons x u =>
      obtain ⟨-, hdata, hw⟩ := h
      simp only [List.mem_cons, forall_eq_or_imp] at hdata
      obtain ⟨⟨b, bs, rfl⟩, hdata⟩ := hdata
      simp only [Sock.bytes, List.flatMap_cons, ReadResult.bytes, List.cons_append,
        List.cons.injEq] at hw
      obtain ⟨rfl, hw⟩ := hw
      simp only [List.length_cons, recvLoop]
      rcases List.append_eq_append_iff.mp hw with ⟨u', rfl, hu⟩ | ⟨cs, rfl, hcs⟩
      · obtain ⟨s, hs, hc⟩ := ih ⟨rfl, hdata, hu⟩
        have hdrop : bs.drop (bs ++ u').length = [] := List.drop_of_length_le (by simp)
        have hlen : (bs ++ u').length - bs.length = u'.length := by simp
        refine ⟨s, ?_, hc⟩
        rw [hdrop]
        simp only [hlen, hs, Option.map_some, List.cons_append]
      · rw [List.drop_left]
        cases cs with
        | nil =>
          obtain ⟨s, hs, hc⟩ := ih (u := []) ⟨rfl, hdata, hcs.symm⟩
          rw [List.length_nil] at hs
          refine ⟨s, ?_, hc⟩
          simp only [List.append_nil, Nat.sub_self, hs, Option.map_some]
        | cons c cs =>
          refine ⟨⟨.data c cs :: rs, true⟩, ?_, rfl, ?_, hcs.symm⟩
          · simp only [List.take_left]
          · simp only [List.mem_cons, forall_eq_or_imp]
            exact ⟨⟨c, cs, rfl⟩, hdata⟩

theorem recvAll_carries {s : Sock} {u w : List Byte} (h : s.Carries (u ++ w)) :
    ∃ s', Connection.recvAll u.length s = .ok u s' ∧ s'.Carries w := by
  obtain ⟨reads, insane⟩ := s
  obtain rfl : insane = true := h.sane
  obtain ⟨s', hs', hc⟩ := recvLoop_carries h
  exact ⟨s', by simp only [Connection.recvAll, hs'], hc⟩

/-! ## `fcgi::ipacket` -/

/-- An `ipacket` whose header was read; `remaining` is
`priv_header.contentLength`, in host order since the constructor. -/
structure Ipacket where
  header : Header
  remaining : Nat
  deriving DecidableEq, Repr

/-- The constructor; `junk` is what the memory of `priv_header` held. -/
def Ipacket.new (p : Params) (junk : Header) : Rd Ipacket := do
  let got ← Connection.recvAll Header.size
  let header := Header.ofBytes (overwrite { junk with contentLength := ⟨0, 0⟩ }.bytes 0 got)
  return ⟨header, ntohs p.host (header.contentLength.load p.host)⟩

namespace Ipacket

def consumedMessage (consumed : Int) (remaining : Nat) : String :=
  "Consumed " ++ toString consumed ++ " bytes from a FastCGI packet of " ++ toString remaining ++
    " bytes. Protocol is broken."

def negativeMessage (consumed : Int) : String :=
  "Consumed " ++ toString consumed ++
    " bytes from a FastCGI packet (yes, that's a negative amount). Probably a socket error."

def zeroMessage : String :=
  "Consumed 0 bytes from a FastCGI packet. The socket is probably closed."

def overrunMessage (size remaining : Nat) : String :=
  "Tried to read " ++ toString size ++ " bytes from a FastCGI packet with " ++
    toString remaining ++ " bytes remaining."

/-- `errno` is looked at for a negative count only. The flag is the result. -/
def consume (k : Ipacket) (consumed : Int) (errno : Errno) : Rd (Bool × Ipacket) :=
  if consumed > k.remaining then Rd.throw (.logicError (consumedMessage consumed k.remaining))
  else if consumed < 0 then
    match errno with
    | .eintr => return (true, k)
    | .eagain => return (true, k)
    | _ => Rd.throw (.logicError (negativeMessage consumed))
  else if consumed = 0 then Rd.throw (.logicError zeroMessage)
  else
    let k : Ipacket := { k with remaining := k.remaining - consumed.toNat }
    if k.remaining = 0 ∧ k.header.paddingLength ≠ 0 then do
      let _ ← Connection.recvAll k.header.paddingLength.toNat
      return (false, k)
    else return (false, k)

/-- The bytes that came from the socket, at most `size`. -/
def recvAll (k : Ipacket) (size : Nat) : Rd (List Byte × Ipacket) :=
  if size > k.remaining then Rd.throw (.logicError (overrunMessage size k.remaining))
  else if size = 0 then return ([], k)
  else do
    let got ← Connection.recvAll size
    let (_, k) ← k.consume size (.other 0)
    return (got, k)

/-- The vector is filled with zeros before the bytes are read into it. -/
def sinkToVector (k : Ipacket) : Rd (List Byte × Ipacket) := do
  let (got, k') ← k.recvAll k.remaining
  return (overwrite (List.replicate k.remaining 0) 0 got, k')

/-- The destructor. -/
def destroy (k : Ipacket) : Rd Unit :=
  if k.remaining ≠ 0 then do
    let _ ← k.recvAll k.remaining
  else return ()


/-! ## What an ipacket takes from the socket -/

theorem consume_pos (k : Ipacket) {n : Nat} (h0 : 0 < n) (hn : n ≤ k.remaining) (errno : Errno) :
    k.consume n errno =
      if k.remaining - n = 0 ∧ k.header.paddingLength ≠ 0 then do
        let _ ← Connection.recvAll k.header.paddingLength.toNat
        return (false, { k with remaining := k.remaining - n })
      else return (false, { k with remaining := k.remaining - n }) := by
  have h1 : ¬ ((n : Int) > (k.remaining : Int)) := by omega
  have h2 : ¬ ((n : Int) < 0) := by omega
  have h3 : ¬ ((n : Int) = 0) := by omega
  simp only [consume, h1, h2, h3, if_false, Int.toNat_natCast]

theorem recvAll_eq (k : Ipacket) {n : Nat} (h0 : 0 < n) (hn : n ≤ k.remaining) :
    k.recvAll n = (do
      let got ← Connection.recvAll n
      let (_, k) ← k.consume n (.other 0)
      return (got, k)) := by
  have h1 : ¬ n > k.remaining := by omega
  have h2 : n ≠ 0 := by omega
  simp only [recvAll, h1, h2, if_false]

theorem consume_cases (k : Ipacket) {n : Nat} (h0 : 0 < n) (hn : n ≤ k.remaining)
    (errno : Errno) (s : Sock) :
    k.consume n errno s = .blocked ∨
      ∃ s', k.consume n errno s = .ok (false, { k with remaining := k.remaining - n }) s' := by
  rw [consume_pos k h0 hn]
  split
  · cases hp : Connection.recvAll k.header.paddingLength.toNat s with
    | blocked => exact Or.inl (Rd.bind_blocked hp)
    | throws e => exact absurd hp (recvAll_ne_throws _ s e)
    | ok pad s' => exact Or.inr ⟨s', Rd.bind_ok hp⟩
  · exact Or.inr ⟨s, rfl⟩

/-- Taking part of what is left of a record cannot fail; `remaining` goes down
by the whole count, whatever came from the socket. -/
theorem recvAll_cases (k : Ipacket) {n : Nat} (hn : n ≤ k.remaining) (s : Sock) :
    k.recvAll n s = .blocked ∨ ∃ got s', got.length ≤ n ∧
      k.recvAll n s = .ok (got, { k with remaining := k.remaining - n }) s' := by
  by_cases h0 : n = 0
  · subst h0
    exact Or.inr ⟨[], s, Nat.le_refl _, rfl⟩
  · rw [recvAll_eq k (by omega) hn]
    cases hr : Connection.recvAll n s with
    | blocked => exact Or.inl (Rd.bind_blocked hr)
    | throws e => exact absurd hr (recvAll_ne_throws n s e)
    | ok got s₁ =>
      rw [Rd.bind_ok hr]
      rcases k.consume_cases (by omega) hn (.other 0) s₁ with hc | ⟨s₂, hc⟩
      · exact Or.inl (Rd.bind_blocked hc)
      · exact Or.inr ⟨got, s₂, (recvAll_arrives hr).1, Rd.bind_ok hc⟩

theorem sinkToVector_cases (k : Ipacket) (s : Sock) :
    k.sinkToVector s = .blocked ∨ ∃ v s', v.length = k.remaining ∧
      k.sinkToVector s = .ok (v, { k with remaining := 0 }) s' := by
  unfold sinkToVector
  rcases k.recvAll_cases (Nat.le_refl _) s with h | ⟨got, s', hl, h⟩
  · exact Or.inl (Rd.bind_blocked h)
  · refine Or.inr ⟨overwrite (List.replicate k.remaining 0) 0 got, s', ?_, ?_⟩
    · rw [overwrite_length _ _ _ (by simpa using hl), List.length_replicate]
    · rw [Rd.bind_ok h, Nat.sub_self]
      rfl

theorem destroy_cases (k : Ipacket) (s : Sock) :
    k.destroy s = .blocked ∨ ∃ s', k.destroy s = .ok () s' := by
  unfold destroy
  split
  · rcases k.recvAll_cases (Nat.le_refl _) s with h | ⟨got, s', -, h⟩
    · exact Or.inl (Rd.bind_blocked h)
    · exact Or.inr ⟨s', Rd.bind_ok h⟩
  · exact Or.inr ⟨s, rfl⟩

/-- The record `k` is open: `content` is left of its content, `padding` follows
the content if there was one, and `rest` comes behind the record. -/
structure Holds (k : Ipacket) (s : Sock) (content padding rest : List Byte) : Prop where
  left : k.remaining = content.length
  pad : k.header.paddingLength.toNat = padding.length
  carries : s.Carries (content ++ ((if content = [] then [] else padding) ++ rest))

theorem holds_recvAll {k : Ipacket} {s : Sock} {u v padding rest : List Byte}
    (h : k.Holds s (u ++ v) padding rest) :
    ∃ k' s', k.recvAll u.length s = .ok (u, k') s' ∧ k'.header = k.header ∧
      k'.Holds s' v padding rest := by
  obtain ⟨hrem, hpad, hc⟩ := h
  rw [List.length_append] at hrem
  by_cases hu : u = []
  · subst hu
    exact ⟨k, s, rfl, rfl, by simpa using hrem, hpad, hc⟩
  · have hpos : 0 < u.length := List.length_pos_of_ne_nil hu
    have hne : u ++ v ≠ [] := by simp [hu]
    rw [if_neg hne, List.append_assoc] at hc
    obtain ⟨s₁, h₁, hc₁⟩ := recvAll_carries hc
    have hkeep : k.remaining - u.length = v.length := by omega
    rw [recvAll_eq k hpos (by omega), Rd.bind_ok h₁]
    refine ⟨{ k with remaining := v.length }, ?_⟩
    have hcons := consume_pos k hpos (by omega) (.other 0)
    rw [hkeep] at hcons
    by_cases hend : v.length = 0 ∧ k.header.paddingLength ≠ 0
    · obtain rfl : v = [] := List.eq_nil_of_length_eq_zero hend.1
      obtain ⟨s₂, h₂, hc₂⟩ := recvAll_carries (u := padding) (w := rest) hc₁
      rw [if_pos hend, hpad] at hcons
      have hdone : k.consume u.length (.other 0) s₁ =
          .ok (false, { k with remaining := 0 }) s₂ := by
        rw [hcons]
        exact Rd.bind_ok h₂
      exact ⟨s₂, Rd.bind_ok hdone, rfl, rfl, hpad, hc₂⟩
    · rw [if_neg hend] at hcons
      refine ⟨s₁, ?_, rfl, rfl, hpad, ?_⟩
      · rw [hcons]
        rfl
      · by_cases hv : v = []
        · have hz : padding = [] := by
            apply List.eq_nil_of_length_eq_zero
            rw [← hpad]
            by_contra hz
            exact hend ⟨by simp [hv], fun h0 => hz (by simp [h0])⟩
          simpa [hv, hz] using hc₁
        · rw [if_neg hv]
          exact hc₁

theorem holds_sinkToVector {k : Ipacket} {s : Sock} {content padding rest : List Byte}
    (h : k.Holds s content padding rest) :
    ∃ k' s', k.sinkToVector s = .ok (content, k') s' ∧ k'.header = k.header ∧
      k'.Holds s' [] padding rest := by
  obtain ⟨k', s', hr, hh, hk⟩ := holds_recvAll (u := content) (v := [])
    (by rw [List.append_nil]; exact h)
  refine ⟨k', s', ?_, hh, hk⟩
  unfold sinkToVector
  rw [h.left, Rd.bind_ok hr]
  have hfull : overwrite (List.replicate content.length 0) 0 content = content := by
    simp [overwrite]
  simp only [hfull]
  rfl

theorem holds_destroy {k : Ipacket} {s : Sock} {content padding rest : List Byte}
    (h : k.Holds s content padding rest) : ∃ s', k.destroy s = .ok () s' ∧ s'.Carries rest := by
  unfold destroy
  by_cases hz : k.remaining = 0
  · have hnil : content = [] := List.eq_nil_of_length_eq_zero (h.left.symm.trans hz)
    refine ⟨s, ?_, ?_⟩
    · simp only [hz, ne_eq, not_true_eq_false, if_false]
      rfl
    · simpa [hnil] using h.carries
  · obtain ⟨k', s', hr, -, hk⟩ := holds_recvAll (u := content) (v := [])
      (by rw [List.append_nil]; exact h)
    refine ⟨s', ?_, by simpa using hk.carries⟩
    rw [if_pos hz, h.left, Rd.bind_ok hr]
    rfl

/-- The constructor on a whole record; padding without content is left where it
is. -/
theorem holds_new {s : Sock} {header : Header} {content padding rest : List Byte} (p : Params)
    (junk : Header) (hc : header.contentLength.be = content.length)
    (hp : header.paddingLength.toNat = padding.length)
    (h : s.Carries (header.bytes ++ (content ++ (padding ++ rest)))) :
    ∃ k s', new p junk s = .ok k s' ∧ k.header = header ∧
      k.Holds s' content padding (if content = [] then padding ++ rest else rest) := by
  obtain ⟨s', hr, hs'⟩ := recvAll_carries h
  rw [Header.bytes_length] at hr
  have hbytes : overwrite { junk with contentLength := ⟨0, 0⟩ }.bytes 0 header.bytes =
      header.bytes := by
    simp [overwrite, Header.bytes]
  refine ⟨⟨header, content.length⟩, s', ?_, rfl, rfl, hp, ?_⟩
  · unfold new
    rw [Rd.bind_ok hr]
    have hh : Header.ofBytes (overwrite { junk with contentLength := ⟨0, 0⟩ }.bytes 0
        header.bytes) = header := by
      rw [hbytes]
      rfl
    simp only [hh, ntohs_load, hc]
    rfl
  · by_cases hnil : content = []
    · simpa [hnil] using hs'
    · simpa [hnil] using hs'

end Ipacket

end Tfcgi.Socket
