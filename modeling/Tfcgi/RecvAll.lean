import Tfcgi.ConnectionThread

/-!
# Interrupted reads

`recvInto` is the loop of `Connection::recv_all` with its pointer: `read(2)` stores
at `data`, and both `data` and `size` move on by what it stored. The first failed
call clears `socket_insane`, also when the call is made again.

* `recvInto_eq`: the memory it leaves is what `recvLoop` says, in one piece;
* `survives_iff`: the flag tells the short reads from the complete ones exactly
  when no call is interrupted before the last byte;
* `turn_discards`: a header that comes whole behind an interruption is thrown away.
-/

namespace Tfcgi.RecvAll

open Tfcgi.HostOrder Tfcgi.Protocol Tfcgi.SendPacket Tfcgi.Socket Tfcgi.RequestSlot
open Tfcgi.Iostream Tfcgi.ConnectionThread

/-! ## The loop with its pointer -/

/-- `recv_all(&buf[data],size)`: the memory, the socket, or `none` while `read(2)`
waits. -/
def recvInto (buf : List Byte) (data : Nat) : Nat → Bool → List ReadResult →
    Option (List Byte × Sock)
  | 0, insane, rs => some (buf, ⟨rs, insane⟩)
  | _ + 1, _, [] => none
  | size + 1, insane, .data b bs :: rs =>
    let stored := b :: bs.take size
    match bs.drop size with
    | [] =>
      recvInto (overwrite buf data stored) (data + stored.length) (size + 1 - stored.length)
        insane rs
    | c :: cs => some (overwrite buf data stored, ⟨.data c cs :: rs, insane⟩)
  | _ + 1, _, .eof :: rs => some (buf, ⟨rs, false⟩)
  | size + 1, _, .error e :: rs =>
    if retried e then recvInto buf data (size + 1) false rs else some (buf, ⟨rs, false⟩)

theorem recvInto_eq {data size : Nat} {insane : Bool} {rs : List ReadResult} {buf : List Byte}
    (hroom : data + size ≤ buf.length) :
    recvInto buf data size insane rs =
      (recvLoop size insane rs).map fun x => (overwrite buf data x.1, x.2) := by
  fun_induction recvLoop size insane rs generalizing buf data with
  | case1 insane rs => simp [recvInto]
  | case2 => simp [recvInto]
  | case3 size insane b bs rs hd ih =>
    have hbs : bs.length ≤ size := by simpa using hd
    have htake : bs.take size = bs := List.take_of_length_le hbs
    have hlen : (overwrite buf data (b :: bs)).length = buf.length :=
      overwrite_length _ _ _ (by simp only [List.length_cons]; omega)
    have hsize : size + 1 - (b :: bs).length = size - bs.length := by
      simp only [List.length_cons]
      omega
    simp only [recvInto, hd, htake, hsize]
    rw [ih (by rw [hlen]; simp only [List.length_cons]; omega), Option.map_map]
    congr 1
    funext x
    simp only [Function.comp_apply]
    rw [overwrite_overwrite _ _ (by simp only [List.length_cons]; omega)]
  | case4 size insane b bs rs c cs hd => simp [recvInto, hd]
  | case5 size insane rs => simp [recvInto]
  | case6 size insane e rs hr ih =>
    simp only [recvInto, hr, if_true]
    exact ih hroom
  | case7 size insane e rs hr => simp [recvInto, hr]

/-! ## What the loop reports -/

/-- A call is interrupted and made again before the last of `size` bytes came. -/
def interrupted : Nat → List ReadResult → Bool
  | 0, _ => false
  | _ + 1, [] => false
  | size + 1, .data _ bs :: rs => interrupted (size - bs.length) rs
  | _ + 1, .eof :: _ => false
  | _ + 1, .error e :: _ => retried e

theorem recvLoop_insane {size : Nat} {insane : Bool} {rs : List ReadResult} {got : List Byte}
    {s : Sock} (h : recvLoop size insane rs = some (got, s)) :
    s.insane = (insane && arrives size rs && !interrupted size rs) := by
  fun_induction recvLoop size insane rs generalizing got s with
  | case1 insane rs =>
    cases h
    simp [arrives, interrupted]
  | case2 => cases h
  | case3 size insane b bs rs hd ih =>
    obtain ⟨⟨got', s'⟩, hr, he⟩ := Option.map_eq_some_iff.mp h
    cases he
    rw [ih hr, arrives, interrupted]
  | case4 size insane b bs rs c cs hd =>
    cases h
    have hbs : size - bs.length = 0 := by
      by_contra hle
      rw [List.drop_of_length_le (by omega)] at hd
      cases hd
    simp [arrives, interrupted, hbs]
  | case5 size insane rs =>
    cases h
    simp [arrives]
  | case6 size insane e rs hr ih =>
    rw [ih h]
    simp [interrupted, hr]
  | case7 size insane e rs hr =>
    cases h
    simp [arrives, hr]

/-- The stored bytes are the first ones of the socket. -/
theorem recvLoop_bytes {size : Nat} {insane : Bool} {rs : List ReadResult} {got : List Byte}
    {s : Sock} (h : recvLoop size insane rs = some (got, s)) :
    rs.flatMap ReadResult.bytes = got ++ s.bytes := by
  fun_induction recvLoop size insane rs generalizing got s with
  | case1 insane rs =>
    cases h
    rfl
  | case2 => cases h
  | case3 size insane b bs rs hd ih =>
    obtain ⟨⟨got', s'⟩, hr, he⟩ := Option.map_eq_some_iff.mp h
    cases he
    rw [List.flatMap_cons, ih hr, ReadResult.bytes, List.append_assoc]
  | case4 size insane b bs rs c cs hd =>
    cases h
    have hbs : bs = bs.take size ++ c :: cs := by rw [← hd, List.take_append_drop]
    rw [List.flatMap_cons, Sock.bytes, List.flatMap_cons, ← List.append_assoc]
    congr 1
    rw [ReadResult.bytes, ReadResult.bytes, List.cons_append, ← hbs]
  | case5 size insane rs =>
    cases h
    rfl
  | case6 size insane e rs hr ih => exact ih h
  | case7 size insane e rs hr =>
    cases h
    rfl

/-- The memory holds the bytes that were received, in order, and `socket_insane` is
cleared if and only if some of the `size` bytes are missing. -/
def Survives (buf : List Byte) (data size : Nat) (s : Sock) (buf' : List Byte) (s' : Sock) : Prop :=
  ∃ got, buf' = overwrite buf data got ∧ s.bytes = got ++ s'.bytes ∧ got.length ≤ size ∧
    (s'.insane = false ↔ s.insane = false ∨ got.length < size)

/-- **Interrupted reads.** The flag is right exactly when it was cleared before, or
the bytes do not all come, or no call is interrupted before the last of them. -/
theorem survives_iff {buf buf' : List Byte} {data size : Nat} {s s' : Sock}
    (hroom : data + size ≤ buf.length)
    (h : recvInto buf data size s.insane s.reads = some (buf', s')) :
    Survives buf data size s buf' s' ↔
      (s.insane = true → arrives size s.reads = true → interrupted size s.reads = false) := by
  rw [recvInto_eq hroom] at h
  obtain ⟨⟨got, s₁⟩, hl, he⟩ := Option.map_eq_some_iff.mp h
  simp only [Prod.mk.injEq] at he
  obtain ⟨rfl, rfl⟩ := he
  obtain ⟨hle, hcomplete, -⟩ := recvLoop_arrives hl
  have hbytes : s.bytes = got ++ s₁.bytes := recvLoop_bytes hl
  have hflag : s₁.insane = false ↔ s.insane = false ∨ arrives size s.reads = false ∨
      interrupted size s.reads = true := by
    rw [recvLoop_insane hl]
    cases s.insane <;> cases arrives size s.reads <;> cases interrupted size s.reads <;> decide
  have hshort : got.length < size ↔ arrives size s.reads = false := by
    rw [← Bool.not_eq_true, ← hcomplete]
    omega
  constructor
  · rintro ⟨got', -, hb, -, hiff⟩ hsane harr
    have hgot : got' = got := List.append_cancel_right (hb.symm.trans hbytes)
    rw [hgot, hflag, hshort] at hiff
    simpa [hsane, harr] using hiff
  · intro hcond
    refine ⟨got, rfl, hbytes, hle, ?_⟩
    rw [hflag, hshort]
    cases hs : s.insane with
    | false => simp
    | true =>
      cases ha : arrives size s.reads with
      | false => simp
      | true => simp [hcond hs ha]

theorem survives_iff_whole :
    Survives [0, 0, 0] 0 3 ⟨[.data 1 [2], .data 3 [4]], true⟩ [1, 2, 3] ⟨[.data 4 []], true⟩ :=
  (survives_iff (by decide) rfl).mpr (by decide)

/-! ## What a cleared flag costs -/

/-- The header came whole, but a call was interrupted: the record is thrown away
and the thread leaves its loop. -/
theorem turn_discards {p : Params} {junk : Junk} {φ : Fate} {c : Connection}
    (hi : interrupted Header.size c.sock.reads = true) :
    c.turn p junk φ = .blocked ∨ ∃ c', c.turn p junk φ = .left c' := by
  unfold Connection.turn
  cases hn : Ipacket.new p junk.header c.sock with
  | blocked => exact Or.inl rfl
  | throws e => exact absurd hn (Connection.new_ne_throws p _ _ e)
  | ok k s =>
    have hflag : s.insane = false := by
      obtain ⟨got, s₁, hr, hk⟩ := Rd.bind_eq_ok hn
      cases hk
      unfold Connection.recvAll at hr
      split at hr
      · cases hr
      · rename_i hl
        cases hr
        rw [recvLoop_insane hl, hi]
        simp
    simp only [hflag, Bool.false_eq_true, if_false]
    rcases k.destroy_cases s with hd | ⟨s', hd⟩
    · simp [hd]
    · simp [hd]

/-- An ABORT_REQUEST header comes in two parts with an interruption between them. -/
def torn : List ReadResult := [.data 1 [2, 0, 1], .error .eintr, .data 0 [0, 0, 0]]

/-- All its bytes are stored, the flag is cleared, and the thread leaves its loop. -/
theorem torn_cleared :
    recvInto (List.replicate 8 255) 0 8 true torn =
        some ([1, 2, 0, 1, 0, 0, 0, 0], ⟨[], false⟩) ∧
      ¬ Survives (List.replicate 8 255) 0 8 ⟨torn, true⟩ [1, 2, 0, 1, 0, 0, 0, 0] ⟨[], false⟩ ∧
      ∃ c, ({ Connection.new .standard .zeros with sock := ⟨torn, true⟩ }).turn .standard .zeros
        Fate.sent = .left c := by
  refine ⟨by decide, ?_, _, rfl⟩
  rintro ⟨got, -, hb, -, hiff⟩
  have hgot : got = [1, 2, 0, 1, 0, 0, 0, 0] := by
    simpa [torn, Sock.bytes, ReadResult.bytes] using hb.symm
  subst hgot
  simp at hiff

end Tfcgi.RecvAll
