import Tfcgi.History
import Tfcgi.Wire

/-!
# The ids of the replies

A header is loaded as it is in memory, and the id goes through `htons` on its way back.

* `run_tells`: what holds of the packets that a request makes, for every run;
* `id_returned`: which replies have the id that the peer gave.
-/

namespace Tfcgi.Ids

open Tfcgi.Run Tfcgi.HostOrder Tfcgi.Protocol Tfcgi.Socket Tfcgi.Iostream Tfcgi.RequestSlot
open Tfcgi.ConnectionThread Tfcgi.System Tfcgi.OutputStream Tfcgi.History Tfcgi.Wire

variable {p : Params}

/-! ## The packets of a slot -/

/-- What holds of the request of a slot and of the packets that its history has. -/
structure Tells (P : Packet → Prop) (I : Stream → Ostreambuf → Prop) (N : Nat → Prop) (s : Sys)
    (ref : Ref) : Prop where
  lined : ∀ r, s.request? ref = some r → Lined I N r
  packets : ∀ pkt out, .did (.sent pkt out) ∈ marksOf s ref → P pkt

theorem did_packets {log : List Event} {pkt : Packet} {out : SendPacket.SendOutcome}
    (h : Mark.did (.sent pkt out) ∈ log.map Mark.did) : pkt ∈ packets log := by
  obtain ⟨e, he, hx⟩ := List.mem_map.mp h
  cases hx
  exact mem_packets.mpr ⟨out, he⟩

theorem sent_marks {hd : Handled} {log : List Event} {pkt : Packet} {out : SendPacket.SendOutcome}
    (h : Mark.did (.sent pkt out) ∈ Sys.marks hd log) : pkt ∈ packets log := by
  cases hd with
  | idle r => exact did_packets h
  | accepted r | cancelled r | push r =>
    rcases List.mem_cons.mp h with hx | hx
    · cases hx
    · exact did_packets hx

section
variable {P : Packet → Prop} {I : Stream → Ostreambuf → Prop} {N : Nat → Prop} {s s' : Sys}
  {ref : Ref}

theorem Tells.more (h : Tells P I N s ref) {ms : List Mark}
    (hlined : ∀ r, s'.request? ref = some r → Lined I N r)
    (hmarks : marksOf s' ref = marksOf s ref ++ ms)
    (hnew : ∀ pkt out, .did (.sent pkt out) ∈ ms → P pkt) : Tells P I N s' ref where
  lined := hlined
  packets := by
    intro pkt out hm
    rw [hmarks] at hm
    exact (List.mem_append.mp hm).elim (h.packets pkt out) (hnew pkt out)

theorem step_tells (hS : Speaks p P I N) (hN : N (ref.slot + 1))
    (hu : ∀ requestId byte, N requestId → P (Request.unknownTypePacket p requestId byte)) {a : Act}
    (hs : Tells P I N s ref) (h : Sys.step p s a = some s') : Tells P I N s' ref := by
  cases step_slot h ref with
  | same request marks =>
    refine hs.more ?_ (by rw [marks, List.append_nil]) (fun _ _ hm => by cases hm)
    intro r hr
    exact hs.lined r (request ▸ hr)
  | handled n junk φ notified r hd log act conn pc slot handles request marks pushes =>
    have hl : Lined I N r := by
      rcases slot with hr | ⟨-, rfl⟩
      · exact hs.lined r hr
      · exact new_lined hS hN junk
    obtain ⟨hp, hlined⟩ := handles_emits hS hl handles fun byte _ => hu _ byte hl.id
    refine hs.more ?_ marks fun pkt out hm => hp pkt (sent_marks hm)
    intro r' hr'
    rw [request] at hr'
    cases hr'
    exact hlined hd rfl
  | reset n j r conn pc slot request marks =>
    refine hs.more ?_ (by rw [marks, List.append_nil]) (fun _ _ hm => by cases hm)
    intro r' hr'
    rw [request] at hr'
    cases hr'
    exact (hs.lined r slot).congr rfl rfl rfl
  | destroyed n φ r log conn pc slot destroys request marks =>
    obtain ⟨hp, -⟩ := (request_emits hS (hs.lined r slot)).did destroys
    refine hs.more ?_ marks fun pkt out hm => hp pkt (did_packets hm)
    intro r' hr'
    rw [request] at hr'
    cases hr'
  | worked w r r' pc pc' got log worker workers slot works request marks =>
    obtain ⟨hp, hlined⟩ := worked_lined hS (hs.lined r slot) works
    refine hs.more ?_ marks ?_
    · intro x hx
      rw [request] at hx
      cases hx
      exact hlined
    · intro pkt out hm
      rcases List.mem_append.mp hm with hm | hm
      · exact hp pkt (did_packets hm)
      · cases got with
        | none => cases hm
        | some x => cases List.mem_singleton.mp hm

theorem run_tells (hS : Speaks p P I N) (hN : N (ref.slot + 1))
    (hu : ∀ requestId byte, N requestId → P (Request.unknownTypePacket p requestId byte))
    {workers : Nat} {as : List Act} (h : run (Sys.step p) (.init workers) as = some s) :
    Tells P I N s ref := by
  have hinit : Tells P I N (.init workers) ref := by
    refine ⟨?_, ?_⟩
    · intro r hr
      cases hr
    · intro pkt out hm
      cases hm
  exact run_invariant (I := fun s => Tells P I N s ref) hinit
    (fun _ _ _ hs hstep => step_tells hS hN hu hs hstep) h

end

/-! ## The id -/

theorem U16.be_inj {m n : U16} (h : m.be = n.be) : m = n := by
  have hm := m.b1.toNat_lt
  have hn := n.b1.toNat_lt
  unfold U16.be at h
  have h0 : m.b0.toNat = n.b0.toNat := by omega
  have h1 : m.b1.toNat = n.b1.toNat := by omega
  obtain ⟨m0, m1⟩ := m
  obtain ⟨n0, n1⟩ := n
  obtain rfl : m0 = n0 := UInt8.toNat_inj.mp h0
  obtain rfl : m1 = n1 := UInt8.toNat_inj.mp h1
  rfl

/-- The bytes of the id are in the order of the host, or are the same. -/
def Stable (p : Params) (m : U16) : Prop := p.host = .big ∨ m.b0 = m.b1

/-- The id that `htons` makes of what is loaded. -/
def answered (p : Params) (m : U16) : U16 := .store p.host (ntohs p.host (m.load p.host))

theorem answered_be (p : Params) (m : U16) : (answered p m).be = m.load p.host := by
  rw [answered, be_store_ntohs, Nat.mod_eq_of_lt (U16.load_lt _ _)]

theorem stable_iff (p : Params) (m : U16) : answered p m = m ↔ Stable p m := by
  have h0 := m.b0.toNat_lt
  have h1 := m.b1.toNat_lt
  have hiff : answered p m = m ↔ m.load p.host = m.be := by
    rw [← answered_be]
    exact ⟨fun h => by rw [h], U16.be_inj⟩
  rw [hiff, Stable]
  cases hhost : p.host with
  | big => exact iff_of_true rfl (Or.inl rfl)
  | little =>
    simp only [U16.load, U16.be, reduceCtorEq, false_or, ← UInt8.toNat_inj]
    omega

/-- A stream buffer that has the id `m`, when `htons` does not change it. -/
theorem stable_speaks {m : U16} (hm : Stable p m) : Speaks p (fun pkt => pkt.header.requestId = m)
    (fun _ b => b.header.requestId = m ∧ b.pending.length ≤ Ostreambuf.capacity)
    (fun requestId => requestId = m.load p.host) where
  buffers := by
    intro i
    refine ⟨fun b hb => hb.2, fun b pending eof hb hroom => ⟨hb.1, hroom⟩,
      fun b data hb _ => hb.1, ?_⟩
    intro b hb
    refine ⟨?_, Nat.zero_le _⟩
    change answered p b.header.requestId = m
    rw [hb.1]
    exact (stable_iff p m).mpr hm
  ends := by
    rintro requestId body rfl
    exact (stable_iff p m).mpr hm
  fresh := by
    rintro requestId junk i rfl
    cases i with
    | cout => exact ⟨(stable_iff p m).mpr hm, Nat.zero_le _⟩
    | cerr => exact ⟨(stable_iff p m).mpr hm, Nat.zero_le _⟩

/-- An END_REQUEST or UNKNOWN_TYPE record has the id that `htons` makes. -/
def Answered (p : Params) (m : U16) (pkt : Packet) : Prop :=
  pkt.recType = .endRequest ∨ pkt.recType = .unknownType → pkt.header.requestId = answered p m

theorem answered_speaks (m : U16) : Speaks p (Answered p m) Ready
    (fun requestId => requestId = m.load p.host ∧ Given requestId) := by
  refine ready_speaks (fun _ h => h.2) ?_ ?_
  · intro pkt _ hstream hreply
    rcases hstream with hs | hs <;> rcases hreply with hr | hr <;> rw [hs] at hr <;> cases hr
  · rintro requestId body ⟨rfl, -⟩ -
    rfl

/-- **The id of a reply.** In every run, the records of a slot for the id field `m` have
this field again if `htons` does not change it, and an END_REQUEST or UNKNOWN_TYPE record
has it then only. -/
theorem id_returned {workers : Nat} {as : List Act} {s : Sys} {ref : Ref}
    (h : run (Sys.step p) (.init workers) as = some s) {m : U16}
    (hid : m.load p.host = ref.slot + 1)
    {pkt : Packet} {out : SendPacket.SendOutcome} (hm : .did (.sent pkt out) ∈ marksOf s ref) :
    (Stable p m → pkt.header.requestId = m) ∧
      (pkt.recType = .endRequest ∨ pkt.recType = .unknownType →
        (pkt.header.requestId = m ↔ Stable p m)) := by
  refine ⟨?_, ?_⟩
  · intro hstable
    have htells := run_tells (stable_speaks hstable) hid.symm
      (fun requestId byte hn => by
        rw [hn]
        exact (stable_iff p m).mpr hstable) h
    exact htells.packets pkt out hm
  · intro hreply
    have hgiven : Given (ref.slot + 1) := ⟨Nat.succ_ne_zero _, by rw [← hid]; exact U16.load_lt _ _⟩
    have htells := run_tells (answered_speaks m) ⟨hid.symm, hgiven⟩
      (fun requestId byte hn _ => by
        rw [hn.1]
        rfl) h
    rw [htells.packets pkt out hm hreply]
    exact stable_iff p m

/-- On a little-endian host the peer with the id 256 gets the end of a request 1. -/
theorem id_returned_served : ∃ s pkt out, run (Sys.step .standard) (.init 1) served = some s ∧
    .did (.sent pkt out) ∈ marksOf s ⟨0, 0⟩ ∧ pkt.recType = .endRequest ∧
      pkt.header.requestId ≠ ⟨1, 0⟩ := by
  have hrun : (run (Sys.step .standard) (.init 1) served).any (fun s =>
      (marksOf s ⟨0, 0⟩).any isEnd) = true := by decide +kernel
  obtain ⟨s, hs, hany⟩ := (Option.any_eq_true _ _).mp hrun
  obtain ⟨m, hm, hend⟩ := List.any_eq_true.mp hany
  unfold isEnd at hend
  split at hend
  · rename_i pkt out
    have ht : pkt.recType = .endRequest := of_decide_eq_true hend
    have hid : (⟨1, 0⟩ : U16).load Params.standard.host = (⟨0, 0⟩ : Ref).slot + 1 := by decide
    refine ⟨s, pkt, out, hs, hm, ht, ?_⟩
    intro heq
    rcases ((id_returned hs hid hm).2 (Or.inl ht)).mp heq with hbig | hsame
    · cases hbig
    · cases hsame
  · cases hend

end Tfcgi.Ids
