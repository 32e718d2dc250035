import Tfcgi.Lib.Code
import Tfcgi.OrderlyEnd
import Tfcgi.Wire

/-!
# What the peer reads

A connection's socket takes the packets of many threads, and may take a packet in parts
or only the front of one. The peer reads records as the protocol says.

* `decodeAll_calls`: the records of the whole calls are read, in the order of the mutex;
* `peer_reads`: this for every run of the process and every interleaving of the calls.
-/

namespace Tfcgi.Wire

open Tfcgi.Lib Tfcgi.Run Tfcgi.HostOrder Tfcgi.Protocol Tfcgi.SendPacket Tfcgi.System

/-- The record at the front, as the protocol says: a header, the content, the padding. -/
def readRecord (w : List Byte) : Option (Packet × List Byte) :=
  let header := Header.ofBytes w
  let size := Header.size + header.contentLength.be
  if w.length < size + header.paddingLength.toNat then none
  else some (⟨header, (w.drop Header.size).take header.contentLength.be⟩,
    w.drop (size + header.paddingLength.toNat))

theorem ofBytes_append {w : List Byte} (h : Header.size ≤ w.length) (v : List Byte) :
    Header.ofBytes (w ++ v) = Header.ofBytes w := by
  have hget : ∀ i, i < 8 → (w ++ v).getD i 0 = w.getD i 0 := by
    intro i hi
    rw [List.getD_eq_getElem?_getD, List.getElem?_append_left (Nat.lt_of_lt_of_le hi h),
      ← List.getD_eq_getElem?_getD]
  simp only [Header.ofBytes, hget 0 (by decide), hget 1 (by decide), hget 2 (by decide),
    hget 3 (by decide), hget 4 (by decide), hget 5 (by decide), hget 6 (by decide),
    hget 7 (by decide)]

theorem bytes_length (pkt : Packet) : pkt.bytes.length = Header.size + pkt.body.length := by
  rw [Packet.bytes, List.length_append, Header.bytes_length]

def records : Code Packet Byte where
  encode := Packet.bytes
  decode := readRecord
  Valid := Sized
  decode_encode := by
    intro pkt h
    have hheader : Header.ofBytes pkt.bytes = pkt.header := Header.ofBytes_bytes pkt.header pkt.body
    have hsize : Header.size + pkt.body.length + pkt.header.paddingLength.toNat =
        pkt.bytes.length := by
      rw [bytes_length, h.paddingLength]
      rfl
    have hdrop : pkt.bytes.drop Header.size = pkt.body := List.drop_left' pkt.header.bytes_length
    simp only [readRecord, hheader, h.contentLength, hsize, Nat.lt_irrefl, if_false, hdrop,
      List.take_length, List.drop_length]
  decode_append := by
    intro w pkt rest h v
    simp only [readRecord] at h
    split at h
    · cases h
    · rename_i hlen
      have hsize : Header.size ≤ w.length := by omega
      cases h
      have hshort : ¬ (w ++ v).length < Header.size + (Header.ofBytes w).contentLength.be +
          (Header.ofBytes w).paddingLength.toNat := by
        rw [List.length_append]
        omega
      have hdrop : (w ++ v).drop Header.size = w.drop Header.size ++ v :=
        List.drop_append_of_le_length hsize
      simp only [readRecord, ofBytes_append hsize, hshort, if_false, hdrop]
      rw [List.take_append_of_le_length (by rw [List.length_drop]; omega),
        List.drop_append_of_le_length (by omega)]
  decode_shorter := by
    intro w pkt rest h
    simp only [readRecord] at h
    split at h
    · cases h
    · rename_i hlen
      cases h
      have : 0 < Header.size := by decide
      rw [List.length_drop]
      omega


/-! ## Calls of `send_packet` -/

/-- The packet of a call is a record. -/
def Recorded (c : Call) : Prop := ∃ pkt, Sized pkt ∧ c.packet = pkt.bytes

theorem Recorded.pos {c : Call} (h : Recorded c) : 0 < c.packet.length := by
  obtain ⟨pkt, -, hpkt⟩ := h
  rw [hpkt, bytes_length]
  exact Nat.lt_of_lt_of_le (by decide) (Nat.le_add_right ..)

theorem bytes_unreached {c : Call} (h : ¬ c.Reached) : c.bytes = [] := by
  have hz : c.accepted = 0 := Nat.eq_zero_of_not_pos h
  rw [Call.bytes, hz, List.take_zero]

theorem Recorded.reached {c : Call} (h : Recorded c) (hw : c.Whole) : c.Reached := by
  have hpos := h.pos
  rw [Call.Reached, hw]
  exact hpos

theorem reached_cons {c : Call} (h : c.Reached) (l : List Call) :
    Output.reached (c :: l) = c :: Output.reached l := by
  simp only [Output.reached, List.filter_cons, h, decide_true, if_true]

theorem reached_cons_not {c : Call} (h : ¬ c.Reached) (l : List Call) :
    Output.reached (c :: l) = Output.reached l := by
  simp only [Output.reached, List.filter_cons, h, decide_false, Bool.false_eq_true, if_false]

theorem decode_call {c : Call} (h : Recorded c) (hw : ¬ c.Whole) :
    records.decode c.bytes = none := by
  obtain ⟨pkt, hsized, hpkt⟩ := h
  have hle := c.accepted_le
  refine Code.decode_cut (K := records) (a := pkt) hsized (v := c.rest) ?_ ?_
  · rw [Call.bytes, Call.rest, List.take_append_drop, hpkt]
    rfl
  · intro hrest
    rw [Call.rest, List.drop_eq_nil_iff] at hrest
    exact hw (Nat.le_antisymm hle hrest)

/-- Of calls of which only the last one that reached the socket may be cut, the peer reads
the whole ones and is left with the cut one. -/
theorem decodeAll_calls {l : List Call} (hrec : ∀ c ∈ l, Recorded c) (hcut : Output.OnlyLastCut l) :
    (records.decodeAll (l.flatMap Call.bytes)).1.map Packet.bytes =
        (l.filter fun c => c.Whole).map Call.packet ∧
      (records.decodeAll (l.flatMap Call.bytes)).2 =
        (l.filter fun c => ¬ c.Whole).flatMap Call.bytes := by
  induction l with
  | nil => exact ⟨rfl, rfl⟩
  | cons c l ih =>
    have hc := hrec c List.mem_cons_self
    have hrec' : ∀ c ∈ l, Recorded c := fun x hx => hrec x (List.mem_cons_of_mem c hx)
    by_cases hr : c.Reached
    · rw [Output.OnlyLastCut, reached_cons hr] at hcut
      by_cases hw : c.Whole
      · have hcut' : Output.OnlyLastCut l := by
          intro x hx
          have hne : Output.reached l ≠ [] := by
            intro hnil
            rw [hnil] at hx
            cases hx
          exact hcut x (by rw [List.dropLast_cons_of_ne_nil hne]; exact List.mem_cons_of_mem c hx)
        obtain ⟨h1, h2⟩ := ih hrec' hcut'
        obtain ⟨pkt, hsized, hpkt⟩ := hc
        have hbytes : c.bytes = records.encode pkt := by
          rw [Call.bytes, hw, List.take_length, hpkt]
          rfl
        have hall := Code.decodeAll_cons (K := records) hsized (l.flatMap Call.bytes)
        rw [List.flatMap_cons, hbytes, hall]
        simp only [List.map_cons, List.filter_cons, hw, decide_true, if_true, not_true,
          decide_false, Bool.false_eq_true, if_false, h1, h2, hpkt, and_self]
      · have hnil : Output.reached l = [] := by
          by_contra hne
          exact hw (hcut c (by rw [List.dropLast_cons_of_ne_nil hne]; exact List.mem_cons_self))
        have hrest : l.flatMap Call.bytes = [] := by
          rw [← Output.flatMap_reached, hnil]
          rfl
        have hnot : ∀ x ∈ l, ¬ x.Whole := by
          intro x hx hxw
          have hmem := Output.mem_reached.mpr ⟨hx, (hrec' x hx).reached hxw⟩
          rw [hnil] at hmem
          cases hmem
        have hone : (l.filter fun c => c.Whole) = [] := by
          rw [List.filter_eq_nil_iff]
          intro x hx
          simp [hnot x hx]
        have hall : (l.filter fun c => ¬ c.Whole) = l := by
          rw [List.filter_eq_self]
          intro x hx
          simp [hnot x hx]
        rw [List.flatMap_cons, hrest, List.append_nil, Code.decodeAll_none (decode_call hc hw)]
        simp only [List.filter_cons, hw, decide_false, Bool.false_eq_true, if_false, hone,
          not_false_eq_true,
          decide_true, if_true, List.flatMap_cons, hall, hrest, List.append_nil, List.map_nil,
          and_self]
    · have hw : ¬ c.Whole := fun hw => hr (hc.reached hw)
      rw [Output.OnlyLastCut, reached_cons_not hr] at hcut
      obtain ⟨h1, h2⟩ := ih hrec' hcut
      rw [List.flatMap_cons, bytes_unreached hr, List.nil_append]
      simp only [List.filter_cons, hw, decide_false, Bool.false_eq_true, if_false, h1, h2,
        not_false_eq_true, decide_true, if_true, List.flatMap_cons, bytes_unreached hr,
          List.nil_append, and_self]

/-! ## Interleavings -/

/-- The packets that the threads hold and those of all calls. -/
structure Carries (P : List Byte → Prop) (s : Output) : Prop where
  waiting : ∀ t packet, s.callers t = .waiting packet → P packet
  sending : ∀ t c, s.callers t = .sending c → P c.packet
  left : ∀ c ∈ s.left, P c.packet

theorem Carries.calls {P : List Byte → Prop} {s : Output} (h : Carries P s) :
    ∀ c ∈ s.calls, P c.packet := by
  intro c hc
  rcases List.mem_append.mp hc with hc | hc
  · exact h.left c hc
  · rw [Option.mem_toList] at hc
    unfold Output.current at hc
    split at hc
    · cases hc
    · split at hc
      · rename_i c' hs
        cases hc
        exact h.sending _ c hs
      · cases hc

/-- A thread goes on, with a packet that it has. -/
theorem Carries.set {P : List Byte → Prop} {s s' : Output} {t : Nat} {x : Caller}
    (h : Carries P s) (hcallers : s'.callers = (s.setCaller t x).callers)
    (hw : ∀ packet, x = .waiting packet → P packet) (hs : ∀ c, x = .sending c → P c.packet)
    (hl : ∀ c ∈ s'.left, P c.packet) : Carries P s' := by
  refine ⟨?_, ?_, hl⟩
  · intro u packet hu
    rw [hcallers] at hu
    by_cases hut : u = t
    · rw [hut, Output.setCaller_same] at hu
      exact hw packet hu
    · rw [Output.setCaller_ne _ _ hut] at hu
      exact h.waiting u packet hu
  · intro u c hu
    rw [hcallers] at hu
    by_cases hut : u = t
    · rw [hut, Output.setCaller_same] at hu
      exact hs c hu
    · rw [Output.setCaller_ne _ _ hut] at hu
      exact h.sending u c hu

theorem Carries.leave {P : List Byte → Prop} {s : Output} (h : Carries P s) {t : Nat} {c : Call}
    (hc : s.callers t = .sending c) : Carries P (s.leave t c) := by
  refine h.set (t := t) (x := .idle) rfl (fun _ => Caller.noConfusion)
    (fun _ => Caller.noConfusion) ?_
  intro x hx
  rcases List.mem_append.mp hx with hx | hx
  · exact h.left x hx
  · obtain rfl := List.mem_singleton.mp hx
    exact h.sending t _ hc

theorem step_carries {P : List Byte → Prop} {s s' : Output} {a : SendPacket.Act} (hs : Carries P s)
    (ha : ∀ t packet, a = .call t packet → P packet) (h : Output.step s a = some s') :
    Carries P s' := by
  cases a with
  | call t packet =>
    simp only [Output.step] at h
    split at h
    · cases h
      refine hs.set rfl ?_ (fun _ => Caller.noConfusion) hs.left
      rintro packet' ⟨⟩
      exact ha t packet rfl
    · cases h
  | lock t =>
    simp only [Output.step] at h
    split at h
    · rename_i packet hw hfree
      cases h
      refine hs.set rfl (fun _ => Caller.noConfusion) ?_ hs.left
      rintro c ⟨⟩
      exact hs.waiting t packet hw
    · cases h
  | send t r =>
    simp only [Output.step] at h
    split at h
    · rename_i c hc
      split at h
      · cases h
      · split at h
        · cases h
          refine hs.set rfl (fun _ => Caller.noConfusion) ?_ hs.left
          rintro c' ⟨⟩
          exact hs.sending t c hc
        · cases h
          exact hs.leave hc
    · cases h
  | unlock t =>
    simp only [Output.step] at h
    split at h
    · rename_i c hc
      split at h
      · cases h
        exact hs.leave hc
      · cases h
    · cases h

theorem run_carries {P : List Byte → Prop} {s s' : Output} {bs : List SendPacket.Act}
    (hs : Carries P s) (hb : ∀ t packet, .call t packet ∈ bs → P packet)
    (h : run Output.step s bs = some s') : Carries P s' := by
  induction bs generalizing s with
  | nil =>
    cases h
    exact hs
  | cons b bs ih =>
    obtain ⟨m, hstep, hrest⟩ := run_cons h
    refine ih (step_carries hs ?_ hstep)
      (fun t packet hx => hb t packet (List.mem_cons_of_mem b hx)) hrest
    rintro t packet rfl
    exact hb t packet List.mem_cons_self

/-- **What the peer reads.** Any threads give the packets of a connection to `send_packet`,
at any times, and the socket takes nothing behind a packet that was left in the middle: the
peer reads the records of the calls that were taken whole, in the order of the mutex. What
is left is the front of the one that was cut. -/
theorem peer_reads {p : Params} {workers i : Nat} {as : List System.Act} {bs : List SendPacket.Act}
    {o : Output} (hcalls : ∀ t packet, .call t packet ∈ bs →
      ∃ pkt ∈ wire p i (.init workers) as, packet = pkt.bytes)
    (h : run Output.step .init bs = some o) (hm : Meets Output.step Output.Mute .init bs) :
    (records.decodeAll o.wire).1.map Packet.bytes =
        (o.calls.filter fun c => c.Whole).map Call.packet ∧
      (records.decodeAll o.wire).2 = (o.calls.filter fun c => ¬ c.Whole).flatMap Call.bytes := by
  have hi : o.Inv := run_invariant Output.init_inv (fun _ _ _ => Output.step_inv) h
  have hcarries : Carries (fun packet => ∃ pkt ∈ wire p i (.init workers) as,
      packet = pkt.bytes) o := by
    refine run_carries ⟨?_, ?_, ?_⟩ hcalls h
    · exact fun _ _ => Caller.noConfusion
    · exact fun _ _ => Caller.noConfusion
    · intro c hc
      cases hc
  have hrec : ∀ c ∈ o.calls, Recorded c := by
    intro c hc
    obtain ⟨pkt, hpkt, heq⟩ := hcarries.calls c hc
    exact ⟨pkt, (wire_wellFormed i (init_laid workers) as pkt hpkt).sized, heq⟩
  have h0 : Output.OnlyLastCut Output.init.calls := fun c hc => by cases hc
  have hcut : Output.OnlyLastCut o.calls :=
    (holds_iff_meets (fun _ _ _ => Output.step_inv) (fun _ _ _ => Output.step_onlyLastCut)
      Output.init_inv h).mpr ⟨h0, hm⟩
  rw [hi.wire]
  exact decodeAll_calls hrec hcut

/-- The bytes of record `n` of a run in which the application writes and then throws. -/
def thrownRecord (n : Nat) : List Byte :=
  ((wire .standard 0 (.init 1) OrderlyEnd.thrown).map Packet.bytes).getD n []

/-- The first record goes in two parts, the second is cut. -/
def cutCalls (first second : List Byte) : List SendPacket.Act :=
  [.call 0 first, .call 1 second, .lock 0, .send 0 (.sent 7), .send 0 (.error .eintr),
    .send 0 (.sent 3), .unlock 0, .lock 1, .send 1 (.sent 3), .send 1 (.error (.other 12))]

theorem mem_cutCalls {first second packet : List Byte} {t : Nat}
    (h : .call t packet ∈ cutCalls first second) : packet = first ∨ packet = second := by
  simp only [cutCalls, List.mem_cons, List.not_mem_nil, SendPacket.Act.call.injEq, reduceCtorEq,
    or_false] at h
  exact h.imp And.right And.right

theorem thrownRecord_mem {n : Nat}
    (h : n < (wire .standard 0 (.init 1) OrderlyEnd.thrown).length) :
    ∃ pkt ∈ wire .standard 0 (.init 1) OrderlyEnd.thrown, thrownRecord n = pkt.bytes := by
  refine ⟨_, List.getElem_mem h, ?_⟩
  rw [thrownRecord, List.getD_eq_getElem?_getD, List.getElem?_map, List.getElem?_eq_getElem h]
  rfl

theorem peer_reads_thrown : ∃ o,
    run Output.step .init (cutCalls (thrownRecord 0) (thrownRecord 5)) = some o ∧
    (records.decodeAll o.wire).1.map Packet.bytes =
        (o.calls.filter fun c => c.Whole).map Call.packet ∧
      (records.decodeAll o.wire).2 = (o.calls.filter fun c => ¬ c.Whole).flatMap Call.bytes := by
  have hlen : 5 < (wire .standard 0 (.init 1) OrderlyEnd.thrown).length := by decide +kernel
  have hrun : (run Output.step .init (cutCalls (thrownRecord 0) (thrownRecord 5))).any
      (fun o => decide (Output.OnlyLastCut o.calls)) = true := by decide +kernel
  obtain ⟨o, ho, hcheck⟩ := (Option.any_eq_true _ _).mp hrun
  have hcut : Output.OnlyLastCut o.calls := of_decide_eq_true hcheck
  have hm : Meets Output.step Output.Mute .init (cutCalls (thrownRecord 0) (thrownRecord 5)) := by
    have h := holds_iff_meets (fun _ _ _ => Output.step_inv)
      (fun _ _ _ => Output.step_onlyLastCut) Output.init_inv ho
    exact (h.mp hcut).2
  have hcalls : ∀ t packet, .call t packet ∈ cutCalls (thrownRecord 0) (thrownRecord 5) →
      ∃ pkt ∈ wire .standard 0 (.init 1) OrderlyEnd.thrown, packet = pkt.bytes := by
    intro t packet hcall
    rcases mem_cutCalls hcall with h | h
    · rw [h]
      exact thrownRecord_mem (Nat.lt_trans (by decide) hlen)
    · rw [h]
      exact thrownRecord_mem hlen
  exact ⟨o, ho, peer_reads hcalls ho hm⟩

end Tfcgi.Wire
