import Tfcgi.Lib.Keyed
import Tfcgi.Framing
import Tfcgi.System

/-!
# Multiplexed requests

The records with the ids of several requests come in any order over one
connection. `handle` is what the connection thread does for a record: the pass
of `thread_func`, and `params_deserializer.reset()` behind a push.

* `handle_cell`: it is a step of the slot of its id, whatever else the
  connection holds;
* `multiplexed`: the records of the other ids change nothing of a request and of
  the records that its handler emits.
-/

namespace Tfcgi.Multiplex

open Tfcgi.HostOrder Tfcgi.Protocol Tfcgi.SendPacket Tfcgi.Socket Tfcgi.Iostream
open Tfcgi.RequestSlot Tfcgi.ConnectionThread Tfcgi.Framing Tfcgi.System Tfcgi.Keyed

/-- A record with what its handling meets: the reads that bring it, the memory
that is not initialized and the outcomes of the sends. -/
structure Input where
  record : Record
  sock : Sock
  carries : sock.Carries record.bytes
  junk : Junk
  φ : Fate

/-- The request id, as the thread loads it. -/
def Input.id (p : Params) (x : Input) : Nat := x.record.header.requestId.load p.host

/-- The request in the slot of an id. -/
def slot? (c : Connection) (id : Nat) : Option Request := c.requests.getD (id - 1) none

/-- What the pass leaves, back from a push; `none` when the process went down. -/
def afterPush : ConnectionThread.Turn → Option (Connection × List Event)
  | .handled _ c (some (k, .push _)) log => some (Sys.resetParams c k, log)
  | .handled _ c _ log => some (c, log)
  | _ => none

def handle (p : Params) (c : Connection) (x : Input) : Option (Connection × List Event) :=
  afterPush (({ c with sock := x.sock } : Connection).turn p x.junk x.φ)

/-! ## One slot -/

/-- The request behind a push has no parser any more. -/
def settled : Handled → Request
  | .push r => { r with paramsDeserializer := none }
  | h => h.request

/-- The handling of a record as far as its own slot goes. -/
def handleCell (p : Params) (o : Option Request) (x : Input) :
    Option (Option Request × List Event) :=
  match Ipacket.new p x.junk.header x.sock with
  | .ok k s =>
    match (o.getD (.new p (x.id p) x.junk)).handlePacket p x.junk k s with
    | .ok (tx, _) _ =>
      match tx x.φ with
      | (.ok h, log) => some (some (settled h), log)
      | (.error _, _) => none
    | _ => none
  | _ => none

theorem slot_eq (p : Params) (junk : Junk) (c : Connection) (id : Nat) :
    c.slot p junk id = (slot? c id).getD (.new p id junk) := by
  simp only [Connection.slot, slot?, Connection.grow, List.getD_eq_getElem?_getD,
    List.getElem?_append]
  by_cases hlt : id - 1 < c.requests.length
  · rw [if_pos hlt]
  · rw [if_neg hlt, List.getElem?_replicate, List.getElem?_eq_none (by omega)]
    split <;> rfl

theorem slot?_eq_some {c : Connection} {id : Nat} {r : Request} :
    slot? c id = some r ↔ c.requests[id - 1]? = some (some r) := Connection.getD_eq_some

theorem slot?_settle (c : Connection) {id : Nat} (h0 : id ≠ 0) (h : Handled) :
    slot? (c.settle id h) id = some h.request :=
  slot?_eq_some.mpr ((Connection.settle_slot c h0 h (id - 1) h.request).mpr (Or.inl ⟨rfl, rfl⟩))

theorem slot?_settle_other (c : Connection) {id j : Nat} (h0 : id ≠ 0) (hj : j ≠ 0) (hne : j ≠ id)
    (h : Handled) : slot? (c.settle id h) j = slot? c j := by
  have hk : j - 1 ≠ id - 1 := by omega
  apply Option.ext
  intro r
  rw [slot?_eq_some, slot?_eq_some, Connection.settle_slot c h0 h (j - 1) r]
  simp [hk]

theorem slot?_resetParams (c : Connection) {id : Nat} {r : Request} (h : slot? c id = some r) :
    slot? (Sys.resetParams c (id - 1)) id = some { r with paramsDeserializer := none } := by
  have hr := slot?_eq_some.mp h
  have hlt : id - 1 < c.requests.length := (List.getElem?_eq_some_iff.mp hr).1
  unfold Sys.resetParams
  rw [show c.requests.getD (id - 1) none = some r from h]
  exact slot?_eq_some.mpr (by rw [List.getElem?_set_self hlt])

theorem slot?_resetParams_other (c : Connection) {k j : Nat} (hne : j - 1 ≠ k) :
    slot? (Sys.resetParams c k) j = slot? c j := by
  unfold Sys.resetParams
  cases c.requests.getD k none with
  | none => rfl
  | some r =>
    simp only [slot?, List.getD_eq_getElem?_getD]
    rw [List.getElem?_set_ne (Ne.symm hne)]

/-- What the thread does with a record with a request id. -/
theorem turn_request (p : Params) (x : Input) (hid : x.id p ≠ 0) (c : Connection) :
    ∃ k s tx k' s', Ipacket.new p x.junk.header x.sock = .ok k s ∧
      ((slot? c (x.id p)).getD (.new p (x.id p) x.junk)).handlePacket p x.junk k s =
        .ok (tx, k') s' ∧
      ((∃ crash log, tx x.φ = (.error crash, log) ∧
        ({ c with sock := x.sock } : Connection).turn p x.junk x.φ = .down crash log) ∨
      ∃ h log c', tx x.φ = (.ok h, log) ∧
        ({ c with sock := x.sock } : Connection).turn p x.junk x.φ =
          .handled x.record.header c' (some (x.id p - 1, h)) log ∧
        c'.requests = (c.settle (x.id p) h).requests) := by
  have hbytes : x.record.bytes =
      x.record.header.bytes ++ (x.record.content ++ (x.record.padding ++ [])) := by
    simp only [Record.bytes, List.append_nil]
  have hc := x.carries
  rw [hbytes] at hc
  obtain ⟨k, s, hn, hk, hh⟩ := Ipacket.holds_new p x.junk.header x.record.contentLength
    x.record.paddingLength hc
  obtain ⟨tx, k', s', hp, ho⟩ := handlePacket_open p x.junk
    ((slot? c (x.id p)).getD (.new p (x.id p) x.junk)) hh (by rw [hk]; exact x.record.beginBody)
  obtain ⟨s'', hdrop, -⟩ := drop_open ho
  refine ⟨k, s, tx, k', s', hn, hp, ?_⟩
  have hidk : k.header.requestId.load p.host = x.id p := by rw [hk]; rfl
  have hslot : ({ c with sock := x.sock } : Connection).slot p x.junk (x.id p) =
      (slot? c (x.id p)).getD (.new p (x.id p) x.junk) := slot_eq p x.junk _ (x.id p)
  simp only [Connection.turn, hn, hh.carries.sane, if_true, hidk]
  unfold Connection.dispatch
  rw [if_pos hid, hslot, Rd.bind_ok hp]
  simp only [Rd.pure_apply, Connection.finish]
  cases htx : tx x.φ with
  | mk result log =>
    cases result with
    | error crash =>
      refine Or.inl ⟨crash, log, rfl, ?_⟩
      rw [Tx.bind_error htx]
    | ok h =>
      refine Or.inr ⟨h, log, { ({ c with sock := x.sock } : Connection).settle (x.id p) h with
        sock := s'' }, rfl, ?_, ?_⟩
      · rw [Tx.bind_ok htx]
        simp only [Tx.pure_apply, List.append_nil, hdrop, hk]
      · cases h <;> rfl

/-- The connection behind the handling of a record. -/
theorem handle_eq (p : Params) (x : Input) (hid : x.id p ≠ 0) (c : Connection) :
    (handle p c x = none ∧ handleCell p (slot? c (x.id p)) x = none) ∨
      ∃ c' h log, handle p c x = some (c', log) ∧
        handleCell p (slot? c (x.id p)) x = some (some (settled h), log) ∧
        slot? c' (x.id p) = some (settled h) ∧
        ∀ j, j ≠ 0 → j ≠ x.id p → slot? c' j = slot? c j := by
  obtain ⟨k, s, tx, k', s', hn, hp, ⟨crash, log, htx, ht⟩ | ⟨h, log, c', htx, ht, hc'⟩⟩ :=
    turn_request p x hid c
  · refine Or.inl ⟨?_, ?_⟩
    · rw [handle, ht]
      rfl
    · simp only [handleCell, hn, hp, htx]
  · have hcell : handleCell p (slot? c (x.id p)) x = some (some (settled h), log) := by
      simp only [handleCell, hn, hp, htx]
    have hslot : ∀ j, slot? c' j = slot? (c.settle (x.id p) h) j := by
      intro j
      rw [slot?, slot?, hc']
    have hother : ∀ j, j ≠ 0 → j ≠ x.id p → slot? c' j = slot? c j := by
      intro j hj hne
      rw [hslot, slot?_settle_other c hid hj hne h]
    have hown : slot? c' (x.id p) = some h.request := by rw [hslot, slot?_settle c hid h]
    cases h with
    | push r =>
      refine Or.inr ⟨_, .push r, log, by rw [handle, ht]; rfl, hcell, slot?_resetParams _ hown, ?_⟩
      intro j hj hne
      rw [slot?_resetParams_other _ (by omega)]
      exact hother j hj hne
    | idle r | accepted r | cancelled r =>
      exact Or.inr ⟨_, _, log, by rw [handle, ht]; rfl, hcell, hown, hother⟩

/-- Only a pass that brings the process down stops the handling. -/
theorem handle_none (p : Params) (x : Input) (hid : x.id p ≠ 0) (c : Connection)
    (h : handle p c x = none) :
    ∃ crash log, ({ c with sock := x.sock } : Connection).turn p x.junk x.φ = .down crash log := by
  obtain ⟨k, s, tx, k', s', -, -, ⟨crash, log, -, ht⟩ | ⟨hd, log, c', -, ht, -⟩⟩ :=
    turn_request p x hid c
  · exact ⟨crash, log, ht⟩
  · rw [handle, ht] at h
    cases hd <;> cases h

/-! ## All slots -/

/-- The slots of a connection are cells under their ids. -/
def slots (p : Params) :
    Cells { x : Input // x.id p ≠ 0 } Nat Connection (Option Request) (List Event) where
  key x := x.val.id p - 1
  view c k := slot? c (k + 1)
  step c x := handle p c x.val
  cell o x := handleCell p o x.val
  own c x := by
    have hk : x.val.id p - 1 + 1 = x.val.id p := by
      have := x.property
      omega
    rcases handle_eq p x.val x.property c with ⟨hs, hc⟩ | ⟨c', h, log, hs, hc, hown, -⟩
    · simp only [hs, hk, hc, Option.map_none]
    · simp only [hs, hk, hc, Option.map_some, hown]
  other := by
    intro c x c' log hs k hk
    have hx := x.property
    rcases handle_eq p x.val hx c with ⟨hn, -⟩ | ⟨c₁, h, log₁, hs₁, -, -, hother⟩
    · rw [hn] at hs
      cases hs
    · rw [hs₁] at hs
      cases hs
      exact hother (k + 1) (by omega) (by omega)

/-- The handling of a sequence of records: the connection behind it, and for each
record its slot and what its handler did. -/
def handleAll (p : Params) (c : Connection) (xs : List { x : Input // x.id p ≠ 0 }) :
    Option (Connection × List (Nat × List Event)) := (slots p).run c xs

/-- The records that the handler of the request in a slot emitted. -/
def emitted (k : Nat) (os : List (Nat × List Event)) : List Packet :=
  ((Cells.outputs k os).flatten).filterMap fun
    | .sent pkt _ => some pkt
    | _ => none

/-- **Multiplexing.** The records of request `id`, handled among any others,
leave its slot and emit records as they do alone; without one the slot is empty. -/
theorem multiplexed (p : Params) (junk : Junk) (xs : List { x : Input // x.id p ≠ 0 })
    {c : Connection} {os : List (Nat × List Event)}
    (h : handleAll p (.new p junk) xs = some (c, os)) {id : Nat} (hid : id ≠ 0) :
    (∃ c' os', handleAll p (.new p junk) (xs.filter fun x => x.val.id p = id) = some (c', os') ∧
        slot? c' id = slot? c id ∧ emitted (id - 1) os' = emitted (id - 1) os) ∧
      ((∀ x ∈ xs, x.val.id p ≠ id) → slot? c id = none) := by
  have hk : id - 1 + 1 = id := by omega
  have hkey : ∀ x : { x : Input // x.id p ≠ 0 }, x.val.id p - 1 = id - 1 ↔ x.val.id p = id := by
    intro x
    have := x.property
    omega
  constructor
  · obtain ⟨c', os', hrun, hview, hout⟩ := (slots p).run_filter (id - 1) h rfl
    refine ⟨c', os', ?_, ?_, ?_⟩
    · have honly : (slots p).only (id - 1) xs = xs.filter fun x => x.val.id p = id :=
        List.filter_congr fun x _ => by simp only [slots, hkey]
      rw [← honly]
      exact hrun
    · rw [← hk]
      exact hview
    · rw [emitted, emitted, hout]
  · intro hnone
    have habsent := (slots p).run_absent (id - 1) (fun x hx he => hnone x hx ((hkey x).mp he)) h
    rw [← hk]
    exact habsent

/-- Responders on a big-endian host. -/
def bigEndian : Params := { Params.standard with host := .big }

/-- A record without padding, and all that it needs. -/
def input (r : Record) : Input where
  record := r
  sock := sockOf r.bytes
  carries := sockOf_carries r.bytes
  junk := Junk.zeros
  φ := Fate.sent

/-- BEGIN_REQUEST for a responder. -/
def beginOf (id : Byte) : Record where
  header := .ofBytes [1, 1, 0, id, 0, 8, 0, 0]
  content := [0, 1, 0, 0, 0, 0, 0, 0]
  padding := []
  contentLength := by simp [Header.ofBytes, U16.be]
  paddingLength := rfl
  beginBody := fun _ => Nat.le_refl 8

/-- PARAMS, an empty list. -/
def noParamsOf (id : Byte) : Record where
  header := .ofBytes [1, 4, 0, id, 0, 0, 0, 0]
  content := []
  padding := []
  contentLength := by simp [Header.ofBytes, U16.be]
  paddingLength := rfl
  beginBody := RecType.noConfusion

/-- Request 2 begins and is dispatched while request 1 reads its parameters. -/
def interleaved : List { x : Input // x.id bigEndian ≠ 0 } :=
  [⟨input (beginOf 1), by decide +kernel⟩, ⟨input (beginOf 2), by decide +kernel⟩,
    ⟨input (noParamsOf 2), by decide +kernel⟩, ⟨input (noParamsOf 1), by decide +kernel⟩]

theorem multiplexed_interleaved :
    ∃ c os, handleAll bigEndian (.new bigEndian Junk.zeros) interleaved = some (c, os) ∧
      ∃ c' os', handleAll bigEndian (.new bigEndian Junk.zeros)
          (interleaved.filter fun x => x.val.id bigEndian = 1) = some (c', os') ∧
        slot? c' 1 = slot? c 1 ∧ emitted 0 os' = emitted 0 os := by
  obtain ⟨⟨c, os⟩, h⟩ := Option.isSome_iff_exists.mp (show
    (handleAll bigEndian (.new bigEndian Junk.zeros) interleaved).isSome = true by decide +kernel)
  exact ⟨c, os, h, (multiplexed bigEndian Junk.zeros interleaved h (by decide)).1⟩

end Tfcgi.Multiplex
