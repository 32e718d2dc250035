import Tfcgi.EndRecord
import Tfcgi.Received

/-!
# Records of unknown types

* `handlePacket_refuses`, `turn_refuses`: which records get an UNKNOWN_TYPE record;
* `refused_once`: for every run, the UNKNOWN_TYPE records of a connection are those of the
  records that it handled, in their order.
-/

namespace Tfcgi.Refusals

open Tfcgi.Lib Tfcgi.Run Tfcgi.HostOrder Tfcgi.Protocol Tfcgi.NameValuePairs Tfcgi.Socket
open Tfcgi.Iostream Tfcgi.RequestSlot Tfcgi.ConnectionThread Tfcgi.System Tfcgi.OutputStream
open Tfcgi.History Tfcgi.EndRecord Tfcgi.Parameters Tfcgi.Wire Tfcgi.Received

variable {p : Params}

/-- A type that no application has to know, on a request or for the connection. -/
def unknown (requestId : Nat) (type : RecType) : Bool :=
  if requestId = 0 then type ≠ .getValues
  else match type with
    | .beginRequest | .abortRequest | .params | .stdin | .data | .getValues => false
    | _ => true

/-- The UNKNOWN_TYPE record that a record gets. -/
def refusal (p : Params) (header : Header) : Option Packet :=
  if unknown (header.requestId.load p.host) header.recType then
    some (Request.unknownTypePacket p (header.requestId.load p.host) header.type)
  else none

def refusals (log : List Packet) : List Packet := log.filter fun pkt => pkt.recType = .unknownType

theorem refusals_append (l l' : List Packet) : refusals (l ++ l') = refusals l ++ refusals l' :=
  List.filter_append ..

theorem refusals_nil {l : List Packet} (h : ∀ pkt ∈ l, pkt.recType ≠ .unknownType) :
    refusals l = [] := by
  unfold refusals
  rw [List.filter_eq_nil_iff]
  intro pkt hpkt
  rw [decide_eq_true_eq]
  exact h pkt hpkt

/-- What requests and streams make refuses nothing. -/
theorem request_accepts : Speaks p (fun pkt => pkt.recType ≠ .unknownType) Ready Given := by
  refine ready_speaks (fun _ h => h) ?_ ?_
  · rintro pkt - (ht | ht) <;> rw [ht] <;> exact RecType.noConfusion
  · intro requestId body _
    exact RecType.noConfusion

theorem values_accept :
    Buffers p (fun pkt => pkt.recType ≠ .unknownType) (Prefilled .getValuesResult) :=
  typed_buffers rfl fun pkt _ ht => by
    rw [ht]
    exact RecType.noConfusion

theorem sendOrThrow_packets {pkt : Packet} {φ : Fate} {u : Unit} {log : List Event}
    (h : Request.sendOrThrow pkt φ = (.ok u, log)) : packets log = [pkt] := by
  rw [Request.sendOrThrow_ok h]
  rfl

theorem feedParams_accepts {r : Request} (hl : Lined Ready Given r) (d : Deserializer)
    (data : List Byte) :
    Emits (fun pkt => pkt.recType ≠ .unknownType) (r.feedParams p d data) fun _ => True := by
  refine Emits.bind (.fed _ _) fun _ _ => ?_
  simp only
  split
  · exact .pure trivial
  · exact .pure trivial
  · rename_i what _
    have hparams : Lined Ready Given { r with params := r.params.newKeys (d.feed p data).calls } :=
      hl.congr rfl rfl rfl
    intro φ
    exact ⟨(cancel_emits request_accepts hparams what φ).1, fun _ _ => trivial⟩
  · exact .crash _ _

theorem handlePacket_refuses {junk : Junk} {r : Request} {k : Ipacket} {s s' : Sock}
    {tx : Tx Handled} {k' : Option Ipacket} (hl : Lined Ready Given r)
    (h : r.handlePacket p junk k s = .ok (tx, k') s') {φ : Fate} {hd : Handled} {log : List Event}
    (htx : tx φ = (.ok hd, log)) :
    refusals (packets log) = if unknown r.requestId k.header.recType then
      [Request.unknownTypePacket p r.requestId k.header.type] else [] := by
  have hid : r.requestId ≠ 0 := hl.id.1
  unfold unknown
  rw [if_neg hid]
  cases ht : k.header.recType with
  | beginRequest =>
    simp only [Request.handlePacket, ht] at h
    split at h
    · cases h
      cases htx
      rfl
    · obtain ⟨⟨got, k₁⟩, s₁, -, h⟩ := Rd.bind_eq_ok h
      cases h
      cases htx
      rfl
  | params =>
    simp only [Request.handlePacket, ht] at h
    cases hparser : r.paramsDeserializer with
    | none =>
      simp only [hparser] at h
      cases h
      cases htx
      rfl
    | some d =>
      simp only [hparser] at h
      obtain ⟨data, s₁, -, h⟩ := Rd.bind_eq_ok h
      cases h
      exact refusals_nil ((feedParams_accepts hl d data).did htx).1
  | stdin | data =>
    simp only [Request.handlePacket, ht] at h
    split at h
    · obtain ⟨data, s₁, -, h⟩ := Rd.bind_eq_ok h
      cases h
      cases htx
      rfl
    · cases h
      cases htx
      rfl
  | abortRequest | getValues =>
    simp only [Request.handlePacket, ht] at h
    cases h
    cases htx
    rfl
  | endRequest | stdout | stderr | getValuesResult | unknownType | other =>
    simp only [Request.handlePacket, ht] at h
    cases h
    obtain ⟨u, hsend, -⟩ := Tx.bind_return (fun _ => rfl) htx
    rw [sendOrThrow_packets hsend]
    rfl

/-- What a pass refuses is told by the header. -/
theorem turn_refuses {junk : Junk} {φ : Fate} {c c' : Connection} {header : Header}
    {did : Option (Nat × Handled)} {log : List Event} (hc : Laid c)
    (hn : ∀ k r, c.requests[k]? = some (some r) → r.requestId = k + 1)
    (h : c.turn p junk φ = .handled header c' did log) :
    refusals (packets log) = (refusal p header).toList := by
  obtain ⟨k, s, tx, k', s', c₁, s₁, -, rfl, hd, htx, -⟩ := turn_dispatches h
  have hid : Connection.idOf p k = k.header.requestId.load p.host := rfl
  unfold refusal
  rw [← hid]
  unfold Connection.dispatch at hd
  by_cases h0 : Connection.idOf p k = 0
  · rw [h0] at hd ⊢
    rw [if_neg (by simp)] at hd
    unfold unknown
    cases ht : k.header.recType with
    | getValues =>
      simp only [ht] at hd
      obtain ⟨data, s₂, -, hd⟩ := Rd.bind_eq_ok hd
      cases hd
      obtain ⟨c₂, hgave, -⟩ := Tx.bind_return (fun _ => rfl) htx
      exact refusals_nil ((getValues_emits values_accept hc data).did hgave).1
    | _ =>
      simp only [ht] at hd
      cases hd
      obtain ⟨u, hsend, -⟩ := Tx.bind_return (fun _ => rfl) htx
      rw [sendOrThrow_packets hsend]
      rfl
  · rw [if_pos h0] at hd
    obtain ⟨⟨tx', k₁⟩, s₂, hh, hd⟩ := Rd.bind_eq_ok hd
    cases hd
    obtain ⟨handled, ha, -⟩ := Tx.bind_return (fun _ => rfl) htx
    have hl := slot_lined (p := p) hc ⟨h0, U16.load_lt _ _⟩ junk
    have hnumber : (c.slot p junk (Connection.idOf p k)).requestId = Connection.idOf p k := by
      rcases Connection.grow_slot p junk c h0 with hslot | ⟨-, hnew⟩
      · rw [hn _ _ (Connection.grow_some.mp hslot)]
        omega
      · rw [hnew]
        rfl
    have hrefuses := handlePacket_refuses hl hh ha
    rw [hnumber] at hrefuses
    rw [hrefuses]
    split <;> rfl

variable {s s' : Sys} {a : Act} {i : Nat}

/-- What a step refuses. -/
theorem step_refuses (hs : LaidAll s) (hn : ∀ ref, Numbered s ref)
    (h : Sys.step p s a = some s') (hup : s'.down = none) :
    refusals (packets (did p s i a)) = (handed p i s a).filterMap (refusal p) := by
  by_cases hpass : Pass s i a
  · obtain ⟨junk, φ, notified, n, rfl, hconn, hpc⟩ := hpass
    unfold Sys.step at h
    split at h
    · cases h
    · simp only [hconn, Sys.connStep, hpc] at h
      simp only [did, hconn, if_true, connDid, hpc, handed, passed, true_and]
      unfold Sys.reading at h
      split at h
      · rename_i hsane
        rw [if_pos hsane, if_pos hsane]
        cases ht : n.connection.turn p junk φ with
        | blocked => rfl
        | down crash log =>
          simp only [ht] at h
          cases h
          cases hup
        | left c => rfl
        | handled header c hd log =>
          have hnumbers : ∀ k r, n.connection.requests[k]? = some (some r) → r.requestId = k + 1 :=
            fun k r hr => hn ⟨i, k⟩ r (Sys.request?_eq_some.mpr ⟨n, hconn, hr⟩)
          have hrefuses := turn_refuses (hs.conn hconn) hnumbers ht
          simp only [Content.did, hrefuses]
          cases hx : refusal p header <;> simp [hx]
      · rename_i hsane
        rw [if_neg hsane, if_neg hsane]
        rfl
  · rw [handed_quiet hpass, List.filterMap_nil]
    exact refusals_nil
      (did_emits request_accepts values_accept hs i a fun hp => absurd hp hpass)

theorem run_refuses {as : List Act} (hs : LaidAll s) (hn : ∀ ref, Numbered s ref)
    (h : run (Sys.step p) s as = some s') (hup : s'.down = none) (i : Nat) :
    refusals (wire p i s as) =
      (trace (Sys.step p) (handed p i) s as).filterMap (refusal p) := by
  induction as generalizing s with
  | nil => rfl
  | cons a as ih =>
    obtain ⟨s₁, hstep, hrest⟩ := run_cons h
    have hup₁ := run_up hrest hup
    have hlater := ih (effect_laid hs (Sys.step_effect hstep).2)
      (fun ref => step_numbered (hn ref) hstep) hrest
    rw [trace_cons hstep, List.filterMap_append, ← hlater, ← step_refuses hs hn hstep hup₁,
      ← refusals_append]
    simp only [wire, hstep]

/-- **Each unknown record is refused once.** In every run that is still up, whatever bytes
come: the UNKNOWN_TYPE records given to the socket of a connection are those that the
records it handled ask for, with their types and ids, in their order, and no others. -/
theorem refused_once {workers : Nat} {as : List Act}
    (h : run (Sys.step p) (.init workers) as = some s) (hup : s.down = none) (i : Nat) :
    refusals (wire p i (.init workers) as) =
      (trace (Sys.step p) (handed p i) (.init workers) as).filterMap (refusal p) :=
  run_refuses (init_laid workers) (fun _ r hr => by cases hr) h hup i

/-- A record of type 99 for the connection, and one of type STDERR for the request that runs. -/
def strayRun : List Act :=
  started ++ [.arrive 0 (.data 1 [99, 0, 0, 0, 0, 0, 0]),
    .arrive 0 (.data 1 [7, 1, 0, 0, 0, 0, 0])] ++
    connMoves 2

theorem refused_once_stray : ∃ s, run (Sys.step .standard) (.init 1) strayRun = some s ∧
    refusals (wire .standard 0 (.init 1) strayRun) =
      [Request.unknownTypePacket .standard 0 99, Request.unknownTypePacket .standard 1 7] := by
  have hrun : (run (Sys.step .standard) (.init 1) strayRun).any (fun s => s.down = none) =
      true := by
    decide +kernel
  obtain ⟨s, hs, hup⟩ := (Option.any_eq_true _ _).mp hrun
  refine ⟨s, hs, ?_⟩
  rw [refused_once hs (of_decide_eq_true hup) 0]
  decide +kernel

end Tfcgi.Refusals
