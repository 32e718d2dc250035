import Tfcgi.Ids
import Tfcgi.Isolation
import Tfcgi.Multiplex
import Tfcgi.Peer
import Tfcgi.Replies

/-!
# What a web server gets

A web server takes the records of one connection apart by their ids. For an id that comes
back it gets the records that the slot made, and no others.

* `step_shown`: what a step sends with an id is in the log;
* `wire_slot`: the records with an id are those of its slot;
* `answers_read`: what a web server makes of them;
* `responses_read`: this for every run, from the bytes on the socket.
-/

namespace Tfcgi.Responses

open Tfcgi.Lib Tfcgi.Run Tfcgi.HostOrder Tfcgi.Protocol Tfcgi.Socket Tfcgi.Iostream
open Tfcgi.RequestSlot Tfcgi.ConnectionThread Tfcgi.System Tfcgi.OutputStream Tfcgi.Accounting
open Tfcgi.History Tfcgi.Reuse Tfcgi.Owner Tfcgi.Streams Tfcgi.Ending Tfcgi.OrderlyEnd
open Tfcgi.Sends Tfcgi.Wire Tfcgi.Ids Tfcgi.Isolation Tfcgi.Replies

variable {p : Params} {s s' : Sys} {i : Nat}

/-! ## The log of a connection -/

/-- The records that the slots of connection `i` made. -/
def shown (i : Nat) (log : List (Ref × Mark)) : List Packet :=
  packets (events ((ownLog i log).map Prod.snd))

/-- Records with an id other than zero. -/
def numbered (pkts : List Packet) : List Packet :=
  pkts.filter fun pkt => pkt.header.requestId.be ≠ 0

theorem numbered_append (l l' : List Packet) : numbered (l ++ l') = numbered l ++ numbered l' :=
  List.filter_append ..

theorem numbered_nil {l : List Packet} (h : ∀ pkt ∈ l, pkt.header.requestId.be = 0) :
    numbered l = [] := by
  unfold numbered
  rw [List.filter_eq_nil_iff]
  intro pkt hpkt
  simp [h pkt hpkt]

theorem shown_record (slot : Nat) (log : List (Ref × Mark)) (ms : List Mark) :
    shown i (log ++ ms.map fun m => (⟨i, slot⟩, m)) = shown i log ++ packets (events ms) := by
  have hown : ownLog i (ms.map fun m => (⟨i, slot⟩, m)) = ms.map fun m => (⟨0, slot⟩, m) := by
    rw [ownLog, List.filter_map, List.map_map]
    congr 1
    rw [List.filter_eq_self]
    intro m _
    exact decide_eq_true rfl
  unfold shown
  rw [ownLog, List.filter_append, List.map_append, ← ownLog, ← ownLog, hown, List.map_append,
    events_append, packets_append, List.map_map]
  congr 3
  exact List.map_id' ms

/-- The log has what is sent with an id on connection `i`. -/
def Shown (i : Nat) (s s' : Sys) (sent : List Packet) : Prop :=
  numbered (shown i s'.log) = numbered (shown i s.log) ++ numbered sent

theorem Shown.silent {sent : List Packet} (hlog : ownLog i s'.log = ownLog i s.log)
    (hsent : ∀ pkt ∈ sent, pkt.header.requestId.be = 0) : Shown i s s' sent := by
  rw [Shown, numbered_nil hsent, List.append_nil, shown, hlog]
  rfl

theorem Shown.nothing (hlog : ownLog i s'.log = ownLog i s.log) : Shown i s s' [] :=
  .silent hlog fun _ hpkt => absurd hpkt List.not_mem_nil

theorem Shown.record {slot : Nat} (hlog : s'.log = s.log) {ms : List Mark} {es : List Event}
    (hms : events ms = es) : Shown i s (s'.record ⟨i, slot⟩ ms) (packets es) := by
  rw [Shown, Sys.record_log, hlog, shown_record, numbered_append, hms]

theorem zero_values :
    Buffers p (fun pkt => pkt.header.requestId.be = 0) (Prefilled .getValuesResult) :=
  typed_buffers rfl fun pkt h ht => by
    have hallowed := h.allowed
    unfold Allowed at hallowed
    rwa [ht] at hallowed

/-- A pass of the loop. -/
theorem handled_shown {n : Conn} (hc : Laid n.connection) {junk : Junk} {φ : Fate}
    {header : Header} {c : Connection} {did : Option (Nat × Handled)} {log : List Event}
    (h : n.connection.turn p junk φ = .handled header c did log) :
    Shown i s (s.afterTurn i c log did) (packets log) := by
  obtain ⟨c₁, sock, hd, -⟩ := Connection.turn_dispatched h
  cases hd with
  | request requestId hd log pos lt handles => exact .record rfl (events_marks hd log)
  | getValues data c' log gave =>
    exact .silent rfl ((getValues_emits zero_values hc data).did gave).1
  | unknown type log gave =>
    have hzero : (Request.unknownTypePacket p 0 type).header.requestId.be = 0 := by
      show (U16.store p.host (ntohs p.host 0)).be = 0
      rw [be_store_ntohs]
    exact .silent rfl ((sendOrThrow_emits hzero).did gave).1

theorem tearingDown_shown {n : Conn} (k : Nat) (φ : Fate)
    (hup : (s.tearingDown p i n k φ).down = none) : Shown i s (s.tearingDown p i n k φ)
      (packets
        (if k < n.connection.requests.length then (n.connection.tearDown p k φ).2 else [])) := by
  unfold Sys.tearingDown at hup ⊢
  split
  · rename_i hk
    rw [if_pos hk] at hup
    cases htear : n.connection.tearDown p k φ with
    | mk result log =>
      rw [htear] at hup
      cases result with
      | error c => cases hup
      | ok c => exact .record rfl (events_did log)
  · exact .nothing rfl

theorem clearing_shown {n : Conn} (hc : Laid n.connection) (k : Nat) (φ : Fate)
    (hup : (s.clearing p i n k φ).down = none) : Shown i s (s.clearing p i n k φ)
      (packets (if k < n.connection.requests.length then (n.connection.clearSlot p k φ).2
        else (n.connection.destroy p φ).2)) := by
  unfold Sys.clearing at hup ⊢
  split
  · rename_i hk
    rw [if_pos hk] at hup
    cases hclear : n.connection.clearSlot p k φ with
    | mk result log =>
      rw [hclear] at hup
      cases result with
      | error c => cases hup
      | ok c => exact .record rfl (events_did log)
  · rename_i hk
    rw [if_neg hk] at hup
    have hzero := (destroy_emits (zero_values (p := p)) hc φ).1
    cases hdestroy : n.connection.destroy p φ with
    | mk result log =>
      rw [hdestroy] at hup hzero
      cases result with
      | error c => cases hup
      | ok c => exact .silent rfl hzero

theorem notifyOne_log {notified : Option Nat} (h : s.notifyOne notified = some s') :
    s'.log = s.log := by
  unfold Sys.notifyOne at h
  split at h
  · split at h
    · cases h
    · cases h
      rfl
  · split at h
    · cases h
      rfl
    · cases h

/-- The thread of the connection moves. -/
theorem connStep_shown {n : Conn} (hc : Laid n.connection) {junk : Junk} {φ : Fate}
    {notified : Option Nat} (h : s.connStep p i n junk φ notified = some s')
    (hup : s'.down = none) :
    Shown i s s' (packets (connDid p n junk φ)) := by
  unfold Sys.connStep at h
  unfold connDid
  cases hpc : n.pc with
  | reading =>
    simp only [hpc] at h
    simp only
    unfold Sys.reading at h
    split at h
    · rename_i hsane
      rw [if_pos hsane]
      cases ht : n.connection.turn p junk φ with
      | blocked =>
        simp only [ht] at h
        cases h
      | down c log =>
        simp only [ht] at h
        cases h
        cases hup
      | left c =>
        simp only [ht] at h
        cases h
        exact .nothing rfl
      | handled header c did log =>
        simp only [ht] at h
        cases h
        exact handled_shown hc ht
    · rename_i hsane
      rw [if_neg hsane]
      cases h
      exact .nothing rfl
  | locking ref =>
    simp only [hpc] at h
    have hlog := notifyOne_log h
    exact .nothing (congrArg (ownLog i) hlog)
  | tearingDown k =>
    simp only [hpc] at h
    cases h
    exact tearingDown_shown k φ hup
  | clearing k =>
    simp only [hpc] at h
    cases h
    exact clearing_shown hc k φ hup
  | waiting =>
    simp only [hpc] at h
    split at h
    · cases h
      exact .nothing rfl
    · cases h
  | pushing ref | resetting ref =>
    simp only [hpc] at h
    cases h
    exact .nothing rfl
  | gone =>
    simp only [hpc] at h
    cases h

/-- A use of a request of the connection. -/
theorem useRequest_shown {α : Type} {f : α → Request × WorkerPc × Option Int} {w slot : Nat}
    {φ : Fate} {use : Request → Option (Tx α)}
    {use' : Request → Option (Tx (Request × WorkerPc × Option Int))} (huse : Uses f use use')
    (h : s.useRequest w ⟨i, slot⟩ φ use' = some s') (hup : s'.down = none) :
    Shown i s s' (packets (useDid s ⟨i, slot⟩ φ use)) := by
  unfold Sys.useRequest at h
  unfold useDid
  cases hr : s.request? ⟨i, slot⟩ with
  | none =>
    simp only [hr] at h
    cases h
    cases hup
  | some r =>
    simp only [hr] at h ⊢
    rcases huse r with ⟨hu, hu'⟩ | ⟨tx, tx', hu, hu', hmaps⟩
    · rw [hu'] at h
      cases h
    · rw [hu'] at h
      rw [hu]
      have hlog : (tx' φ).2 = (tx φ).2 := congrArg Prod.snd (hmaps φ)
      cases htx : tx' φ with
      | mk result log =>
        rw [htx] at hlog
        simp only [htx] at h
        cases result with
        | error c =>
          cases h
          cases hup
        | ok x =>
          obtain ⟨r', pc, got⟩ := x
          cases h
          simp only [← hlog]
          exact .record (by simp) (events_work log got)

/-- A use of a request by the worker that holds it. -/
theorem held_shown {α : Type} {f : α → Request × WorkerPc × Option Int} {w : Nat} {ref : Ref}
    {pc : WorkerPc} {φ : Fate} {use : Request → Option (Tx α)}
    {use' : Request → Option (Tx (Request × WorkerPc × Option Int))} (huse : Uses f use use')
    (hholds : Holds ref φ use') (hw : s.workers[w]? = some pc) (hpc : pc.request? = some ref)
    (h : s.useRequest w ref φ use' = some s') (hup : s'.down = none) :
    Shown i s s' (packets (if ref.conn = i then useDid s ref φ use else [])) := by
  split
  · rename_i href
    subst href
    exact useRequest_shown huse h hup
  · rename_i href
    exact .nothing (useRequest_same href hw hpc hholds h).log

theorem worked_uses (pc : WorkerPc) :
    Uses (fun x => (x.1, x.2, none)) (fun r => workRequest p r pc) (worked p pc) := by
  intro r
  unfold worked
  cases hw : workRequest p r pc with
  | none => exact Or.inl ⟨hw, rfl⟩
  | some tx => exact Or.inr ⟨tx, _, hw, rfl, .after tx fun _ => rfl⟩

theorem applied_uses (op : AppOp) (ref : Ref) :
    Uses (fun x => (x.1, .running ref, x.2)) (fun r => appOp p r op) (applied p op ref) := by
  intro r
  unfold applied
  cases ha : appOp p r op with
  | none => exact Or.inl ⟨ha, rfl⟩
  | some tx => exact Or.inr ⟨tx, _, ha, rfl, .after tx fun _ => rfl⟩

theorem finished_uses (how : AppEnd) (ref : Ref) :
    Uses (fun x => (x.1, .closingCout ref x.2, none)) (fun r => some (callbackEnds p r how))
      (finished p how ref) := fun _ => Or.inr ⟨_, _, rfl, rfl, .after _ fun _ => rfl⟩

theorem pop_log (s : Sys) (w : Nat) : (s.pop w).log = s.log := by
  unfold Sys.pop
  split <;> rfl

theorem decrement_log (s : Sys) (w : Nat) (ref : Ref) : (s.decrement w ref).log = s.log := by
  unfold Sys.decrement
  split
  · rfl
  · split <;> rfl

/-- A worker moves. -/
theorem workerStep_shown {w : Nat} {pc : WorkerPc} {φ : Fate} (hw : s.workers[w]? = some pc)
    (h : s.workerStep p w pc φ = some s') (hup : s'.down = none) :
    Shown i s s' (packets (did p s i (.worker w φ))) := by
  have hquiet : (∀ r, workRequest p r pc = none) → s'.log = s.log →
      Shown i s s' (packets (did p s i (.worker w φ))) := by
    intro hnone hlog
    have hdid : did p s i (.worker w φ) = [] := by
      simp only [did, hw, useDid, hnone]
      split
      · rfl
      · split
        · split <;> rfl
        · rfl
    rw [hdid]
    exact .nothing (congrArg (ownLog i) hlog)
  rcases Sys.workerStep_cases h with ⟨rfl, rfl⟩ | ⟨rfl, rfl⟩ | ⟨hpc, rfl⟩ | ⟨ref, hreq, huse⟩ |
    ⟨ref, rfl, rfl⟩
  · exact hquiet (fun _ => rfl) rfl
  · exact hquiet (fun _ => rfl) rfl
  · refine hquiet ?_ (pop_log s w)
    rcases hpc with rfl | rfl | rfl <;> exact fun _ => rfl
  · simp only [did, hw, hreq]
    exact held_shown (worked_uses pc) (worked_holds hreq φ) hw hreq huse hup
  · exact hquiet (fun _ => rfl) (decrement_log s w ref)

/-- What a step sends with an id is in the log. -/
theorem step_shown {a : Act} (hs : LaidAll s) (hi : Inv s) (h : Sys.step p s a = some s')
    (hup : s'.down = none) : Shown i s s' (packets (did p s i a)) := by
  unfold Sys.step at h
  split at h
  · cases h
  · cases a with
    | accept junk | closeListening | leaveLoop | join | wake w =>
      simp only at h
      split at h
      · cases h
        exact .nothing rfl
      · cases h
    | arrive j r =>
      simp only at h
      split at h
      · cases h
      · split at h
        · cases h
        · cases h
          exact .nothing rfl
    | conn j junk φ notified =>
      simp only at h
      split at h
      · cases h
      · rename_i n hn
        by_cases hj : j = i
        · subst hj
          simp only [did, hn, if_true]
          exact connStep_shown (hs.conn hn) h hup
        · have hpc : ∀ ref, unreset? n.pc = some ref → ref.conn = j :=
            fun ref href => ((hi.accounts j n hn).unreset ref href).1
          simp only [did, hn, if_neg hj]
          exact .nothing (connStep_same hj hpc h).log
    | worker w φ =>
      simp only at h
      split at h
      · cases h
      · rename_i pc hw
        exact workerStep_shown hw h hup
    | app w op φ =>
      simp only at h
      split at h
      · rename_i ref hw
        simp only [did, hw]
        exact held_shown (applied_uses op ref) (applied_holds op ref φ) hw rfl h hup
      · cases h
    | finish w how φ =>
      simp only at h
      split at h
      · rename_i ref hw
        simp only [did, hw]
        exact held_shown (finished_uses how ref) (finished_holds how ref φ) hw rfl h hup
      · cases h

theorem run_shown {as : List Act} (hs : LaidAll s) (hi : Inv s)
    (h : run (Sys.step p) s as = some s') (hup : s'.down = none) :
    Shown i s s' (wire p i s as) := by
  induction as generalizing s with
  | nil =>
    cases h
    exact .nothing rfl
  | cons a as ih =>
    obtain ⟨s₁, hstep, hrest⟩ := run_cons h
    have hfirst := step_shown (i := i) hs hi hstep (run_up hrest hup)
    have hlater := ih (effect_laid hs (Sys.step_effect hstep).2) (step_inv hi hstep) hrest
    unfold Shown at hfirst hlater ⊢
    rw [hlater, hfirst, List.append_assoc, ← numbered_append]
    simp only [wire, hstep]

/-! ## Ids of other slots -/

theorem U16.load_inj {host : Host} {m n : U16} (h : m.load host = n.load host) : m = n := by
  cases host with
  | big => exact U16.be_inj h
  | little =>
    have hswap : (⟨m.b1, m.b0⟩ : U16) = ⟨n.b1, n.b0⟩ := by
      apply U16.be_inj
      simp only [U16.load] at h
      simp only [U16.be]
      omega
    cases m
    cases n
    cases hswap
    rfl

variable {m : U16}

theorem stable_load (hm : Stable p m) : m.load p.host = m.be := by
  rw [← answered_be, (stable_iff p m).mpr hm]

theorem stored_ne (hm : Stable p m) {requestId : Nat} (hne : requestId ≠ m.load p.host)
    (hlt : requestId < 65536) : U16.store p.host (ntohs p.host requestId) ≠ m := by
  intro h
  have hbe := be_store_ntohs p.host requestId
  rw [h, Nat.mod_eq_of_lt hlt, ← stable_load hm] at hbe
  exact hne hbe.symm

/-- Stream buffers and requests of other ids. -/
theorem apart_speaks (hm : Stable p m) : Speaks p (fun pkt => pkt.header.requestId ≠ m)
    (fun _ b => b.header.requestId ≠ m ∧ b.pending.length ≤ Ostreambuf.capacity)
    (fun requestId => requestId ≠ m.load p.host ∧ requestId < 65536) where
  buffers := by
    intro i
    refine ⟨fun b hb => hb.2, fun b pending eof hb hroom => ⟨hb.1, hroom⟩,
      fun b data hb _ => hb.1, ?_⟩
    intro b hb
    refine ⟨?_, Nat.zero_le _⟩
    -- `close` makes the new header from the id that it loads
    change answered p b.header.requestId ≠ m
    intro h
    have hbe := answered_be p b.header.requestId
    rw [h, ← stable_load hm] at hbe
    exact hb.1 (U16.load_inj hbe).symm
  ends := fun requestId body hn => stored_ne hm hn.1 hn.2
  fresh := by
    intro requestId junk i hn
    cases i with
    | cout => exact ⟨stored_ne hm hn.1 hn.2, Nat.zero_le _⟩
    | cerr => exact ⟨stored_ne hm hn.1 hn.2, Nat.zero_le _⟩

theorem slot_lt {ref : Ref} (hi : Inv s) {r : Request} (hr : s.request? ref = some r) :
    ref.slot < 65535 := by
  obtain ⟨n, hconn, hslot⟩ := Sys.request?_eq_some.mp hr
  have hroom := (hi.accounts _ n hconn).room
  have hlt := (List.getElem?_eq_some_iff.mp hslot).1
  omega

/-- Only a slot with an id has a history. -/
theorem step_slot_lt {ref : Ref} {a : Act} (hi : Inv s)
    (hlt : marksOf s ref ≠ [] → ref.slot < 65535)
    (h : Sys.step p s a = some s') : marksOf s' ref ≠ [] → ref.slot < 65535 := by
  intro hne
  cases step_slot h ref with
  | same request marks => exact hlt (marks ▸ hne)
  | handled n junk φ notified r hd log act conn pc slot handles request marks pushes =>
    exact slot_lt (step_inv hi h) request
  | reset n j r conn pc slot request marks => exact slot_lt hi slot
  | destroyed n φ r log conn pc slot destroys request marks => exact slot_lt hi slot
  | worked w r r' pc pc' got log worker workers slot works request marks => exact slot_lt hi slot

theorem run_slot_lt {ref : Ref} {workers : Nat} {as : List Act}
    (h : run (Sys.step p) (.init workers) as = some s) : marksOf s ref ≠ [] → ref.slot < 65535 :=
  (run_invariant (I := fun s => Inv s ∧ (marksOf s ref ≠ [] → ref.slot < 65535))
    ⟨init_inv workers, fun hne => absurd rfl hne⟩
    (fun _ _ _ hI hs => ⟨step_inv hI.1 hs, step_slot_lt hI.1 hI.2 hs⟩) h).2

/-- The records with the id are those of the slot. -/
theorem run_ids {workers slot : Nat} {as : List Act}
    (h : run (Sys.step p) (.init workers) as = some s)
    (hid : m.load p.host = slot + 1) (hm : Stable p m) {ref : Ref} (href : ref.conn = i)
    {pkt : Packet} {out : SendPacket.SendOutcome} (hmem : .did (.sent pkt out) ∈ marksOf s ref) :
    pkt.header.requestId = m ↔ ref = ⟨i, slot⟩ := by
  constructor
  · intro hpkt
    by_contra hne
    have hslot : ref.slot ≠ slot := by
      rintro rfl
      exact hne (by rw [← href])
    have hlt := run_slot_lt h (List.ne_nil_of_mem hmem)
    have hid' : ref.slot + 1 ≠ m.load p.host ∧ ref.slot + 1 < 65536 := ⟨by omega, by omega⟩
    have htells := run_tells (apart_speaks hm) hid'
      (fun requestId byte hn => stored_ne hm hn.1 hn.2) h
    exact htells.packets pkt out hmem hpkt
  · rintro rfl
    have hown : (⟨i, slot⟩ : Ref).slot + 1 = m.load p.host := hid.symm
    have htells := run_tells (stable_speaks hm) hown
      (fun requestId byte hn => by
        rw [hn]
        exact (stable_iff p m).mpr hm) h
    exact htells.packets pkt out hmem

theorem packets_cons (mark : Mark) (ms : List Mark) :
    packets (events (mark :: ms)) = packets (events [mark]) ++ packets (events ms) := by
  rw [← packets_append, ← events_append]
  rfl

theorem shown_cons (x : Ref × Mark) (log : List (Ref × Mark)) :
    shown i (x :: log) = (if x.1.conn = i then packets (events [x.2]) else []) ++ shown i log := by
  unfold shown ownLog
  by_cases hx : x.1.conn = i
  · simp only [List.filter_cons, hx, decide_true, if_true, List.map_cons]
    exact packets_cons x.2 _
  · simp only [List.filter_cons, hx, decide_false, Bool.false_eq_true, if_false, List.nil_append]

/-- The records with an id, where those of one slot have it and no others. -/
theorem shown_filter {slot : Nat} {log : List (Ref × Mark)}
    (h : ∀ ref pkt out, (ref, Mark.did (.sent pkt out)) ∈ log → ref.conn = i →
      (pkt.header.requestId = m ↔ ref = ⟨i, slot⟩)) :
    (shown i log).filter (fun pkt => pkt.header.requestId = m) =
      packets (events (log.filterMap fun x => if x.1 = ⟨i, slot⟩ then some x.2 else none)) := by
  induction log with
  | nil => rfl
  | cons x log ih =>
    obtain ⟨ref, mark⟩ := x
    have hlater := ih fun ref pkt out hx => h ref pkt out (List.mem_cons_of_mem _ hx)
    have hhead : (if ref.conn = i then packets (events [mark]) else []).filter
        (fun pkt => pkt.header.requestId = m) =
          if ref = ⟨i, slot⟩ then packets (events [mark]) else [] := by
      by_cases href : ref.conn = i
      · rw [if_pos href]
        cases mark with
        | did e =>
          cases e with
          | sent pkt out =>
            have hid := h ref pkt out List.mem_cons_self href
            by_cases hslot : ref = ⟨i, slot⟩
            · rw [if_pos hslot]
              exact List.filter_cons_of_pos (decide_eq_true (hid.mpr hslot))
            · rw [if_neg hslot]
              refine List.filter_cons_of_neg ?_
              rw [decide_eq_true_eq]
              exact fun hx => hslot (hid.mp hx)
          | wrote type bytes | fed type bytes => exact (ite_self _).symm
        | accepted | cancelled | dispatched | got c => exact (ite_self _).symm
      · have hslot : ref ≠ ⟨i, slot⟩ := by
          rintro rfl
          exact href rfl
        rw [if_neg href, if_neg hslot]
        rfl
    rw [shown_cons, List.filter_append, hhead, hlater]
    by_cases hslot : ref = ⟨i, slot⟩
    · simp only [List.filterMap_cons, hslot, if_true]
      exact (packets_cons mark _).symm
    · simp only [List.filterMap_cons, hslot, if_false, List.nil_append]

theorem numbered_filter (hm : m.be ≠ 0) (l : List Packet) :
    (numbered l).filter (fun pkt => pkt.header.requestId = m) =
      l.filter fun pkt => pkt.header.requestId = m := by
  rw [numbered, List.filter_filter]
  refine List.filter_congr fun pkt _ => ?_
  by_cases hpkt : pkt.header.requestId = m
  · simp [hpkt, hm]
  · simp [hpkt]

theorem mem_marksOf {ref : Ref} {mark : Mark} (h : (ref, mark) ∈ s.log) : mark ∈ marksOf s ref :=
  List.mem_filterMap.mpr ⟨(ref, mark), h, if_pos rfl⟩

/-- The records with an id that a run sends on a connection are those of its slot. -/
theorem wire_slot {workers slot : Nat} {as : List Act}
    (h : run (Sys.step p) (.init workers) as = some s) (hup : s.down = none)
    (hid : m.load p.host = slot + 1) (hm : Stable p m) :
    (wire p i (.init workers) as).filter (fun pkt => pkt.header.requestId = m) =
      packets (events (marksOf s ⟨i, slot⟩)) := by
  have hz : m.be ≠ 0 := by
    rw [← stable_load hm, hid]
    exact Nat.succ_ne_zero slot
  have hshown : numbered (shown i s.log) = numbered (wire p i (.init workers) as) :=
    run_shown (init_laid workers) (init_inv workers) h hup
  rw [← numbered_filter hz, ← hshown, numbered_filter hz]
  exact shown_filter fun ref pkt out hx href => run_ids h hid hm href (mem_marksOf hx)

/-! ## What is read and what was given -/

/-- What comes back for a request. -/
structure Response where
  out : List Byte
  err : List Byte
  /-- the body of the END_REQUEST record -/
  ending : List Byte
  deriving DecidableEq, Repr

def Response.new : Response := ⟨[], [], []⟩

def Response.add (x : Response) (type : RecType) (bytes : List Byte) : Response :=
  match type with
  | .stdout => { x with out := x.out ++ bytes }
  | .stderr => { x with err := x.err ++ bytes }
  | _ => x

/-- A web server: the response that is under way, and those that have ended. -/
def readPacket (x : Response × List Response) (pkt : Packet) : Response × List Response :=
  if pkt.recType = .endRequest then (.new, x.2 ++ [{ x.1 with ending := pkt.body }])
  else (x.1.add pkt.recType pkt.body, x.2)

def responses (pkts : List Packet) : List Response := (pkts.foldl readPacket (.new, [])).2

/-- What was written to the open streams for an accepted request, up to its end. -/
def give (x : Response × List Response) : Mark → Response × List Response
  | .accepted => (.new, x.2)
  | .did (.wrote type bytes) => (x.1.add type bytes, x.2)
  | .did (.sent pkt _) =>
    if pkt.recType = .endRequest then (.new, x.2 ++ [{ x.1 with ending := pkt.body }]) else x
  | _ => x

def answers (ms : List Mark) : List Response := (ms.foldl give (.new, [])).2

/-- What was sent on the streams. -/
def sentOn (es : List Event) : Response :=
  ⟨(emitted .cout es).flatMap Packet.body, (emitted .cerr es).flatMap Packet.body, []⟩

def writtenOn (es : List Event) : Response := ⟨written .cout es, written .cerr es, []⟩

theorem sentOn_sent (es : List Event) (pkt : Packet) (out : SendPacket.SendOutcome) :
    sentOn (es ++ [.sent pkt out]) = (sentOn es).add pkt.recType pkt.body := by
  have hone : ∀ i, emitted i [.sent pkt out] = if pkt.recType = typeOf i then [pkt] else [] := by
    intro i
    by_cases hi : pkt.recType = typeOf i
    · rw [if_pos hi]
      exact List.filter_cons_of_pos (decide_eq_true hi)
    · rw [if_neg hi]
      exact List.filter_cons_of_neg (by rwa [decide_eq_true_eq])
  unfold sentOn
  rw [emitted_append, emitted_append, hone, hone]
  cases ht : pkt.recType <;> simp [Response.add, typeOf]

theorem sentOn_other {es : List Event} {e : Event} (h : ∀ pkt out, e ≠ .sent pkt out) :
    sentOn (es ++ [e]) = sentOn es := by
  have hone : ∀ i, emitted i [e] = [] := by
    intro i
    cases e with
    | sent pkt out => exact absurd rfl (h pkt out)
    | wrote type bytes | fed type bytes => rfl
  unfold sentOn
  rw [emitted_append, emitted_append, hone, hone, List.append_nil, List.append_nil]

theorem writtenOn_wrote (es : List Event) (type : RecType) (bytes : List Byte) :
    writtenOn (es ++ [.wrote type bytes]) = (writtenOn es).add type bytes := by
  unfold writtenOn
  rw [written_append, written_append]
  cases type <;> simp [written, Response.add, typeOf]

theorem writtenOn_other {es : List Event} {e : Event} (h : ∀ type bytes, e ≠ .wrote type bytes) :
    writtenOn (es ++ [e]) = writtenOn es := by
  have hone : ∀ i, written i [e] = [] := by
    intro i
    cases e with
    | wrote type bytes => exact absurd rfl (h type bytes)
    | sent pkt out | fed type bytes => rfl
  unfold writtenOn
  rw [written_append, written_append, hone, hone, List.append_nil, List.append_nil]

/-- All that was written was sent when the streams have ended. -/
theorem sentOn_finished {es : List Event} (h : ∀ i, Finished i es) : sentOn es = writtenOn es := by
  have hall : ∀ i, (emitted i es).flatMap Packet.body = written i es := by
    intro i
    obtain ⟨data, last, he, hlast, -, hbytes⟩ := h i
    rw [he, List.flatMap_append, hbytes, List.flatMap_singleton, hlast, List.append_nil]
  unfold sentOn writtenOn
  rw [hall, hall]

/-- A request is accepted when the one before it has ended. -/
def Spaced (ms : List Mark) : Prop :=
  ∀ before after, ms = before ++ .accepted :: after → ∀ c, current before = some c → EndSent c

theorem orderly_front {ms new : List Mark} (h : AllOrderly (ms ++ new)) : AllOrderly ms := by
  rintro c ⟨before, after, rfl, hc⟩
  exact h c ⟨before, after ++ new, by simp, hc⟩

theorem bracketed_front {ms new : List Mark} (h : Bracketed (ms ++ new)) : Bracketed ms := by
  rintro before pkt out after rfl
  exact h before pkt out (after ++ new) (by simp)

theorem Spaced.front {ms new : List Mark} (h : Spaced (ms ++ new)) : Spaced ms := by
  rintro before after rfl
  exact h before (after ++ new) (by simp)

/-- What was read of the marks `ms` and what was given in them. -/
structure Agrees (ms : List Mark) (x y : Response × List Response) : Prop where
  done : x.2 = y.2
  idle : (∀ c, current ms = some c → EndSent c) → x.1 = .new
  during : ∀ c, current ms = some c → ¬ EndSent c →
    x.1 = sentOn (events c) ∧ y.1 = writtenOn (events c)

theorem endSent_concat {c : List Mark} {mark : Mark} (hend : isEnd mark = false) :
    EndSent (c ++ [mark]) ↔ EndSent c := by
  refine ⟨fun he => (endSent_append he).resolve_right ?_,
    fun ⟨k, hk, he⟩ => ⟨k, List.mem_append_left _ hk, he⟩⟩
  rintro ⟨k, hk, he⟩
  cases List.mem_singleton.mp hk
  rw [hend] at he
  cases he

variable {ms : List Mark} {x y x' y' : Response × List Response}

/-- A mark that neither begins a request nor ends it. -/
theorem Agrees.more (h : Agrees ms x y) {mark : Mark} (hacc : mark ≠ .accepted)
    (hend : isEnd mark = false) (hdone : x'.2 = y'.2)
    (hidle : (∀ c, current ms = some c → EndSent c) → x.1 = .new → x'.1 = .new)
    (hduring : ∀ es, x.1 = sentOn es → y.1 = writtenOn es →
      x'.1 = sentOn (es ++ events [mark]) ∧ y'.1 = writtenOn (es ++ events [mark])) :
    Agrees (ms ++ [mark]) x' y' := by
  have hno : .accepted ∉ [mark] := fun hx => hacc (List.mem_singleton.mp hx).symm
  have hcur : current (ms ++ _) = _ := current_append hno
  refine ⟨hdone, ?_, ?_⟩
  · intro hall
    have hends : ∀ c, current ms = some c → EndSent c := by
      intro c hc
      rw [hc] at hcur
      exact (endSent_concat hend).mp (hall _ hcur)
    exact hidle hends (h.idle hends)
  · intro c' hc' hopen
    rw [hcur] at hc'
    obtain ⟨c, hc, rfl⟩ := Option.map_eq_some_iff.mp hc'
    obtain ⟨hx, hy⟩ := h.during c hc fun he => hopen ((endSent_concat hend).mpr he)
    rw [events_append]
    exact hduring (events c) hx hy

theorem Agrees.accepted (h : Agrees ms x y) (hs : Spaced (ms ++ [.accepted])) :
    Agrees (ms ++ [.accepted]) x (.new, y.2) := by
  have hcur := current_accepted ms
  refine ⟨h.done, ?_, ?_⟩
  · intro hall
    obtain ⟨mark, hmark, -⟩ := hall [] hcur
    cases hmark
  · intro c hc _
    rw [hcur] at hc
    cases hc
    exact ⟨h.idle (hs ms [] rfl), rfl⟩

theorem Agrees.ended (h : Agrees ms x y) {pkt : Packet} {out : SendPacket.SendOutcome}
    (ht : pkt.recType = .endRequest) (ho : AllOrderly (ms ++ [.did (.sent pkt out)]))
    (hb : Bracketed (ms ++ [.did (.sent pkt out)])) :
    Agrees (ms ++ [.did (.sent pkt out)]) (.new, x.2 ++ [{ x.1 with ending := pkt.body }])
      (.new, y.2 ++ [{ y.1 with ending := pkt.body }]) := by
  have hno : .accepted ∉ [Mark.did (.sent pkt out)] := by simp
  have hcur : current (ms ++ _) = _ := current_append hno
  have hend : isEnd (.did (.sent pkt out)) = true := decide_eq_true ht
  obtain ⟨c, hc, hopen, -⟩ := hb ms pkt out [] rfl (by rw [ht]; exact RecType.noConfusion)
  rw [hc] at hcur
  obtain ⟨hx, hy⟩ := h.during c hc hopen
  have hfinished : ∀ i, Finished i (events c) := fun i =>
    ((ho _ (current_acceptance hcur)).ended c _ [] rfl hend i).1
  refine ⟨?_, fun _ => rfl, ?_⟩
  · rw [hx, hy, sentOn_finished hfinished, h.done]
  · intro c' hc' hopen'
    rw [hcur] at hc'
    cases hc'
    exact absurd ⟨_, List.mem_append_right c List.mem_cons_self, hend⟩ hopen'

/-- Another record. -/
theorem Agrees.sent (h : Agrees ms x y) {pkt : Packet} {out : SendPacket.SendOutcome}
    (ht : pkt.recType ≠ .endRequest) (hb : Bracketed (ms ++ [.did (.sent pkt out)])) :
    Agrees (ms ++ [.did (.sent pkt out)]) (x.1.add pkt.recType pkt.body, x.2) y := by
  refine h.more (fun hx => by cases hx) (decide_eq_false ht) h.done ?_ ?_
  · intro hends hx
    by_cases hu : pkt.recType = .unknownType
    -- the only records that a slot sends while it has no request
    · rw [hu]
      exact hx
    · obtain ⟨c, hc, hopen, -⟩ := hb ms pkt out [] rfl hu
      exact absurd (hends c hc) hopen
  · intro es hx hy
    refine ⟨?_, ?_⟩
    · rw [hx]
      exact (sentOn_sent es pkt out).symm
    · rw [hy]
      exact (writtenOn_other (fun _ _ he => by cases he)).symm

theorem read_marks (ho : AllOrderly ms) (hb : Bracketed ms) (hs : Spaced ms) :
    Agrees ms ((packets (events ms)).foldl readPacket (.new, [])) (ms.foldl give (.new, [])) := by
  -- on the last mark, since what is under way depends on the marks before it
  induction ms using List.reverseRecOn with
  | nil => exact ⟨rfl, fun _ => rfl, fun c hc => by cases hc⟩
  | append_singleton ms mark ih =>
    have h := ih (orderly_front ho) (bracketed_front hb) hs.front
    rw [events_append, packets_append, List.foldl_append, List.foldl_append]
    cases mark with
    | accepted => exact h.accepted hs
    | cancelled | dispatched | got c =>
      refine h.more (fun hx => by cases hx) rfl h.done (fun _ hx => hx) ?_
      intro es hx hy
      have hnone : es = es ++ [] := (List.append_nil es).symm
      exact ⟨hx.trans (congrArg sentOn hnone), hy.trans (congrArg writtenOn hnone)⟩
    | did e =>
      cases e with
      | sent pkt out =>
        have hread : (packets (events [Mark.did (.sent pkt out)])) = [pkt] := rfl
        rw [hread, List.foldl_cons, List.foldl_cons, List.foldl_nil, List.foldl_nil]
        by_cases ht : pkt.recType = .endRequest
        · rw [readPacket, if_pos ht, give, if_pos ht]
          exact h.ended ht ho hb
        · rw [readPacket, if_neg ht, give, if_neg ht]
          exact h.sent ht hb
      | wrote type bytes =>
        refine h.more (fun hx => by cases hx) rfl h.done (fun _ hx => hx) ?_
        intro es hx hy
        refine ⟨hx.trans (sentOn_other (fun _ _ he => by cases he)).symm, ?_⟩
        exact (congrArg (Response.add · type bytes) hy).trans (writtenOn_wrote es type bytes).symm
      | fed type bytes =>
        refine h.more (fun hx => by cases hx) rfl h.done (fun _ hx => hx) ?_
        intro es hx hy
        exact ⟨hx.trans (sentOn_other (fun _ _ he => by cases he)).symm,
          hy.trans (writtenOn_other (fun _ _ he => by cases he)).symm⟩

/-- **What a web server makes of the records of a slot.** -/
theorem answers_read (ho : AllOrderly ms) (hb : Bracketed ms) (hs : Spaced ms) :
    responses (packets (events ms)) = answers ms := (read_marks ho hb hs).done

/-! ## Acceptances -/

theorem Spaced.more {new : List Mark} (h : Spaced ms) (hacc : .accepted ∉ new) :
    Spaced (ms ++ new) := by
  intro before after he
  rcases List.append_eq_append_iff.mp he with ⟨t, rfl, ht⟩ | ⟨t, rfl, ht⟩
  · exact absurd (by rw [ht]; simp) hacc
  · cases t with
    | nil => exact absurd (by rw [← List.nil_append new, ← ht]; exact List.mem_cons_self) hacc
    | cons mark t =>
      rw [List.cons_append, List.cons.injEq] at ht
      obtain ⟨rfl, -⟩ := ht
      exact h before t rfl

theorem Spaced.accept (h : Spaced ms) (hends : ∀ c, current ms = some c → EndSent c) :
    Spaced (ms ++ [.accepted]) := by
  intro before after he
  rcases List.append_eq_append_iff.mp he with ⟨t, rfl, ht⟩ | ⟨t, rfl, ht⟩
  · cases t with
    | nil =>
      rw [List.append_nil]
      exact hends
    | cons mark t => simp at ht
  · cases t with
    | nil =>
      rw [List.append_nil] at hends
      exact hends
    | cons mark t =>
      rw [List.cons_append, List.cons.injEq] at ht
      obtain ⟨rfl, -⟩ := ht
      exact h before t rfl

/-- A slot that is ready has ended the request before. -/
structure Turned (s : Sys) (ref : Ref) : Prop where
  spaced : Spaced (marksOf s ref)
  ready : ∀ r c, s.request? ref = some r → r.state = .ready → current (marksOf s ref) = some c →
    EndSent c

variable {ref : Ref} {a : Act}

/-- Marks that accept nothing. -/
theorem Turned.more (h : Turned s ref) {new : List Mark}
    (hmarks : marksOf s' ref = marksOf s ref ++ new)
    (hacc : .accepted ∉ new) (hready : ∀ r', s'.request? ref = some r' → r'.state = .ready →
      (∃ r, s.request? ref = some r ∧ r.state = .ready) ∨ EndSent new ∨
        current (marksOf s ref) = none) : Turned s' ref := by
  refine ⟨hmarks ▸ h.spaced.more hacc, ?_⟩
  intro r' c' hr' hstate hc'
  rw [hmarks, current_append hacc] at hc'
  obtain ⟨c, hc, rfl⟩ := Option.map_eq_some_iff.mp hc'
  rcases hready r' hr' hstate with ⟨r, hr, hr₀⟩ | ⟨mark, hmark, he⟩ | hnone
  · obtain ⟨mark, hmark, he⟩ := h.ready r c hr hr₀ hc
    exact ⟨mark, List.mem_append_left new hmark, he⟩
  · exact ⟨mark, List.mem_append_right c hmark, he⟩
  · rw [hnone] at hc
    cases hc

/-- The request before the one in the slot, when a record is handled. -/
theorem slot_begun (hs : Sound s ref) {n : Conn} {r : Request} {junk : Junk}
    (conn : s.conns[ref.conn]? = some n) (pc : n.pc = .reading)
    (slot : s.request? ref = some r ∨ s.request? ref = none ∧ r = .new p (ref.slot + 1) junk) :
    s.request? ref = some r ∨ current (marksOf s ref) = none := by
  rcases slot with hr | ⟨hr, -⟩
  · exact Or.inl hr
  · rcases hs.told with ⟨⟨k, hk, htorn⟩, -⟩ | hstory
    · rw [conn] at hk
      cases hk
      rw [pc] at htorn
      cases htorn
    · rw [hr] at hstory
      exact Or.inr hstory

theorem handled_turned (hs : Sound s ref) (h : Turned s ref) {n : Conn} {junk : Junk} {φ : Fate}
    {r : Request} {hd : Handled} {log : List Event} (conn : s.conns[ref.conn]? = some n)
    (pc : n.pc = .reading)
    (slot : s.request? ref = some r ∨ s.request? ref = none ∧ r = .new p (ref.slot + 1) junk)
    (handles : Request.Handles p junk φ r (.ok hd, log))
    (request : s'.request? ref = some hd.request)
    (marks : marksOf s' ref = marksOf s ref ++ Sys.marks hd log) : Turned s' ref := by
  have hbegun := slot_begun hs conn pc slot
  cases handles_receives handles with
  | accepts r' ready reading streams =>
    refine ⟨?_, ?_⟩
    · rw [marks]
      refine h.spaced.accept ?_
      intro c hc
      rcases hbegun with hr | hnone
      · exact h.ready r c hr ready hc
      · rw [hnone] at hc
        cases hc
    · intro r₁ c hr₁ hstate
      rw [request] at hr₁
      cases hr₁
      rw [show Handled.request (.accepted r') = r' from rfl, reading] at hstate
      cases hstate
  | cancels r' _ did =>
    refine h.more marks ?_ ?_
    · simp [Sys.marks]
    · obtain ⟨⟨what, data, cerr, cout, es₁, es₂, out, -, -, -, -, rfl⟩, -⟩ := did
      intro _ _ _
      exact Or.inr (Or.inl ⟨.did (.sent (r.cancelPacket p) out), by simp [Sys.marks], rfl⟩)
  | keeps _ _ streams about idle =>
    rcases idle with ⟨r', rfl, hstate⟩ | ⟨r', rfl, hstate, -⟩
    · refine h.more marks (accepted_not_mem_did log) ?_
      intro r₁ hr₁ hready
      rw [request] at hr₁
      cases hr₁
      rcases hbegun with hr | hnone
      · exact Or.inl ⟨r, hr, hstate ▸ hready⟩
      · exact Or.inr (Or.inr hnone)
    · refine h.more marks (by simp [Sys.marks]) ?_
      intro r₁ hr₁ hready
      rw [request] at hr₁
      cases hr₁
      rw [show Handled.request (.push r') = r' from rfl, hstate] at hready
      cases hready

theorem step_turned (hs : Sound s ref) (ht : Turned s ref) (h : Sys.step p s a = some s') :
    Turned s' ref := by
  cases step_slot h ref with
  | same request marks =>
    refine ht.more (by rw [marks, List.append_nil]) List.not_mem_nil ?_
    intro r hr hready
    exact Or.inl ⟨r, request ▸ hr, hready⟩
  | handled n junk φ notified r hd log act conn pc slot handles request marks pushes =>
    exact handled_turned hs ht conn pc slot handles request marks
  | reset n j r conn pc slot request marks =>
    refine ht.more (by rw [marks, List.append_nil]) List.not_mem_nil ?_
    intro r' hr' hready
    rw [request] at hr'
    cases hr'
    exact Or.inl ⟨r, slot, hready⟩
  | destroyed n φ r log conn pc slot destroys request marks =>
    refine ht.more marks (accepted_not_mem_did log) ?_
    intro r' hr'
    rw [request] at hr'
    cases hr'
  | worked w r r' pc pc' got log worker workers slot works request marks =>
    refine ht.more marks (accepted_not_mem_work log got) ?_
    intro x hx hready
    rw [request] at hx
    cases hx
    obtain ⟨-, -, cin, cout, cerr, rfl⟩ := works.keeps
    exact Or.inl ⟨r, slot, hready⟩

theorem run_turned {workers : Nat} {as : List Act}
    (h : run (Sys.step p) (.init workers) as = some s) (ref : Ref) : Turned s ref := by
  have hinit : Turned (.init workers) ref := by
    refine ⟨?_, ?_⟩
    · intro before after he
      exact absurd he.symm (List.append_ne_nil_of_right_ne_nil _ (List.cons_ne_nil _ _))
    · intro r c hr
      cases hr
  exact (run_invariant (I := fun s => Sound s ref ∧ Turned s ref) ⟨init_sound workers ref, hinit⟩
    (fun _ _ _ hI hs => ⟨hI.1.step hs, step_turned hI.1 hI.2 hs⟩) h).2

/-- **What a web server gets.** In every run that is up and whose sends succeed: from the
bytes on the socket of a connection a web server reads, for an id that `htons` does not change,
one response for each request of the slot that was accepted and ended, in order, with all that
was written to its open streams and the END_REQUEST record it was given, whatever other
requests and connections do. -/
theorem responses_read {workers slot : Nat} {as : List Act} (hsucc : ∀ a ∈ as, Succeeds a)
    (h : run (Sys.step p) (.init workers) as = some s) (hup : s.down = none)
    (hid : m.load p.host = slot + 1) (hm : Stable p m) (i : Nat) :
    responses ((records.decodeAll ((wire p i (.init workers) as).flatMap Packet.bytes)).1.filter
      fun pkt => pkt.header.requestId = m) = answers (marksOf s ⟨i, slot⟩) := by
  have hsized : ∀ pkt ∈ wire p i (.init workers) as, Sized pkt :=
    fun pkt hpkt => (wire_wellFormed i (init_laid workers) as pkt hpkt).sized
  have hread := Code.decodeAll_encodeAll (K := records) hsized
  rw [show (wire p i (.init workers) as).flatMap Packet.bytes =
    records.encodeAll (wire p i (.init workers) as) from rfl, hread, wire_slot h hup hid hm]
  exact answers_read (run_inOrder hsucc h _).orderly (run_bracketed h _) (run_turned h _).spaced

/-- A request with the id 1 on a big-endian host; the callback writes "hi". -/
def greeted : List Act :=
  [.accept .zeros, .arrive 0 (.data 1 [1, 0, 1, 0, 8, 0, 0, 0, 1, 0, 0, 0, 0, 0, 0]),
    .arrive 0 (.data 1 [4, 0, 1, 0, 0, 0, 0])] ++ connMoves 5 ++ workerMoves 3 ++
    [.app 0 (.write .cout [104, 105]) Fate.sent, .finish 0 (.returns 0) Fate.sent] ++ workerMoves 4

theorem greeted_succeeds : ∀ a ∈ greeted, Succeeds a := by
  intro a ha φ hφ
  simp only [greeted, connMoves, workerMoves, List.mem_append, List.mem_cons, List.mem_replicate,
    List.not_mem_nil, or_false] at ha
  rcases ha with ((((ha | ha | ha) | ha) | ha) | ha | ha) | ha <;>
    (first | subst ha | obtain rfl := ha.2) <;> cases hφ <;> rfl

theorem responses_read_greeted : ∃ s,
    run (Sys.step Multiplex.bigEndian) (.init 1) greeted = some s ∧
      responses ((records.decodeAll
        ((wire Multiplex.bigEndian 0 (.init 1) greeted).flatMap Packet.bytes)).1.filter
          fun pkt => pkt.header.requestId = ⟨0, 1⟩) =
            [⟨[104, 105], [], [0, 0, 0, 0, 0, 0, 0, 0]⟩] := by
  have hrun : (run (Sys.step Multiplex.bigEndian) (.init 1) greeted).any (fun s =>
      decide (s.down = none) && decide (answers (marksOf s ⟨0, 0⟩) =
        [⟨[104, 105], [], [0, 0, 0, 0, 0, 0, 0, 0]⟩])) = true := by decide +kernel
  obtain ⟨s, hs, hcheck⟩ := (Option.any_eq_true _ _).mp hrun
  simp only [Bool.and_eq_true, decide_eq_true_eq] at hcheck
  refine ⟨s, hs, ?_⟩
  rw [← hcheck.2]
  exact responses_read greeted_succeeds hs hcheck.1 (by decide) (Or.inl rfl) 0

end Tfcgi.Responses
