import Tfcgi.Accounting
import Tfcgi.Lib.Trace
import Tfcgi.Sends
import Tfcgi.Wire

/-!
# A connection is served as if it were the only one

From a run of the process a run of a process with one connection is made: what is done
for the other connections is left out, and a worker that is not busy with this one waits
at its loop.

* `match_step`: each step is matched by at most two steps of the process with one
  connection;
* `isolated`: the peer of a connection sends and gets the same as from a process that
  serves nobody else.
-/

namespace Tfcgi.Isolation

open Tfcgi.Lib Tfcgi.Run Tfcgi.HostOrder Tfcgi.Protocol Tfcgi.NameValuePairs Tfcgi.SendPacket
open Tfcgi.Socket Tfcgi.Iostream Tfcgi.RequestSlot Tfcgi.ConnectionThread Tfcgi.System
open Tfcgi.OutputStream Tfcgi.Accounting Tfcgi.Sends Tfcgi.Wire

/-! ## The process with one connection -/

/-- The request in a process where its connection is the first. -/
def sole (ref : Ref) : Ref := ⟨0, ref.slot⟩

def solePlace : ConnPc → ConnPc
  | .pushing ref => .pushing (sole ref)
  | .locking ref => .locking (sole ref)
  | .resetting ref => .resetting (sole ref)
  | pc => pc

def soleConn (n : Conn) : Conn := ⟨n.connection, solePlace n.pc⟩

def soleWorker : WorkerPc → WorkerPc
  | .popped ref => .popped (sole ref)
  | .running ref => .running (sole ref)
  | .closingCout ref body => .closingCout (sole ref) body
  | .closingCerr ref body => .closingCerr (sole ref) body
  | .sending ref body => .sending (sole ref) body
  | .decrementing ref => .decrementing (sole ref)
  | pc => pc

/-- Where the worker stands there. -/
def viewed (i : Nat) (pc : WorkerPc) : WorkerPc :=
  match pc.request? with
  | some ref => if ref.conn = i then soleWorker pc else .loopTop
  | none => .loopTop

def ownLog (i : Nat) (log : List (Ref × Mark)) : List (Ref × Mark) :=
  (log.filter fun x => x.1.conn = i).map fun x => (sole x.1, x.2)

def ownQueue (i : Nat) (queue : List Ref) : List Ref :=
  (queue.filter fun ref => ref.conn = i).map sole

/-- `t` is what `s` looks like with connection `i` alone. -/
structure Alone (i : Nat) (s t : Sys) : Prop where
  conns : t.conns = (s.conns[i]?.map soleConn).toList
  queue : t.queue = ownQueue i s.queue
  workers : t.workers = s.workers.map (viewed i)
  listening : t.socketListening = true
  main : t.main = .accepting
  down : s.down = none → t.down = none
  log : t.log = ownLog i s.log

theorem init_alone (i m : Nat) : Alone i (.init m) (.init m) where
  conns := rfl
  queue := rfl
  workers := by
    show List.replicate m _ = (List.replicate m _).map (viewed i)
    rw [List.map_replicate]
    rfl
  listening := rfl
  main := rfl
  down := fun _ => rfl
  log := rfl

variable {i : Nat} {s s' t : Sys}

theorem viewed_own {pc : WorkerPc} {ref : Ref} (h : pc.request? = some ref) (hi : ref.conn = i) :
    viewed i pc = soleWorker pc := by
  simp only [viewed, h, hi, if_true]

theorem viewed_other {pc : WorkerPc} (h : ∀ ref, pc.request? = some ref → ref.conn ≠ i) :
    viewed i pc = .loopTop := by
  unfold viewed
  split
  · rename_i ref href
    exact if_neg (h ref href)
  · rfl

theorem viewed_ne_parked (pc : WorkerPc) : viewed i pc ≠ .parked := by
  unfold viewed
  split
  · rename_i ref href
    split
    · cases pc <;> simp [soleWorker]
      cases href
    · exact WorkerPc.noConfusion
  · exact WorkerPc.noConfusion

namespace Alone

theorem conn (h : Alone i s t) {n : Conn} (hn : s.conns[i]? = some n) : t.conns = [soleConn n] := by
  rw [h.conns, hn]
  rfl

theorem conn? (h : Alone i s t) : t.conns[0]? = s.conns[i]?.map soleConn := by
  rw [h.conns]
  cases s.conns[i]? <;> rfl

theorem worker? (h : Alone i s t) (w : Nat) : t.workers[w]? = (s.workers[w]?).map (viewed i) := by
  rw [h.workers, List.getElem?_map]

theorem request? (h : Alone i s t) {ref : Ref} (href : ref.conn = i) :
    t.request? (sole ref) = s.request? ref := by
  unfold Sys.request?
  rw [href, show (sole ref).conn = 0 from rfl, h.conn?]
  cases s.conns[i]? <;> rfl

/-! ### What is done for the connection -/

theorem setConn (h : Alone i s t) {n : Conn} (hn : s.conns[i]? = some n) (n' : Conn) :
    Alone i (s.setConn i n') (t.setConn 0 (soleConn n')) :=
  { h with
    conns := by
      rw [Sys.setConn_conns, Sys.setConn_conns, h.conn hn,
        List.getElem?_set_self (List.getElem?_eq_some_iff.mp hn).1]
      rfl }

theorem setWorker (h : Alone i s t) (w : Nat) (pc : WorkerPc) :
    Alone i (s.setWorker w pc) (t.setWorker w (viewed i pc)) :=
  { h with
    workers := by
      rw [Sys.setWorker_workers, Sys.setWorker_workers, h.workers, List.map_set] }

theorem record (h : Alone i s t) {ref : Ref} (href : ref.conn = i) (ms : List Mark) :
    Alone i (s.record ref ms) (t.record (sole ref) ms) :=
  { h with
    log := by
      have hall : (ms.map fun m => (ref, m)).filter (fun x => x.1.conn = i) =
          ms.map fun m => (ref, m) := by
        rw [List.filter_eq_self]
        intro x hx
        obtain ⟨m, -, rfl⟩ := List.mem_map.mp hx
        exact decide_eq_true href
      rw [Sys.record_log, Sys.record_log, h.log, ownLog, ownLog, List.filter_append, hall,
        List.map_append, List.map_map]
      rfl }

theorem crash (h : Alone i s t) (c : Crash) : Alone i (s.crash c) (t.crash c) :=
  { h with down := nofun }

theorem setRequest (h : Alone i s t) {ref : Ref} (href : ref.conn = i) (r : Request) :
    Alone i (s.setRequest ref r) (t.setRequest (sole ref) r) := by
  have hconn := h.conn?
  unfold Sys.setRequest
  rw [href, show (sole ref).conn = 0 from rfl, hconn]
  cases hn : s.conns[i]? with
  | none => exact h
  | some n => exact h.setConn hn _

end Alone

/-! ## What is done for others -/

/-- Nothing of connection `i` changes. -/
structure Same (i : Nat) (s s' : Sys) : Prop where
  conns : s'.conns[i]? = s.conns[i]?
  queue : ownQueue i s'.queue = ownQueue i s.queue
  workers : s'.workers.map (viewed i) = s.workers.map (viewed i)
  down : s'.down = none → s.down = none
  log : ownLog i s'.log = ownLog i s.log

theorem Alone.same (h : Alone i s t) (hs : Same i s s') : Alone i s' t where
  conns := by rw [hs.conns, h.conns]
  queue := by rw [hs.queue, h.queue]
  workers := by rw [hs.workers, h.workers]
  listening := h.listening
  main := h.main
  down := fun hd => h.down (hs.down hd)
  log := by rw [hs.log, h.log]

namespace Same

theorem refl (s : Sys) : Same i s s := ⟨rfl, rfl, rfl, id, rfl⟩

theorem trans {s₁ s₂ s₃ : Sys} (h : Same i s₁ s₂) (h' : Same i s₂ s₃) : Same i s₁ s₃ where
  conns := h'.conns.trans h.conns
  queue := h'.queue.trans h.queue
  workers := h'.workers.trans h.workers
  down := fun hd => h.down (h'.down hd)
  log := h'.log.trans h.log

theorem setConn {j : Nat} (hj : j ≠ i) (s : Sys) (n : Conn) : Same i s (s.setConn j n) :=
  { refl s with conns := List.getElem?_set_ne hj }

theorem setWorker {w : Nat} {pc pc' : WorkerPc} (hw : s.workers[w]? = some pc)
    (h : viewed i pc' = viewed i pc) : Same i s (s.setWorker w pc') :=
  { refl s with
    workers := by
      have hmap : (s.workers.map (viewed i))[w]? = some (viewed i pc) := by
        rw [List.getElem?_map, hw]
        rfl
      obtain ⟨hlt, hget⟩ := List.getElem?_eq_some_iff.mp hmap
      rw [Sys.setWorker_workers, List.map_set, h, ← hget, List.set_getElem_self] }

theorem record {ref : Ref} (href : ref.conn ≠ i) (s : Sys) (ms : List Mark) :
    Same i s (s.record ref ms) :=
  { refl s with
    log := by
      have hnone : (ms.map fun m => (ref, m)).filter (fun x => x.1.conn = i) = [] := by
        rw [List.filter_eq_nil_iff]
        intro x hx
        obtain ⟨m, -, rfl⟩ := List.mem_map.mp hx
        exact fun h => href (of_decide_eq_true h)
      rw [Sys.record_log, ownLog, ownLog, List.filter_append, hnone, List.append_nil] }

theorem crash (s : Sys) (c : Crash) : Same i s (s.crash c) := { refl s with down := nofun }

theorem setRequest {ref : Ref} (href : ref.conn ≠ i) (s : Sys) (r : Request) :
    Same i s (s.setRequest ref r) := by
  unfold Sys.setRequest
  split
  · exact refl s
  · exact setConn href s _

end Same

/-! ## Steps for other connections -/

variable {p : Params}

theorem notifyOne_same {notified : Option Nat} (h : s.notifyOne notified = some s') :
    Same i s s' := by
  unfold Sys.notifyOne at h
  split at h
  · split at h
    · cases h
    · cases h
      exact .refl s
  · split at h
    · rename_i hw
      cases h
      exact .setWorker hw rfl
    · cases h

theorem tearDown_same {j : Nat} (hj : j ≠ i) (n : Conn) (k : Nat) (φ : Fate) :
    Same i s (s.tearingDown p j n k φ) := by
  unfold Sys.tearingDown
  split
  · split
    · exact .crash s _
    · exact (Same.setConn hj s _).trans (.record hj _ _)
  · exact .setConn hj s _

theorem clearing_same {j : Nat} (hj : j ≠ i) (n : Conn) (k : Nat) (φ : Fate) :
    Same i s (s.clearing p j n k φ) := by
  unfold Sys.clearing
  split
  · split
    · exact .crash s _
    · exact (Same.setConn hj s _).trans (.record hj _ _)
  · split
    · exact .crash s _
    · exact { Same.setConn hj s _ with queue := rfl }

theorem reading_same {j : Nat} (hj : j ≠ i) {n : Conn} {junk : Junk} {φ : Fate}
    (h : s.reading p j n junk φ = some s') : Same i s s' := by
  unfold Sys.reading at h
  split at h
  · split at h
    · cases h
    · cases h
      exact .crash s _
    · cases h
      exact .setConn hj s _
    · cases h
      unfold Sys.afterTurn
      split
      · exact .setConn hj s _
      · exact (Same.setConn hj s _).trans (.record hj _ _)
  · cases h
    exact .setConn hj s _

theorem connStep_same {j : Nat} (hj : j ≠ i) {n : Conn} {junk : Junk} {φ : Fate}
    {notified : Option Nat} (hpc : ∀ ref, unreset? n.pc = some ref → ref.conn = j)
    (h : s.connStep p j n junk φ notified = some s') : Same i s s' := by
  cases hn : n.pc with
  | reading =>
    simp only [Sys.connStep, hn] at h
    exact reading_same hj h
  | pushing ref =>
    simp only [Sys.connStep, hn] at h
    cases h
    exact { Same.setConn hj s _ with queue := rfl }
  | locking ref =>
    simp only [Sys.connStep, hn] at h
    have href : ref.conn ≠ i := by rw [hpc ref (by rw [hn]; rfl)]; exact hj
    have hpush : Same i s { s.setConn j { n with pc := .resetting ref } with
        queue := s.queue ++ [ref] } :=
      { Same.setConn hj s _ with
        queue := by
          have hnot : decide (ref.conn = i) = false := decide_eq_false href
          simp only [ownQueue, List.filter_append, List.filter_cons, hnot, List.filter_nil,
            List.append_nil, Bool.false_eq_true, if_false] }
    exact hpush.trans (notifyOne_same h)
  | resetting ref =>
    simp only [Sys.connStep, hn] at h
    cases h
    exact .setConn hj s _
  | tearingDown k =>
    simp only [Sys.connStep, hn] at h
    cases h
    exact tearDown_same hj n k φ
  | waiting =>
    simp only [Sys.connStep, hn] at h
    split at h
    · cases h
      exact .setConn hj s _
    · cases h
  | clearing k =>
    simp only [Sys.connStep, hn] at h
    cases h
    exact clearing_same hj n k φ
  | gone =>
    simp only [Sys.connStep, hn] at h
    cases h

theorem useRequest_same {w : Nat} {ref : Ref} {pc : WorkerPc} {φ : Fate}
    {use : Request → Option (Tx (Request × WorkerPc × Option Int))} (href : ref.conn ≠ i)
    (hw : s.workers[w]? = some pc) (hpc : pc.request? = some ref)
    (huse : ∀ r tx x log, use r = some tx → tx φ = (.ok x, log) → x.2.1.request? = some ref)
    (h : s.useRequest w ref φ use = some s') : Same i s s' := by
  have hview : ∀ pc, pc.request? = some ref → viewed i pc = .loopTop := by
    intro pc hpc
    apply viewed_other
    intro ref' href'
    rw [hpc] at href'
    cases href'
    exact href
  unfold Sys.useRequest at h
  split at h
  · cases h
    exact .crash s _
  · rename_i r hr
    split at h
    · cases h
    · rename_i tx htx
      split at h
      · cases h
        exact .crash s _
      · rename_i r' pc' got log hd
        cases h
        have hpc' := hview pc' (huse r tx _ log htx hd)
        have hset := Same.setRequest href s r'
        have hworker : Same i (s.setRequest ref r') ((s.setRequest ref r').setWorker w pc') :=
          .setWorker (by rw [Sys.setRequest_workers]; exact hw) (by rw [hpc', hview pc hpc])
        exact (hset.trans hworker).trans (.record href _ _)

theorem decrement_same {w : Nat} {ref : Ref} (href : ref.conn ≠ i)
    (hw : s.workers[w]? = some (.decrementing ref)) : Same i s (s.decrement w ref) := by
  unfold Sys.decrement
  split
  · exact .crash s _
  · split
    · exact .crash s _
    · have hview : viewed i (.decrementing ref) = .loopTop := if_neg href
      exact (Same.setConn href s _).trans (.setWorker hw hview.symm)

/-! ## Steps for the connection -/

theorem Alone.unparked (h : Alone i s t) : .parked ∉ t.workers := by
  rw [h.workers, List.mem_map]
  rintro ⟨pc, -, hpc⟩
  exact viewed_ne_parked pc hpc

theorem afterTurn_own (h : Alone i s t) {n : Conn} (hn : s.conns[i]? = some n) (c : Connection)
    (log : List Event) (did : Option (Nat × Handled)) :
    Alone i (s.afterTurn i c log did) (t.afterTurn 0 c log did) := by
  cases did with
  | none => exact h.setConn hn ⟨c, .reading⟩
  | some x =>
    obtain ⟨slot, hd⟩ := x
    have href : Ref.conn ⟨i, slot⟩ = i := rfl
    cases hd with
    | push r => exact (h.setConn hn ⟨c, .pushing ⟨i, slot⟩⟩).record href _
    | _ => exact (h.setConn hn ⟨c, .reading⟩).record href _

theorem reading_own (h : Alone i s t) {n : Conn} (hn : s.conns[i]? = some n) {junk : Junk}
    {φ : Fate} (hs : s.reading p i n junk φ = some s') :
    ∃ t', t.reading p 0 (soleConn n) junk φ = some t' ∧ Alone i s' t' := by
  have hconn : (soleConn n).connection = n.connection := rfl
  unfold Sys.reading at hs ⊢
  rw [hconn]
  split at hs
  · rename_i hsane
    rw [if_pos hsane]
    split at hs
    · cases hs
    · rename_i c log hx
      cases hs
      exact ⟨_, rfl, h.crash c⟩
    · rename_i c hx
      cases hs
      exact ⟨_, rfl, h.setConn hn ⟨c, .tearingDown 0⟩⟩
    · rename_i header c did log hx
      cases hs
      exact ⟨_, rfl, afterTurn_own h hn c log did⟩
  · rename_i hsane
    rw [if_neg hsane]
    cases hs
    exact ⟨_, rfl, h.setConn hn { n with pc := .tearingDown 0 }⟩

theorem tearingDown_own (h : Alone i s t) {n : Conn} (hn : s.conns[i]? = some n) (k : Nat)
    (φ : Fate) :
    Alone i (s.tearingDown p i n k φ) (t.tearingDown p 0 (soleConn n) k φ) := by
  have hconn : (soleConn n).connection = n.connection := rfl
  unfold Sys.tearingDown
  rw [hconn]
  split
  · split
    · rename_i c log hx
      exact h.crash c
    · rename_i c log hx
      have href : Ref.conn ⟨i, k⟩ = i := rfl
      exact (h.setConn hn ⟨c, .tearingDown (k + 1)⟩).record href _
  · exact h.setConn hn { n with pc := .waiting }

theorem clearing_own (h : Alone i s t) {n : Conn} (hn : s.conns[i]? = some n) (k : Nat) (φ : Fate) :
    Alone i (s.clearing p i n k φ) (t.clearing p 0 (soleConn n) k φ) := by
  have hconn : (soleConn n).connection = n.connection := rfl
  unfold Sys.clearing
  rw [hconn]
  split
  · split
    · rename_i c log hx
      exact h.crash c
    · rename_i c log hx
      have href : Ref.conn ⟨i, k⟩ = i := rfl
      exact (h.setConn hn ⟨c, .clearing (k + 1)⟩).record href _
  · split
    · rename_i c log hx
      exact h.crash c
    · rename_i c log hx
      exact { h.setConn hn ⟨c, .gone⟩ with queue := h.queue }

theorem connStep_own (h : Alone i s t) {n : Conn} (hn : s.conns[i]? = some n) {junk : Junk}
    {φ : Fate} {notified : Option Nat} (hpc : ∀ ref, unreset? n.pc = some ref → ref.conn = i)
    (hs : s.connStep p i n junk φ notified = some s') :
    ∃ t', t.connStep p 0 (soleConn n) junk φ none = some t' ∧ Alone i s' t' := by
  obtain ⟨c, pc⟩ := n
  cases pc with
  | reading => exact reading_own h hn hs
  | pushing ref =>
    cases hs
    exact ⟨_, rfl, { h.setConn hn ⟨c, .locking ref⟩ with queue := h.queue }⟩
  | locking ref =>
    have href : ref.conn = i := hpc ref rfl
    have hpush : Alone i { s.setConn i ⟨c, .resetting ref⟩ with queue := s.queue ++ [ref] }
        { t.setConn 0 ⟨c, .resetting (sole ref)⟩ with queue := t.queue ++ [sole ref] } :=
      { h.setConn hn ⟨c, .resetting ref⟩ with
        queue := by
          simp only [ownQueue, h.queue, List.filter_append, List.filter_cons, href, decide_true,
            if_true, List.filter_nil, List.map_append, List.map_cons, List.map_nil] }
    exact ⟨_, if_neg h.unparked, hpush.same (notifyOne_same hs)⟩
  | resetting ref =>
    cases hs
    exact ⟨_, rfl, h.setConn hn ⟨Sys.resetParams c ref.slot, .reading⟩⟩
  | tearingDown k =>
    cases hs
    exact ⟨_, rfl, tearingDown_own h hn k φ⟩
  | waiting =>
    simp only [Sys.connStep] at hs
    split at hs
    · rename_i hzero
      cases hs
      exact ⟨_, if_pos hzero, h.setConn hn ⟨c, .clearing 0⟩⟩
    · cases hs
  | clearing k =>
    cases hs
    exact ⟨_, rfl, clearing_own h hn k φ⟩
  | gone => cases hs

/-! ## Workers -/

/-- The same use of a request that the worker names otherwise. -/
def Uses {α β : Type} (f : α → β) (use : Request → Option (Tx α)) (use' : Request → Option (Tx β)) :
    Prop :=
  ∀ r, use r = none ∧ use' r = none ∨
    ∃ tx tx', use r = some tx ∧ use' r = some tx' ∧ Maps f tx tx'

/-- The request that the worker goes on with. -/
def Holds (ref : Ref) (φ : Fate) (use : Request → Option (Tx (Request × WorkerPc × Option Int))) :
    Prop :=
  ∀ r tx x log, use r = some tx → tx φ = (.ok x, log) → x.2.1.request? = some ref

theorem useDid_own {α β : Type} {f : α → β} (h : Alone i s t) {ref : Ref} (href : ref.conn = i)
    {φ : Fate} {use : Request → Option (Tx α)} {use' : Request → Option (Tx β)}
    (huse : Uses f use use') : useDid t (sole ref) φ use' = useDid s ref φ use := by
  unfold useDid
  rw [h.request? href]
  split
  · rfl
  · rename_i r hr
    rcases huse r with ⟨hu, hu'⟩ | ⟨tx, tx', hu, hu', hmaps⟩
    · rw [hu, hu']
    · rw [hu, hu']
      exact congrArg Prod.snd (hmaps φ)

theorem useRequest_own (h : Alone i s t) {w : Nat} {ref : Ref} (href : ref.conn = i) {φ : Fate}
    {use use' : Request → Option (Tx (Request × WorkerPc × Option Int))}
    (huse : Uses (fun x => (x.1, soleWorker x.2.1, x.2.2)) use use') (hholds : Holds ref φ use)
    (hs : s.useRequest w ref φ use = some s') :
    ∃ t', t.useRequest w (sole ref) φ use' = some t' ∧ Alone i s' t' := by
  unfold Sys.useRequest at hs ⊢
  rw [h.request? href]
  split at hs
  · rename_i hr
    cases hs
    exact ⟨_, rfl, h.crash _⟩
  · rename_i r hr
    rcases huse r with ⟨hu, -⟩ | ⟨tx, tx', hu, hu', hmaps⟩
    · rw [hu] at hs
      cases hs
    · rw [hu] at hs
      rw [hu']
      cases hx : tx φ with
      | mk result log =>
        cases result with
        | error c =>
          simp only [hx] at hs
          cases hs
          exact ⟨_, by simp only [hmaps.error hx], h.crash c⟩
        | ok x =>
          simp only [hx] at hs
          cases hs
          have hview := viewed_own (hholds r tx x log hu hx) href
          have hset := (h.setRequest href x.1).setWorker w x.2.1
          rw [hview] at hset
          refine ⟨_, ?_, hset.record href _⟩
          simp only [hmaps.ok hx]

theorem decrement_own (h : Alone i s t) {w : Nat} {ref : Ref} (href : ref.conn = i) :
    Alone i (s.decrement w ref) (t.decrement w (sole ref)) := by
  have hconn := h.conn?
  unfold Sys.decrement
  rw [href, show (sole ref).conn = 0 from rfl, hconn]
  cases hn : s.conns[i]? with
  | none => exact h.crash _
  | some n =>
    have hgone : (soleConn n).pc = .gone ↔ n.pc = .gone := by
      obtain ⟨c, pc⟩ := n
      cases pc <;> simp [soleConn, solePlace]
    simp only [Option.map_some, hgone]
    split
    · exact h.crash _
    · exact Alone.setWorker (h.setConn hn { n with connection :=
        { n.connection with requestActives := decr n.connection.requestActives } }) w .loopTop

theorem workRequest_sole (pc : WorkerPc) : Uses (fun x => (x.1, soleWorker x.2))
    (fun r => workRequest p r pc) fun r => workRequest p r (soleWorker pc) := by
  intro r
  cases pc with
  | popped ref =>
    right
    simp only [soleWorker, workRequest]
    split
    · exact ⟨_, _, rfl, rfl, .pure rfl⟩
    · exact ⟨_, _, rfl, rfl, .bind _ fun x => .pure rfl⟩
  | closingCout | closingCerr | sending =>
    exact Or.inr ⟨_, _, rfl, rfl, .bind _ fun x => .pure rfl⟩
  | _ => exact Or.inl ⟨rfl, rfl⟩

/-- The use of a request that the worker makes in a step. -/
def worked (p : Params) (pc : WorkerPc) (r : Request) :
    Option (Tx (Request × WorkerPc × Option Int)) :=
  (workRequest p r pc).map fun tx => do
    let (r, pc) ← tx
    return (r, pc, none)

theorem worked_sole (pc : WorkerPc) : Uses (fun x => (x.1, soleWorker x.2.1, x.2.2))
    (worked p pc) (worked p (soleWorker pc)) := by
  intro r
  unfold worked
  rcases workRequest_sole (p := p) pc r with ⟨hu, hu'⟩ | ⟨tx, tx', hu, hu', hmaps⟩
  · simp only at hu hu'
    rw [hu, hu']
    exact Or.inl ⟨rfl, rfl⟩
  · simp only at hu hu'
    rw [hu, hu']
    exact Or.inr ⟨_, _, rfl, rfl, hmaps.comp fun x => .pure rfl⟩

theorem worked_holds {pc : WorkerPc} {ref : Ref} (hpc : pc.request? = some ref) (φ : Fate) :
    Holds ref φ (worked p pc) := by
  intro r tx x log htx hx
  obtain ⟨tx', htx', rfl⟩ := Option.map_eq_some_iff.mp htx
  obtain ⟨⟨r₁, pc₁⟩, hr, he⟩ := Tx.bind_return (fun _ => rfl) hx
  cases he
  exact (Sys.workRequest_worked (w := 0) hpc htx' hr).keeps.2.1

theorem workerStep_own (h : Alone i s t) {w : Nat} {pc : WorkerPc} {ref : Ref} {φ : Fate}
    (hpc : pc.request? = some ref) (href : ref.conn = i)
    (hs : s.workerStep p w pc φ = some s') :
    ∃ t', t.workerStep p w (soleWorker pc) φ = some t' ∧ Alone i s' t' := by
  have huse : (s.useRequest w ref φ (worked p pc)) = some s' →
      ∃ t', t.useRequest w (sole ref) φ (worked p (soleWorker pc)) = some t' ∧ Alone i s' t' :=
    useRequest_own h href (worked_sole pc) (worked_holds hpc φ)
  cases pc with
  | popped | closingCout | closingCerr | sending =>
    cases hpc
    exact huse hs
  | decrementing =>
    cases hpc
    cases hs
    exact ⟨_, rfl, decrement_own h href⟩
  | running => cases hs
  | _ => cases hpc

theorem workerStep_same {w : Nat} {pc : WorkerPc} {ref : Ref} {φ : Fate}
    (hw : s.workers[w]? = some pc) (hpc : pc.request? = some ref) (href : ref.conn ≠ i)
    (hs : s.workerStep p w pc φ = some s') : Same i s s' := by
  have huse : (s.useRequest w ref φ (worked p pc)) = some s' → Same i s s' :=
    useRequest_same href hw hpc (worked_holds hpc φ)
  cases pc with
  | popped | closingCout | closingCerr | sending =>
    cases hpc
    exact huse hs
  | decrementing =>
    cases hpc
    cases hs
    exact decrement_same href hw
  | running => cases hs
  | _ => cases hpc

/-! ## Steps -/

/-- What passes on the socket of a connection. -/
inductive Seen where
  | came (r : ReadResult)
  | sent (pkt : Packet)
  deriving DecidableEq, Repr

def seen (p : Params) (i : Nat) (s : Sys) : System.Act → List Seen
  | .arrive j r => if j = i then [.came r] else []
  | a => (packets (did p s i a)).map .sent

/-- The steps of the process with one connection that a step stands for. -/
def Matched (p : Params) (i : Nat) (s s' t : Sys) (a : System.Act) : Prop :=
  ∃ bs t', run (Sys.step p) t bs = some t' ∧ Alone i s' t' ∧
    trace (Sys.step p) (seen p 0) t bs = seen p i s a

theorem Matched.skip (h : Alone i s t) {a : System.Act} (hs : Same i s s')
    (ha : seen p i s a = []) :
    Matched p i s s' t a := ⟨[], t, rfl, h.same hs, ha.symm⟩

theorem Matched.one {a b : System.Act} {t' : Sys} (hb : Sys.step p t b = some t')
    (h : Alone i s' t') (hseen : seen p 0 t b = seen p i s a) : Matched p i s s' t a := by
  refine ⟨[b], t', ?_, h, ?_⟩
  · rw [run, hb]
    rfl
  · rw [trace_cons hb, hseen]
    exact List.append_nil _

theorem step_conn {n : Conn} (hd : s.down = none) (hn : s.conns[i]? = some n) (junk : Junk)
    (φ : Fate) (notified : Option Nat) :
    Sys.step p s (.conn i junk φ notified) = s.connStep p i n junk φ notified := by
  simp [Sys.step, hd, hn]

theorem step_worker {w : Nat} {pc : WorkerPc} (hd : s.down = none) (hw : s.workers[w]? = some pc)
    (φ : Fate) : Sys.step p s (.worker w φ) = s.workerStep p w pc φ := by
  simp [Sys.step, hd, hw]

theorem conn_matched (hi : Inv s) (h : Alone i s t) (hd : t.down = none) {j : Nat} {n : Conn}
    (hn : s.conns[j]? = some n) {junk : Junk} {φ : Fate} {notified : Option Nat}
    (hs : s.connStep p j n junk φ notified = some s') :
    Matched p i s s' t (.conn j junk φ notified) := by
  have hpc : ∀ ref, unreset? n.pc = some ref → ref.conn = j :=
    fun ref href => ((hi.accounts j n hn).unreset ref href).1
  by_cases hj : j = i
  · subst hj
    obtain ⟨t', ht, hsim⟩ := connStep_own h hn hpc hs
    have hconn : t.conns[0]? = some (soleConn n) := by rw [h.conn?, hn, Option.map_some]
    refine .one ((step_conn hd hconn junk φ none).trans ht) hsim ?_
    have hdid : connDid p (soleConn n) junk φ = connDid p n junk φ := by
      obtain ⟨c, pc⟩ := n
      cases pc <;> rfl
    simp only [seen, did, hconn, hn, if_true, hdid]
  · refine .skip h (connStep_same hj hpc hs) ?_
    simp only [seen, did, hn, if_neg hj]
    rfl

/-- A worker takes a request of the connection, for which it comes from its loop. -/
theorem take_own (h : Alone i s t) (hd : t.down = none) {w : Nat} {pc : WorkerPc} {ref : Ref}
    {queue : List Ref} (hw : s.workers[w]? = some pc) (hview : viewed i pc = .loopTop)
    (hq : s.queue = ref :: queue) (href : ref.conn = i) (φ : Fate) :
    ∃ t', run (Sys.step p) t [.worker w φ, .worker w φ] = some t' ∧ Alone i (s.pop w) t' ∧
      trace (Sys.step p) (seen p 0) t [.worker w φ, .worker w φ] = [] := by
  have hw₀ : t.workers[w]? = some .loopTop := by rw [h.worker?, hw, Option.map_some, hview]
  have hlt : w < t.workers.length := (List.getElem?_eq_some_iff.mp hw₀).1
  have hstep₀ : Sys.step p t (.worker w φ) = some (t.setWorker w .popping) := by
    rw [step_worker hd hw₀]
    simp only [Sys.workerStep, h.listening, if_true]
  have hw₁ : (t.setWorker w .popping).workers[w]? = some .popping := List.getElem?_set_self hlt
  have hd₁ : (t.setWorker w .popping).down = none := hd
  have hstep₁ : Sys.step p (t.setWorker w .popping) (.worker w φ) =
      some ((t.setWorker w .popping).pop w) := by
    rw [step_worker hd₁ hw₁]
    rfl
  have hqueue : t.queue = sole ref :: ownQueue i queue := by
    have hkeep : decide (ref.conn = i) = true := decide_eq_true href
    simp only [h.queue, hq, ownQueue, List.filter_cons, hkeep, if_true, List.map_cons]
  refine ⟨(t.setWorker w .popping).pop w, by rw [run, hstep₀, Option.bind_some, run, hstep₁]; rfl,
    ?_, ?_⟩
  · have hset := h.setWorker w (.popped ref)
    have hown : viewed i (.popped ref) = .popped (sole ref) := viewed_own rfl href
    unfold Sys.pop
    simp only [Sys.setWorker_queue, hqueue, hq]
    exact { hset with
      queue := rfl
      workers := by
        rw [← hset.workers, hown]
        exact List.set_set _ }
  · rw [trace_cons hstep₀, trace_cons hstep₁]
    simp only [trace, seen, did, hw₀, hw₁, WorkerPc.request?]
    rfl

/-- A worker that has no request looks at the queue. -/
theorem pop_matched (h : Alone i s t) (hd : t.down = none) {w : Nat} {pc : WorkerPc} {φ : Fate}
    (hw : s.workers[w]? = some pc) (hview : viewed i pc = .loopTop)
    (hseen : seen p i s (.worker w φ) = []) : Matched p i s (s.pop w) t (.worker w φ) := by
  cases hq : s.queue with
  | nil =>
    refine .skip h ?_ hseen
    unfold Sys.pop
    simp only [hq]
    exact .setWorker hw hview.symm
  | cons ref queue =>
    by_cases href : ref.conn = i
    · obtain ⟨t', ht, hsim, htrace⟩ := take_own (p := p) h hd hw hview hq href φ
      exact ⟨_, t', ht, hsim, htrace.trans hseen.symm⟩
    · refine .skip h ?_ hseen
      have hnot : viewed i (.popped ref) = .loopTop := if_neg href
      unfold Sys.pop
      simp only [hq]
      exact { Same.setWorker hw (hnot.trans hview.symm) with
        queue := by
          rw [hq, ownQueue, ownQueue, List.filter_cons_of_neg]
          exact fun hdec => href (of_decide_eq_true hdec) }

theorem worker_matched (h : Alone i s t) (hd : t.down = none) {w : Nat} {pc : WorkerPc} {φ : Fate}
    (hw : s.workers[w]? = some pc) (hs : s.workerStep p w pc φ = some s') :
    Matched p i s s' t (.worker w φ) := by
  cases hreq : pc.request? with
  | none =>
    have hview : viewed i pc = .loopTop := by
      apply viewed_other
      intro ref href
      rw [hreq] at href
      cases href
    have hseen : seen p i s (.worker w φ) = [] := by
      simp only [seen, did, hw, hreq]
      rfl
    rcases Sys.workerStep_cases hs with ⟨-, rfl⟩ | ⟨-, rfl⟩ | ⟨-, rfl⟩ | ⟨ref, href, -⟩ |
      ⟨ref, rfl, -⟩
    · refine .skip h (.setWorker hw ?_) hseen
      rw [hview]
      split <;> rfl
    · refine .skip h (.setWorker hw ?_) hseen
      rw [hview]
      split <;> rfl
    · exact pop_matched h hd hw hview hseen
    · rw [hreq] at href
      cases href
    · cases hreq
  | some ref =>
    by_cases href : ref.conn = i
    · obtain ⟨t', ht, hsim⟩ := workerStep_own h hreq href hs
      have hw' : t.workers[w]? = some (soleWorker pc) := by
        rw [h.worker?, hw, Option.map_some, viewed_own hreq href]
      refine .one ((step_worker hd hw' φ).trans ht) hsim ?_
      have hreq' : (soleWorker pc).request? = some (sole ref) := by
        cases pc <;> cases hreq <;> rfl
      have hdid := useDid_own (φ := φ) h href (workRequest_sole (p := p) pc)
      have hzero : (sole ref).conn = 0 := rfl
      simp only [seen, did, hw, hw', hreq, hreq', href, hzero, if_true, hdid]
    · refine .skip h (workerStep_same hw hreq href hs) ?_
      simp only [seen, did, hw, hreq, if_neg href]
      rfl

theorem useDid_request {α : Type} (h : Alone i s t) {ref : Ref} (href : ref.conn = i) (φ : Fate)
    (use : Request → Option (Tx α)) : useDid t (sole ref) φ use = useDid s ref φ use := by
  unfold useDid
  rw [h.request? href]

/-- The application uses its request. -/
theorem running_matched (h : Alone i s t) {w : Nat} {ref : Ref} {φ : Fate} {a : System.Act}
    (hw : s.workers[w]? = some (.running ref))
    (use : Ref → Request → Option (Tx (Request × WorkerPc × Option Int)))
    (huse : Uses (fun x => (x.1, soleWorker x.2.1, x.2.2)) (use ref) (use (sole ref)))
    (hholds : Holds ref φ (use ref)) (hs : s.useRequest w ref φ (use ref) = some s')
    (hstep : t.workers[w]? = some (.running (sole ref)) →
      Sys.step p t a = t.useRequest w (sole ref) φ (use (sole ref)) ∧
        (ref.conn = i → seen p 0 t a = seen p i s a))
    (hother : ref.conn ≠ i → seen p i s a = []) : Matched p i s s' t a := by
  by_cases href : ref.conn = i
  · obtain ⟨t', ht, hsim⟩ := useRequest_own h href huse hholds hs
    have hview : viewed i (.running ref) = .running (sole ref) := viewed_own rfl href
    have hw' : t.workers[w]? = some (.running (sole ref)) := by
      rw [h.worker?, hw, Option.map_some, hview]
    obtain ⟨hb, hseen⟩ := hstep hw'
    exact .one (hb.trans ht) hsim (hseen href)
  · exact .skip h (useRequest_same href hw rfl hholds hs) (hother href)

def applied (p : Params) (op : AppOp) (ref : Ref) (r : Request) :
    Option (Tx (Request × WorkerPc × Option Int)) :=
  (appOp p r op).map fun tx => do
    let (r, got) ← tx
    return (r, .running ref, got)

def finished (p : Params) (how : AppEnd) (ref : Ref) (r : Request) :
    Option (Tx (Request × WorkerPc × Option Int)) :=
  some do
    let (r, body) ← callbackEnds p r how
    return (r, .closingCout ref body, none)

theorem step_app {w : Nat} {ref : Ref} (hd : s.down = none)
    (hw : s.workers[w]? = some (.running ref)) (op : AppOp) (φ : Fate) :
    Sys.step p s (.app w op φ) = s.useRequest w ref φ (applied p op ref) := by
  simp only [Sys.step, hd, hw]
  rfl

theorem step_finish {w : Nat} {ref : Ref} (hd : s.down = none)
    (hw : s.workers[w]? = some (.running ref)) (how : AppEnd) (φ : Fate) :
    Sys.step p s (.finish w how φ) = s.useRequest w ref φ (finished p how ref) := by
  simp only [Sys.step, hd, hw]
  rfl

theorem applied_holds (op : AppOp) (ref : Ref) (φ : Fate) : Holds ref φ (applied p op ref) := by
  intro r tx x log htx hx
  obtain ⟨tx', -, rfl⟩ := Option.map_eq_some_iff.mp htx
  obtain ⟨y, -, rfl⟩ := Tx.bind_return (fun _ => rfl) hx
  rfl

theorem finished_holds (how : AppEnd) (ref : Ref) (φ : Fate) :
    Holds ref φ (finished p how ref) := by
  rintro r tx x log ⟨⟩ hx
  obtain ⟨y, -, rfl⟩ := Tx.bind_return (fun _ => rfl) hx
  rfl

theorem app_matched (h : Alone i s t) (hd : t.down = none) {w : Nat} {ref : Ref} {op : AppOp}
    {φ : Fate} (hw : s.workers[w]? = some (.running ref))
    (hs : s.useRequest w ref φ (applied p op ref) = some s') :
    Matched p i s s' t (.app w op φ) := by
  refine running_matched h hw (applied p op) ?_ (applied_holds op ref φ) hs ?_ ?_
  · intro r
    unfold applied
    cases appOp p r op with
    | none => exact Or.inl ⟨rfl, rfl⟩
    | some tx => exact Or.inr ⟨_, _, rfl, rfl, .bind _ fun x => .pure rfl⟩
  · intro hw'
    refine ⟨step_app hd hw' op φ, ?_⟩
    intro href
    have hzero : (sole ref).conn = 0 := rfl
    simp only [seen, did, hw, hw', href, hzero, if_true, useDid_request h href]
  · intro href
    simp only [seen, did, hw, if_neg href]
    rfl

theorem finish_matched (h : Alone i s t) (hd : t.down = none) {w : Nat} {ref : Ref} {how : AppEnd}
    {φ : Fate} (hw : s.workers[w]? = some (.running ref))
    (hs : s.useRequest w ref φ (finished p how ref) = some s') :
    Matched p i s s' t (.finish w how φ) := by
  refine running_matched h hw (finished p how) ?_ (finished_holds how ref φ) hs ?_ ?_
  · exact fun r => Or.inr ⟨_, _, rfl, rfl, .bind _ fun x => .pure rfl⟩
  · intro hw'
    refine ⟨step_finish hd hw' how φ, ?_⟩
    intro href
    have hzero : (sole ref).conn = 0 := rfl
    simp only [seen, did, hw, hw', href, hzero, if_true, useDid_request h href]
  · intro href
    simp only [seen, did, hw, if_neg href]
    rfl

theorem accept_matched (h : Alone i s t) (hd : t.down = none) (junk : Junk) :
    Matched p i s { s with
      conns := s.conns ++ [⟨.new p junk, .reading⟩]
      socketActive := incr s.socketActive } t (.accept junk) := by
  by_cases hlen : s.conns.length = i
  · have hnone : t.conns = [] := by
      rw [h.conns, List.getElem?_eq_none (Nat.le_of_eq hlen)]
      rfl
    have hgo : t.main = .accepting ∧ t.socketListening = true ∧ t.live < 2147483648 := by
      refine ⟨h.main, h.listening, ?_⟩
      unfold Sys.live
      rw [hnone]
      decide
    have hstep : Sys.step p t (.accept junk) = some { t with
        conns := t.conns ++ [⟨.new p junk, .reading⟩]
        socketActive := incr t.socketActive } := by
      simp only [Sys.step, hd]
      exact if_pos hgo
    refine .one hstep { h with conns := ?_ } rfl
    simp only [hnone, ← hlen, List.getElem?_concat_length]
    rfl
  · refine .skip h ?_ rfl
    have hconns : (s.conns ++ [⟨Connection.new p junk, .reading⟩])[i]? = s.conns[i]? := by
      rcases Nat.lt_or_gt_of_ne hlen with hlt | hgt
      · rw [List.getElem?_eq_none (by rw [List.length_append, List.length_singleton]; omega),
          List.getElem?_eq_none (by omega)]
      · exact List.getElem?_append_left hgt
    exact { Same.refl s with conns := hconns }

theorem arrive_matched (h : Alone i s t) (hd : t.down = none) {j : Nat} {n : Conn} (r : ReadResult)
    (hn : s.conns[j]? = some n) (hpc : n.pc ≠ .gone) :
    Matched p i s (s.setConn j { n with connection := { n.connection with
      sock := { n.connection.sock with reads := n.connection.sock.reads ++ [r] } } }) t
      (.arrive j r) := by
  by_cases hj : j = i
  · subst hj
    have hconn : t.conns[0]? = some (soleConn n) := by rw [h.conn?, hn, Option.map_some]
    have hgone : (soleConn n).pc ≠ .gone := by
      obtain ⟨c, pc⟩ := n
      cases pc <;> first | exact ConnPc.noConfusion | exact hpc
    have hset := h.setConn hn { n with connection := { n.connection with
      sock := { n.connection.sock with reads := n.connection.sock.reads ++ [r] } } }
    refine .one (b := .arrive 0 r) ?_ hset ?_
    · simp only [Sys.step, hd, hconn]
      exact if_neg hgone
    · simp only [seen, if_true]
  · exact .skip h (.setConn hj s _) (if_neg hj)

theorem match_step (hi : Inv s) (h : Alone i s t) {a : System.Act} (hs : Sys.step p s a = some s') :
    Matched p i s s' t a := by
  have hd : t.down = none := h.down (Sys.step_effect hs).1
  unfold Sys.step at hs
  split at hs
  · cases hs
  · cases a with
    | accept junk =>
      simp only at hs
      split at hs
      · cases hs
        exact accept_matched h hd junk
      · cases hs
    | closeListening | leaveLoop | join =>
      simp only at hs
      split at hs
      · cases hs
        exact .skip h { Same.refl s with queue := rfl } rfl
      · cases hs
    | arrive j r =>
      simp only at hs
      split at hs
      · cases hs
      · rename_i n hn
        split at hs
        · cases hs
        · rename_i hpc
          cases hs
          exact arrive_matched h hd r hn hpc
    | conn j junk φ notified =>
      simp only at hs
      split at hs
      · cases hs
      · rename_i n hn
        exact conn_matched hi h hd hn hs
    | worker w φ =>
      simp only at hs
      split at hs
      · cases hs
      · rename_i pc hw
        exact worker_matched h hd hw hs
    | wake w =>
      simp only at hs
      split at hs
      · rename_i hw
        cases hs
        exact .skip h (.setWorker hw rfl) rfl
      · cases hs
    | app w op φ =>
      simp only at hs
      split at hs
      · rename_i ref hw
        exact app_matched h hd hw hs
      · cases hs
    | finish w how φ =>
      simp only at hs
      split at hs
      · rename_i ref hw
        exact finish_matched h hd hw hs
      · cases hs

/-- **Isolation.** For every run and every connection there is a run of a process with the
same workers that serves nobody else: the same input comes on the connection, the same
records are sent on it in the same order, its requests have the same history, and the
connection and the workers end where they are. -/
theorem isolated {m : Nat} {as : List System.Act} (h : run (Sys.step p) (.init m) as = some s)
    (i : Nat) : ∃ bs t, run (Sys.step p) (.init m) bs = some t ∧ Alone i s t ∧
      trace (Sys.step p) (seen p 0) (.init m) bs = trace (Sys.step p) (seen p i) (.init m) as := by
  have hstart : Inv (.init m) ∧ Alone i (.init m) (.init m) := ⟨init_inv m, init_alone i m⟩
  have hstep : ∀ s t a s', Inv s ∧ Alone i s t → Sys.step p s a = some s' →
      ∃ bs t', run (Sys.step p) t bs = some t' ∧ (Inv s' ∧ Alone i s' t') ∧
        trace (Sys.step p) (seen p 0) t bs = seen p i s a := by
    intro s t a s' hr hs
    obtain ⟨bs, t', ht, hsim, htrace⟩ := match_step hr.1 hr.2 hs
    exact ⟨bs, t', ht, ⟨step_inv hr.1 hs, hsim⟩, htrace⟩
  obtain ⟨bs, t, ht, ⟨-, hsim⟩, htrace⟩ := run_matched hstep hstart h
  exact ⟨bs, t, ht, hsim, htrace⟩

/-- A request on the second connection, while one is begun on the first. -/
def second : List System.Act :=
  [.accept .zeros, .accept .zeros, .arrive 0 beginRecord, .arrive 1 beginRecord,
    .arrive 1 paramsEnd, .conn 0 .zeros Fate.sent none] ++
    List.replicate 5 (.conn 1 .zeros Fate.sent none) ++ workerMoves 3 ++
    [.finish 0 (.returns 0) Fate.sent] ++ workerMoves 4

theorem isolated_second : ∃ s bs t, run (Sys.step .standard) (.init 1) second = some s ∧
    run (Sys.step .standard) (.init 1) bs = some t ∧ t.conns.length = 1 ∧
    trace (Sys.step .standard) (seen .standard 0) (.init 1) bs =
      trace (Sys.step .standard) (seen .standard 1) (.init 1) second ∧
    (trace (Sys.step .standard) (seen .standard 1) (.init 1) second).length = 5 := by
  have hrun : (run (Sys.step .standard) (.init 1) second).any (fun s => s.conns.length = 2) =
      true := by
    decide +kernel
  obtain ⟨s, hs, hlen⟩ := (Option.any_eq_true _ _).mp hrun
  obtain ⟨bs, t, ht, hsim, htrace⟩ := isolated hs 1
  have hone : 1 < s.conns.length := by rw [of_decide_eq_true hlen]; decide
  refine ⟨s, bs, t, hs, ht, ?_, htrace, by decide +kernel⟩
  rw [hsim.conns, List.getElem?_eq_getElem hone]
  rfl

end Tfcgi.Isolation
