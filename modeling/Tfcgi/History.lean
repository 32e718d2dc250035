import Tfcgi.System

/-!
# The history of a slot

`marksOf` is what the log keeps of one slot of one connection, and `current` the
part of it since the last accepted BEGIN_REQUEST.

* `step_slot`: what a step does to a slot and to its history.
-/

namespace Tfcgi.History

open Tfcgi.Run Tfcgi.Protocol Tfcgi.Socket Tfcgi.Iostream Tfcgi.RequestSlot
open Tfcgi.ConnectionThread Tfcgi.System

def marksOf (s : Sys) (ref : Ref) : List Mark :=
  s.log.filterMap fun x => if x.1 = ref then some x.2 else none

def extend (acc : Option (List Mark)) (m : Mark) : Option (List Mark) :=
  match m with
  | .accepted => some []
  | m => acc.map (· ++ [m])

/-- The marks of the current acceptance, if there is one. -/
def current (ms : List Mark) : Option (List Mark) := ms.foldl extend none

/-- An END_REQUEST record was given to `send_packet`. -/
def isEnd : Mark → Bool
  | .did (.sent pkt _) => pkt.recType = .endRequest
  | _ => false

theorem foldl_extend {ms : List Mark} (h : .accepted ∉ ms) (acc : Option (List Mark)) :
    ms.foldl extend acc = acc.map (· ++ ms) := by
  induction ms generalizing acc with
  | nil => simp
  | cons m ms ih =>
    rw [List.mem_cons, not_or] at h
    obtain ⟨hm, hms⟩ := h
    have hx : extend acc m = acc.map (· ++ [m]) := by
      cases m <;> first | rfl | exact absurd rfl hm
    rw [List.foldl_cons, ih hms, hx, Option.map_map]
    congr 1
    funext l
    simp

theorem current_append {ms ms' : List Mark} (h : .accepted ∉ ms') :
    current (ms ++ ms') = (current ms).map (· ++ ms') := by
  rw [current, List.foldl_append, foldl_extend h]
  rfl

theorem current_accepted (ms : List Mark) : current (ms ++ [.accepted]) = some [] := by
  rw [current, List.foldl_append]
  rfl

theorem foldl_extend_subset {ms : List Mark} {acc : Option (List Mark)} {c : List Mark}
    (h : ms.foldl extend acc = some c) : ∀ m ∈ c, m ∈ ms ∨ ∃ c₀, acc = some c₀ ∧ m ∈ c₀ := by
  induction ms generalizing acc with
  | nil => exact fun m hm => Or.inr ⟨c, h, hm⟩
  | cons x ms ih =>
    intro m hm
    rcases ih h m hm with hm | ⟨c₀, hc₀, hm⟩
    · exact Or.inl (List.mem_cons_of_mem x hm)
    · by_cases hx : x = .accepted
      · subst hx
        cases hc₀
        cases hm
      · have he : extend acc x = acc.map (· ++ [x]) := by
          cases x <;> first | rfl | exact absurd rfl hx
        rw [he] at hc₀
        obtain ⟨c₁, hc₁, rfl⟩ := Option.map_eq_some_iff.mp hc₀
        rcases List.mem_append.mp hm with hm | hm
        · exact Or.inr ⟨c₁, hc₁, hm⟩
        · exact Or.inl (List.mem_singleton.mp hm ▸ List.mem_cons_self)

theorem current_subset {ms c : List Mark} (h : current ms = some c) {m : Mark} (hm : m ∈ c) :
    m ∈ ms := by
  rcases foldl_extend_subset h m hm with hm | ⟨c₀, hc₀, -⟩
  · exact hm
  · cases hc₀

theorem accepted_not_mem_did (log : List Event) : Mark.accepted ∉ log.map Mark.did := by
  intro h
  obtain ⟨e, -, he⟩ := List.mem_map.mp h
  cases he

theorem dispatched_not_mem_did (log : List Event) : Mark.dispatched ∉ log.map Mark.did := by
  intro h
  obtain ⟨e, -, he⟩ := List.mem_map.mp h
  cases he

/-- The marks of a worker and of the application. -/
theorem mem_work {log : List Event} {got : Option Int} {m : Mark}
    (h : m ∈ log.map Mark.did ++ (got.map Mark.got).toList) :
    (∃ e, m = .did e) ∨ ∃ x, m = .got x := by
  rcases List.mem_append.mp h with h | h
  · obtain ⟨e, -, rfl⟩ := List.mem_map.mp h
    exact Or.inl ⟨e, rfl⟩
  · cases got with
    | none => cases h
    | some x => exact Or.inr ⟨x, List.mem_singleton.mp h⟩

theorem accepted_not_mem_work (log : List Event) (got : Option Int) :
    Mark.accepted ∉ log.map Mark.did ++ (got.map Mark.got).toList := by
  intro h
  rcases mem_work h with ⟨e, he⟩ | ⟨x, hx⟩
  · cases he
  · cases hx

theorem dispatched_not_mem_work (log : List Event) (got : Option Int) :
    Mark.dispatched ∉ log.map Mark.did ++ (got.map Mark.got).toList := by
  intro h
  rcases mem_work h with ⟨e, he⟩ | ⟨x, hx⟩
  · cases he
  · cases hx

theorem cancelled_not_mem_work (log : List Event) (got : Option Int) :
    Mark.cancelled ∉ log.map Mark.did ++ (got.map Mark.got).toList := by
  intro h
  rcases mem_work h with ⟨e, he⟩ | ⟨x, hx⟩
  · cases he
  · cases hx

/-! ## One slot -/

/-- What a step does to the slot `ref`. -/
inductive SlotStep (p : Params) (s : Sys) (a : Act) (s' : Sys) (ref : Ref) : Prop where
  | same (request : s'.request? ref = s.request? ref) (marks : marksOf s' ref = marksOf s ref)
  | handled (n : Conn) (junk : Junk) (φ : Fate) (notified : Option Nat) (r : Request) (h : Handled)
      (log : List Event) (act : a = .conn ref.conn junk φ notified)
      (conn : s.conns[ref.conn]? = some n) (pc : n.pc = .reading)
      (slot : s.request? ref = some r ∨
        s.request? ref = none ∧ r = .new p (ref.slot + 1) junk)
      (handles : Request.Handles p junk φ r (.ok h, log))
      (request : s'.request? ref = some h.request)
      (marks : marksOf s' ref = marksOf s ref ++ Sys.marks h log)
      (pushes : ∀ r', h = .push r' → ∃ n', s'.conns[ref.conn]? = some n' ∧ n'.pc = .pushing ref)
  | reset (n : Conn) (j : Nat) (r : Request) (conn : s.conns[ref.conn]? = some n)
      (pc : n.pc = .resetting ⟨j, ref.slot⟩)
      (slot : s.request? ref = some r)
      (request : s'.request? ref = some { r with paramsDeserializer := none })
      (marks : marksOf s' ref = marksOf s ref)
  | destroyed (n : Conn) (φ : Fate) (r : Request) (log : List Event)
      (conn : s.conns[ref.conn]? = some n)
      (pc : n.pc = .tearingDown ref.slot ∧ (r.state = .readingParams ∨ r.state = .ready) ∨
        n.pc = .clearing ref.slot)
      (slot : s.request? ref = some r) (destroys : r.destroy p φ = (.ok (), log))
      (request : s'.request? ref = none)
      (marks : marksOf s' ref = marksOf s ref ++ log.map .did)
  | worked (w : Nat) (r r' : Request) (pc pc' : WorkerPc) (got : Option Int) (log : List Event)
      (worker : s.workers[w]? = some pc) (workers : s'.workers = s.workers.set w pc')
      (slot : s.request? ref = some r) (works : Sys.Worked p w ref r a pc r' pc' got log)
      (request : s'.request? ref = some r')
      (marks : marksOf s' ref = marksOf s ref ++ (log.map .did ++ (got.map .got).toList))

/-- A record is for the request that is in the slot. -/
theorem slot_same {s : Sys} {ref : Ref} {r r₀ x : Request} (hr : s.request? ref = some r)
    (slot : s.request? ref = some r₀ ∨ s.request? ref = none ∧ r₀ = x) : r₀ = r := by
  rcases slot with hr₀ | ⟨hr₀, -⟩
  · rw [hr] at hr₀
    exact (Option.some.inj hr₀).symm
  · rw [hr] at hr₀
    cases hr₀

theorem marksOf_eq {s s' : Sys} (h : s'.log = s.log) (ref : Ref) :
    marksOf s' ref = marksOf s ref := by
  rw [marksOf, h]
  rfl

theorem marksOf_record (s : Sys) (ref : Ref) (ms : List Mark) :
    marksOf (s.record ref ms) ref = marksOf s ref ++ ms := by
  rw [marksOf, Sys.record_log, List.filterMap_append, List.filterMap_map]
  congr 1
  simp

theorem marksOf_record_ne {ref ref' : Ref} (h : ref' ≠ ref) (s : Sys) (ms : List Mark) :
    marksOf (s.record ref ms) ref' = marksOf s ref' := by
  rw [marksOf, Sys.record_log, List.filterMap_append, List.filterMap_map]
  have hnil : ms.filterMap ((fun x : Ref × Mark => if x.1 = ref' then some x.2 else none) ∘
      fun m => (ref, m)) = [] := by
    simp [Ne.symm h]
  rw [hnil, List.append_nil]
  rfl

theorem request?_eq {s s' : Sys} (h : s'.conns = s.conns) (ref : Ref) :
    s'.request? ref = s.request? ref := by
  rw [Sys.request?, h]
  rfl

theorem request?_conn {s : Sys} {i : Nat} {n : Conn} (hn : s.conns[i]? = some n) (k : Nat) :
    s.request? ⟨i, k⟩ = n.connection.requests.getD k none := by
  simp only [Sys.request?, hn]

/-! Connection `i` changes. -/

variable {s s' : Sys} {i : Nat} {n n' : Conn}

theorem request?_set (hn : s.conns[i]? = some n) (hconns : s'.conns = s.conns.set i n') (k : Nat) :
    s'.request? ⟨i, k⟩ = n'.connection.requests.getD k none := by
  apply request?_conn
  rw [hconns]
  exact List.getElem?_set_self (List.getElem?_eq_some_iff.mp hn).1

theorem request?_set_ne (hconns : s'.conns = s.conns.set i n') {ref : Ref} (h : ref.conn ≠ i) :
    s'.request? ref = s.request? ref := by
  rw [Sys.request?, hconns, List.getElem?_set_ne (Ne.symm h)]
  rfl

theorem request?_set_same (hn : s.conns[i]? = some n) (hconns : s'.conns = s.conns.set i n')
    (h : n'.connection.requests = n.connection.requests) (ref : Ref) :
    s'.request? ref = s.request? ref := by
  by_cases hr : ref.conn = i
  · obtain ⟨j, k⟩ := ref
    subst hr
    rw [request?_set hn hconns, h, request?_conn hn]
  · exact request?_set_ne hconns hr

/-- Slot `k` of the connection is replaced. -/
theorem request?_set_slot (hn : s.conns[i]? = some n) (hconns : s'.conns = s.conns.set i n')
    {k : Nat} {x : Option Request} (hlt : k < n.connection.requests.length)
    (h : n'.connection.requests = n.connection.requests.set k x) :
    s'.request? ⟨i, k⟩ = x ∧ ∀ ref, ref ≠ ⟨i, k⟩ → s'.request? ref = s.request? ref := by
  constructor
  · rw [request?_set hn hconns, h, List.getD_eq_getElem?_getD, List.getElem?_set_self hlt]
    rfl
  · intro ref hne
    by_cases hr : ref.conn = i
    · obtain ⟨j, l⟩ := ref
      subst hr
      have hl : k ≠ l := by
        rintro rfl
        exact hne rfl
      rw [request?_set hn hconns, h, request?_conn hn, List.getD_eq_getElem?_getD,
        List.getElem?_set_ne hl, ← List.getD_eq_getElem?_getD]
    · exact request?_set_ne hconns hr

theorem afterTurn_conns (s : Sys) (i : Nat) (c : Connection) (log : List Event)
    (did : Option (Nat × Handled)) :
    ∃ pc, (s.afterTurn i c log did).conns = s.conns.set i ⟨c, pc⟩ := by
  cases did with
  | none => exact ⟨_, rfl⟩
  | some x => exact ⟨_, rfl⟩

/-- The request that a record with this id is for. -/
theorem slot_request (p : Params) (junk : Junk) (hn : s.conns[i]? = some n) {requestId : Nat}
    (pos : requestId ≠ 0) :
    s.request? ⟨i, requestId - 1⟩ = some (n.connection.slot p junk requestId) ∨
      s.request? ⟨i, requestId - 1⟩ = none ∧
        n.connection.slot p junk requestId = .new p (requestId - 1 + 1) junk := by
  rw [request?_conn hn]
  rcases Connection.grow_slot p junk n.connection pos with hg | ⟨hg, hnew⟩
  · exact Or.inl (Connection.getD_eq_some.mpr (Connection.grow_some.mp hg))
  · refine Or.inr ⟨?_, ?_⟩
    · cases hx : n.connection.requests.getD (requestId - 1) none with
      | none => rfl
      | some r =>
        have hx' := (Connection.grow_some (n := requestId)).mpr (Connection.getD_eq_some.mp hx)
        rw [hg] at hx'
        cases hx'
    · rw [hnew, Nat.sub_add_cancel (Nat.pos_of_ne_zero pos)]

/-- The slot of a record takes the request that the handling left. -/
theorem request?_settle (hn : s.conns[i]? = some n) (hconns : s'.conns = s.conns.set i n')
    {requestId : Nat} {h : Handled} (pos : requestId ≠ 0)
    (hreq : n'.connection.requests = (n.connection.settle requestId h).requests) :
    s'.request? ⟨i, requestId - 1⟩ = some h.request ∧
      ∀ ref, ref ≠ ⟨i, requestId - 1⟩ → s'.request? ref = s.request? ref := by
  have hslot := Connection.settle_slot n.connection pos h
  constructor
  · rw [request?_set hn hconns, hreq]
    exact Connection.getD_eq_some.mpr ((hslot _ _).mpr (Or.inl ⟨rfl, rfl⟩))
  · intro ref hr
    by_cases hc : ref.conn = i
    · obtain ⟨j, k⟩ := ref
      subst hc
      have hk : k ≠ requestId - 1 := by
        rintro rfl
        exact hr rfl
      rw [request?_set hn hconns, request?_conn hn, hreq]
      apply Option.ext
      intro r
      rw [Connection.getD_eq_some, Connection.getD_eq_some]
      refine (hslot k r).trans ?_
      simp [hk]
    · exact request?_set_ne hconns hc

/-- A record is handled on a slot. -/
theorem turn_slot {p : Params} {junk : Junk} {φ : Fate} {notified : Option Nat} {c : Connection}
    {did : Option (Nat × Handled)} {log : List Event} (hn : s.conns[i]? = some n)
    (hpc : n.pc = .reading) (hd : Connection.Dispatched p junk φ n.connection c did log)
    (sock : Sock) (ref : Ref) :
    SlotStep p s (.conn i junk φ notified) (s.afterTurn i { c with sock := sock } log did) ref := by
  obtain ⟨pc, hconns⟩ := afterTurn_conns s i { c with sock := sock } log did
  cases hd with
  | getValues data c log gave =>
    obtain ⟨d, o, rfl⟩ := Connection.getValues_ok gave
    exact .same (request?_set_same hn hconns rfl ref) rfl
  | unknown type log gave => exact .same (request?_set_same hn hconns rfl ref) rfl
  | request requestId h log pos lt handles =>
    obtain ⟨hself, hother⟩ := request?_settle hn hconns pos (h := h) rfl
    by_cases hr : ref = ⟨i, requestId - 1⟩
    · subst hr
      have hpush : ∀ r', h = .push r' → ∃ n', (s.afterTurn i
          { n.connection.settle requestId h with sock := sock } log
            (some (requestId - 1, h))).conns[i]? = some n' ∧
              n'.pc = .pushing ⟨i, requestId - 1⟩ := by
        rintro r' rfl
        exact ⟨_, List.getElem?_set_self (List.getElem?_eq_some_iff.mp hn).1, rfl⟩
      exact .handled n junk φ notified _ h log rfl hn hpc (slot_request p junk hn pos) handles hself
        (marksOf_record _ _ _) hpush
    · exact .same (hother ref hr) (marksOf_record_ne hr _ _)

/-- A slot is emptied while the connection goes away. -/
theorem destroyed_slot {p : Params} {a : Act} {φ : Fate} {k : Nat} {r : Request} {c : Connection}
    {pc : ConnPc} {log : List Event} (hn : s.conns[i]? = some n)
    (hslot : n.connection.requests.getD k none = some r)
    (hpc : n.pc = .tearingDown k ∧ (r.state = .readingParams ∨ r.state = .ready) ∨
      n.pc = .clearing k) (hd : r.destroy p φ = (.ok (), log))
    (hc : c.requests = n.connection.requests.set k none) (ref : Ref) :
    SlotStep p s a ((s.setConn i ⟨c, pc⟩).record ⟨i, k⟩ (log.map .did)) ref := by
  have hlt := (List.getElem?_eq_some_iff.mp (Connection.getD_eq_some.mp hslot)).1
  have hconns : ((s.setConn i ⟨c, pc⟩).record ⟨i, k⟩ (log.map .did)).conns =
    s.conns.set i ⟨c, pc⟩ := rfl
  obtain ⟨hself, hother⟩ := request?_set_slot hn hconns hlt hc
  by_cases hr : ref = ⟨i, k⟩
  · subst hr
    refine .destroyed n φ r log hn hpc ?_ hd hself (marksOf_record _ _ _)
    rw [request?_conn hn, hslot]
  · exact .same (hother ref hr) (marksOf_record_ne hr _ _)

theorem kept_slot {p : Params} {a : Act} {ref : Ref} (hn : s.conns[i]? = some n)
    (hconns : s'.conns = s.conns.set i n') (hlog : s'.log = s.log)
    (h : n'.connection.requests = n.connection.requests) : SlotStep p s a s' ref :=
  .same (request?_set_same hn hconns h ref) (marksOf_eq hlog ref)

theorem setConn_slot {p : Params} {a : Act} {ref : Ref} (hn : s.conns[i]? = some n)
    (h : n'.connection.requests = n.connection.requests) : SlotStep p s a (s.setConn i n') ref :=
  kept_slot hn rfl rfl h

/-- A slot is empty or in use, and the thread goes on. -/
theorem passed_slot {p : Params} {a : Act} {k : Nat} {pc : ConnPc} (hn : s.conns[i]? = some n)
    (ref : Ref) :
    SlotStep p s a ((s.setConn i ⟨n.connection, pc⟩).record ⟨i, k⟩ ([].map .did)) ref := by
  refine kept_slot hn rfl ?_ rfl
  simp

/-- The parser is reset behind the push. -/
theorem reset_slot {p : Params} {a : Act} (hn : s.conns[i]? = some n) {j k : Nat}
    (hpc : n.pc = .resetting ⟨j, k⟩) (ref : Ref) :
    SlotStep p s a (s.setConn i ⟨Sys.resetParams n.connection k, .reading⟩) ref := by
  cases hslot : n.connection.requests.getD k none with
  | none =>
    have hsame : Sys.resetParams n.connection k = n.connection := by
      simp only [Sys.resetParams, hslot]
    rw [hsame]
    exact setConn_slot hn rfl
  | some r =>
    have hset : (Sys.resetParams n.connection k).requests =
        n.connection.requests.set k (some { r with paramsDeserializer := none }) := by
      simp only [Sys.resetParams, hslot]
    have hlt := (List.getElem?_eq_some_iff.mp (Connection.getD_eq_some.mp hslot)).1
    have hconns : (s.setConn i ⟨Sys.resetParams n.connection k, .reading⟩).conns =
      s.conns.set i ⟨Sys.resetParams n.connection k, .reading⟩ := rfl
    obtain ⟨hself, hother⟩ := request?_set_slot hn hconns hlt hset
    by_cases hr : ref = ⟨i, k⟩
    · subst hr
      refine .reset n j r hn hpc ?_ hself rfl
      rw [request?_conn hn, hslot]
    · exact .same (hother ref hr) rfl

/-- A worker or the application uses the request. -/
theorem work_slot {p : Params} {a : Act} {w : Nat} {ref' : Ref} {r r' : Request} {pc pc' : WorkerPc}
    {got : Option Int} {log : List Event} (hw : s.workers[w]? = some pc)
    (hr : s.request? ref' = some r) (h : Sys.Worked p w ref' r a pc r' pc' got log) (ref : Ref) :
    SlotStep p s a (((s.setRequest ref' r').setWorker w pc').record ref'
      (log.map .did ++ (got.map .got).toList)) ref := by
  obtain ⟨n, hn, hslot⟩ := Sys.request?_eq_some.mp hr
  have hconns := Sys.setRequest_conns hn r'
  obtain ⟨hself, hother⟩ := request?_set_slot hn hconns (List.getElem?_eq_some_iff.mp hslot).1 rfl
  by_cases he : ref = ref'
  · subst he
    refine .worked w r r' pc pc' got log hw ?_ hr h hself ?_
    · simp
    · rw [marksOf_record]
      exact congrArg (· ++ _) (marksOf_eq (by simp) ref)
  · refine .same (hother ref he) ((marksOf_record_ne he _ _).trans (marksOf_eq (by simp) ref))

/-- The step of a thread that goes on without a crash, seen from one slot. -/
theorem step_slot {p : Params} {a : Act} (h : Sys.step p s a = some s') (ref : Ref) :
    SlotStep p s a s' ref := by
  obtain ⟨-, he⟩ := Sys.step_effect h
  cases he with
  | crash _ c => exact .same rfl rfl
  | quiet _ _ conns queue held down log => exact .same (request?_eq conns ref) (marksOf_eq log ref)
  | accept junk _ conns queue workers down log =>
    refine .same ?_ (marksOf_eq log ref)
    rw [Sys.request?, Sys.request?, conns]
    by_cases hlt : ref.conn < s.conns.length
    · rw [List.getElem?_append_left hlt]
    · have hle := Nat.le_of_not_lt hlt
      rw [List.getElem?_append_right hle, List.getElem?_eq_none hle]
      cases ref.conn - s.conns.length <;> rfl
  | arrive i n r sock conn => exact setConn_slot conn rfl
  | turn i n junk φ notified c sock did log conn pc handled =>
    exact turn_slot conn pc handled sock ref
  | move i n junk φ notified sock pc conn moves => exact setConn_slot conn rfl
  | backlog i n junk φ notified ref' _ conn pc conns queue workers down log =>
    exact kept_slot conn conns log rfl
  | push i n junk φ notified ref' _ conn pc conns queue held down log =>
    exact kept_slot conn conns log rfl
  | reset i n junk φ notified ref' conn pc => exact reset_slot conn pc ref
  | tear i n junk φ notified k c log conn pc lt tore =>
    cases Connection.tearDown_ok tore with
    | empty free => exact passed_slot conn ref
    | busy r slot reading ready => exact passed_slot conn ref
    | reading r _ slot state destroyed =>
      exact destroyed_slot conn slot (Or.inl ⟨pc, Or.inl state⟩) destroyed rfl ref
    | ready r _ slot state destroyed =>
      exact destroyed_slot conn slot (Or.inl ⟨pc, Or.inr state⟩) destroyed rfl ref
  | clear i n junk φ notified k c log conn pc lt cleared =>
    rcases Connection.clearSlot_ok cleared with ⟨-, rfl, rfl⟩ | ⟨r, slot, destroyed, rfl⟩
    · exact passed_slot conn ref
    · exact destroyed_slot conn slot (Or.inr pc) destroyed rfl ref
  | erase i n junk φ notified k c log _ conn pc le destroyed conns queue workers down log_eq =>
    obtain ⟨o, rfl⟩ := Connection.destroy_ok destroyed
    exact kept_slot conn conns log_eq rfl
  | pop w φ pc ref' queue _ worker free queue_eq conns queue' workers down log =>
    exact .same (request?_eq conns ref) (marksOf_eq log ref)
  | work _ w ref' r r' pc pc' got log worker request worked =>
    exact work_slot worker request worked ref
  | decrement w φ ref' n worker conn =>
    exact kept_slot conn rfl rfl rfl

/-- The history of a slot only grows. -/
theorem step_marks {p : Params} {a : Act} (h : Sys.step p s a = some s') (ref : Ref) :
    ∃ ms, marksOf s' ref = marksOf s ref ++ ms := by
  cases step_slot h ref with
  | same request marks | reset n j r conn pc slot request marks =>
    exact ⟨[], by rw [marks, List.append_nil]⟩
  | handled n junk φ notified r hd log act conn pc slot handles request marks => exact ⟨_, marks⟩
  | destroyed n φ r log conn pc slot destroys request marks => exact ⟨_, marks⟩
  | worked w r r' pc pc' got log worker workers slot works request marks => exact ⟨_, marks⟩

theorem run_marks {p : Params} {as : List Act} (h : run (Sys.step p) s as = some s') (ref : Ref) :
    ∃ ms, marksOf s' ref = marksOf s ref ++ ms := by
  induction as generalizing s with
  | nil =>
    cases h
    exact ⟨[], (List.append_nil _).symm⟩
  | cons a as ih =>
    obtain ⟨s₁, hs, ht⟩ := run_cons h
    obtain ⟨ms₁, hms₁⟩ := step_marks hs ref
    obtain ⟨ms₂, hms₂⟩ := ih ht
    exact ⟨ms₁ ++ ms₂, by rw [hms₂, hms₁, List.append_assoc]⟩

end Tfcgi.History
