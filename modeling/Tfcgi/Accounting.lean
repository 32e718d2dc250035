import Tfcgi.System

/-!
# Lifetime of requests and `request_actives`

A request is dispatched from the record that ends its PARAMS stream to the last
decrement of the worker: its connection thread is about to queue it, the queue
holds it or a worker holds it. `Accounts` is the invariant of one connection
about its dispatched slots.

* `step_inv`: every step of any thread keeps the invariant;
* `accounting`: what it says of the counter, the teardown and the queue.
-/

namespace Tfcgi.Accounting

open Tfcgi.Run Tfcgi.Protocol Tfcgi.SendPacket Tfcgi.Socket Tfcgi.Iostream Tfcgi.RequestSlot
open Tfcgi.ConnectionThread Tfcgi.System

/-- The request that the thread is about to put in the queue. -/
def pushing? : ConnPc → Option Ref
  | .pushing ref => some ref
  | .locking ref => some ref
  | _ => none

/-- The request whose parser is still to be reset. -/
def unreset? : ConnPc → Option Ref
  | .pushing ref => some ref
  | .locking ref => some ref
  | .resetting ref => some ref
  | _ => none

/-- The connection is in `global_list`. -/
def listed : ConnPc → Bool
  | .clearing _ => false
  | .gone => false
  | _ => true

/-- The loop that destroys requests is done with slot `k`. -/
def passed : ConnPc → Nat → Bool
  | .tearingDown i, k => k < i
  | .waiting, _ => true
  | .clearing _, _ => true
  | .gone, _ => true
  | _, _ => false

def isReading (r : Option Request) : Bool := r.any fun r => r.state = .readingParams

/-- The requests that are queued or held by a worker. -/
def dispatched (s : Sys) : List Ref := s.queue ++ s.workers.filterMap WorkerPc.request?

def refs (s : Sys) : List Ref := s.conns.filterMap (fun n => pushing? n.pc) ++ dispatched s

/-- The slots of connection `i`. -/
def slotsOf (i : Nat) (refs : List Ref) : List Nat :=
  refs.filterMap fun ref => if ref.conn = i then some ref.slot else none

theorem mem_slotsOf {i k : Nat} {refs : List Ref} : k ∈ slotsOf i refs ↔ ⟨i, k⟩ ∈ refs := by
  simp only [slotsOf, List.mem_filterMap, Option.ite_none_right_eq_some, Option.some.injEq]
  constructor
  · rintro ⟨⟨j, l⟩, hm, rfl, rfl⟩
    exact hm
  · intro h
    exact ⟨⟨i, k⟩, h, rfl, rfl⟩

theorem slotsOf_length (i : Nat) (refs : List Ref) :
    (slotsOf i refs).length = refs.countP fun ref => ref.conn = i := by
  induction refs with
  | nil => rfl
  | cons ref refs ih =>
    by_cases h : ref.conn = i
    · simp only [slotsOf, List.filterMap_cons, h, if_true, List.length_cons, List.countP_cons,
        decide_true]
      rw [← ih]
      rfl
    · simp only [slotsOf, List.filterMap_cons, h, if_false, List.countP_cons, decide_false,
        Bool.false_eq_true, Nat.add_zero]
      exact ih

/-! ## One connection -/

/-- Connection `i`, of which the slots `held` are dispatched. -/
structure Accounts (held : List Nat) (i : Nat) (n : Conn) : Prop where
  nodup : held.Nodup
  active : n.connection.requestActives = n.connection.requests.countP isReading + held.length
  held : ∀ k ∈ held, listed n.pc = true ∧
    ∃ r, n.connection.requests[k]? = some (some r) ∧ r.state = .pending
  /-- the parser is there while PARAMS records are read -/
  parser : ∀ k r, n.connection.requests[k]? = some (some r) →
    (r.paramsDeserializer.isSome = true ↔
      r.state = .readingParams ∨ unreset? n.pc = some ⟨i, k⟩)
  unreset : ∀ ref, unreset? n.pc = some ref → ref.conn = i ∧
    ∀ r, n.connection.requests[ref.slot]? = some (some r) → r.state = .pending
  torn : ∀ k r, n.connection.requests[k]? = some (some r) → passed n.pc k = true →
    r.state ≠ .readingParams
  /-- slots come from ids of 16 bits -/
  room : n.connection.requests.length ≤ 65535

namespace Accounts

variable {held : List Nat} {i : Nat} {n : Conn}

theorem perm {held' : List Nat} (h : Accounts held i n) (hp : held.Perm held') :
    Accounts held' i n :=
  ⟨hp.nodup_iff.mp h.nodup, by rw [h.active, hp.length_eq],
    fun k hk => h.held k (hp.mem_iff.mpr hk), h.parser, h.unreset, h.torn, h.room⟩

theorem active_le (h : Accounts held i n) : n.connection.requestActives ≤ 65535 := by
  have hheld : held.length ≤ n.connection.requests.countP fun x => !isReading x := by
    apply Slots.length_le_countP h.nodup
    intro k hk
    obtain ⟨-, r, hr, hs⟩ := h.held k hk
    exact ⟨some r, hr, by simp [isReading, hs]⟩
  have hall := List.length_eq_countP_add_countP isReading (l := n.connection.requests)
  have hnot : n.connection.requests.countP (fun x => !isReading x) =
      n.connection.requests.countP fun x => decide ¬ isReading x = true := by
    congr 1
    funext x
    cases isReading x <;> rfl
  have := h.active
  have := h.room
  omega

/-- Only what the invariant speaks of counts. -/
theorem congr {n' : Conn} (h : Accounts held i n) (hpc : n'.pc = n.pc)
    (hr : n'.connection.requests = n.connection.requests)
    (ha : n'.connection.requestActives = n.connection.requestActives) : Accounts held i n' := by
  refine ⟨h.nodup, ?_, ?_, ?_, ?_, ?_, ?_⟩
  · rw [ha, hr, h.active]
  · rw [hpc, hr]
    exact h.held
  · rw [hpc, hr]
    exact h.parser
  · rw [hpc, hr]
    exact h.unreset
  · rw [hpc, hr]
    exact h.torn
  · rw [hr]
    exact h.room

theorem incr_active (h : Accounts held i n) :
    incr n.connection.requestActives = n.connection.requestActives + 1 := by
  have := h.active_le
  rw [incr, if_neg (by omega)]

/-! ### A record is handled -/

/-- Slots that are made are empty and `new` requests are not reading. -/
theorem countP_settle (p : Params) (junk : Junk) (c : Connection) {requestId : Nat}
    (h0 : requestId ≠ 0) (h : Handled) :
    (c.settle requestId h).requests.countP isReading +
        (isReading (some (c.slot p junk requestId))).toNat =
      c.requests.countP isReading + (isReading (some h.request)).toNat := by
  have hgrow : (Connection.grow requestId c.requests).countP isReading =
      c.requests.countP isReading := by
    simp [Connection.grow, isReading]
  rw [Connection.settle_requests, ← hgrow]
  rcases Connection.grow_slot p junk c h0 with hs | ⟨hs, hnew⟩
  · exact Slots.countP_set_add isReading _ hs
  · have hz : isReading (some (c.slot p junk requestId)) = isReading none := by
      rw [hnew]
      rfl
    rw [hz]
    exact Slots.countP_set_add isReading _ hs

theorem slot_held (h : Accounts held i n) (p : Params) (junk : Junk) {requestId : Nat}
    (h0 : requestId ≠ 0) (hk : requestId - 1 ∈ held) :
    (n.connection.slot p junk requestId).state = .pending := by
  obtain ⟨-, r, hr, hs⟩ := h.held _ hk
  have hg := (Connection.grow_some (n := requestId)).mpr hr
  rcases Connection.grow_slot p junk n.connection h0 with hx | ⟨hx, -⟩
  · rw [hg] at hx
    cases hx
    exact hs
  · rw [hg] at hx
    cases hx

theorem slot_isSome (h : Accounts held i n) (hpc : n.pc = .reading) (p : Params) (junk : Junk)
    {requestId : Nat} (h0 : requestId ≠ 0) :
    (n.connection.slot p junk requestId).paramsDeserializer.isSome = true ↔
      (n.connection.slot p junk requestId).state = .readingParams := by
  rcases Connection.grow_slot p junk n.connection h0 with hx | ⟨-, hnew⟩
  · rw [h.parser _ _ (Connection.grow_some.mp hx), hpc]
    simp [unreset?]
  · rw [hnew]
    simp [Request.new]

/-- The slot of the record is replaced, and the slots `held'` are dispatched then. -/
theorem settled (h : Accounts held i n) (hpc : n.pc = .reading) {requestId : Nat}
    (h0 : requestId ≠ 0) (hlt : requestId < 65536) (p : Params) (junk : Junk) {hd : Handled}
    {n' : Conn} {held' : List Nat}
    (hreq : n'.connection.requests = (n.connection.settle requestId hd).requests)
    (hlisted : listed n'.pc = true) (hpassed : ∀ k, passed n'.pc k = false) (hnodup : held'.Nodup)
    (hactive : n'.connection.requestActives + held.length +
        (isReading (some (n.connection.slot p junk requestId))).toNat =
      n.connection.requestActives + held'.length + (isReading (some hd.request)).toNat)
    (hheld : ∀ k ∈ held', k = requestId - 1 ∧ hd.request.state = .pending ∨
      k ≠ requestId - 1 ∧ k ∈ held)
    (hparser : hd.request.paramsDeserializer.isSome = true ↔
      hd.request.state = .readingParams ∨ unreset? n'.pc = some ⟨i, requestId - 1⟩)
    (hunreset : ∀ ref, unreset? n'.pc = some ref → ref = ⟨i, requestId - 1⟩ ∧
      hd.request.state = .pending) : Accounts held' i n' := by
  have hslot := Connection.settle_slot n.connection h0 hd
  rw [← hreq] at hslot
  refine ⟨hnodup, ?_, ?_, ?_, ?_, ?_, ?_⟩
  · have hcount := countP_settle p junk n.connection h0 hd
    have := h.active
    rw [hreq]
    omega
  · intro k hk
    refine ⟨hlisted, ?_⟩
    rcases hheld k hk with ⟨rfl, hs⟩ | ⟨hne, hk⟩
    · exact ⟨hd.request, (hslot _ _).mpr (Or.inl ⟨rfl, rfl⟩), hs⟩
    · obtain ⟨-, r, hr, hs⟩ := h.held k hk
      exact ⟨r, (hslot _ _).mpr (Or.inr ⟨hne, hr⟩), hs⟩
  · intro k r hr
    rcases (hslot _ _).mp hr with ⟨rfl, rfl⟩ | ⟨hne, hr⟩
    · exact hparser
    · rw [h.parser k r hr, hpc]
      have hno : unreset? n'.pc ≠ some ⟨i, k⟩ := by
        intro hu
        obtain ⟨he, -⟩ := hunreset _ hu
        cases he
        exact hne rfl
      have hnone : unreset? .reading ≠ some ⟨i, k⟩ := nofun
      simp only [hno, hnone, or_false]
  · intro ref hu
    obtain ⟨rfl, hs⟩ := hunreset ref hu
    refine ⟨rfl, ?_⟩
    intro r hr
    rcases (hslot _ _).mp hr with ⟨-, rfl⟩ | ⟨hne, -⟩
    · exact hs
    · exact absurd rfl hne
  · intro k r _ hp
    rw [hpassed k] at hp
    cases hp
  · have := h.room
    rw [hreq, Connection.settle_requests, List.length_set, Connection.grow_length]
    omega

/-- The slots that are dispatched after a record was handled. -/
def dispatches (held : List Nat) (k : Nat) : Handled → List Nat
  | .push _ => k :: held
  | _ => held

/-- The place of the connection thread after a record was handled. -/
def placeAfter (ref : Ref) : Handled → ConnPc
  | .push _ => .pushing ref
  | _ => .reading

theorem turn (h : Accounts held i n) (hpc : n.pc = .reading) {requestId : Nat}
    (h0 : requestId ≠ 0) (hlt : requestId < 65536) {p : Params} {junk : Junk} {hd : Handled}
    (hs : (n.connection.slot p junk requestId).Shifts hd) (sock : Sock) :
    Accounts (dispatches held (requestId - 1) hd) i
      ⟨{ n.connection.settle requestId hd with sock := sock },
        placeAfter ⟨i, requestId - 1⟩ hd⟩ := by
  have hparser := h.slot_isSome hpc p junk h0
  have hreading : ∀ r : Request, isReading (some r) = decide (r.state = .readingParams) :=
    fun _ => rfl
  have hkept : (n.connection.slot p junk requestId).state ≠ .pending →
      ∀ k ∈ held, k ≠ requestId - 1 ∧ k ∈ held := by
    intro hne k hk
    refine ⟨?_, hk⟩
    rintro rfl
    exact hne (h.slot_held p junk h0 hk)
  cases hs with
  | idle r' state parser =>
    refine h.settled hpc h0 hlt p junk rfl rfl (fun _ => rfl) h.nodup ?_ ?_ ?_ ?_
    · simp only [hreading, Handled.request, state]
      rfl
    · intro k hk
      by_cases hne : k = requestId - 1
      · subst hne
        exact Or.inl ⟨rfl, state.trans (h.slot_held p junk h0 hk)⟩
      · exact Or.inr ⟨hne, hk⟩
    · simp only [Handled.request, parser, state, hparser, placeAfter, unreset?]
      simp
    · intro ref hu
      cases hu
  | accepted r' ready state parser =>
    refine h.settled hpc h0 hlt p junk rfl rfl (fun _ => rfl) h.nodup ?_ ?_ ?_ ?_
    · simp only [hreading, Handled.request, state, ready, Connection.settle, h.incr_active]
      simp only [dispatches, decide_true, Bool.toNat_true, reduceCtorEq, decide_false,
        Bool.toNat_false]
      omega
    · exact fun k hk => Or.inr (hkept (by rw [ready]; exact State.noConfusion) k hk)
    · simp [Handled.request, parser, state]
    · intro ref hu
      cases hu
  | cancelled r' reading state parser =>
    have hread := hparser.mp reading
    obtain ⟨m, hm⟩ : ∃ m, n.connection.requestActives = m + 1 := by
      apply Nat.exists_eq_add_one_of_ne_zero
      have hcount := countP_settle p junk n.connection h0 (.cancelled r')
      have := h.active
      simp only [hreading, hread, Handled.request, state, decide_true, Bool.toNat_true,
        reduceCtorEq, decide_false, Bool.toNat_false] at hcount
      omega
    refine h.settled hpc h0 hlt p junk rfl rfl (fun _ => rfl) h.nodup ?_ ?_ ?_ ?_
    · simp only [hreading, Handled.request, state, hread, Connection.settle, hm, decr_succ]
      simp only [dispatches, decide_true, Bool.toNat_true, reduceCtorEq, decide_false,
        Bool.toNat_false]
      omega
    · exact fun k hk => Or.inr (hkept (by rw [hread]; exact State.noConfusion) k hk)
    · simp [Handled.request, parser, state, placeAfter, unreset?]
    · intro ref hu
      cases hu
  | push r' reading state parser =>
    have hread := hparser.mp reading
    have hk := hkept (by rw [hread]; exact State.noConfusion)
    refine h.settled hpc h0 hlt p junk rfl rfl (fun _ => rfl) ?_ ?_ ?_ ?_ ?_
    · exact List.nodup_cons.mpr ⟨fun hm => (hk _ hm).1 rfl, h.nodup⟩
    · simp only [hreading, Handled.request, state, hread, Connection.settle]
      simp only [dispatches, decide_true, Bool.toNat_true, reduceCtorEq, decide_false,
        Bool.toNat_false, List.length_cons]
      omega
    · intro k hm
      rcases List.mem_cons.mp hm with rfl | hm
      · exact Or.inl ⟨rfl, state⟩
      · exact Or.inr (hk k hm)
    · simp [Handled.request, parser, placeAfter, unreset?]
    · intro ref hu
      cases hu
      exact ⟨rfl, state⟩

/-! ### The thread of the connection moves otherwise -/

/-- The thread goes to another place. -/
theorem place (h : Accounts held i n) (pc : ConnPc) (hlisted : held ≠ [] → listed pc = true)
    (hunreset : unreset? pc = unreset? n.pc)
    (hpassed : ∀ k r, n.connection.requests[k]? = some (some r) → passed pc k = true →
      r.state ≠ .readingParams) : Accounts held i { n with pc := pc } := by
  refine ⟨h.nodup, h.active, ?_, ?_, ?_, hpassed, h.room⟩
  · intro k hk
    exact ⟨hlisted (List.ne_nil_of_mem hk), (h.held k hk).2⟩
  · intro k r hr
    rw [h.parser k r hr, hunreset]
  · intro ref hu
    rw [hunreset] at hu
    exact h.unreset ref hu

theorem held_nil (h : Accounts held i n) (hl : listed n.pc = false) : held = [] := by
  cases held with
  | nil => rfl
  | cons k held =>
    have hk := (h.held k List.mem_cons_self).1
    rw [hl] at hk
    cases hk

/-- `params_deserializer.reset()` after the push. -/
theorem reset (h : Accounts held i n) {ref : Ref} (hpc : n.pc = .resetting ref) :
    Accounts held i ⟨Sys.resetParams n.connection ref.slot, .reading⟩ := by
  obtain ⟨hconn, hpending⟩ := h.unreset ref (by rw [hpc]; rfl)
  have hother : ∀ k, k ≠ ref.slot → unreset? n.pc ≠ some ⟨i, k⟩ := by
    intro k hk hu
    rw [hpc] at hu
    cases hu
    exact hk rfl
  have hnounreset : ∀ {P : Ref → Prop} ref, unreset? .reading = some ref → P ref :=
    fun ref hu => absurd hu (Option.some_ne_none ref).symm
  have hnotorn : ∀ {P : Nat → Request → Prop} {Q : Nat → Request → Prop} k r, Q k r →
      passed .reading k = true → P k r := fun k r _ hp => absurd hp Bool.false_ne_true
  unfold Sys.resetParams
  split
  · rename_i hnone
    refine ⟨h.nodup, h.active, fun k hk => ⟨rfl, (h.held k hk).2⟩, ?_, hnounreset, hnotorn, h.room⟩
    intro k r hr
    have hk : k ≠ ref.slot := by
      rintro rfl
      rw [Connection.getD_eq_some.mpr hr] at hnone
      cases hnone
    rw [h.parser k r hr]
    have hnot : unreset? .reading ≠ some ⟨i, k⟩ := nofun
    simp only [hother k hk, hnot, or_false]
  · rename_i r hr
    rw [Connection.getD_eq_some] at hr
    have hstate := hpending r hr
    have hlt := (List.getElem?_eq_some_iff.mp hr).1
    refine ⟨h.nodup, ?_, ?_, ?_, hnounreset, hnotorn, ?_⟩
    · have hcount := Slots.countP_set_add isReading
        (some { r with paramsDeserializer := none }) hr
      have := h.active
      have hsame : isReading (some { r with paramsDeserializer := none }) =
          isReading (some r) := rfl
      rw [hsame] at hcount
      simp only
      omega
    · intro k hk
      refine ⟨rfl, ?_⟩
      obtain ⟨-, x, hx, hs⟩ := h.held k hk
      by_cases he : k = ref.slot
      · subst he
        exact ⟨{ r with paramsDeserializer := none }, List.getElem?_set_self hlt, hstate⟩
      · exact ⟨x, (List.getElem?_set_ne (Ne.symm he)).trans hx, hs⟩
    · intro k x hx
      have hnot : unreset? .reading ≠ some ⟨i, k⟩ := nofun
      by_cases he : k = ref.slot
      · subst he
        rw [List.getElem?_set_self hlt] at hx
        cases hx
        simp [hstate, hnot]
      · rw [List.getElem?_set_ne (Ne.symm he)] at hx
        rw [h.parser k x hx]
        simp only [hother k he, hnot, or_false]
    · simpa using h.room

theorem not_held (h : Accounts held i n) {k : Nat} {r : Request}
    (hr : n.connection.requests[k]? = some (some r)) (hs : r.state ≠ .pending) : k ∉ held := by
  intro hk
  obtain ⟨-, x, hx, hx'⟩ := h.held k hk
  rw [hr] at hx
  cases hx
  exact hs hx'

/-- A request that is not dispatched is destroyed. -/
theorem dropped (h : Accounts held i n) {k : Nat} {r : Request} {n' : Conn}
    (hr : n.connection.requests[k]? = some (some r)) (hk : k ∉ held)
    (hpc : unreset? n.pc = none) (hreq : n'.connection.requests = n.connection.requests.set k none)
    (hactive : n'.connection.requestActives + (isReading (some r)).toNat =
      n.connection.requestActives)
    (hlisted : listed n.pc = true → listed n'.pc = true) (hpc' : unreset? n'.pc = none)
    (hpassed : ∀ l, passed n'.pc l = true → l = k ∨ passed n.pc l = true) :
    Accounts held i n' := by
  have hslot : ∀ l x, n'.connection.requests[l]? = some (some x) →
      l ≠ k ∧ n.connection.requests[l]? = some (some x) := by
    intro l x hx
    rw [hreq] at hx
    by_cases he : l = k
    · rw [he, List.getElem?_set_self (List.getElem?_eq_some_iff.mp hr).1] at hx
      cases hx
    · rw [List.getElem?_set_ne (Ne.symm he)] at hx
      exact ⟨he, hx⟩
  refine ⟨h.nodup, ?_, ?_, ?_, ?_, ?_, ?_⟩
  · have hcount := Slots.countP_set_add isReading none hr
    have := h.active
    have hz : isReading none = false := rfl
    rw [hz, Bool.toNat_false] at hcount
    rw [hreq]
    omega
  · intro l hl
    obtain ⟨hlist, x, hx, hs⟩ := h.held l hl
    refine ⟨hlisted hlist, x, ?_, hs⟩
    have hne : l ≠ k := by
      rintro rfl
      exact hk hl
    rw [hreq, List.getElem?_set_ne (Ne.symm hne), hx]
  · intro l x hx
    rw [h.parser l x (hslot l x hx).2, hpc, hpc']
  · intro ref hu
    rw [hpc'] at hu
    cases hu
  · intro l x hx hp
    obtain ⟨hne, hx⟩ := hslot l x hx
    rcases hpassed l hp with he | hp
    · exact absurd he hne
    · exact h.torn l x hx hp
  · rw [hreq, List.length_set]
    exact h.room

theorem tear (h : Accounts held i n) {k : Nat} (hpc : n.pc = .tearingDown k) {p : Params} {φ : Fate}
    {c : Connection} {log : List Event} (ht : Connection.TornDown p φ n.connection k c log) :
    Accounts held i ⟨c, .tearingDown (k + 1)⟩ := by
  have hnone : unreset? n.pc = none := by rw [hpc]; rfl
  have hstep : ∀ l, passed (.tearingDown (k + 1)) l = true → l = k ∨ passed n.pc l = true := by
    intro l hl
    rw [hpc]
    simp only [passed, decide_eq_true_eq] at hl ⊢
    omega
  have hstay : (∀ r, n.connection.requests[k]? = some (some r) → r.state ≠ .readingParams) →
      Accounts held i ⟨n.connection, .tearingDown (k + 1)⟩ := by
    intro hne
    refine h.place _ (fun _ => rfl) hnone.symm ?_
    intro l r hr hp
    rcases hstep l hp with rfl | hp
    · exact hne r hr
    · exact h.torn l r hr hp
  cases ht with
  | empty free =>
    refine hstay ?_
    intro r hr
    rw [Connection.getD_eq_some.mpr hr] at free
    cases free
  | busy r slot reading ready =>
    refine hstay ?_
    intro r' hr
    rw [Connection.getD_eq_some.mp slot] at hr
    cases hr
    exact reading
  | reading r log slot state destroyed =>
    have hr := Connection.getD_eq_some.mp slot
    have hone : isReading (some r) = true := by simp [isReading, state]
    obtain ⟨m, hm⟩ : ∃ m, n.connection.requestActives = m + 1 := by
      apply Nat.exists_eq_add_one_of_ne_zero
      have hcount := Slots.countP_set_add isReading none hr
      have := h.active
      rw [hone, Bool.toNat_true] at hcount
      have hz : isReading none = false := rfl
      rw [hz, Bool.toNat_false] at hcount
      omega
    refine h.dropped hr (h.not_held hr (by rw [state]; exact State.noConfusion)) hnone rfl ?_
      (fun _ => rfl) rfl hstep
    simp only [hm, decr_succ, hone, Bool.toNat_true]
  | ready r log slot state destroyed =>
    have hr := Connection.getD_eq_some.mp slot
    have hzero : isReading (some r) = false := by simp [isReading, state]
    refine h.dropped hr (h.not_held hr (by rw [state]; exact State.noConfusion)) hnone rfl ?_
      (fun _ => rfl) rfl hstep
    rw [hzero]
    rfl

theorem clear (h : Accounts held i n) {k : Nat} (hpc : n.pc = .clearing k) {p : Params} {φ : Fate}
    {c : Connection} {log : List Event}
    (hc : n.connection.requests.getD k none = none ∧ c = n.connection ∧ log = [] ∨
      ∃ r, n.connection.requests.getD k none = some r ∧ r.destroy p φ = (.ok (), log) ∧
        c = { n.connection with requests := n.connection.requests.set k none }) :
    Accounts held i ⟨c, .clearing (k + 1)⟩ := by
  have hnone : unreset? n.pc = none := by rw [hpc]; rfl
  have hnil := h.held_nil (by rw [hpc]; rfl)
  have hpassed : ∀ l, passed n.pc l = true := by
    intro l
    rw [hpc]
    rfl
  rcases hc with ⟨-, rfl, -⟩ | ⟨r, hslot, -, rfl⟩
  · exact h.place _ (fun hne => absurd hnil hne) hnone.symm
      (fun l r hr _ => h.torn l r hr (hpassed l))
  · have hr := Connection.getD_eq_some.mp hslot
    have hzero : isReading (some r) = false := by
      have := h.torn k r hr (hpassed k)
      simp [isReading, this]
    refine h.dropped hr (by rw [hnil]; exact List.not_mem_nil) hnone rfl ?_ ?_ rfl
      (fun l _ => Or.inr (hpassed l))
    · rw [hzero]
      rfl
    · intro hl
      rw [hpc] at hl
      cases hl

theorem new_accounts (p : Params) (junk : Junk) (i : Nat) :
    Accounts [] i ⟨.new p junk, .reading⟩ := by
  refine ⟨List.nodup_nil, rfl, ?_, ?_, ?_, ?_, Nat.zero_le _⟩
  · intro k hk
    cases hk
  · intro k r hr
    cases hr
  · intro ref hu
    cases hu
  · intro k r hr
    cases hr

/-! ### A worker moves -/

/-- A worker or the application uses the streams of a request. -/
theorem work (h : Accounts held i n) {k : Nat} {r r' : Request}
    (hr : n.connection.requests[k]? = some (some r)) (hstate : r'.state = r.state)
    (hparser : r'.paramsDeserializer = r.paramsDeserializer) :
    Accounts held i { n with connection := { n.connection with
      requests := n.connection.requests.set k (some r') } } := by
  have hlt := (List.getElem?_eq_some_iff.mp hr).1
  have hslot : ∀ (l : Nat) (x : Request),
      (n.connection.requests.set k (some r'))[l]? = some (some x) →
      ∃ y : Request, n.connection.requests[l]? = some (some y) ∧ x.state = y.state ∧
        x.paramsDeserializer = y.paramsDeserializer := by
    intro l x hx
    by_cases he : l = k
    · subst he
      rw [List.getElem?_set_self hlt] at hx
      cases hx
      exact ⟨r, hr, hstate, hparser⟩
    · rw [List.getElem?_set_ne (Ne.symm he)] at hx
      exact ⟨x, hx, rfl, rfl⟩
  refine ⟨h.nodup, ?_, ?_, ?_, ?_, ?_, ?_⟩
  · have hcount := Slots.countP_set_add isReading (some r') hr
    have hsame : isReading (some r') = isReading (some r) := by
      simp only [isReading, Option.any_some, hstate]
    have := h.active
    rw [hsame] at hcount
    simp only
    omega
  · intro l hl
    obtain ⟨hlist, x, hx, hs⟩ := h.held l hl
    refine ⟨hlist, ?_⟩
    by_cases he : l = k
    · subst he
      rw [hr] at hx
      cases hx
      exact ⟨r', List.getElem?_set_self hlt, hstate.trans hs⟩
    · exact ⟨x, (List.getElem?_set_ne (Ne.symm he)).trans hx, hs⟩
  · intro l x hx
    obtain ⟨y, hy, hs, hp⟩ := hslot l x hx
    rw [hs, hp]
    exact h.parser l y hy
  · intro ref hu
    obtain ⟨hconn, hpending⟩ := h.unreset ref hu
    refine ⟨hconn, ?_⟩
    intro x hx
    obtain ⟨y, hy, hs, -⟩ := hslot _ x hx
    rw [hs]
    exact hpending y hy
  · intro l x hx hp
    obtain ⟨y, hy, hs, -⟩ := hslot l x hx
    rw [hs]
    exact h.torn l y hy hp
  · simpa using h.room

/-- The last decrement of the worker that holds slot `k`. -/
theorem decrement {k : Nat} (h : Accounts (k :: held) i n) :
    Accounts held i { n with connection := { n.connection with
      requestActives := decr n.connection.requestActives } } := by
  have hactive := h.active
  rw [List.length_cons, ← Nat.add_assoc] at hactive
  refine ⟨(List.nodup_cons.mp h.nodup).2, ?_, ?_, h.parser, h.unreset, h.torn, h.room⟩
  · simp only [hactive, decr_succ]
  · exact fun l hl => h.held l (List.mem_cons_of_mem k hl)

end Accounts

/-! ## The whole process -/

structure Inv (s : Sys) : Prop where
  nodup : (refs s).Nodup
  known : ∀ ref ∈ refs s, ref.conn < s.conns.length
  accounts : ∀ i n, s.conns[i]? = some n → Accounts (slotsOf i (refs s)) i n

theorem init_inv (workers : Nat) : Inv (.init workers) := by
  have hrefs : refs (.init workers) = [] := by
    simp [refs, dispatched, Sys.init, WorkerPc.request?]
  refine ⟨?_, ?_, ?_⟩
  · rw [hrefs]
    exact List.nodup_nil
  · rw [hrefs]
    exact fun ref hr => absurd hr List.not_mem_nil
  · intro i n hn
    cases hn

namespace Inv

variable {s s' : Sys}

theorem same (hi : Inv s) (hconns : s'.conns = s.conns) (hrefs : (refs s').Perm (refs s)) :
    Inv s' := by
  refine ⟨hrefs.nodup_iff.mpr hi.nodup, ?_, ?_⟩
  · intro ref hr
    rw [hconns]
    exact hi.known ref (hrefs.mem_iff.mp hr)
  · intro i n hn
    rw [hconns] at hn
    exact (hi.accounts i n hn).perm (hrefs.symm.filterMap _)

/-- The request that `ref` names is there, and only its dispatch owns it. -/
theorem live (hi : Inv s) {ref : Ref} (h : ref ∈ refs s) :
    ∃ n r, s.conns[ref.conn]? = some n ∧ listed n.pc = true ∧
      n.connection.requests[ref.slot]? = some (some r) ∧ r.state = .pending := by
  have hn := List.getElem?_eq_getElem (hi.known ref h)
  obtain ⟨hl, r, hr, hs⟩ := (hi.accounts _ _ hn).held ref.slot (mem_slotsOf.mpr h)
  exact ⟨_, r, hn, hl, hr, hs⟩

variable {i : Nat} {n n' : Conn}

/-- Connection `i` changes. -/
theorem set (hi : Inv s) (hn : s.conns[i]? = some n) (hconns : s'.conns = s.conns.set i n')
    (hnodup : (refs s').Nodup) (hknown : ∀ ref ∈ refs s', ref ∈ refs s ∨ ref.conn = i)
    (hother : ∀ j, j ≠ i → (slotsOf j (refs s)).Perm (slotsOf j (refs s')))
    (hmine : Accounts (slotsOf i (refs s')) i n') : Inv s' := by
  have hlt := (List.getElem?_eq_some_iff.mp hn).1
  refine ⟨hnodup, ?_, ?_⟩
  · intro ref hr
    rw [hconns, List.length_set]
    rcases hknown ref hr with hr | rfl
    · exact hi.known ref hr
    · exact hlt
  · intro j m hm
    rw [hconns] at hm
    by_cases hj : j = i
    · subst hj
      rw [List.getElem?_set_self hlt] at hm
      cases hm
      exact hmine
    · rw [List.getElem?_set_ne (Ne.symm hj)] at hm
      exact (hi.accounts j m hm).perm (hother j hj)

theorem set_same (hi : Inv s) (hn : s.conns[i]? = some n) (hconns : s'.conns = s.conns.set i n')
    (hrefs : (refs s').Perm (refs s)) (hmine : Accounts (slotsOf i (refs s)) i n') : Inv s' :=
  hi.set hn hconns (hrefs.nodup_iff.mpr hi.nodup) (fun _ hr => Or.inl (hrefs.mem_iff.mp hr))
    (fun _ _ => hrefs.symm.filterMap _) (hmine.perm (hrefs.symm.filterMap _))

end Inv

theorem slotsOf_cons_self (i k : Nat) (refs : List Ref) :
    slotsOf i (⟨i, k⟩ :: refs) = k :: slotsOf i refs := by
  simp [slotsOf]

theorem slotsOf_cons_ne {i j : Nat} (h : j ≠ i) (k : Nat) (refs : List Ref) :
    slotsOf j (⟨i, k⟩ :: refs) = slotsOf j refs := by
  simp [slotsOf, Ne.symm h]

/-- `moved` are the requests that the step dispatches or queues. -/
theorem refs_set {s s' : Sys} {i : Nat} {n n' : Conn} (moved : List Ref)
    (hn : s.conns[i]? = some n) (hconns : s'.conns = s.conns.set i n')
    (hd : (dispatched s').Perm (moved ++ dispatched s)) :
    ((pushing? n.pc).toList ++ refs s').Perm ((pushing? n'.pc).toList ++ (moved ++ refs s)) := by
  have hset := Slots.filterMap_set_perm (fun n => pushing? n.pc) n' hn
  have hcons := hset.append hd
  rw [← hconns, List.append_assoc, List.append_assoc] at hcons
  refine hcons.trans (List.Perm.append_left _ ?_)
  rw [refs, ← List.append_assoc, ← List.append_assoc]
  exact List.perm_append_comm.append_right _

/-- The thread goes from one place to another and dispatches nothing. -/
theorem refs_goto {s s' : Sys} {i : Nat} {n n' : Conn} (hn : s.conns[i]? = some n)
    (hconns : s'.conns = s.conns.set i n') (hd : dispatched s' = dispatched s)
    (hpushing : pushing? n'.pc = pushing? n.pc) : (refs s').Perm (refs s) := by
  have hrefs := refs_set [] hn hconns (List.Perm.of_eq hd)
  rw [hpushing] at hrefs
  exact (List.perm_append_left_iff _).mp hrefs

/-- The request goes into the queue. -/
theorem refs_push {s s' : Sys} {i : Nat} {n n' : Conn} {ref : Ref} (hn : s.conns[i]? = some n)
    (hconns : s'.conns = s.conns.set i n') (hpc : n.pc = .locking ref)
    (hpc' : pushing? n'.pc = none) (queue : s'.queue = s.queue ++ [ref])
    (held : s'.workers.filterMap WorkerPc.request? = s.workers.filterMap WorkerPc.request?) :
    (refs s').Perm (refs s) := by
  have hd : (dispatched s').Perm ([ref] ++ dispatched s) := by
    simp only [dispatched, queue, held, List.append_assoc]
    exact List.perm_append_comm_assoc s.queue [ref] _
  have hrefs := refs_set [ref] hn hconns hd
  rw [hpc, hpc'] at hrefs
  exact (List.perm_append_left_iff [ref]).mp hrefs

/-- A worker takes the request from the queue. -/
theorem refs_pop {s s' : Sys} {w : Nat} {pc : WorkerPc} {ref : Ref} {queue : List Ref}
    (worker : s.workers[w]? = some pc) (free : pc.request? = none)
    (queue_eq : s.queue = ref :: queue) (conns : s'.conns = s.conns) (queue' : s'.queue = queue)
    (workers : s'.workers = s.workers.set w (.popped ref)) : (refs s').Perm (refs s) := by
  have hset := Slots.filterMap_set_perm WorkerPc.request? (.popped ref) worker
  rw [free] at hset
  have hd : (dispatched s').Perm (dispatched s) := by
    simp only [dispatched, queue_eq, queue', workers]
    exact (List.Perm.append_left queue hset).trans (List.perm_append_comm_assoc queue [ref] _)
  simp only [refs, conns]
  exact hd.append_left _

theorem afterTurn_conns (s : Sys) (i slot : Nat) (c : Connection) (log : List Event) (h : Handled) :
    (s.afterTurn i c log (some (slot, h))).conns =
      s.conns.set i ⟨c, Accounts.placeAfter ⟨i, slot⟩ h⟩ := by
  cases h <;> rfl

theorem afterTurn_dispatched (s : Sys) (i : Nat) (c : Connection) (log : List Event)
    (did : Option (Nat × Handled)) : dispatched (s.afterTurn i c log did) = dispatched s := by
  cases did with
  | none => rfl
  | some x => rfl

namespace Inv

variable {s s' : Sys} {i : Nat} {n : Conn}

theorem turn (hi : Inv s) (hn : s.conns[i]? = some n) (hpc : n.pc = .reading) {p : Params}
    {junk : Junk} {φ : Fate} {c : Connection} {did : Option (Nat × Handled)} {log : List Event}
    (hd : Connection.Dispatched p junk φ n.connection c did log) (sock : Sock) :
    Inv (s.afterTurn i { c with sock := sock } log did) := by
  have hmine := hi.accounts i n hn
  have hquiet : ∀ c' : Connection, c'.requests = n.connection.requests →
      c'.requestActives = n.connection.requestActives →
      Inv (s.afterTurn i { c' with sock := sock } log none) := by
    intro c' hr ha
    have hconns : (s.afterTurn i { c' with sock := sock } log none).conns =
      s.conns.set i ⟨{ c' with sock := sock }, .reading⟩ := rfl
    have hrefs := refs_set [] hn hconns (List.Perm.refl _)
    rw [hpc] at hrefs
    exact hi.set_same hn hconns hrefs (hmine.congr hpc.symm hr ha)
  cases hd with
  | getValues data c log gave =>
    obtain ⟨d, o, rfl⟩ := Connection.getValues_ok gave
    exact hquiet _ rfl rfl
  | unknown type log gave => exact hquiet _ rfl rfl
  | request requestId h log pos lt handles =>
    have hturn := hmine.turn hpc pos lt handles.shifts sock
    have hconns := afterTurn_conns s i (requestId - 1)
      { n.connection.settle requestId h with sock := sock } log h
    have hrefs := refs_set [] hn hconns
      (List.Perm.of_eq (afterTurn_dispatched s i _ log (some (requestId - 1, h))))
    rw [hpc] at hrefs
    cases h with
    | idle r | accepted r | cancelled r => exact hi.set_same hn hconns hrefs hturn
    | push r =>
      have hnew : ⟨i, requestId - 1⟩ ∉ refs s := by
        intro hm
        have hnodup := hturn.nodup
        exact (List.nodup_cons.mp hnodup).1 (mem_slotsOf.mpr hm)
      refine hi.set hn hconns ?_ ?_ ?_ ?_
      · exact hrefs.nodup_iff.mpr (List.nodup_cons.mpr ⟨hnew, hi.nodup⟩)
      · intro ref hr
        rcases List.mem_cons.mp (hrefs.mem_iff.mp hr) with rfl | hr
        · exact Or.inr rfl
        · exact Or.inl hr
      · intro j hj
        have hp := (hrefs.filterMap fun ref => if ref.conn = j then some ref.slot else none).symm
        exact (List.Perm.of_eq (slotsOf_cons_ne hj (requestId - 1) (refs s)).symm).trans hp
      · have hp := (hrefs.filterMap fun ref => if ref.conn = i then some ref.slot else none).symm
        refine hturn.perm ?_
        exact (List.Perm.of_eq (slotsOf_cons_self i (requestId - 1) (refs s)).symm).trans hp

/-- The thread goes to another place; nothing that the invariant speaks of is done. -/
theorem goto (hi : Inv s) (hn : s.conns[i]? = some n) {n' : Conn}
    (hconns : s'.conns = s.conns.set i n') (hd : dispatched s' = dispatched s)
    (hpushing : pushing? n'.pc = pushing? n.pc) (hmine : Accounts (slotsOf i (refs s)) i n') :
    Inv s' := by
  exact hi.set_same hn hconns (refs_goto hn hconns hd hpushing) hmine

end Inv

/-- The last decrement of a worker. -/
theorem refs_decrement {s : Sys} {w : Nat} {ref : Ref} {n : Conn}
    (hw : s.workers[w]? = some (.decrementing ref)) (hn : s.conns[ref.conn]? = some n) :
    (refs s).Perm (ref :: refs ((s.setConn ref.conn { n with connection :=
      { n.connection with requestActives := decr n.connection.requestActives } }).setWorker w
        .loopTop)) := by
  have hset := Slots.filterMap_set_perm WorkerPc.request? .loopTop hw
  have hconns := Slots.filterMap_set_same (f := fun n => pushing? n.pc) (b := { n with connection :=
      { n.connection with requestActives := decr n.connection.requestActives } }) hn rfl
  simp only [refs, dispatched, Sys.setWorker_conns, Sys.setConn_conns, Sys.setWorker_queue,
    Sys.setConn_queue, Sys.setWorker_workers, Sys.setConn_workers, hconns]
  rw [← List.append_assoc, ← List.append_assoc]
  refine (List.Perm.append_left _ hset.symm).trans ?_
  exact List.perm_append_comm_assoc _ [ref] _

theorem Inv.decrement {s : Sys} {w : Nat} {ref : Ref} {n : Conn} (hi : Inv s)
    (hw : s.workers[w]? = some (.decrementing ref)) (hn : s.conns[ref.conn]? = some n) :
    Inv ((s.setConn ref.conn { n with connection :=
      { n.connection with requestActives := decr n.connection.requestActives } }).setWorker w
        .loopTop) := by
  have hrefs := refs_decrement hw hn
  have hslots : ∀ j, (slotsOf j (refs s)).Perm _ := fun j => hrefs.filterMap _
  refine hi.set hn rfl ?_ ?_ ?_ ?_
  · exact (List.nodup_cons.mp (hrefs.nodup_iff.mp hi.nodup)).2
  · exact fun x hx => Or.inl (hrefs.mem_iff.mpr (List.mem_cons_of_mem ref hx))
  · intro j hj
    exact (hslots j).trans (List.Perm.of_eq (slotsOf_cons_ne hj ref.slot _))
  · have hp := (hslots ref.conn).trans (List.Perm.of_eq (slotsOf_cons_self ref.conn ref.slot _))
    exact ((hi.accounts _ n hn).perm hp).decrement

theorem step_inv {p : Params} {s s' : Sys} {a : System.Act} (hi : Inv s)
    (h : Sys.step p s a = some s') : Inv s' := by
  obtain ⟨-, he⟩ := Sys.step_effect h
  cases he with
  | crash _ c => exact hi.same rfl (List.Perm.refl _)
  | quiet _ _ conns queue held down log =>
    refine hi.same conns (List.Perm.of_eq ?_)
    simp only [refs, dispatched, conns, queue, held]
  | accept junk _ conns queue workers down log =>
    have hrefs : refs s' = refs s := by
      simp [refs, dispatched, conns, queue, workers, pushing?]
    refine ⟨hrefs ▸ hi.nodup, ?_, ?_⟩
    · intro ref hr
      rw [hrefs] at hr
      rw [conns, List.length_append]
      have := hi.known ref hr
      omega
    · intro i n hn
      rw [hrefs]
      rw [conns, List.getElem?_append] at hn
      split at hn
      · exact hi.accounts i n hn
      · rename_i hi'
        have hnil : slotsOf i (refs s) = [] := by
          rw [List.eq_nil_iff_forall_not_mem]
          intro k hk
          exact hi' (hi.known _ (mem_slotsOf.mp hk))
        rw [hnil]
        rw [List.getElem?_singleton] at hn
        split at hn
        · cases hn
          exact Accounts.new_accounts p junk i
        · cases hn
  | arrive i n r sock conn =>
    exact hi.goto conn rfl rfl rfl ((hi.accounts i n conn).congr rfl rfl rfl)
  | turn i n junk φ notified c sock did log conn pc dispatched =>
    exact hi.turn conn pc dispatched sock
  | move i n junk φ notified sock pc conn moves =>
    have hmine := hi.accounts i n conn
    rcases moves with ⟨hr, rfl⟩ | ⟨k, hk, hle, rfl⟩ | ⟨hw, hz, rfl⟩
    · refine hi.goto conn rfl rfl (by rw [hr]; rfl) ?_
      refine (hmine.place (.tearingDown 0) (fun _ => rfl) (by rw [hr]; rfl) ?_).congr rfl rfl rfl
      intro k r _ hp
      simp [passed] at hp
    · refine hi.goto conn rfl rfl (by rw [hk]; rfl) ?_
      refine (hmine.place .waiting (fun _ => rfl) (by rw [hk]; rfl) ?_).congr rfl rfl rfl
      intro l r hr _
      refine hmine.torn l r hr ?_
      have := (List.getElem?_eq_some_iff.mp hr).1
      rw [hk]
      simp only [passed, decide_eq_true_eq]
      omega
    · refine hi.goto conn rfl rfl (by rw [hw]; rfl) ?_
      have hnil : slotsOf i (refs s) = [] := by
        have := hmine.active
        exact List.eq_nil_of_length_eq_zero (by omega)
      refine (hmine.place (.clearing 0) (fun hne => absurd hnil hne) (by rw [hw]; rfl) ?_).congr
        rfl rfl rfl
      intro l r hr _
      exact hmine.torn l r hr (by rw [hw]; rfl)
  | backlog i n junk φ notified ref _ conn pc conns queue workers down log =>
    refine hi.goto conn conns ?_ (by rw [pc]; rfl) ?_
    · simp only [dispatched, queue, workers]
    · exact (hi.accounts i n conn).place _ (fun _ => rfl) (by rw [pc]; rfl)
        (fun _ _ _ hp => by cases hp)
  | push i n junk φ notified ref _ conn pc conns queue held down log =>
    refine hi.set_same conn conns (refs_push conn conns pc rfl queue held) ?_
    exact (hi.accounts i n conn).place _ (fun _ => rfl) (by rw [pc]; rfl)
      (fun _ _ _ hp => by cases hp)
  | reset i n junk φ notified ref conn pc =>
    exact hi.goto conn rfl rfl (by rw [pc]; rfl) ((hi.accounts i n conn).reset pc)
  | tear i n junk φ notified k c log conn pc lt tore =>
    exact hi.goto conn rfl rfl (by rw [pc]; rfl)
      ((hi.accounts i n conn).tear pc (Connection.tearDown_ok tore))
  | clear i n junk φ notified k c log conn pc lt cleared =>
    exact hi.goto conn rfl rfl (by rw [pc]; rfl)
      ((hi.accounts i n conn).clear pc (Connection.clearSlot_ok cleared))
  | erase i n junk φ notified k c log _ conn pc le destroyed conns queue workers down log_eq =>
    have hmine := hi.accounts i n conn
    obtain ⟨o, rfl⟩ := Connection.destroy_ok destroyed
    refine hi.goto conn conns ?_ (by rw [pc]; rfl) ?_
    · simp only [dispatched, queue, workers]
    · have hnil := hmine.held_nil (by rw [pc]; rfl)
      refine (hmine.place .gone (fun hne => absurd hnil hne) (by rw [pc]; rfl) ?_).congr
        rfl rfl rfl
      intro l r hr _
      exact hmine.torn l r hr (by rw [pc]; rfl)
  | pop w φ pc ref queue _ worker free queue_eq conns queue' workers down log =>
    exact hi.same conns (refs_pop worker free queue_eq conns queue' workers)
  | work _ w ref r r' pc pc' got log worker request worked =>
    obtain ⟨hpc, hpc', cin, cout, cerr, rfl⟩ := worked.keeps
    obtain ⟨n, hn, hr⟩ := Sys.request?_eq_some.mp request
    refine hi.goto hn (Sys.setRequest_conns hn _) ?_ rfl ((hi.accounts _ n hn).work hr rfl rfl)
    simp only [dispatched, Sys.record_queue, Sys.record_workers, Sys.setWorker_queue,
      Sys.setWorker_workers, Sys.setRequest_queue, Sys.setRequest_workers]
    rw [Slots.filterMap_set_same worker (hpc'.trans hpc.symm)]
  | decrement w φ ref n worker conn =>
    exact hi.decrement worker conn

/-! ## The result -/

theorem run_inv {p : Params} {workers : Nat} {as : List System.Act} {s : Sys}
    (h : run (Sys.step p) (.init workers) as = some s) : Inv s :=
  run_invariant (init_inv workers) (fun _ _ _ => step_inv) h

/-- The counters are right whenever their thread is between two records, and a
connection that is erased has no request that is dispatched. -/
structure Accounted (s : Sys) : Prop where
  counts : ∀ i n, s.conns[i]? = some n → n.pc = .reading →
    n.connection.requestActives = n.connection.requests.countP isReading +
      (dispatched s).countP fun ref => ref.conn = i
  erased : ∀ i n, s.conns[i]? = some n → listed n.pc = false → ∀ ref ∈ dispatched s, ref.conn ≠ i

/-- A step from `s` to `s'` takes no counter below zero and destroys no request
that is dispatched in `s`. -/
structure Safe (s s' : Sys) : Prop where
  counter : ∀ (i : Nat) (n n' : Conn), s.conns[i]? = some n → s'.conns[i]? = some n' →
    n'.connection.requestActives = decr n.connection.requestActives →
    n.connection.requestActives ≠ 0
  kept : ∀ ref ∈ dispatched s, s.request? ref ≠ none ∧ s'.request? ref ≠ none

theorem Inv.accounted {s : Sys} (hi : Inv s) : Accounted s := by
  have hpushed : ∀ i n, s.conns[i]? = some n → pushing? n.pc = none →
      slotsOf i (s.conns.filterMap fun n => pushing? n.pc) = [] := by
    intro i n hn hpc
    rw [List.eq_nil_iff_forall_not_mem]
    intro k hk
    obtain ⟨m, hm, hp⟩ := List.mem_filterMap.mp (mem_slotsOf.mp hk)
    obtain ⟨j, hj⟩ := List.getElem?_of_mem hm
    have hu : unreset? m.pc = some ⟨i, k⟩ := by
      cases hmpc : m.pc <;> rw [hmpc] at hp <;> first | exact hp | cases hp
    obtain rfl := ((hi.accounts j m hj).unreset _ hu).1
    rw [hn] at hj
    cases hj
    rw [hpc] at hp
    cases hp
  refine ⟨?_, ?_⟩
  · intro i n hn hpc
    have hactive := (hi.accounts i n hn).active
    rw [refs, slotsOf, List.filterMap_append, ← slotsOf, ← slotsOf,
      hpushed i n hn (by rw [hpc]; rfl), List.nil_append, slotsOf_length] at hactive
    exact hactive
  · rintro i n hn hpc ref hr rfl
    obtain ⟨m, r, hm, hl, -⟩ := hi.live (List.mem_append_right _ hr)
    rw [hn] at hm
    cases hm
    rw [hpc] at hl
    cases hl

/-- What a step does to the requests that are dispatched. -/
inductive Shift (s s' : Sys) : Prop where
  | same (perm : (refs s').Perm (refs s))
  | pushed (ref : Ref) (n : Conn) (conn : s.conns[ref.conn]? = some n) (pc : n.pc = .reading)
      (parser : ∃ r, s.request? ref = some r ∧ r.paramsDeserializer.isSome = true)
      (perm : (refs s').Perm (ref :: refs s))
  | ended (ref : Ref) (requests : ∀ x, s'.request? x = s.request? x)
      (worker : .decrementing ref ∈ s.workers) (perm : (refs s).Perm (ref :: refs s'))

theorem turn_shift {p : Params} {s : Sys} {i : Nat} {n : Conn} {junk : Junk} {φ : Fate}
    {c : Connection} {did : Option (Nat × Handled)} {log : List Event}
    (hn : s.conns[i]? = some n) (hpc : n.pc = .reading)
    (hd : Connection.Dispatched p junk φ n.connection c did log) (sock : Sock) :
    Shift s (s.afterTurn i { c with sock := sock } log did) := by
  have hkeep := afterTurn_dispatched s i { c with sock := sock } log did
  cases hd with
  | getValues data c log gave => exact .same (refs_goto hn rfl hkeep (by rw [hpc]))
  | unknown type log gave => exact .same (refs_goto hn rfl hkeep (by rw [hpc]))
  | request requestId h log pos lt handles =>
    have hconns := afterTurn_conns s i (requestId - 1)
      { n.connection.settle requestId h with sock := sock } log h
    have hrefs := refs_set [] hn hconns (List.Perm.of_eq hkeep)
    rw [hpc] at hrefs
    have hshifts := handles.shifts
    cases h with
    | idle r | accepted r | cancelled r => exact .same hrefs
    | push r =>
      refine .pushed ⟨i, requestId - 1⟩ n hn hpc ⟨n.connection.slot p junk requestId, ?_, ?_⟩ hrefs
      · cases hshifts with
        | push _ reading state parser =>
          rcases Connection.grow_slot p junk n.connection pos with hg | ⟨-, hnew⟩
          · exact Sys.request?_eq_some.mpr ⟨n, hn, Connection.grow_some.mp hg⟩
          · rw [hnew] at reading
            cases reading
      · cases hshifts with
        | push _ reading state parser => exact reading

theorem step_shift {p : Params} {s s' : Sys} {a : System.Act} (h : Sys.step p s a = some s') :
    Shift s s' := by
  obtain ⟨-, he⟩ := Sys.step_effect h
  cases he with
  | crash _ c => exact .same (List.Perm.refl _)
  | quiet _ _ conns queue held down log =>
    refine .same (List.Perm.of_eq ?_)
    simp only [refs, dispatched, conns, queue, held]
  | accept junk _ conns queue workers down log =>
    refine .same (List.Perm.of_eq ?_)
    simp [refs, dispatched, conns, queue, workers, pushing?]
  | arrive i n r sock conn => exact .same (refs_goto conn rfl rfl rfl)
  | turn i n junk φ notified c sock did log conn pc handled => exact turn_shift conn pc handled sock
  | move i n junk φ notified sock pc conn moves =>
    refine .same (refs_goto conn rfl rfl ?_)
    rcases moves with ⟨hr, rfl⟩ | ⟨k, hk, -, rfl⟩ | ⟨hw, -, rfl⟩
    · rw [hr]
      rfl
    · rw [hk]
      rfl
    · rw [hw]
      rfl
  | backlog i n junk φ notified ref _ conn pc conns queue workers down log =>
    refine .same (refs_goto conn conns ?_ (by rw [pc]; rfl))
    simp only [dispatched, queue, workers]
  | push i n junk φ notified ref _ conn pc conns queue held down log =>
    exact .same (refs_push conn conns pc rfl queue held)
  | reset i n junk φ notified ref conn pc =>
    exact .same (refs_goto conn rfl rfl (by rw [pc]; rfl))
  | tear i n junk φ notified k c log conn pc lt tore =>
    exact .same (refs_goto conn rfl rfl (by rw [pc]; rfl))
  | clear i n junk φ notified k c log conn pc lt cleared =>
    exact .same (refs_goto conn rfl rfl (by rw [pc]; rfl))
  | erase i n junk φ notified k c log _ conn pc le destroyed conns queue workers down log_eq =>
    refine .same (refs_goto conn conns ?_ (by rw [pc]; rfl))
    simp only [dispatched, queue, workers]
  | pop w φ pc ref queue _ worker free queue_eq conns queue' workers down log =>
    exact .same (refs_pop worker free queue_eq conns queue' workers)
  | work _ w ref r r' pc pc' got log worker request worked =>
    obtain ⟨hpc, hpc', -⟩ := worked.keeps
    obtain ⟨n, hn, -⟩ := Sys.request?_eq_some.mp request
    refine .same (refs_goto hn (Sys.setRequest_conns hn _) ?_ rfl)
    simp only [dispatched, Sys.record_queue, Sys.record_workers, Sys.setWorker_queue,
      Sys.setWorker_workers, Sys.setRequest_queue, Sys.setRequest_workers]
    rw [Slots.filterMap_set_same worker (hpc'.trans hpc.symm)]
  | decrement w φ ref n worker conn =>
    refine .ended ref ?_ (List.mem_of_getElem? worker) (refs_decrement worker conn)
    intro x
    unfold Sys.request?
    rw [Sys.setWorker_conns, Sys.setConn_conns]
    by_cases hx : ref.conn = x.conn
    · rw [← hx, List.getElem?_set_self (List.getElem?_eq_some_iff.mp conn).1, conn]
    · rw [List.getElem?_set_ne hx]

/-- Only the last decrement of a worker ends a dispatch. -/
theorem step_refs {p : Params} {s s' : Sys} {a : System.Act} (h : Sys.step p s a = some s') :
    (∀ ref ∈ refs s, ref ∈ refs s') ∨ (∀ ref, s'.request? ref = s.request? ref) ∧
      ∃ ref, .decrementing ref ∈ s.workers ∧ (refs s).Perm (ref :: refs s') := by
  cases step_shift h with
  | same perm => exact Or.inl fun ref hr => perm.mem_iff.mpr hr
  | pushed ref n conn pc parser perm =>
    exact Or.inl fun x hx => perm.mem_iff.mpr (List.mem_cons_of_mem ref hx)
  | ended ref requests worker perm => exact Or.inr ⟨requests, ref, worker, perm⟩

theorem Inv.safe {p : Params} {s s' : Sys} {a : System.Act} (hi : Inv s)
    (h : Sys.step p s a = some s') : Safe s s' := by
  have hi' := step_inv hi h
  refine ⟨?_, ?_⟩
  · intro i n n' _ hn' hdecr hz
    have hle := (hi'.accounts i n' hn').active_le
    rw [hdecr, hz] at hle
    exact absurd hle (by decide)
  · intro ref hr
    obtain ⟨n, r, hn, -, hslot, -⟩ := hi.live (List.mem_append_right _ hr)
    have hs := Sys.request?_eq_some.mpr ⟨n, hn, hslot⟩
    refine ⟨by rw [hs]; exact Option.some_ne_none r, ?_⟩
    rcases step_refs h with hmem | ⟨hsame, -⟩
    · obtain ⟨n', r', hn', -, hslot', -⟩ := hi'.live (hmem ref (List.mem_append_right _ hr))
      rw [Sys.request?_eq_some.mpr ⟨n', hn', hslot'⟩]
      exact Option.some_ne_none r'
    · rw [hsame, hs]
      exact Option.some_ne_none r

/-- **Accounting**, in every run of any number of connections and workers. -/
theorem accounting {p : Params} {workers : Nat} {as : List System.Act} {s : Sys}
    (h : run (Sys.step p) (.init workers) as = some s) :
    Accounted s ∧ ∀ a s', Sys.step p s a = some s' → Safe s s' :=
  ⟨(run_inv h).accounted, fun _ _ hs => (run_inv h).safe hs⟩

theorem accounting_served : ∃ s, run (Sys.step .standard) (.init 1) served = some s ∧
    Accounted s ∧ ∀ a s', Sys.step .standard s a = some s' → Safe s s' := by
  obtain ⟨s, hs⟩ := served_runs
  exact ⟨s, hs, accounting hs⟩

end Tfcgi.Accounting
