import Mathlib.Logic.Function.Basic
import Tfcgi.Lib.Pace
import Tfcgi.Sends
import Tfcgi.Threads

/-!
# Segments of the byte stream

TCP cuts the bytes of a peer as it likes and brings them when it likes. `items` is what
`read(2)` gives without the cuts.

* `turn_keeps`: what a pass of the loop does depends on the items in front only;
* `step_keeps`: a step that can be taken is taken in the same way when more has arrived;
* `segments`: with the input cut in another way and arriving no later, all threads do the
  same and the log is the same.
-/

namespace Tfcgi.Segments

open Tfcgi.Lib Tfcgi.Run Tfcgi.HostOrder Tfcgi.Protocol Tfcgi.NameValuePairs Tfcgi.SendPacket
open Tfcgi.Socket Tfcgi.Iostream Tfcgi.RequestSlot Tfcgi.ConnectionThread Tfcgi.System
open Tfcgi.Threads Tfcgi.Sends

/-! ## Sockets -/

inductive Item where
  | byte (b : Byte)
  | eof
  | error (e : Errno)
  deriving DecidableEq, Repr

def items : ReadResult → List Item
  | .data b bs => (b :: bs).map .byte
  | .eof => [.eof]
  | .error e => [.error e]

theorem items_ne_nil (r : ReadResult) : items r ≠ [] := by
  cases r <;> exact List.cons_ne_nil _ _

/-- The loop of `recv_all` over items. -/
def itemLoop : Nat → Bool → List Item → Option (List Byte × List Item × Bool)
  | 0, insane, l => some ([], l, insane)
  | _ + 1, _, [] => none
  | size + 1, insane, .byte b :: l => (itemLoop size insane l).map fun x => (b :: x.1, x.2)
  | _ + 1, _, .eof :: l => some ([], l, false)
  | size + 1, _, .error e :: l =>
    if retried e then itemLoop (size + 1) false l else some ([], l, false)

/-- Bytes that are all wanted. -/
theorem itemLoop_bytes (bs : List Byte) (size : Nat) (insane : Bool) (l : List Item) :
    itemLoop (bs.length + size) insane (bs.map .byte ++ l) =
      (itemLoop size insane l).map fun x => (bs ++ x.1, x.2) := by
  induction bs with
  | nil =>
    rw [List.length_nil, Nat.zero_add, List.map_nil, List.nil_append]
    cases itemLoop size insane l <;> rfl
  | cons b bs ih =>
    rw [List.length_cons, Nat.add_right_comm, List.map_cons, List.cons_append, itemLoop, ih,
      Option.map_map]
    rfl

/-- What is left of the script, with the cuts forgotten. -/
def forget (x : List Byte × Sock) : List Byte × List Item × Bool :=
  (x.1, x.2.reads.flatMap items, x.2.insane)

theorem recvLoop_items (size : Nat) (insane : Bool) (rs : List ReadResult) :
    (recvLoop size insane rs).map forget = itemLoop size insane (rs.flatMap items) := by
  fun_induction recvLoop size insane rs with
  | case1 insane rs =>
    rw [itemLoop]
    rfl
  | case2 size insane => rfl
  | case3 size insane b bs rs hd ih =>
    have hle : bs.length ≤ size := by simpa using hd
    have hsize : size.succ = (b :: bs).length + (size - bs.length) := by
      rw [List.length_cons]
      omega
    rw [List.flatMap_cons, items, hsize, itemLoop_bytes, ← ih, Option.map_map, Option.map_map]
    rfl
  | case4 size insane b bs rs c cs hd =>
    have hsplit : b :: bs = (b :: bs.take size) ++ (c :: cs) := by
      rw [← hd, List.cons_append, List.take_append_drop]
    have hlen : size.succ = (b :: bs.take size).length + 0 := by
      have hlt : size < bs.length := by
        by_contra hge
        rw [List.drop_of_length_le (by omega)] at hd
        cases hd
      rw [List.length_cons, List.length_take]
      omega
    rw [List.flatMap_cons, items, hsplit, List.map_append, List.append_assoc, hlen, itemLoop_bytes]
    simp only [itemLoop, Option.map_some, forget, List.append_nil, List.flatMap_cons, items]
  | case5 size insane rs => rfl
  | case6 size insane e rs hr ih =>
    rw [List.flatMap_cons, items, List.singleton_append, itemLoop, if_pos hr]
    exact ih
  | case7 size insane e rs hr =>
    rw [List.flatMap_cons, items, List.singleton_append, itemLoop, if_neg hr]
    rfl

theorem itemLoop_append {size : Nat} {insane : Bool} {l : List Item}
    {x : List Byte × List Item × Bool} (h : itemLoop size insane l = some x) (more : List Item) :
    itemLoop size insane (l ++ more) = some (x.1, x.2.1 ++ more, x.2.2) := by
  fun_induction itemLoop size insane l generalizing x with
  | case1 insane l =>
    cases h
    rw [itemLoop]
  | case2 => cases h
  | case3 size insane b l ih =>
    obtain ⟨y, hy, rfl⟩ := Option.map_eq_some_iff.mp h
    rw [List.cons_append, itemLoop, ih hy]
    rfl
  | case4 =>
    cases h
    rfl
  | case5 size insane e l hr ih =>
    rw [List.cons_append, itemLoop, if_pos hr]
    exact ih h
  | case6 size insane e l hr =>
    rw [List.cons_append, itemLoop, if_neg hr]
    cases h
    rfl

/-- The same socket, on which `more` has arrived too. -/
def Ahead (more : List Item) (s t : Sock) : Prop :=
  t.insane = s.insane ∧ t.reads.flatMap items = s.reads.flatMap items ++ more

/-- Code that reads the same from a socket on which more has arrived, up to `R`. -/
def Keeps {α β : Type} (R : α → β → Prop) (m : Rd α) (m' : Rd β) : Prop :=
  ∀ more s t, Ahead more s t → (∀ e, m s = .throws e → m' t = .throws e) ∧
    ∀ a s', m s = .ok a s' → ∃ b t', m' t = .ok b t' ∧ R a b ∧ Ahead more s' t'

namespace Keeps

variable {α β γ δ : Type}

theorem pure {R : α → β → Prop} {a : α} {b : β} (h : R a b) :
    Keeps R (Pure.pure a : Rd α) (Pure.pure b : Rd β) := by
  intro more s t hst
  refine ⟨nofun, ?_⟩
  rintro a' s' ⟨⟩
  exact ⟨b, t, rfl, h, hst⟩

theorem throw (R : α → β → Prop) (e : Exn) : Keeps R (Rd.throw e) (Rd.throw e) := by
  intro more s t hst
  refine ⟨?_, nofun⟩
  rintro e' ⟨⟩
  rfl

theorem bind {R : α → β → Prop} {Q : γ → δ → Prop} {m : Rd α} {m' : Rd β} {f : α → Rd γ}
    {f' : β → Rd δ} (hm : Keeps R m m') (hf : ∀ a b, R a b → Keeps Q (f a) (f' b)) :
    Keeps Q (m >>= f) (m' >>= f') := by
  intro more s t hst
  obtain ⟨hthrows, hok⟩ := hm more s t hst
  refine ⟨?_, ?_⟩
  · intro e h
    rcases Rd.bind_eq_throws h with h | ⟨a, s₁, h, hfa⟩
    · exact Rd.bind_throws (hthrows e h)
    · obtain ⟨b, t₁, ht, hab, hst₁⟩ := hok a s₁ h
      rw [Rd.bind_ok ht]
      exact (hf a b hab more s₁ t₁ hst₁).1 e hfa
  · intro c s' h
    obtain ⟨a, s₁, h, hfa⟩ := Rd.bind_eq_ok h
    obtain ⟨b, t₁, ht, hab, hst₁⟩ := hok a s₁ h
    rw [Rd.bind_ok ht]
    exact (hf a b hab more s₁ t₁ hst₁).2 c s' hfa

end Keeps

theorem recvAll_keeps (size : Nat) :
    Keeps Eq (Connection.recvAll size) (Connection.recvAll size) := by
  intro more s t ⟨hinsane, hitems⟩
  refine ⟨fun e h => absurd h (recvAll_ne_throws size s e), ?_⟩
  intro got s' h
  unfold Connection.recvAll at h ⊢
  split at h
  · cases h
  · rename_i got' s₁ hl
    cases h
    have hs := recvLoop_items size s.insane s.reads
    rw [hl, Option.map_some] at hs
    have ht := recvLoop_items size t.insane t.reads
    rw [hinsane, hitems, itemLoop_append hs.symm more] at ht
    obtain ⟨⟨got₂, t'⟩, hloop, hx⟩ := Option.map_eq_some_iff.mp ht
    simp only [forget, Prod.mk.injEq] at hx
    obtain ⟨rfl, hreads, hsane⟩ := hx
    rw [hinsane, hloop]
    exact ⟨got₂, t', rfl, rfl, hsane, hreads⟩

/-! ## Records -/

/-- The rule for code that reads first the same on both sides. -/
theorem Keeps.same {α γ δ : Type} {Q : γ → δ → Prop} {m : Rd α} {f : α → Rd γ} {f' : α → Rd δ}
    (hm : Keeps Eq m m) (hf : ∀ a, Keeps Q (f a) (f' a)) : Keeps Q (m >>= f) (m >>= f') := by
  refine hm.bind ?_
  rintro a _ rfl
  exact hf a

theorem new_keeps (p : Params) (junk : Header) :
    Keeps Eq (Ipacket.new p junk) (Ipacket.new p junk) :=
  (recvAll_keeps Header.size).same fun _ => .pure rfl

theorem consume_keeps (k : Ipacket) (consumed : Int) (errno : Errno) :
    Keeps Eq (k.consume consumed errno) (k.consume consumed errno) := by
  unfold Ipacket.consume
  split
  · exact .throw _ _
  · split
    · split
      · exact .pure rfl
      · exact .pure rfl
      · exact .throw _ _
    · split
      · exact .throw _ _
      · simp only
        split
        · exact (recvAll_keeps _).same fun _ => .pure rfl
        · exact .pure rfl

theorem packet_keeps (k : Ipacket) (size : Nat) : Keeps Eq (k.recvAll size) (k.recvAll size) := by
  unfold Ipacket.recvAll
  split
  · exact .throw _ _
  · split
    · exact .pure rfl
    · exact (recvAll_keeps _).same fun got => (consume_keeps k _ _).same fun _ => .pure rfl

theorem destroy_keeps (k : Ipacket) : Keeps Eq k.destroy k.destroy := by
  unfold Ipacket.destroy
  split
  · exact (packet_keeps k _).same fun _ => .pure rfl
  · exact .pure rfl

theorem takeContent_keeps (k : Ipacket) :
    Keeps Eq (Request.takeContent k) (Request.takeContent k) := by
  have hsink : Keeps Eq k.sinkToVector k.sinkToVector :=
    (packet_keeps k _).same fun _ => .pure rfl
  exact hsink.same fun x => (destroy_keeps x.2).same fun _ => .pure rfl

theorem drop_keeps (k : Option Ipacket) : Keeps Eq (Connection.drop k) (Connection.drop k) := by
  cases k with
  | none => exact .pure rfl
  | some k => exact destroy_keeps k

theorem handlePacket_keeps (p : Params) (junk : Junk) (r : Request) (k : Ipacket) :
    Keeps Eq (r.handlePacket p junk k) (r.handlePacket p junk k) := by
  unfold Request.handlePacket
  split
  · split
    · exact .pure rfl
    · exact (packet_keeps k _).same fun _ => .pure rfl
  · exact .pure rfl
  · split
    · exact (takeContent_keeps k).same fun _ => .pure rfl
    · exact .pure rfl
  · split
    · exact (takeContent_keeps k).same fun _ => .pure rfl
    · exact .pure rfl
  · split
    · exact (takeContent_keeps k).same fun _ => .pure rfl
    · exact .pure rfl
  · exact .pure rfl
  · exact .pure rfl

/-! ## Passes of the loop -/

/-- The connection with another socket. -/
def plug (c : Connection) (sock : Sock) : Connection := { c with sock := sock }

variable {p : Params}

theorem getValues_maps (c : Connection) (u : Sock) (data : List Byte) :
    Maps (plug · u) (c.getValues p data) ((plug c u).getValues p data) := by
  refine .bind _ fun _ => .bind _ fun o => ?_
  have hhandler : (plug c u).getValueHandler = c.getValueHandler := rfl
  rw [hhandler]
  split
  · exact .bind _ fun _ => .pure rfl
  · exact .pure rfl
  · exact .crash _ _
  · exact .crash _ _

theorem settle_plug (c : Connection) (u : Sock) (requestId : Nat) (h : Handled) :
    (plug c u).settle requestId h = plug (c.settle requestId h) u := by
  cases h <;> rfl

/-- The handling of a record, with what it does to the connection. -/
def Dispatches (u : Sock) (x y : Tx Connection.Settled × Option Ipacket) : Prop :=
  y.2 = x.2 ∧ Maps (fun z => (plug z.1 u, z.2)) x.1 y.1

theorem dispatch_keeps (junk : Junk) (c : Connection) (u : Sock) (requestId : Nat) (k : Ipacket) :
    Keeps (Dispatches u) (c.dispatch p junk requestId k)
      ((plug c u).dispatch p junk requestId k) := by
  unfold Connection.dispatch
  split
  · have hslot : (plug c u).slot p junk requestId = c.slot p junk requestId := rfl
    rw [hslot]
    refine (handlePacket_keeps p junk _ k).same fun x => ?_
    refine .pure ⟨rfl, .bind _ fun h => .pure ?_⟩
    rw [settle_plug]
  · split
    · refine (takeContent_keeps k).same fun data => ?_
      exact .pure ⟨rfl, (getValues_maps c u data).comp fun _ => .pure rfl⟩
    · exact .pure ⟨rfl, .bind _ fun _ => .pure rfl⟩

/-- A pass, and the same pass where `more` has arrived too. -/
inductive Passes (more : List Item) : ConnectionThread.Turn → ConnectionThread.Turn → Prop where
  | blocked (y : ConnectionThread.Turn) : Passes more .blocked y
  | down (crash : Crash) (log : List Event) : Passes more (.down crash log) (.down crash log)
  | left (c : Connection) (u : Sock) (ahead : Ahead more c.sock u) :
      Passes more (.left c) (.left (plug c u))
  | handled (header : Header) (c : Connection) (u : Sock) (did : Option (Nat × Handled))
      (log : List Event) (ahead : Ahead more c.sock u) :
      Passes more (.handled header c did log) (.handled header (plug c u) did log)

theorem finish_keeps {more : List Item} {s t u : Sock} (hst : Ahead more s t) (φ : Fate)
    (header : Header) {x y : Tx Connection.Settled × Option Ipacket} (h : Dispatches u x y) :
    Passes more (Connection.finish φ header x.1 x.2 s) (Connection.finish φ header y.1 y.2 t) := by
  obtain ⟨hk, hmaps⟩ := h
  have hφ := hmaps φ
  unfold Connection.finish
  rw [hφ, hk]
  cases htx : x.1 φ with
  | mk result log =>
    cases result with
    | error crash => exact .down crash log
    | ok z =>
      obtain ⟨hthrows, hok⟩ := drop_keeps x.2 more s t hst
      cases hdrop : Connection.drop x.2 s with
      | blocked => exact .blocked _
      | throws e =>
        simp only [Except.map, hthrows e hdrop]
        exact .down _ log
      | ok _ s' =>
        obtain ⟨_, t', ht, -, hst'⟩ := hok _ s' hdrop
        simp only [Except.map, ht]
        exact .handled header { z.1 with sock := s' } t' z.2 log hst'

theorem turn_keeps {more : List Item} {c : Connection} {u : Sock} (h : Ahead more c.sock u)
    (junk : Junk) (φ : Fate) : Passes more (c.turn p junk φ) ((plug c u).turn p junk φ) := by
  obtain ⟨hthrows, hok⟩ := new_keeps p junk.header more c.sock u h
  have hsock : (plug c u).sock = u := rfl
  unfold Connection.turn
  rw [hsock]
  cases hnew : Ipacket.new p junk.header c.sock with
  | blocked => exact .blocked _
  | throws e =>
    simp only [hthrows e hnew]
    exact .down _ _
  | ok k s =>
    obtain ⟨k', t, ht, rfl, hst⟩ := hok k s hnew
    simp only [ht, hst.1]
    split
    · obtain ⟨hdthrows, hdok⟩ :=
        dispatch_keeps (p := p) junk c u (k.header.requestId.load p.host) k more s t hst
      cases hd : c.dispatch p junk (k.header.requestId.load p.host) k s with
      | blocked => exact .blocked _
      | throws e =>
        simp only [hdthrows e hd]
        exact .down _ _
      | ok x s₁ =>
        obtain ⟨y, t₁, hy, hxy, hst₁⟩ := hdok x s₁ hd
        simp only [hy]
        exact finish_keeps hst₁ φ k.header hxy
    · obtain ⟨hdthrows, hdok⟩ := destroy_keeps k more s t hst
      cases hd : k.destroy s with
      | blocked => exact .blocked _
      | throws e =>
        simp only [hdthrows e hd]
        exact .down _ _
      | ok _ s₁ =>
        obtain ⟨_, t₁, hy, -, hst₁⟩ := hdok _ s₁ hd
        simp only [hy]
        exact .left { c with sock := s₁ } t₁ hst₁

/-! ## Going away -/

theorem tearDown_maps (c : Connection) (u : Sock) (i : Nat) :
    Maps (plug · u) (c.tearDown p i) ((plug c u).tearDown p i) := by
  have hreq : (plug c u).requests = c.requests := rfl
  unfold Connection.tearDown
  rw [hreq]
  split
  · exact .pure rfl
  · split
    · exact .bind _ fun _ => .pure rfl
    · exact .bind _ fun _ => .pure rfl
    · exact .pure rfl

theorem clearSlot_maps (c : Connection) (u : Sock) (i : Nat) :
    Maps (plug · u) (c.clearSlot p i) ((plug c u).clearSlot p i) := by
  have hreq : (plug c u).requests = c.requests := rfl
  unfold Connection.clearSlot
  rw [hreq]
  split
  · exact .pure rfl
  · exact .bind _ fun _ => .pure rfl

theorem connection_maps (c : Connection) (u : Sock) :
    Maps (plug · u) (c.destroy p) ((plug c u).destroy p) :=
  .bind _ fun _ => .bind _ fun _ => .pure rfl

/-! ## The process -/

/-- `t` is `s`, with `ahead i` more arrived on connection `i`. -/
structure Lead (ahead : Nat → List Item) (s t : Sys) : Prop where
  same : t = { s with conns := t.conns }
  length : t.conns.length = s.conns.length
  conns : ∀ i n, s.conns[i]? = some n → ∃ u, t.conns[i]? = some ⟨plug n.connection u, n.pc⟩ ∧
    Ahead (ahead i) n.connection.sock u
  rest : ∀ i, s.conns.length ≤ i → ahead i = []

section
variable {ahead : Nat → List Item} {s t : Sys}

theorem Lead.pcs (h : Lead ahead s t) : t.conns.map Conn.pc = s.conns.map Conn.pc := by
  apply List.ext_getElem?
  intro i
  rw [List.getElem?_map, List.getElem?_map]
  cases hn : s.conns[i]? with
  | none =>
    rw [List.getElem?_eq_none_iff] at hn
    rw [List.getElem?_eq_none_iff.mpr (by rw [h.length]; exact hn)]
  | some n =>
    obtain ⟨u, hu, -⟩ := h.conns i n hn
    rw [hu]
    rfl

theorem Lead.live (h : Lead ahead s t) : t.live = s.live := by
  have hcount : ∀ s : Sys, s.live = (s.conns.map Conn.pc).countP (fun pc => pc ≠ .gone) := by
    intro s
    rw [List.countP_map]
    rfl
  rw [hcount, hcount, h.pcs]

/-- Connection `i` changes, and what has arrived early on it. -/
theorem Lead.update (h : Lead ahead s t) {i : Nat} {n : Conn} {u : Sock} {l : List Item}
    {s' t' : Sys} (hi : i < s.conns.length) (hu : Ahead l n.connection.sock u)
    (hs : s'.conns = s.conns.set i n) (ht : t'.conns = t.conns.set i ⟨plug n.connection u, n.pc⟩)
    (hsame : t' = { s' with conns := t'.conns }) : Lead (Function.update ahead i l) s' t' where
  same := hsame
  length := by rw [hs, ht, List.length_set, List.length_set, h.length]
  conns := by
    intro j m hm
    rw [hs] at hm
    rw [ht]
    by_cases hj : i = j
    · subst hj
      rw [List.getElem?_set_self hi] at hm
      cases hm
      rw [Function.update_self]
      exact ⟨u, List.getElem?_set_self (by rw [h.length]; exact hi), hu⟩
    · rw [List.getElem?_set_ne hj] at hm
      rw [Function.update_of_ne (Ne.symm hj), List.getElem?_set_ne hj]
      exact h.conns j m hm
  rest := by
    intro j hj
    rw [hs, List.length_set] at hj
    rw [Function.update_of_ne (by omega)]
    exact h.rest j hj

/-- No connection changes. -/
theorem Lead.keep (h : Lead ahead s t) {s' t' : Sys} (hs : s'.conns = s.conns)
    (ht : t'.conns = t.conns) (hsame : t' = { s' with conns := t'.conns }) : Lead ahead s' t' where
  same := hsame
  length := by rw [hs, ht, h.length]
  conns := by rw [hs, ht]; exact h.conns
  rest := by rw [hs]; exact h.rest

/-- Connection `i` changes on both sides. -/
theorem Lead.set (h : Lead ahead s t) {i : Nat} {n : Conn} {u : Sock} {s' t' : Sys}
    (hu : Ahead (ahead i) n.connection.sock u) (hs : s'.conns = s.conns.set i n)
    (ht : t'.conns = t.conns.set i ⟨plug n.connection u, n.pc⟩)
    (hsame : t' = { s' with conns := t'.conns }) : Lead ahead s' t' := by
  by_cases hi : i < s.conns.length
  · have hset := h.update hi hu hs ht hsame
    rwa [Function.update_eq_self] at hset
  · rw [List.set_eq_of_length_le (by omega)] at hs
    rw [List.set_eq_of_length_le (by rw [h.length]; omega)] at ht
    exact h.keep hs ht hsame

/-- A new connection, on which nothing has arrived yet. -/
theorem Lead.accept (h : Lead ahead s t) (p : Params) (junk : Junk) :
    Lead ahead
      { s with
        conns := s.conns ++ [⟨.new p junk, .reading⟩]
        socketActive := incr s.socketActive }
      { t with
        conns := t.conns ++ [⟨.new p junk, .reading⟩]
        socketActive := incr t.socketActive } where
  same := by rw [h.same]
  length := by rw [List.length_append, List.length_append, h.length]
  conns := by
    intro i n hn
    rcases Nat.lt_trichotomy i s.conns.length with hlt | rfl | hgt
    · rw [List.getElem?_append_left hlt] at hn
      obtain ⟨u, hu, hahead⟩ := h.conns i n hn
      exact ⟨u, by rw [List.getElem?_append_left (by rw [h.length]; exact hlt), hu], hahead⟩
    · rw [List.getElem?_concat_length] at hn
      cases hn
      have hnew : Connection.new p junk = plug (.new p junk) (Connection.new p junk).sock := rfl
      refine ⟨_, by rw [← h.length, List.getElem?_concat_length, ← hnew], ?_⟩
      rw [h.rest _ (Nat.le_refl _)]
      exact ⟨rfl, (List.append_nil _).symm⟩
    · rw [List.getElem?_eq_none (by rw [List.length_append, List.length_singleton]; omega)] at hn
      cases hn
  rest := by
    intro i hi
    rw [List.length_append, List.length_singleton] at hi
    exact h.rest i (by omega)

theorem Lead.crash (h : Lead ahead s t) (c : Crash) : Lead ahead (s.crash c) (t.crash c) := by
  obtain ⟨conns, rfl⟩ : ∃ conns, t = { s with conns := conns } := ⟨_, h.same⟩
  exact h.keep rfl rfl rfl

theorem Lead.setWorker (h : Lead ahead s t) (w : Nat) (pc : WorkerPc) :
    Lead ahead (s.setWorker w pc) (t.setWorker w pc) := by
  obtain ⟨conns, rfl⟩ : ∃ conns, t = { s with conns := conns } := ⟨_, h.same⟩
  exact h.keep rfl rfl rfl

theorem Lead.record (h : Lead ahead s t) (ref : Ref) (ms : List Mark) :
    Lead ahead (s.record ref ms) (t.record ref ms) := by
  obtain ⟨conns, rfl⟩ : ∃ conns, t = { s with conns := conns } := ⟨_, h.same⟩
  exact h.keep rfl rfl rfl

theorem Lead.setConn (h : Lead ahead s t) {i : Nat} {n : Conn} {u : Sock}
    (hu : Ahead (ahead i) n.connection.sock u) :
    Lead ahead (s.setConn i n) (t.setConn i ⟨plug n.connection u, n.pc⟩) := by
  obtain ⟨conns, rfl⟩ : ∃ conns, t = { s with conns := conns } := ⟨_, h.same⟩
  exact h.set hu rfl rfl rfl

theorem Lead.notifyOne (h : Lead ahead s t) {notified : Option Nat} {s' : Sys}
    (hs : s.notifyOne notified = some s') :
    ∃ t', t.notifyOne notified = some t' ∧ Lead ahead s' t' := by
  have hworkers : t.workers = s.workers := by rw [h.same]
  unfold Sys.notifyOne at hs ⊢
  rw [hworkers]
  cases notified with
  | none =>
    simp only at hs ⊢
    split at hs
    · cases hs
    · rename_i hno
      cases hs
      exact ⟨t, if_neg hno, h⟩
  | some w =>
    simp only at hs ⊢
    split at hs
    · rename_i hw
      cases hs
      exact ⟨_, if_pos hw, h.setWorker w .notified⟩
    · cases hs

theorem reading_keeps (h : Lead ahead s t) {i : Nat} {n : Conn} {u : Sock}
    (hu : Ahead (ahead i) n.connection.sock u) {junk : Junk} {φ : Fate} {s' : Sys}
    (hs : s.reading p i n junk φ = some s') :
    ∃ t', t.reading p i ⟨plug n.connection u, n.pc⟩ junk φ = some t' ∧ Lead ahead s' t' := by
  have hinsane : (plug n.connection u).sock.insane = n.connection.sock.insane := hu.1
  have hturn := turn_keeps (p := p) hu junk φ
  unfold Sys.reading at hs ⊢
  simp only [hinsane]
  split at hs
  · rename_i hsane
    rw [if_pos hsane]
    cases hx : n.connection.turn p junk φ with
    | blocked =>
      simp only [hx] at hs
      cases hs
    | down crash log =>
      rw [hx] at hturn
      simp only [hx] at hs
      cases hs
      generalize (plug n.connection u).turn p junk φ = y at hturn ⊢
      cases hturn
      exact ⟨_, rfl, h.crash crash⟩
    | left c =>
      rw [hx] at hturn
      simp only [hx] at hs
      cases hs
      generalize (plug n.connection u).turn p junk φ = y at hturn ⊢
      cases hturn with
      | left c u' hahead => exact ⟨_, rfl, h.setConn (n := ⟨c, .tearingDown 0⟩) hahead⟩
    | handled header c did log =>
      rw [hx] at hturn
      simp only [hx] at hs
      cases hs
      generalize (plug n.connection u).turn p junk φ = y at hturn ⊢
      cases hturn with
      | handled header c u' did log hahead =>
        refine ⟨_, rfl, ?_⟩
        cases did with
        | none => exact h.setConn (n := ⟨c, .reading⟩) hahead
        | some x =>
          obtain ⟨slot, hd⟩ := x
          exact Lead.record (h.setConn (n := ⟨c, _⟩) hahead) _ _
  · rename_i hsane
    rw [if_neg hsane]
    cases hs
    exact ⟨_, rfl, h.setConn (n := { n with pc := .tearingDown 0 }) hu⟩

theorem resetParams_plug (c : Connection) (u : Sock) (slot : Nat) :
    Sys.resetParams (plug c u) slot = plug (Sys.resetParams c slot) u ∧
      (Sys.resetParams c slot).sock = c.sock := by
  have hreq : (plug c u).requests = c.requests := rfl
  unfold Sys.resetParams
  rw [hreq]
  cases c.requests.getD slot none with
  | none => exact ⟨rfl, rfl⟩
  | some r => exact ⟨rfl, rfl⟩

theorem tearDown_sock {c c' : Connection} {i : Nat} {φ : Fate} {log : List Event}
    (h : c.tearDown p i φ = (.ok c', log)) : c'.sock = c.sock := by
  cases Connection.tearDown_ok h <;> rfl

theorem clearSlot_sock {c c' : Connection} {i : Nat} {φ : Fate} {log : List Event}
    (h : c.clearSlot p i φ = (.ok c', log)) : c'.sock = c.sock := by
  rcases Connection.clearSlot_ok h with ⟨-, rfl, -⟩ | ⟨r, -, -, rfl⟩ <;> rfl

theorem tearingDown_keeps (h : Lead ahead s t) {i : Nat} {n : Conn} {u : Sock}
    (hu : Ahead (ahead i) n.connection.sock u) (k : Nat) (φ : Fate) :
    Lead ahead (s.tearingDown p i n k φ)
      (t.tearingDown p i ⟨plug n.connection u, n.pc⟩ k φ) := by
  have hreq : (plug n.connection u).requests = n.connection.requests := rfl
  have hmaps := tearDown_maps (p := p) n.connection u k
  unfold Sys.tearingDown
  simp only [hreq]
  split
  · cases hx : n.connection.tearDown p k φ with
    | mk result log =>
      cases result with
      | error c =>
        rw [hmaps.error hx]
        exact h.crash c
      | ok c =>
        rw [hmaps.ok hx]
        rw [← tearDown_sock hx] at hu
        exact Lead.record (h.setConn (n := ⟨c, .tearingDown (k + 1)⟩) hu) _ _
  · exact h.setConn (n := { n with pc := .waiting }) hu

theorem clearing_keeps (h : Lead ahead s t) {i : Nat} {n : Conn} {u : Sock}
    (hu : Ahead (ahead i) n.connection.sock u) (k : Nat) (φ : Fate) :
    Lead ahead (s.clearing p i n k φ) (t.clearing p i ⟨plug n.connection u, n.pc⟩ k φ) := by
  have hreq : (plug n.connection u).requests = n.connection.requests := rfl
  have hmaps := clearSlot_maps (p := p) n.connection u k
  have hdestroy := connection_maps (p := p) n.connection u
  unfold Sys.clearing
  simp only [hreq]
  split
  · cases hx : n.connection.clearSlot p k φ with
    | mk result log =>
      cases result with
      | error c =>
        rw [hmaps.error hx]
        exact h.crash c
      | ok c =>
        rw [hmaps.ok hx]
        rw [← clearSlot_sock hx] at hu
        exact Lead.record (h.setConn (n := ⟨c, .clearing (k + 1)⟩) hu) _ _
  · cases hx : n.connection.destroy p φ with
    | mk result log =>
      cases result with
      | error c =>
        rw [hdestroy.error hx]
        exact h.crash c
      | ok c =>
        rw [hdestroy.ok hx]
        obtain ⟨o, rfl⟩ := Connection.destroy_ok hx
        obtain ⟨conns, rfl⟩ : ∃ conns, t = { s with conns := conns } := ⟨_, h.same⟩
        have hn : Ahead (ahead i) (⟨{ n.connection with getValueResultStream := o }, .gone⟩ :
          Conn).connection.sock u := hu
        exact h.set hn rfl rfl rfl

theorem connStep_keeps (h : Lead ahead s t) {i : Nat} {n : Conn} {u : Sock}
    (hu : Ahead (ahead i) n.connection.sock u) {junk : Junk} {φ : Fate} {notified : Option Nat}
    {s' : Sys} (hs : s.connStep p i n junk φ notified = some s') :
    ∃ t', t.connStep p i ⟨plug n.connection u, n.pc⟩ junk φ notified = some t' ∧
      Lead ahead s' t' := by
  cases hpc : n.pc with
  | reading =>
    simp only [Sys.connStep, hpc] at hs ⊢
    have hx := reading_keeps h hu hs
    rwa [hpc] at hx
  | pushing ref =>
    simp only [Sys.connStep, hpc] at hs ⊢
    cases hs
    obtain ⟨conns, rfl⟩ : ∃ conns, t = { s with conns := conns } := ⟨_, h.same⟩
    refine ⟨_, rfl, ?_⟩
    have hn : Ahead (ahead i) ({ n with pc := .locking ref } : Conn).connection.sock u := hu
    exact h.set hn rfl rfl rfl
  | locking ref =>
    simp only [Sys.connStep, hpc] at hs ⊢
    obtain ⟨conns, rfl⟩ : ∃ conns, t = { s with conns := conns } := ⟨_, h.same⟩
    have hn : Ahead (ahead i) ({ n with pc := .resetting ref } : Conn).connection.sock u := hu
    have hset : Lead ahead
        { s.setConn i { n with pc := .resetting ref } with queue := s.queue ++ [ref] }
        { Sys.setConn { s with conns := conns } i ⟨plug n.connection u, .resetting ref⟩ with
          queue := s.queue ++ [ref] } := h.set hn rfl rfl rfl
    exact hset.notifyOne hs
  | resetting ref =>
    simp only [Sys.connStep, hpc] at hs ⊢
    cases hs
    obtain ⟨hplug, hsock⟩ := resetParams_plug n.connection u ref.slot
    rw [hplug]
    rw [← hsock] at hu
    exact ⟨_, rfl, h.setConn (n := ⟨_, .reading⟩) hu⟩
  | tearingDown k =>
    simp only [Sys.connStep, hpc] at hs ⊢
    cases hs
    have hx := tearingDown_keeps (p := p) h hu k φ
    rw [hpc] at hx
    exact ⟨_, rfl, hx⟩
  | waiting =>
    simp only [Sys.connStep, hpc] at hs ⊢
    have hactive : (plug n.connection u).requestActives = n.connection.requestActives := rfl
    rw [hactive]
    split at hs
    · rename_i hzero
      cases hs
      rw [if_pos hzero]
      exact ⟨_, rfl, h.setConn (n := { n with pc := .clearing 0 }) hu⟩
    · cases hs
  | clearing k =>
    simp only [Sys.connStep, hpc] at hs ⊢
    cases hs
    have hx := clearing_keeps (p := p) h hu k φ
    rw [hpc] at hx
    exact ⟨_, rfl, hx⟩
  | gone =>
    simp only [Sys.connStep, hpc] at hs
    cases hs

/-! ## Workers -/

theorem Lead.request? (h : Lead ahead s t) (ref : Ref) : t.request? ref = s.request? ref := by
  unfold Sys.request?
  cases hn : s.conns[ref.conn]? with
  | none =>
    rw [List.getElem?_eq_none_iff, ← h.length, ← List.getElem?_eq_none_iff] at hn
    rw [hn]
  | some n =>
    obtain ⟨u, hu, -⟩ := h.conns _ n hn
    rw [hu]
    rfl

theorem Lead.setRequest (h : Lead ahead s t) (ref : Ref) (r : Request) :
    Lead ahead (s.setRequest ref r) (t.setRequest ref r) := by
  unfold Sys.setRequest
  cases hn : s.conns[ref.conn]? with
  | none =>
    rw [List.getElem?_eq_none_iff, ← h.length, ← List.getElem?_eq_none_iff] at hn
    rw [hn]
    exact h
  | some n =>
    obtain ⟨u, hu, hahead⟩ := h.conns _ n hn
    rw [hu]
    exact h.setConn (n := { n with connection :=
      { n.connection with requests := n.connection.requests.set ref.slot (some r) } }) hahead

theorem Lead.useRequest (h : Lead ahead s t) {w : Nat} {ref : Ref} {φ : Fate}
    {use : Request → Option (Tx (Request × WorkerPc × Option Int))} {s' : Sys}
    (hs : s.useRequest w ref φ use = some s') :
    ∃ t', t.useRequest w ref φ use = some t' ∧ Lead ahead s' t' := by
  unfold Sys.useRequest at hs ⊢
  rw [h.request? ref]
  cases hr : s.request? ref with
  | none =>
    simp only [hr] at hs ⊢
    cases hs
    exact ⟨_, rfl, h.crash _⟩
  | some r =>
    simp only [hr] at hs ⊢
    cases hu : use r with
    | none =>
      simp only [hu] at hs
      cases hs
    | some tx =>
      simp only [hu] at hs ⊢
      cases hx : tx φ with
      | mk result log =>
        cases result with
        | error c =>
          simp only [hx] at hs ⊢
          cases hs
          exact ⟨_, rfl, h.crash _⟩
        | ok x =>
          simp only [hx] at hs ⊢
          cases hs
          exact ⟨_, rfl, ((h.setRequest ref _).setWorker w _).record ref _⟩

theorem Lead.pop (h : Lead ahead s t) (w : Nat) : Lead ahead (s.pop w) (t.pop w) := by
  have hqueue : t.queue = s.queue := by rw [h.same]
  unfold Sys.pop
  rw [hqueue]
  split
  · exact h.setWorker w .parked
  · rename_i ref queue hq
    obtain ⟨conns, rfl⟩ : ∃ conns, t = { s with conns := conns } := ⟨_, h.same⟩
    exact h.keep rfl rfl rfl

theorem Lead.decrement (h : Lead ahead s t) (w : Nat) (ref : Ref) :
    Lead ahead (s.decrement w ref) (t.decrement w ref) := by
  unfold Sys.decrement
  cases hn : s.conns[ref.conn]? with
  | none =>
    rw [List.getElem?_eq_none_iff, ← h.length, ← List.getElem?_eq_none_iff] at hn
    rw [hn]
    exact h.crash _
  | some n =>
    obtain ⟨u, hu, hahead⟩ := h.conns _ n hn
    rw [hu]
    simp only
    split
    · exact h.crash _
    · exact Lead.setWorker (h.setConn (n := { n with connection :=
        { n.connection with
          requestActives := decr n.connection.requestActives } }) hahead) w .loopTop

theorem workerStep_keeps (h : Lead ahead s t) {w : Nat} {pc : WorkerPc} {φ : Fate} {s' : Sys}
    (hs : s.workerStep p w pc φ = some s') :
    ∃ t', t.workerStep p w pc φ = some t' ∧ Lead ahead s' t' := by
  have hlistening : t.socketListening = s.socketListening := by rw [h.same]
  have hactive : t.socketActive = s.socketActive := by rw [h.same]
  cases pc with
  | loopTop =>
    cases hs
    simp only [Sys.workerStep, hlistening]
    exact ⟨_, rfl, h.setWorker w _⟩
  | checkActive =>
    cases hs
    simp only [Sys.workerStep, hactive]
    exact ⟨_, rfl, h.setWorker w _⟩
  | popping | notified | woken =>
    cases hs
    exact ⟨_, rfl, h.pop w⟩
  | decrementing ref =>
    cases hs
    exact ⟨_, rfl, h.decrement w ref⟩
  | parked | running | exited => cases hs
  | popped | closingCout | closingCerr | sending =>
    simp only [Sys.workerStep] at hs ⊢
    exact h.useRequest hs

theorem step_keeps (h : Lead ahead s t) {a : System.Act} (ha : ∀ i r, a ≠ .arrive i r)
    {s' : Sys} (hs : Sys.step p s a = some s') :
    ∃ t', Sys.step p t a = some t' ∧ Lead ahead s' t' := by
  have hdown : t.down = s.down := by rw [h.same]
  have hmain : t.main = s.main := by rw [h.same]
  have hlistening : t.socketListening = s.socketListening := by rw [h.same]
  have hworkers : t.workers = s.workers := by rw [h.same]
  unfold Sys.step at hs ⊢
  rw [hdown]
  split at hs
  · cases hs
  · rename_i hup
    rw [if_neg hup]
    cases a with
    | arrive i r => exact absurd rfl (ha i r)
    | accept junk =>
      simp only [hmain, hlistening, h.live] at hs ⊢
      split at hs
      · rename_i hgo
        cases hs
        rw [if_pos hgo]
        have haccept := h.accept p junk
        rw [hmain, hlistening, hdown] at haccept
        exact ⟨_, rfl, haccept⟩
      · cases hs
    | closeListening | leaveLoop | join =>
      simp only [hmain, hlistening, hworkers] at hs ⊢
      split at hs
      · rename_i hgo
        cases hs
        rw [if_pos hgo]
        obtain ⟨conns, rfl⟩ : ∃ conns, t = { s with conns := conns } := ⟨_, h.same⟩
        exact ⟨_, rfl, h.keep rfl rfl rfl⟩
      · cases hs
    | conn i junk φ notified =>
      simp only at hs ⊢
      cases hn : s.conns[i]? with
      | none =>
        simp only [hn] at hs
        cases hs
      | some n =>
        obtain ⟨u, hu, hahead⟩ := h.conns i n hn
        simp only [hn] at hs
        simp only [hu]
        exact connStep_keeps h hahead hs
    | worker w φ =>
      simp only [hworkers] at hs ⊢
      split at hs
      · cases hs
      · exact workerStep_keeps h hs
    | wake w =>
      simp only [hworkers] at hs ⊢
      split at hs
      · rename_i hw
        cases hs
        rw [if_pos hw]
        exact ⟨_, rfl, h.setWorker w .woken⟩
      · cases hs
    | app w op φ | finish w how φ =>
      simp only [hworkers] at hs ⊢
      split at hs
      · exact h.useRequest hs
      · cases hs

end

/-! ## Arrivals -/

/-- How many connections there are, and how much of each the second run has got before
the first. -/
structure Pending where
  known : Nat
  ahead : Nat → List Item

/-- Both runs do the same. -/
def Both (x : Pending) (a : System.Act) (y : Pending) : Prop :=
  match a with
  | .arrive _ _ => False
  | .accept _ => y = { x with known := x.known + 1 }
  | _ => y = x

/-- A segment comes in the second run. -/
def Early (x : Pending) (b : System.Act) (y : Pending) : Prop :=
  ∃ i r, b = .arrive i r ∧ i < x.known ∧
    y = { x with ahead := Function.update x.ahead i (x.ahead i ++ items r) }

/-- A segment comes in the first run, whose items the second has got already. -/
def Late (x : Pending) (a : System.Act) (y : Pending) : Prop :=
  ∃ i r more, a = .arrive i r ∧ x.ahead i = items r ++ more ∧
    y = { x with ahead := Function.update x.ahead i more }

/-- What came early comes in the first run too. -/
theorem arrives {z x : Pending} {as bs : List System.Act} (h : Paced Both Early Late z x as bs)
    (hz : z.ahead = fun _ => []) {i : Nat} (hx : x.ahead i ≠ []) : ∃ r, .arrive i r ∈ as := by
  induction h with
  | done => exact absurd (congrFun hz i) hx
  | both a moves rest ih =>
    rename_i x y as bs
    have hahead : y.ahead = x.ahead := by
      cases a with
      | arrive i r => cases moves
      | _ => rw [moves]
    obtain ⟨r, hr⟩ := ih (by rwa [hahead])
    exact ⟨r, List.mem_cons_of_mem _ hr⟩
  | early b moves rest ih =>
    obtain ⟨j, r, -, -, rfl⟩ := moves
    apply ih
    by_cases hj : i = j
    · subst hj
      simp only [Function.update_self]
      exact List.append_ne_nil_of_left_ne_nil hx _
    · simp only [Function.update_of_ne hj]
      exact hx
  | late a moves rest ih =>
    obtain ⟨j, r, more, rfl, -, rfl⟩ := moves
    by_cases hj : i = j
    · exact ⟨r, by rw [hj]; exact List.mem_cons_self⟩
    · obtain ⟨r', hr⟩ := ih (by simpa only [Function.update_of_ne hj] using hx)
      exact ⟨r', List.mem_cons_of_mem _ hr⟩

/-- Connections stay in their places, and those that were erased stay so. -/
theorem move_places {t t' : Control} {a : System.Act} {o : Option (Monitor.Op Ref Nat)}
    (h : Move t a o t') : t.places.length ≤ t'.places.length ∧
      ∀ i : Nat, t.places[i]? = some .gone → t'.places[i]? = some .gone := by
  have hset : ∀ (places : List ConnPc) (j : Nat) pc pc', places[j]? = some pc → pc ≠ .gone →
      places.length ≤ (places.set j pc').length ∧
        ∀ i : Nat, places[i]? = some .gone → (places.set j pc')[i]? = some .gone := by
    intro places j pc pc' hj hpc
    refine ⟨Nat.le_of_eq List.length_set.symm, ?_⟩
    intro i hi
    rw [List.getElem?_set_ne, hi]
    rintro rfl
    rw [hj] at hi
    cases hi
    exact hpc rfl
  cases h with
  | accept junk accepting listening room =>
    refine ⟨by rw [List.length_append]; omega, ?_⟩
    intro i hi
    rw [List.getElem?_append_left (List.getElem?_eq_some_iff.mp hi).1, hi]
  | goes a i pc pc' place from_plain to_plain =>
    refine hset _ _ _ _ place ?_
    rintro rfl
    cases from_plain
  | backlog a i ref place => exact hset _ _ _ _ place nofun
  | push a i ref workers place notifies => exact hset _ _ _ _ place nofun
  | erase i k junk φ notified place => exact hset _ _ _ _ place nofun
  | _ => exact ⟨Nat.le_refl _, fun _ hi => hi⟩

/-- Nothing arrives on a connection that was erased. -/
theorem gone_silent {s u : Sys} {as : List System.Act} {i : Nat} {r : ReadResult}
    (h : run (Sys.step p) s as = some u) (hgone : (control s).places[i]? = some .gone) :
    .arrive i r ∉ as := by
  induction as generalizing s with
  | nil => exact List.not_mem_nil
  | cons a as ih =>
    obtain ⟨s', hs, hrest⟩ := run_cons h
    rw [List.mem_cons, not_or]
    refine ⟨?_, ih hrest ((move_places (step_move hs)).2 i hgone)⟩
    rintro rfl
    have hpc : s.conns[i]?.map Conn.pc = some .gone := by rw [← List.getElem?_map]; exact hgone
    obtain ⟨n, hn, hpc⟩ := Option.map_eq_some_iff.mp hpc
    unfold Sys.step at hs
    simp only [hn, hpc, if_true] at hs
    split at hs <;> cases hs

/-- The second run is ahead of the first by `x`. -/
def Behind (x : Pending) (s t : Sys) : Prop := Lead x.ahead s t ∧ x.known ≤ s.conns.length

theorem places_length (s : Sys) : (control s).places.length = s.conns.length := List.length_map _

theorem both_behind {x y : Pending} {a : System.Act} {s t s' : Sys} (h : Behind x s t)
    (ha : Both x a y) (hs : Sys.step p s a = some s') :
    ∃ t', Sys.step p t a = some t' ∧ Behind y s' t' := by
  obtain ⟨hlead, hknown⟩ := h
  have harrive : ∀ i r, a ≠ .arrive i r := by
    rintro i r rfl
    cases ha
  obtain ⟨t', ht, hlead'⟩ := step_keeps hlead harrive hs
  have hlen := (move_places (step_move hs)).1
  rw [places_length, places_length] at hlen
  refine ⟨t', ht, ?_⟩
  cases a with
  | accept junk =>
    have hy : y = { x with known := x.known + 1 } := ha
    have hgrows : s'.conns.length = s.conns.length + 1 := by
      unfold Sys.step at hs
      split at hs
      · cases hs
      · simp only at hs
        split at hs
        · cases hs
          exact List.length_append
        · cases hs
    rw [hy]
    exact ⟨hlead', by rw [hgrows]; exact Nat.succ_le_succ hknown⟩
  | arrive i r => cases ha
  | _ =>
    have hy : y = x := ha
    rw [hy]
    exact ⟨hlead', Nat.le_trans hknown hlen⟩

theorem early_behind {x y z : Pending} {b : System.Act} {s t u : Sys} {as bs : List System.Act}
    (hz : z.ahead = fun _ => []) (h : Behind x s t) (hb : Early x b y)
    (hpace : Paced Both Early Late z y as bs) (hs : run (Sys.step p) s as = some u) :
    ∃ t', Sys.step p t b = some t' ∧ Behind y s t' := by
  obtain ⟨hlead, hknown⟩ := h
  obtain ⟨i, r, rfl, hi, rfl⟩ := hb
  have hlt : i < s.conns.length := Nat.lt_of_lt_of_le hi hknown
  have hn : s.conns[i]? = some s.conns[i] := List.getElem?_eq_getElem hlt
  obtain ⟨v, hv, hinsane, hitems⟩ := hlead.conns i _ hn
  have hlast : Function.update x.ahead i (x.ahead i ++ items r) i ≠ [] := by
    rw [Function.update_self]
    exact List.append_ne_nil_of_right_ne_nil _ (items_ne_nil r)
  obtain ⟨r', hr'⟩ := arrives hpace hz hlast
  have hgone : s.conns[i].pc ≠ .gone := by
    intro hpc
    have hplace : (control s).places[i]? = some .gone := by rw [place_of hn, hpc]
    exact gone_silent hs hplace hr'
  have hup : t.down = none := by
    rw [hlead.same]
    cases as with
    | nil => cases hr'
    | cons a as =>
      obtain ⟨s', hstep, -⟩ := run_cons hs
      exact (Sys.step_effect hstep).1
  let v' : Sock := { v with reads := v.reads ++ [r] }
  have hv' : Ahead (x.ahead i ++ items r) s.conns[i].connection.sock v' := by
    refine ⟨hinsane, ?_⟩
    rw [List.flatMap_append, hitems, List.flatMap_singleton, List.append_assoc]
  refine ⟨t.setConn i ⟨plug s.conns[i].connection v', s.conns[i].pc⟩, ?_,
    hlead.update hlt hv' (set_same hn).symm rfl ?_, hknown⟩
  · unfold Sys.step
    simp only [hup, hv]
    exact if_neg hgone
  · rw [hlead.same]
    rfl

theorem late_behind {x y : Pending} {a : System.Act} {s t s' : Sys} (h : Behind x s t)
    (ha : Late x a y) (hs : Sys.step p s a = some s') : Behind y s' t := by
  obtain ⟨hlead, hknown⟩ := h
  obtain ⟨i, r, more, rfl, hx, rfl⟩ := ha
  unfold Sys.step at hs
  split at hs
  · cases hs
  · simp only at hs
    split at hs
    · cases hs
    · rename_i n hn
      split at hs
      · cases hs
      · cases hs
        obtain ⟨u, hu, hinsane, hitems⟩ := hlead.conns i n hn
        have hlt : i < s.conns.length := (List.getElem?_eq_some_iff.mp hn).1
        refine ⟨hlead.update (n := { n with connection := { n.connection with
          sock := { n.connection.sock with reads := n.connection.sock.reads ++ [r] } } }) (u := u)
          hlt ⟨hinsane, ?_⟩ rfl (set_same hu).symm hlead.same, ?_⟩
        · rw [hitems, hx, List.flatMap_append, List.flatMap_singleton, List.append_assoc]
        · simp only [Sys.setConn_conns, List.length_set]
          exact hknown

/-! ## The result -/

theorem init_lead (m : Nat) : Lead (fun _ => []) (.init m) (.init m) where
  same := rfl
  length := rfl
  conns := by
    intro i n hn
    cases hn
  rest := by
    intro i hi
    rfl

/-- Whatever way the input is cut, and however late it came in the first run: if in the
second the same comes no later, all threads can do the same, and they leave the same
requests, queue, workers and log. -/
theorem segments {m n : Nat} {as bs : List System.Act} {s : Sys}
    (hpace : Paced Both Early Late ⟨n, fun _ => []⟩ ⟨0, fun _ => []⟩ as bs)
    (h : run (Sys.step p) (.init m) as = some s) :
    ∃ t, run (Sys.step p) (.init m) bs = some t ∧ Lead (fun _ => []) s t ∧ t.log = s.log := by
  have hstart : Behind ⟨0, fun _ => []⟩ (.init m) (.init m) := ⟨init_lead m, Nat.le_refl _⟩
  have hboth : ∀ x y a s t s', Behind x s t → Both x a y → Sys.step p s a = some s' →
      ∃ t', Sys.step p t a = some t' ∧ Behind y s' t' := fun _ _ _ _ _ _ => both_behind
  have hlate : ∀ x y a s t s', Behind x s t → Late x a y → Sys.step p s a = some s' →
      Behind y s' t := fun _ _ _ _ _ _ => late_behind
  obtain ⟨t, ht, hlead, -⟩ := run_paced hboth
    (fun _ _ _ _ _ _ _ _ hb ha hp hs => early_behind rfl hb ha hp hs) hlate hpace hstart h
  exact ⟨t, ht, hlead, by rw [hlead.same]⟩

/-- What the threads do in `served` once the input is there. -/
def serving : List System.Act :=
  connMoves 5 ++ workerMoves 3 ++ [.finish 0 (.returns 0) Fate.sent] ++ workerMoves 4

/-- The input of `served`, cut after three bytes. -/
def recut : List System.Act :=
  [.accept .zeros, .arrive 0 (.data 1 [1, 1]),
    .arrive 0 (.data 0 [0, 8, 0, 0, 0, 1, 0, 0, 0, 0, 0, 0, 1, 4, 1, 0, 0, 0, 0, 0])] ++ serving

theorem serving_same (x : Pending) : ∀ a ∈ serving, Both x a x := by
  intro a ha
  simp only [serving, connMoves, workerMoves, List.mem_append, List.mem_replicate,
    List.mem_singleton] at ha
  rcases ha with ((⟨-, rfl⟩ | ⟨-, rfl⟩) | rfl) | ⟨-, rfl⟩ <;> rfl

theorem segments_recut : ∃ s t, run (Sys.step .standard) (.init 1) served = some s ∧
    run (Sys.step .standard) (.init 1) recut = some t ∧ t.log = s.log := by
  obtain ⟨s, hs⟩ := served_runs
  have hdone : Paced Both Early Late ⟨1, fun _ => []⟩ ⟨1, fun _ => []⟩ serving serving :=
    .same (serving_same _)
  have hpace : Paced Both Early Late ⟨1, fun _ => []⟩ ⟨0, fun _ => []⟩ served recut := by
    refine .both _ rfl (.early _ ⟨0, _, rfl, Nat.one_pos, rfl⟩
      (.early _ ⟨0, _, rfl, Nat.one_pos, rfl⟩ (.late _ ⟨0, _, items paramsEnd, rfl, ?_, rfl⟩
        (.late _ ⟨0, _, [], rfl, ?_, rfl⟩ ?_))))
    · simp only [Function.update_self]
      decide
    · simp only [Function.update_self]
      decide
    · simp only [Function.update_idem, Function.update_eq_self]
      exact hdone
  obtain ⟨t, ht, -, hlog⟩ := segments hpace hs
  exact ⟨s, t, hs, ht, hlog⟩

end Tfcgi.Segments
