import Tfcgi.System

/-!
# The content of records that are cut short

`feeds` are the bytes that a pass of `thread_func` gives to a parser or to the
queue of an `istreambuf`. `arriving` is what the socket gives before an end of
file or a fatal error.

* `turn_feeds`: a record whose content is taken is given in its full length, with
  zeros behind the bytes that came;
* `genuine_iff`: a run delivers only bytes that came exactly when no record whose
  content is taken is cut short.
-/

namespace Tfcgi.Content

open Tfcgi.Run Tfcgi.HostOrder Tfcgi.Protocol Tfcgi.NameValuePairs Tfcgi.Socket
open Tfcgi.Iostream Tfcgi.RequestSlot Tfcgi.ConnectionThread Tfcgi.System

/-! ## The bytes that arrive -/

/-- The bytes before an end of file or an error that ends a read. -/
def arriving : List ReadResult → List Byte
  | [] => []
  | .data b bs :: rs => b :: bs ++ arriving rs
  | .eof :: _ => []
  | .error e :: rs => if retried e then arriving rs else []

theorem recvLoop_arriving {size : Nat} {insane : Bool} {rs : List ReadResult} {got : List Byte}
    {s : Sock} (h : recvLoop size insane rs = some (got, s)) : got = (arriving rs).take size := by
  fun_induction recvLoop size insane rs generalizing got s with
  | case1 insane rs =>
    cases h
    rw [List.take_zero]
  | case2 => cases h
  | case3 size insane b bs rs hd ih =>
    obtain ⟨⟨got', s'⟩, hr, he⟩ := Option.map_eq_some_iff.mp h
    cases he
    have hbs : bs.length ≤ size := by simpa using hd
    rw [ih hr, arriving, List.cons_append, List.cons_append, List.take_succ_cons, List.take_append,
      List.take_of_length_le hbs]
  | case4 size insane b bs rs c cs hd =>
    cases h
    have hbs : size ≤ bs.length := by
      by_contra hle
      rw [List.drop_of_length_le (by omega)] at hd
      cases hd
    rw [arriving, List.cons_append, List.take_succ_cons, List.take_append_of_le_length hbs]
  | case5 =>
    cases h
    rfl
  | case6 size insane e rs hr ih =>
    rw [arriving, if_pos hr]
    exact ih h
  | case7 size insane e rs hr =>
    cases h
    rw [arriving, if_neg hr, List.take_nil]

/-- A buffer of `size` zeros into which `got` was read. -/
def filled (size : Nat) (got : List Byte) : List Byte := overwrite (List.replicate size 0) 0 got

/-- The zeros show unless all bytes came. -/
theorem filled_complete {size : Nat} {got : List Byte} (h : got.length ≤ size) :
    filled size got <+: got ↔ size ≤ got.length := by
  have hlen : (filled size got).length = size := by
    rw [filled, overwrite_length _ _ _ (by simpa using h), List.length_replicate]
  constructor
  · intro hp
    rw [← hlen]
    exact hp.length_le
  · intro hs
    have hz : List.drop got.length (List.replicate size (0 : Byte)) = [] :=
      List.drop_of_length_le (by simpa using hs)
    simp [filled, overwrite, hz]

theorem recvAll_takes {k k' : Ipacket} {s s' : Sock} {got : List Byte}
    (h : k.recvAll k.remaining s = .ok (got, k') s') :
    got = (arriving s.reads).take k.remaining := by
  by_cases h0 : k.remaining = 0
  · rw [h0] at h ⊢
    cases h
    rw [List.take_zero]
  · rw [Ipacket.recvAll_eq k (by omega) (Nat.le_refl _)] at h
    obtain ⟨got', s₁, hr, h⟩ := Rd.bind_eq_ok h
    obtain ⟨⟨again, k₁⟩, s₂, -, h⟩ := Rd.bind_eq_ok h
    cases h
    unfold Connection.recvAll at hr
    split at hr
    · cases hr
    · rename_i hl
      cases hr
      exact recvLoop_arriving hl

theorem takeContent_filled {k : Ipacket} {s s' : Sock} {data : List Byte}
    (h : Request.takeContent k s = .ok data s') :
    data = filled k.remaining ((arriving s.reads).take k.remaining) := by
  obtain ⟨⟨v, k₁⟩, s₁, hs, h⟩ := Rd.bind_eq_ok h
  obtain ⟨u, s₂, -, h⟩ := Rd.bind_eq_ok h
  cases h
  obtain ⟨⟨got, k₂⟩, s₃, hr, hs⟩ := Rd.bind_eq_ok hs
  cases hs
  rw [recvAll_takes hr]
  rfl

/-! ## What is given to parsers and queues -/

def feeds (es : List Event) : List (RecType × List Byte) := es.filterMap fun
  | .fed type bytes => some (type, bytes)
  | _ => none

@[simp] theorem feeds_nil : feeds [] = [] := rfl

@[simp] theorem feeds_append (es es' : List Event) : feeds (es ++ es') = feeds es ++ feeds es' :=
  List.filterMap_append

@[simp] theorem feeds_fed (type : RecType) (bytes : List Byte) (es : List Event) :
    feeds (.fed type bytes :: es) = (type, bytes) :: feeds es := rfl

/-- Code that feeds nothing. -/
def Idle {α : Type} (m : Tx α) : Prop := ∀ φ, feeds (m φ).2 = []

theorem Idle.pure {α : Type} (a : α) : Idle (Pure.pure a : Tx α) := fun _ => rfl

theorem Idle.crash {α : Type} (c : Crash) : Idle (Tx.crash c : Tx α) := fun _ => rfl

theorem Idle.send (pkt : Packet) : Idle (Tx.send pkt) := fun _ => rfl

theorem Idle.wrote (type : RecType) (bytes : List Byte) : Idle (Tx.note (.wrote type bytes)) :=
  fun _ => rfl

theorem Idle.bind {α β : Type} {m : Tx α} {f : α → Tx β} (hm : Idle m) (hf : ∀ a, Idle (f a)) :
    Idle (m >>= f) := by
  intro φ
  have h := hm φ
  cases hr : m φ with
  | mk result es =>
    rw [hr] at h
    cases result with
    | error c =>
      rw [Tx.bind_error hr]
      exact h
    | ok a =>
      rw [Tx.bind_ok hr, feeds_append, h, hf a]
      rfl

theorem Idle.ite {α : Type} {c : Prop} [Decidable c] {m m' : Tx α} (h : Idle m) (h' : Idle m') :
    Idle (if c then m else m') := by
  split
  · exact h
  · exact h'

theorem sync_idle (p : Params) (b : Ostreambuf) : Idle (b.sync p) := by
  refine .ite (.pure _) (.bind (.send _) ?_)
  intro o
  cases o <;> exact .pure _

theorem overflow_idle (p : Params) (b : Ostreambuf) (c : Option Byte) : Idle (b.overflow p c) := by
  refine .bind (sync_idle p b) ?_
  rintro ⟨b', e⟩
  cases e with
  | some e => exact .pure _
  | none => cases c <;> exact .pure _

theorem sputn_idle (p : Params) (bytes : List Byte) (b : Ostreambuf) : Idle (b.sputn p bytes) := by
  induction bytes generalizing b with
  | nil => exact .pure _
  | cons c cs ih =>
    unfold Ostreambuf.sputn
    refine .ite (ih _) (.bind (overflow_idle p b (some c)) ?_)
    rintro ⟨b', e⟩
    cases e with
    | some e => exact .pure _
    | none => exact ih b'

theorem destroy_idle (p : Params) (b : Ostreambuf) : Idle (b.destroy p) := by
  refine .bind (sync_idle p b) ?_
  rintro ⟨b', e⟩
  cases e with
  | some e => exact .crash _
  | none =>
    refine .ite (.bind (.send _) ?_) (.pure _)
    intro o
    cases o with
    | failed e => exact .crash _
    | sent | gone => exact .pure _

theorem write_idle (p : Params) (o : Ostream) (bytes : List Byte) : Idle (o.write p bytes) := by
  cases hg : o.good with
  | false =>
    intro φ
    rw [Ostream.write_bad p hg]
    split <;> rfl
  | true =>
    have ha : o.attached = true := by
      simp only [Ostream.good, Bool.and_eq_true] at hg
      exact hg.1
    simp only [Ostream.write, hg, ha, if_true]
    exact .bind (.wrote _ _) fun _ => .bind (sputn_idle p bytes _) fun _ => .pure _

theorem flush_idle (p : Params) (o : Ostream) : Idle (o.flush p) :=
  .ite (.bind (sync_idle p _) fun _ => .pure _) (.pure _)

theorem close_idle (p : Params) (o : Ostream) : Idle (o.close p) :=
  .ite (.bind (flush_idle p o) fun _ => .bind (destroy_idle p _) fun _ => .pure _) (.pure _)

theorem sendOrThrow_idle (pkt : Packet) : Idle (Request.sendOrThrow pkt) := by
  refine .bind (.send pkt) ?_
  intro o
  cases o with
  | failed e => exact .crash _
  | sent | gone => exact .pure _

theorem cancel_idle (p : Params) (r : Request) (what : String) : Idle (r.cancel p what) :=
  .bind (write_idle p _ _) fun _ => .bind (write_idle p _ _) fun _ =>
    .bind (close_idle p _) fun _ =>
    .bind (close_idle p _) fun _ => .bind (sendOrThrow_idle _) fun _ => .pure _

theorem serializeSizeTo_idle (p : Params) (o : Ostream) (size : Nat) :
    Idle (Connection.serializeSizeTo p o size) := by
  unfold Connection.serializeSizeTo
  cases serializeSize p size with
  | ok bytes => exact write_idle p o bytes
  | error what => exact .crash _

theorem serializeTo_idle (p : Params) (o : Ostream) (key val : List Byte) :
    Idle (Connection.serializeTo p o key val) :=
  .bind (serializeSizeTo_idle p _ _) fun _ => .bind (serializeSizeTo_idle p _ _) fun _ =>
    .bind (write_idle p _ _) fun _ => write_idle p _ _

theorem syslogKey_idle (buffer : List Byte) : Idle (Connection.syslogKey buffer) :=
  .ite (.pure _) (.crash _)

theorem newKeys_idle (p : Params) (o : Ostream) (views : List (Pair × List Byte)) :
    Idle (Connection.newKeys p o views) := by
  induction views generalizing o with
  | nil => exact .pure _
  | cons view views ih =>
    obtain ⟨pair, buffer⟩ := view
    refine .bind ?_ fun o' => ih o'
    refine .bind ?_ fun o' => .bind (syslogKey_idle buffer) fun _ => .pure _
    exact .ite (serializeTo_idle p _ _ _) (.ite (serializeTo_idle p _ _ _)
      (.ite (serializeTo_idle p _ _ _) (.bind (syslogKey_idle buffer) fun _ => .pure _)))

/-- The code notes that it feeds `data` and feeds nothing more. -/
theorem note_feeds {α : Type} {type : RecType} {data : List Byte} {f : Unit → Tx α}
    (h : ∀ u, Idle (f u)) (φ : Fate) :
    feeds ((Tx.note (.fed type data) >>= f) φ).2 = [(type, data)] := by
  rw [Tx.bind_quiet (rfl : Tx.note (.fed type data) φ = _) rfl, List.singleton_append, feeds_fed,
    h]

theorem bind_return_feeds {α β : Type} {m : Tx α} {f : α → Tx β} (h : ∀ a, Idle (f a)) (φ : Fate) :
    feeds ((m >>= f) φ).2 = feeds (m φ).2 := by
  cases hr : m φ with
  | mk result es =>
    cases result with
    | error c => rw [Tx.bind_error hr]
    | ok a => rw [Tx.bind_ok hr, feeds_append, h, List.append_nil]

theorem feedParams_feeds (p : Params) (r : Request) (d : Deserializer) (data : List Byte)
    (φ : Fate) : feeds (r.feedParams p d data φ).2 = [(.params, data)] := by
  refine note_feeds ?_ φ
  intro u
  cases ho : (d.feed p data).outcome with
  | returns finished d' =>
    simp only [ho]
    cases finished <;> exact .pure _
  | throws what =>
    simp only [ho]
    exact cancel_idle p _ what
  | fault f =>
    simp only [ho]
    exact .crash _

theorem getValues_feeds (p : Params) (c : Connection) (data : List Byte) (φ : Fate) :
    feeds (c.getValues p data φ).2 = [(.getValues, data)] := by
  refine note_feeds ?_ φ
  intro u
  refine .bind (newKeys_idle p _ _) ?_
  intro o
  cases (c.getValueHandler.feed p data).outcome with
  | returns finished d =>
    cases finished with
    | false => exact .pure _
    | true => exact .bind (close_idle p o) fun _ => .pure _
  | throws what => exact .crash _
  | fault f => exact .crash _

/-! ## The content of a record -/

/-- Whether the request takes the content of a record of this type. -/
def takes (r : Request) : RecType → Bool
  | .params => r.paramsDeserializer.isSome
  | .stdin => r.state ≠ .ready
  | .data => r.state ≠ .ready
  | _ => false

theorem handlePacket_feeds {p : Params} {junk : Junk} {r : Request} {k : Ipacket} {s s' : Sock}
    {tx : Tx Handled} {k' : Option Ipacket} (h : r.handlePacket p junk k s = .ok (tx, k') s')
    (φ : Fate) :
    feeds (tx φ).2 = if takes r k.header.recType then
      [(k.header.recType, filled k.remaining ((arriving s.reads).take k.remaining))] else [] := by
  cases ht : k.header.recType with
  | beginRequest =>
    simp only [Request.handlePacket, ht] at h
    split at h
    · cases h
      rfl
    · obtain ⟨⟨got, k₁⟩, s₁, -, h⟩ := Rd.bind_eq_ok h
      cases h
      rfl
  | params =>
    simp only [Request.handlePacket, ht] at h
    cases hd : r.paramsDeserializer with
    | none =>
      simp only [hd] at h
      cases h
      simp only [takes, hd]
      rfl
    | some d =>
      simp only [hd] at h
      obtain ⟨data, s₁, hs, h⟩ := Rd.bind_eq_ok h
      cases h
      simp only [takes, hd, Option.isSome_some, if_true]
      rw [feedParams_feeds, takeContent_filled hs]
  | stdin | data =>
    simp only [Request.handlePacket, ht] at h
    split at h
    · rename_i hbusy
      obtain ⟨data, s₁, hs, h⟩ := Rd.bind_eq_ok h
      cases h
      simp only [takes, hbusy, ne_eq, not_false_eq_true, decide_true, if_true]
      rw [← takeContent_filled hs]
      exact note_feeds (fun _ => .pure _) φ
    · rename_i hready
      cases h
      simp only [takes, hready, decide_false, Bool.false_eq_true, if_false]
      rfl
  | abortRequest | getValues =>
    simp only [Request.handlePacket, ht] at h
    cases h
    rfl
  | endRequest | stdout | stderr | getValuesResult | unknownType | other =>
    simp only [Request.handlePacket, ht] at h
    cases h
    exact bind_return_feeds (fun _ => .pure _) φ |>.trans (sendOrThrow_idle _ φ)

/-- Whether a parser or a queue takes the content of the record. -/
def taken (p : Params) (junk : Junk) (c : Connection) (k : Ipacket) : Bool :=
  if Connection.idOf p k ≠ 0 then takes (c.slot p junk (Connection.idOf p k)) k.header.recType
  else k.header.recType = .getValues

theorem taken_request {p : Params} {junk : Junk} {c : Connection} {k : Ipacket}
    (h : Connection.idOf p k ≠ 0) :
    taken p junk c k = takes (c.slot p junk (Connection.idOf p k)) k.header.recType := if_pos h

theorem taken_management {p : Params} {junk : Junk} {c : Connection} {k : Ipacket}
    (h : Connection.idOf p k = 0) : taken p junk c k = decide (k.header.recType = .getValues) :=
  if_neg (by simp [h])

theorem dispatch_feeds {p : Params} {junk : Junk} {c : Connection} {k : Ipacket} {s s' : Sock}
    {tx : Tx Connection.Settled} {k' : Option Ipacket}
    (h : c.dispatch p junk (Connection.idOf p k) k s = .ok (tx, k') s') (φ : Fate) :
    feeds (tx φ).2 = if taken p junk c k then
      [(k.header.recType, filled k.remaining ((arriving s.reads).take k.remaining))] else [] := by
  unfold Connection.dispatch at h
  by_cases h0 : Connection.idOf p k = 0
  · rw [h0, if_neg (by simp)] at h
    rw [taken_management h0]
    cases ht : k.header.recType with
    | getValues =>
      simp only [ht] at h
      obtain ⟨data, s₁, hs, h⟩ := Rd.bind_eq_ok h
      cases h
      rw [bind_return_feeds (fun _ => .pure _), getValues_feeds, takeContent_filled hs]
      rfl
    | _ =>
      simp only [ht] at h
      cases h
      exact bind_return_feeds (fun _ => .pure _) φ |>.trans (sendOrThrow_idle _ φ)
  · rw [if_pos h0] at h
    obtain ⟨⟨tx', k₁⟩, s₁, hh, h⟩ := Rd.bind_eq_ok h
    cases h
    rw [bind_return_feeds (fun _ => .pure _), handlePacket_feeds hh, taken_request h0]

theorem dispatch_throws_taken {p : Params} {junk : Junk} {c : Connection} {k : Ipacket} {s : Sock}
    {e : Exn} (h : c.dispatch p junk (Connection.idOf p k) k s = .throws e) :
    taken p junk c k = false := by
  unfold Connection.dispatch at h
  by_cases h0 : Connection.idOf p k = 0
  · rw [h0, if_neg (by simp)] at h
    cases ht : k.header.recType with
    | getValues =>
      simp only [ht] at h
      rcases Rd.bind_eq_throws h with hs | ⟨data, s₁, -, hs⟩
      · exact absurd hs (Request.takeContent_ne_throws k s e)
      · cases hs
    | _ =>
      simp only [ht] at h
      cases h
  · rw [if_pos h0] at h
    rcases Rd.bind_eq_throws h with hs | ⟨⟨tx', k₁⟩, s₁, -, hs⟩
    · obtain ⟨ht, -, -⟩ := Request.handlePacket_throws hs
      rw [taken_request h0, ht]
      rfl
    · cases hs

/-! ## A pass -/

/-- What a pass did, also when it brings the process down. -/
def did : Turn → List Event
  | .blocked => []
  | .down _ log => log
  | .left _ => []
  | .handled _ _ _ log => log

theorem finish_did {φ : Fate} {header : Header} {tx : Tx Connection.Settled} {k : Option Ipacket}
    {s : Sock} (h : Connection.finish φ header tx k s ≠ .blocked) :
    did (Connection.finish φ header tx k s) = (tx φ).2 := by
  unfold Connection.finish at h ⊢
  split
  · rename_i crash log htx
    rw [htx]
    rfl
  · rename_i c d log htx
    rw [htx] at h ⊢
    cases hd : Connection.drop k s with
    | blocked =>
      rw [hd] at h
      exact absurd rfl h
    | throws e => rfl
    | ok u s' => rfl

/-- A taken record is given in its full length. -/
theorem turn_feeds {p : Params} {junk : Junk} {φ : Fate} {c : Connection} {k : Ipacket} {s : Sock}
    (hn : Connection.Next p junk c k s) (h : c.turn p junk φ ≠ .blocked) :
    feeds (did (c.turn p junk φ)) = if taken p junk c k then
      [(k.header.recType, filled k.remaining ((arriving s.reads).take k.remaining))] else [] := by
  obtain ⟨hnew, hsane⟩ := hn
  simp only [Connection.turn, hnew, hsane, if_true] at h ⊢
  cases hd : c.dispatch p junk (k.header.requestId.load p.host) k s with
  | blocked =>
    rw [hd] at h
    exact absurd rfl h
  | throws e =>
    rw [dispatch_throws_taken hd]
    rfl
  | ok settled s' =>
    rw [hd] at h
    exact (congrArg feeds (finish_did h)).trans (dispatch_feeds hd φ)

theorem turn_quiet {p : Params} {junk : Junk} {φ : Fate} {c : Connection}
    (h : ∀ k s, ¬ Connection.Next p junk c k s) : feeds (did (c.turn p junk φ)) = [] := by
  unfold Connection.turn
  cases hn : Ipacket.new p junk.header c.sock with
  | blocked => rfl
  | throws e => rfl
  | ok k s =>
    have hs : s.insane = false := by
      simpa using fun hs => h k s ⟨hn, hs⟩
    simp only [hs, Bool.false_eq_true, if_false]
    cases k.destroy s <;> rfl

/-- The content of the next record as far as it comes. -/
def received (p : Params) (junk : Junk) (c : Connection) : List Byte :=
  match Ipacket.new p junk.header c.sock with
  | .ok k s => (arriving s.reads).take k.remaining
  | _ => []

/-- A pass gives nothing to a parser or a queue but content that came. -/
def Genuine (p : Params) (junk : Junk) (φ : Fate) (c : Connection) : Prop :=
  ∀ type bytes, (type, bytes) ∈ feeds (did (c.turn p junk φ)) → bytes <+: received p junk c

/-- The content of the next record comes in full if it is taken. -/
def Whole (p : Params) (junk : Junk) (c : Connection) : Prop :=
  ∀ k s, Connection.Next p junk c k s → taken p junk c k = true →
    k.remaining ≤ (arriving s.reads).length

theorem turn_genuine_iff {p : Params} {junk : Junk} {φ : Fate} {c : Connection}
    (h : c.turn p junk φ ≠ .blocked) : Genuine p junk φ c ↔ Whole p junk c := by
  by_cases hnext : ∃ k s, Connection.Next p junk c k s
  · obtain ⟨k, s, hn⟩ := hnext
    have hunique : ∀ k' s', Connection.Next p junk c k' s' → k' = k ∧ s' = s := by
      rintro k' s' ⟨hn', -⟩
      have he := hn'.symm.trans hn.1
      cases he
      exact ⟨rfl, rfl⟩
    have hreceived : received p junk c = (arriving s.reads).take k.remaining := by
      rw [received, hn.1]
    have hle : ((arriving s.reads).take k.remaining).length ≤ k.remaining := List.length_take_le ..
    rw [Genuine, turn_feeds hn h, hreceived]
    cases ht : taken p junk c k with
    | false =>
      constructor
      · intro _ k' s' hn' ht'
        obtain ⟨rfl, rfl⟩ := hunique k' s' hn'
        rw [ht] at ht'
        cases ht'
      · intro _ type bytes hm
        cases hm
    | true =>
      simp only [if_true, List.mem_singleton, Prod.mk.injEq, and_imp]
      constructor
      · intro hg k' s' hn' _
        obtain ⟨rfl, rfl⟩ := hunique k' s' hn'
        have := (filled_complete hle).mp (hg _ _ rfl rfl)
        rw [List.length_take] at this
        omega
      · rintro hw type bytes rfl rfl
        rw [filled_complete hle, List.length_take]
        have := hw k s hn ht
        omega
  · have hno : ∀ k s, ¬ Connection.Next p junk c k s := fun k s hn => hnext ⟨k, s, hn⟩
    rw [Genuine, turn_quiet hno]
    exact ⟨fun _ k s hn => absurd hn (hno k s), fun _ type bytes hm => by cases hm⟩

/-! ## Runs -/

/-- The pass that the step makes is genuine. -/
def GenuineStep (p : Params) (s : Sys) (a : Act) : Prop :=
  ∀ i junk φ notified n, a = .conn i junk φ notified → s.conns[i]? = some n → n.pc = .reading →
    n.connection.sock.insane = true → Genuine p junk φ n.connection

/-- The record that the step handles is whole if its content is taken. -/
def WholeStep (p : Params) (s : Sys) (a : Act) : Prop :=
  ∀ i junk φ notified n, a = .conn i junk φ notified → s.conns[i]? = some n → n.pc = .reading →
    n.connection.sock.insane = true → Whole p junk n.connection

theorem step_not_blocked {p : Params} {s s' : Sys} {i : Nat} {junk : Junk} {φ : Fate}
    {notified : Option Nat} {n : Conn} (h : Sys.step p s (.conn i junk φ notified) = some s')
    (hn : s.conns[i]? = some n) (hpc : n.pc = .reading) (hsane : n.connection.sock.insane = true) :
    n.connection.turn p junk φ ≠ .blocked := by
  intro hb
  unfold Sys.step at h
  split at h
  · cases h
  · simp only [hn, Sys.connStep, hpc, Sys.reading, hsane, if_true, hb] at h
    cases h

theorem step_genuine_iff {p : Params} {s s' : Sys} {a : Act} (h : Sys.step p s a = some s') :
    GenuineStep p s a ↔ WholeStep p s a := by
  constructor
  · rintro hg i junk φ notified n rfl hn hpc hsane
    exact (turn_genuine_iff (step_not_blocked h hn hpc hsane)).mp
      (hg i junk φ notified n rfl hn hpc hsane)
  · rintro hw i junk φ notified n rfl hn hpc hsane
    exact (turn_genuine_iff (step_not_blocked h hn hpc hsane)).mpr
      (hw i junk φ notified n rfl hn hpc hsane)

/-- **Bytes that never arrived.** -/
theorem genuine_iff {p : Params} {m : Nat} {s : Sys} {as : List Act}
    (h : run (Sys.step p) (.init m) as = some s) :
    Meets (Sys.step p) (GenuineStep p) (.init m) as ↔
      Meets (Sys.step p) (WholeStep p) (.init m) as :=
  meets_congr (fun _ _ _ hs => step_genuine_iff hs) h

/-- `WholeStep`, computed. -/
def wholeCheck (p : Params) (s : Sys) : Act → Bool
  | .conn i junk _ _ => (s.conns[i]?).all fun n =>
    match Ipacket.new p junk.header n.connection.sock with
    | .ok k sock => !taken p junk n.connection k ||
        decide (k.remaining ≤ (arriving sock.reads).length)
    | _ => true
  | _ => true

theorem wholeStep_of_check {p : Params} {s : Sys} {a : Act} (h : wholeCheck p s a = true) :
    WholeStep p s a := by
  rintro i junk φ notified n rfl hn - - k sock hnext ht
  simp only [wholeCheck, hn, Option.all_some, hnext.1, ht, Bool.not_true, Bool.false_or,
    decide_eq_true_eq] at h
  exact h

/-- The request is dispatched, and a STDIN record comes in two parts. -/
def posted : List Act :=
  [.accept .zeros, .arrive 0 beginRecord, .arrive 0 paramsEnd,
    .arrive 0 (.data 1 [5, 1, 0, 0, 2, 0, 0]), .arrive 0 (.data 104 []),
    .arrive 0 (.data 105 [])] ++ connMoves 6

theorem genuine_posted : ∃ s, run (Sys.step .standard) (.init 1) posted = some s ∧
    (⟨0, 0⟩, .did (.fed .stdin [104, 105])) ∈ s.log ∧
    Meets (Sys.step .standard) (GenuineStep .standard) (.init 1) posted := by
  have hrun : (run (Sys.step .standard) (.init 1) posted).any (fun s =>
      decide ((⟨0, 0⟩, .did (.fed .stdin [104, 105])) ∈ s.log)) = true := by decide +kernel
  obtain ⟨s, hs, hlog⟩ := (Option.any_eq_true _ _).mp hrun
  have hwhole : Meets (Sys.step .standard) (WholeStep .standard) (.init 1) posted :=
    meets_of_checks (fun _ _ _ => wholeStep_of_check) (by decide +kernel)
  exact ⟨s, hs, of_decide_eq_true hlog, (genuine_iff hs).mpr hwhole⟩

/-- The header of a STDIN record of three bytes, of which one comes. -/
def cutShort : List ReadResult := [.data 1 [5, 1, 0, 0, 3, 0, 0], .data 104 [], .eof]

/-- The request is dispatched before the record is cut short. -/
def beforeCut : List Act :=
  [.accept .zeros, .arrive 0 beginRecord, .arrive 0 paramsEnd] ++ connMoves 5 ++
    cutShort.map (.arrive 0)

/-- Two zeros go to the queue that never came. -/
theorem cutShort_delivered : ∃ s s', run (Sys.step .standard) (.init 1) beforeCut = some s ∧
    Sys.step .standard s (.conn 0 .zeros Fate.sent none) = some s' ∧
    (⟨0, 0⟩, .did (.fed .stdin [104, 0, 0])) ∈ s'.log ∧
    ¬ Meets (Sys.step .standard) (GenuineStep .standard) (.init 1)
      (beforeCut ++ [.conn 0 .zeros Fate.sent none]) := by
  have hrun : (run (Sys.step .standard) (.init 1) beforeCut).any (fun s =>
      (Sys.step .standard s (.conn 0 .zeros Fate.sent none)).any (fun s' =>
        (⟨0, 0⟩, .did (.fed .stdin [104, 0, 0])) ∈ s'.log) &&
      s.conns[0]?.any fun n => n.pc = .reading && n.connection.sock.insane &&
        (.stdin, [104, 0, 0]) ∈ feeds (did (n.connection.turn .standard .zeros Fate.sent)) &&
        received .standard .zeros n.connection = [104]) = true := by
    decide +kernel
  obtain ⟨s, hs, hc⟩ := (Option.any_eq_true _ _).mp hrun
  rw [Bool.and_eq_true, Option.any_eq_true, Option.any_eq_true] at hc
  obtain ⟨⟨s', hs', hlog⟩, n, hn, hc⟩ := hc
  simp only [Bool.and_eq_true, decide_eq_true_eq] at hc hlog
  obtain ⟨⟨⟨hpc, hsane⟩, hfed⟩, hreceived⟩ := hc
  refine ⟨s, s', hs, hs', hlog, ?_⟩
  intro hm
  have hg := hm.last hs 0 .zeros Fate.sent none n rfl hn hpc hsane .stdin _ hfed
  rw [hreceived] at hg
  exact absurd hg.length_le (by decide)

end Tfcgi.Content
