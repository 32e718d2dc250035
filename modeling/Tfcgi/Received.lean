import Mathlib.Data.List.Induction
import Tfcgi.Lib.Trace
import Tfcgi.Framing
import Tfcgi.Parameters
import Tfcgi.RecvAll
import Tfcgi.Segments
import Tfcgi.Wire

/-!
# What the peer wrote and what the requests were fed

The records of many requests come over one connection, cut as TCP likes. `share` is what
a request takes of those behind its BEGIN_REQUEST record.

* `turn_record`: a pass that goes on handles the next record of the peer, also when more
  of its bytes were still to come as the pass began;
* `step_heeds`: each step of the process keeps the records and the requests together;
* `fed_as_written`: this for every run, up to the end of the stream;
* `params_as_written`: the parameters of a dispatched request are those that the peer wrote.
-/

namespace Tfcgi.Received

open Tfcgi.Lib Tfcgi.Run Tfcgi.HostOrder Tfcgi.Protocol Tfcgi.NameValuePairs Tfcgi.NvpGrammar
open Tfcgi.Socket Tfcgi.Iostream
open Tfcgi.RequestSlot Tfcgi.ConnectionThread Tfcgi.System Tfcgi.Content Tfcgi.Accounting
open Tfcgi.History Tfcgi.Reuse Tfcgi.Framing Tfcgi.Parameters Tfcgi.Segments
open Tfcgi.Wire (Pass)

variable {p : Params}

/-! ## The share of a request -/

/-- What a request in use takes of a record with its id: whether the PARAMS stream is open,
and what the request was fed. -/
def hear (x : Bool × List (RecType × List Byte)) (r : Record) : Bool × List (RecType × List Byte) :=
  match r.header.recType with
  | .params => if x.1 then (decide (r.content ≠ []), x.2 ++ [(.params, r.content)]) else x
  | .stdin => (x.1, x.2 ++ [(.stdin, r.content)])
  | .data => (x.1, x.2 ++ [(.data, r.content)])
  | _ => x

/-- The share of a request of the records behind its BEGIN_REQUEST record. -/
def share (rs : List Record) : Bool × List (RecType × List Byte) := rs.foldl hear (true, [])

theorem share_concat (rs : List Record) (r : Record) : share (rs ++ [r]) = hear (share rs) r :=
  List.foldl_concat ..

/-- What a record does to the request with its id. -/
structure Heard (p : Params) (x : Record) (r : Request) (h : Handled) (log : List Event) :
    Prop where
  fills : Fills p r h log
  feeds : feeds log = if takes r x.header.recType then [(x.header.recType, x.content)] else []
  accepts : (∃ r', h = .accepted r') ↔ x.header.recType = .beginRequest ∧ r.state = .ready

/-- A request in use was fed its share of the records behind the last one that was accepted. -/
def Follows (heard : List Record) (ms : List Mark) (r : Request) : Prop :=
  r.state ≠ .ready → ∃ before b after c, heard = before ++ b :: after ∧
    b.header.recType = .beginRequest ∧ current ms = some c ∧
    share after = (decide (r.state = .readingParams), fed c)

theorem Follows.quiet {heard : List Record} {ms new : List Mark} {r r' : Request}
    (h : Follows heard ms r) (hs : r'.state = r.state) (hacc : .accepted ∉ new)
    (hfed : fed new = []) : Follows heard (ms ++ new) r' := by
  intro hbusy
  obtain ⟨before, b, after, c, hsplit, hb, hc, hshare⟩ := h (hs ▸ hbusy)
  refine ⟨before, b, after, c ++ new, hsplit, hb, ?_, ?_⟩
  · rw [current_append hacc, hc]
    rfl
  · rw [hshare, hs, fed_append, hfed, List.append_nil]

/-- The record that is given to the parser. -/
theorem Heard.params {x : Record} {r : Request} {h : Handled} {data : List Byte}
    (hx : Heard p x r h [.fed .params data]) :
    x.header.recType = .params ∧ x.content = data := by
  have hfeeds := hx.feeds
  rw [feeds_fed, feeds_nil] at hfeeds
  split at hfeeds
  · simp only [List.cons.injEq, Prod.mk.injEq, and_true] at hfeeds
    exact ⟨hfeeds.1.symm, hfeeds.2.symm⟩
  · cases hfeeds

/-- A record that changes nothing of the parameters. -/
theorem hear_same {x : Record} {r : Request} (busy : r.state ≠ .ready)
    (hparser : r.paramsDeserializer.isSome = true ↔ r.state = .readingParams)
    (hidle : x.header.recType = .params → takes r .params = false)
    (fs : List (RecType × List Byte)) :
    hear (decide (r.state = .readingParams), fs) x = (decide (r.state = .readingParams),
      fs ++ if takes r x.header.recType then [(x.header.recType, x.content)] else []) := by
  unfold hear
  cases ht : x.header.recType with
  | params =>
    have hnone : takes r .params = false := hidle ht
    have hnot : ¬ r.state = .readingParams := by
      rw [← hparser]
      simpa [takes] using hnone
    simp [hnot, hnone]
  | stdin | data => simp [takes, busy]
  | beginRequest | abortRequest | endRequest | stdout | stderr | getValues | getValuesResult
  | unknownType | other => simp [takes]

theorem reading_busy {r : Request} (h : r.state = .readingParams) : r.state ≠ .ready := by
  rw [h]
  intro hs
  cases hs

/-- One record, on the request of its slot. -/
theorem Follows.heard {heard : List Record} {ms : List Mark} {x : Record} {r : Request}
    {h : Handled} {log : List Event} (hf : Follows heard ms r)
    (hparser : r.paramsDeserializer.isSome = true ↔ r.state = .readingParams)
    (hx : Heard p x r h log) : Follows (heard ++ [x]) (ms ++ Sys.marks h log) h.request := by
  intro hbusy
  cases hx.fills with
  | same r' log state params parser records =>
    have hold : r.state ≠ .ready := state ▸ hbusy
    obtain ⟨before, b, after, c, rfl, hb, hc, hshare⟩ := hf hold
    refine ⟨before, b, after ++ [x], c ++ log.map .did, List.append_assoc .., hb, ?_, ?_⟩
    · rw [Sys.marks, current_append (accepted_not_mem_did log), hc]
      rfl
    · have hidle : x.header.recType = .params → takes r .params = false := by
        intro ht
        by_contra htakes
        have hfeeds := hx.feeds
        rw [ht, if_pos (by simpa using htakes)] at hfeeds
        have hmem : x.content ∈ paramsRecords (log.map .did) := by
          rw [paramsRecords_fed, fed_did, hfeeds]
          exact List.mem_singleton.mpr rfl
        rw [records] at hmem
        cases hmem
      rw [share_concat, hshare, hear_same hold hparser hidle, fed_append, fed_did, hx.feeds,
        Handled.request, state]
  | accept junk got =>
    obtain ⟨hstate, -, -⟩ := acceptRequest_fields (p := p) junk r got
    refine ⟨heard, x, [], [], rfl, (hx.accepts.mp ⟨_, rfl⟩).1, current_accepted ms, ?_⟩
    rw [Handled.request, hstate]
    rfl
  | more d d' data r' parser feed state params parser' =>
    have hreading := hparser.mp (by rw [parser]; rfl)
    obtain ⟨ht, rfl⟩ := hx.params
    obtain ⟨before, b, after, c, rfl, hb, hc, hshare⟩ := hf (reading_busy hreading)
    refine ⟨before, b, after ++ [x], c ++ [.did (.fed .params x.content)],
      List.append_assoc .., hb, ?_, ?_⟩
    · rw [Sys.marks, current_append (accepted_not_mem_did _), hc]
      rfl
    · rw [share_concat, hshare, Handled.request, state, hreading, fed_append]
      simp only [hear, ht, decide_true, if_true, feed_nonempty feed, ne_eq, not_false_eq_true]
      rfl
  | last d r' parser state params =>
    have hreading := hparser.mp (by rw [parser]; rfl)
    obtain ⟨ht, hcontent⟩ := hx.params
    obtain ⟨before, b, after, c, rfl, hb, hc, hshare⟩ := hf (reading_busy hreading)
    refine ⟨before, b, after ++ [x], c ++ [.dispatched, .did (.fed .params [])],
      List.append_assoc .., hb, ?_, ?_⟩
    · rw [Sys.marks, current_append (by simp), hc]
      rfl
    · rw [share_concat, hshare, Handled.request, state, hreading, fed_append]
      simp only [hear, ht, decide_true, if_true, hcontent, ne_eq, not_true, decide_false]
      rfl
  | cancel r' log state => exact absurd state hbusy

/-! ## The bytes of the peer -/

def Item.read : Item → ReadResult
  | .byte b => .data b []
  | .eof => .eof
  | .error e => .error e

theorem items_read (l : List Item) : (l.map Item.read).flatMap items = l := by
  induction l with
  | nil => rfl
  | cons x l ih =>
    rw [List.map_cons, List.flatMap_cons, ih]
    cases x <;> rfl

theorem Carries.items {s : Sock} {w : List Byte} (h : s.Carries w) :
    s.reads.flatMap items = w.map .byte := by
  obtain ⟨-, hdata, rfl⟩ := h
  unfold Sock.bytes
  generalize s.reads = rs at hdata ⊢
  induction rs with
  | nil => rfl
  | cons r rs ih =>
    obtain ⟨b, bs, rfl⟩ := hdata r List.mem_cons_self
    rw [List.flatMap_cons, List.flatMap_cons, List.map_append,
      ih fun r hr => hdata r (List.mem_cons_of_mem _ hr)]
    rfl

theorem Carries.arriving {s : Sock} {w : List Byte} (h : s.Carries w) : arriving s.reads = w := by
  obtain ⟨-, hdata, rfl⟩ := h
  unfold Sock.bytes
  generalize s.reads = rs at hdata ⊢
  induction rs with
  | nil => rfl
  | cons r rs ih =>
    obtain ⟨b, bs, rfl⟩ := hdata r List.mem_cons_self
    rw [Content.arriving, List.flatMap_cons, ih fun r hr => hdata r (List.mem_cons_of_mem _ hr)]
    rfl

theorem filled_self (data : List Byte) : filled data.length data = data := by
  have hprefix := (filled_complete (Nat.le_refl data.length)).mpr (Nat.le_refl _)
  refine hprefix.eq_of_length ?_
  rw [filled, overwrite_length _ _ _ (by simp), List.length_replicate]

/-- The request id of a record, as it is loaded. -/
def idIn (p : Params) (x : Record) : Nat := x.header.requestId.load p.host

/-- What a pass over the record `x` does to the requests. -/
def Met (p : Params) (junk : Junk) (c : Connection) (x : Record) (requests : List (Option Request))
    (did : Option (Nat × Handled)) (log : List Event) : Prop :=
  idIn p x = 0 ∧ did = none ∧ requests = c.requests ∨
    idIn p x ≠ 0 ∧ ∃ hd, did = some (idIn p x - 1, hd) ∧
      requests = (c.settle (idIn p x) hd).requests ∧ Heard p x (c.slot p junk (idIn p x)) hd log

theorem handlePacket_accepts {junk : Junk} {r : Request} {k : Ipacket} {s s' : Sock}
    {tx : Tx Handled} {k' : Option Ipacket} (h : r.handlePacket p junk k s = .ok (tx, k') s')
    {φ : Fate} {hd : Handled} {log : List Event} (htx : tx φ = (.ok hd, log)) :
    (∃ r', hd = .accepted r') ↔ k.header.recType = .beginRequest ∧ r.state = .ready := by
  cases ht : k.header.recType with
  | beginRequest =>
    simp only [Request.handlePacket, ht] at h
    split at h
    · rename_i hbusy
      cases h
      cases htx
      simp [hbusy]
    · rename_i hready
      obtain ⟨⟨got, k₁⟩, s₁, -, h⟩ := Rd.bind_eq_ok h
      cases h
      cases htx
      simpa using hready
  | params =>
    have hnot : ∀ r', hd ≠ .accepted r' := by
      rintro r' rfl
      simp only [Request.handlePacket, ht] at h
      cases hparser : r.paramsDeserializer with
      | none =>
        simp only [hparser] at h
        cases h
        cases htx
      | some d =>
        simp only [hparser] at h
        obtain ⟨data, s₁, -, h⟩ := Rd.bind_eq_ok h
        cases h
        have hfeeds := feedParams_feeds p r d data φ
        rw [htx] at hfeeds
        cases feedParams_fills hparser htx with
        | accept junk' got => cases hfeeds
    simp [hnot]
  | stdin | data =>
    simp only [Request.handlePacket, ht] at h
    split at h
    · obtain ⟨data, s₁, -, h⟩ := Rd.bind_eq_ok h
      cases h
      cases htx
      simp
    · cases h
      cases htx
      simp
  | abortRequest | getValues =>
    simp only [Request.handlePacket, ht] at h
    cases h
    cases htx
    simp
  | endRequest | stdout | stderr | getValuesResult | unknownType | other =>
    simp only [Request.handlePacket, ht] at h
    cases h
    rw [Request.unknownType_ok htx]
    simp

theorem turn_met {junk : Junk} {φ : Fate} {c c' : Connection} {x : Record} {header : Header}
    {did : Option (Nat × Handled)} {log : List Event} (h : c.sock.Carries x.bytes)
    (ht : c.turn p junk φ = .handled header c' did log) : Met p junk c x c'.requests did log := by
  have hbytes : x.bytes = x.header.bytes ++ (x.content ++ (x.padding ++ [])) := by
    rw [Record.bytes, List.append_nil]
  rw [hbytes] at h
  obtain ⟨k, s, hn, hk, hh⟩ :=
    Ipacket.holds_new p junk.header x.contentLength x.paddingLength h
  obtain ⟨k', s', hn', -, hcases⟩ := turn_handled ht
  rw [hn] at hn'
  cases hn'
  have hid : Connection.idOf p k = idIn p x := by
    rw [Connection.idOf, hk]
    rfl
  rw [hid] at hcases
  rcases hcases with hzero | ⟨h0, tx, k', s', hd, hp, htx, rfl, hreq⟩
  · exact Or.inl hzero
  · refine Or.inr ⟨h0, hd, rfl, hreq, handlePacket_fills hp htx, ?_, ?_⟩
    · have hfeeds := handlePacket_feeds hp φ
      rw [htx, Carries.arriving hh.carries, hh.left, List.take_left, filled_self, hk] at hfeeds
      exact hfeeds
    · rw [← hk]
      exact handlePacket_accepts hp htx

/-- How a pass over the record `x` ends, when `more` comes later and `rest` is behind the
record. -/
inductive Takes (p : Params) (junk : Junk) (c : Connection) (x : Record) (more rest : List Item) :
    Turn → Prop where
  | blocked : Takes p junk c x more rest .blocked
  | down (crash : Crash) (log : List Event) : Takes p junk c x more rest (.down crash log)
  | handled (c' : Connection) (did : Option (Nat × Handled)) (log : List Event)
      (sane : c'.sock.insane = true) (left : c'.sock.reads.flatMap items ++ more = rest)
      (met : Met p junk c x c'.requests did log) :
      Takes p junk c x more rest (.handled x.header c' did log)

/-- **A pass over a record.** It is what the pass does on a socket with this record and
nothing else. -/
theorem turn_record (junk : Junk) (φ : Fate) {c : Connection} {x : Record} (hx : ¬ x.PadOnly)
    {more rest : List Item} (hsane : c.sock.insane = true)
    (hitems : c.sock.reads.flatMap items ++ more = x.bytes.map .byte ++ rest) :
    Takes p junk c x more rest (c.turn p junk φ) := by
  let u : Sock := ⟨(x.bytes.map Item.byte ++ rest).map Item.read, true⟩
  have hcarries : (sockOf x.bytes).Carries x.bytes := sockOf_carries x.bytes
  have halone : Ahead rest (sockOf x.bytes) u :=
    ⟨rfl, by rw [Carries.items hcarries]; exact items_read _⟩
  have hsock : Ahead more c.sock u := ⟨hsane.symm, by rw [hitems]; exact items_read _⟩
  have hfirst := turn_keeps (p := p) (c := plug c (sockOf x.bytes)) halone junk φ
  have hsecond := turn_keeps (p := p) hsock junk φ
  change Passes rest _ ((plug c u).turn p junk φ) at hfirst
  have hwhole : (plug c (sockOf x.bytes)).sock.Carries (x.bytes ++ []) := by
    rw [List.append_nil]
    exact hcarries
  rcases turn_carries p junk φ hwhole with ⟨crash, log, hdown⟩ | ⟨c₁, did, log, hhandled, hleft⟩
  · rw [hdown] at hfirst
    generalize (plug c u).turn p junk φ = y at hfirst hsecond
    cases hfirst
    generalize c.turn p junk φ = t at hsecond ⊢
    cases hsecond with
    | blocked => exact .blocked
    | down => exact .down _ _
  · have hmet := turn_met hcarries hhandled
    rw [hhandled] at hfirst
    rw [Record.leaves_eq hx] at hleft
    generalize (plug c u).turn p junk φ = y at hfirst hsecond
    cases hfirst with
    | handled _ _ u₁ _ _ hahead₁ =>
      generalize c.turn p junk φ = t at hsecond ⊢
      generalize hplug : plug c₁ u₁ = c₂ at hsecond
      cases hsecond with
      | blocked => exact .blocked
      | handled _ c' u' _ _ hahead =>
        have hu : u' = u₁ := congrArg Connection.sock hplug.symm
        have hreq : (plug c' u').requests = (plug c₁ u₁).requests :=
          congrArg Connection.requests hplug.symm
        change c'.requests = c₁.requests at hreq
        subst hu
        refine .handled c' did log ?_ ?_ ?_
        · rw [← hahead.1, hahead₁.1]
          exact hleft.sane
        · rw [← hahead.2, hahead₁.2, Carries.items hleft]
          rfl
        · rw [hreq]
          rcases hmet with ⟨h0, hdid, hsame⟩ | ⟨h0, hd, hdid, hset, hheard⟩
          · exact Or.inl ⟨h0, hdid, hsame⟩
          · rw [settle_plug] at hset
            exact Or.inr ⟨h0, hd, hdid, hset, hheard⟩

/-- A pass behind the last record of the peer leaves the loop. -/
theorem turn_end (junk : Junk) (φ : Fate) {c : Connection} {more e : List Item}
    (he : ∀ b l, e ≠ .byte b :: l) (hitems : c.sock.reads.flatMap items ++ more = e) :
    c.turn p junk φ = .blocked ∨ ∃ c', c.turn p junk φ = .left c' := by
  unfold Connection.turn
  cases hn : Ipacket.new p junk.header c.sock with
  | blocked => exact Or.inl rfl
  | throws x => exact absurd hn (Connection.new_ne_throws p _ _ x)
  | ok k s =>
    have hflag : s.insane = false := by
      obtain ⟨got, s₁, hr, hk⟩ := Rd.bind_eq_ok hn
      cases hk
      unfold Connection.recvAll at hr
      split at hr
      · cases hr
      · rename_i hl
        cases hr
        rw [RecvAll.recvLoop_insane hl]
        cases hreads : c.sock.reads with
        | nil =>
          rw [hreads] at hl
          cases hl
        | cons r rs =>
          rw [hreads] at hitems
          cases r with
          | data b bs => exact absurd hitems.symm (he b _)
          | eof => simp [Header.size, Socket.arrives]
          | error x =>
            cases hx : retried x <;> simp [Header.size, Socket.arrives, RecvAll.interrupted, hx]
    simp only [hflag, Bool.false_eq_true, if_false]
    rcases k.destroy_cases s with hd | ⟨s', hd⟩
    · simp [hd]
    · simp [hd]

/-! ## The loop of a connection -/

/-- The socket of a connection whose thread is in its loop. -/
def inLoop (n : Conn) : Option Sock :=
  match n.pc with
  | .reading | .pushing _ | .locking _ | .resetting _ => some n.connection.sock
  | _ => none

def loop (s : Sys) (i : Nat) : Option (Option Sock) := s.conns[i]?.map inLoop

variable {s s' : Sys} {a : Act} {i : Nat}

theorem loop_set {j : Nat} {n n' : Conn} (hn : s.conns[j]? = some n)
    (hconns : s'.conns = s.conns.set j n') (h : j = i → inLoop n' = inLoop n) :
    loop s' i = loop s i := by
  unfold loop
  rw [hconns]
  by_cases hj : j = i
  · subst hj
    rw [List.getElem?_set_self (List.getElem?_eq_some_iff.mp hn).1, hn, Option.map_some,
      Option.map_some, h rfl]
  · rw [List.getElem?_set_ne hj]

theorem loop_self {n n' : Conn} (hn : s.conns[i]? = some n) (hconns : s'.conns = s.conns.set i n') :
    loop s' i = some (inLoop n') := by
  unfold loop
  rw [hconns, List.getElem?_set_self (List.getElem?_eq_some_iff.mp hn).1]
  rfl

/-- What is no pass of the loop and no arrival leaves the socket as it is. -/
theorem effect_loop (h : Sys.Effect p s a s') (hpass : ¬ Pass s i a)
    (harrive : ∀ r, a ≠ .arrive i r) :
    loop s' i = loop s i ∨ loop s i = none ∧ loop s' i = some (some ⟨[], true⟩) := by
  have hreading : ∀ {j junk φ notified n}, a = .conn j junk φ notified → s.conns[j]? = some n →
      n.pc = .reading → j ≠ i := by
    rintro j junk φ notified n rfl hn hpc rfl
    exact hpass ⟨junk, φ, notified, n, rfl, hn, hpc⟩
  cases h with
  | crash a c => exact Or.inl rfl
  | quiet a s' conns queue held down log busy =>
    refine Or.inl ?_
    rw [loop, conns]
    rfl
  | accept junk s' conns queue workers down log =>
    unfold loop
    rw [conns]
    rcases Nat.lt_trichotomy i s.conns.length with hlt | rfl | hgt
    · exact Or.inl (by rw [List.getElem?_append_left hlt])
    · refine Or.inr ⟨by rw [List.getElem?_eq_none (Nat.le_refl _)]; rfl, ?_⟩
      rw [List.getElem?_concat_length]
      rfl
    · refine Or.inl ?_
      rw [List.getElem?_eq_none (by rw [List.length_append, List.length_singleton]; omega),
        List.getElem?_eq_none (by omega)]
  | arrive j n r sock conn =>
    refine Or.inl (loop_set conn rfl ?_)
    rintro rfl
    exact absurd rfl (harrive r)
  | turn j n junk φ notified c sock did log conn pc dispatched =>
    obtain ⟨pc', hconns⟩ := afterTurn_conns s j { c with sock := sock } log did
    exact Or.inl (loop_set conn hconns fun hj => absurd hj (hreading rfl conn pc))
  | move j n junk φ notified sock pc conn moves =>
    refine Or.inl (loop_set conn rfl fun hj => ?_)
    rcases moves with ⟨hpc, -⟩ | ⟨k, hpc, -, rfl⟩ | ⟨hpc, -, rfl⟩
    · exact absurd hj (hreading rfl conn hpc)
    · simp only [inLoop, hpc]
    · simp only [inLoop, hpc]
  | backlog j n junk φ notified ref s' conn pc conns queue workers down log =>
    exact Or.inl (loop_set conn conns fun _ => by simp only [inLoop, pc])
  | push j n junk φ notified ref s' conn pc conns queue held down log busy =>
    exact Or.inl (loop_set conn conns fun _ => by simp only [inLoop, pc])
  | reset j n junk φ notified ref conn pc =>
    refine Or.inl (loop_set conn rfl fun _ => ?_)
    obtain ⟨-, hsock⟩ := resetParams_plug n.connection n.connection.sock ref.slot
    simp only [inLoop, pc, hsock]
  | tear j n junk φ notified k c log conn pc lt tore =>
    exact Or.inl (loop_set conn rfl fun _ => by simp only [inLoop, pc])
  | clear j n junk φ notified k c log conn pc lt cleared =>
    exact Or.inl (loop_set conn rfl fun _ => by simp only [inLoop, pc])
  | erase j n junk φ notified k c log s' conn pc le destroyed conns queue workers down log_eq =>
    exact Or.inl (loop_set conn conns fun _ => by simp only [inLoop, pc])
  | pop w φ pc ref queue s' worker free queue_eq conns queue' workers down log =>
    refine Or.inl ?_
    rw [loop, conns]
    rfl
  | work a w ref r r' pc pc' got log worker request worked =>
    obtain ⟨n, hn, -⟩ := Sys.request?_eq_some.mp request
    exact Or.inl (loop_set hn (Sys.setRequest_conns hn r') fun _ => rfl)
  | decrement w φ ref n worker conn => exact Or.inl (loop_set conn rfl fun _ => rfl)

/-! ## Steps and runs -/

/-- The header of the record that a pass of the loop handles. -/
def passed (p : Params) (n : Conn) (junk : Junk) (φ : Fate) : List Header :=
  if n.pc = .reading ∧ n.connection.sock.insane then
    match n.connection.turn p junk φ with
    | .handled header _ _ _ => [header]
    | _ => []
  else []

/-- The header of the record that a step handles on connection `i`. -/
def handed (p : Params) (i : Nat) (s : Sys) : Act → List Header
  | .conn j junk φ _ =>
    match s.conns[j]? with
    | none => []
    | some n => if j = i then passed p n junk φ else []
  | _ => []

theorem handed_quiet (h : ¬ Pass s i a) : handed p i s a = [] := by
  cases a with
  | conn j junk φ notified =>
    simp only [handed]
    split
    · rfl
    · rename_i n hn
      split
      · rename_i hj
        subst hj
        refine if_neg ?_
        rintro ⟨hpc, -⟩
        exact h ⟨junk, φ, notified, n, rfl, hn, hpc⟩
      · rfl
  | _ => rfl

theorem handed_pass {junk : Junk} {φ : Fate} {notified : Option Nat} {n : Conn}
    (hn : s.conns[i]? = some n) (hpc : n.pc = .reading) (hsane : n.connection.sock.insane = true) :
    handed p i s (.conn i junk φ notified) = match n.connection.turn p junk φ with
      | .handled header _ _ _ => [header]
      | _ => [] := by
  simp only [handed, hn, if_true, passed, hpc, hsane, and_self]

/-- The records with the id of a slot. -/
def mine (p : Params) (slot : Nat) (rs : List Record) : List Record :=
  rs.filter fun x => idIn p x = slot + 1

/-- Connection `i` has handled `done`; `todo` and then `e` are what the socket has and what
is still to come. -/
structure Heeds (p : Params) (i : Nat) (e coming : List Item) (done todo : List Record) (s : Sys) :
    Prop where
  input : ∀ sock, loop s i = some (some sock) → sock.insane = true ∧
    sock.reads.flatMap items ++ coming = (todo.flatMap Record.bytes).map .byte ++ e
  ended : loop s i = some none → todo = []
  fresh : loop s i = none → done = [] ∧ coming = (todo.flatMap Record.bytes).map .byte ++ e
  slots : ∀ slot r, s.request? ⟨i, slot⟩ = some r →
    Follows (mine p slot done) (marksOf s ⟨i, slot⟩) r

/-- What a step brings on connection `i`. -/
def comes (i : Nat) : Act → List Item
  | .arrive j r => if j = i then items r else []
  | _ => []

variable {e more : List Item} {done todo : List Record}

theorem quiet_slots (hi : Inv s) (h : Sys.step p s a = some s') (hpass : ¬ Pass s i a)
    (hs : ∀ slot r, s.request? ⟨i, slot⟩ = some r →
      Follows (mine p slot done) (marksOf s ⟨i, slot⟩) r) :
    ∀ slot r, s'.request? ⟨i, slot⟩ = some r →
      Follows (mine p slot done) (marksOf s' ⟨i, slot⟩) r := by
  intro slot r' hr'
  cases step_params hi h ⟨i, slot⟩ with
  | same request ms marks accepted hfed =>
    obtain ⟨r, hr, hstate, -, -⟩ := request r' hr'
    rw [marks]
    exact (hs slot r hr).quiet hstate accepted hfed
  | fills n junk φ notified r h log act conn pc slot' fills request marks =>
    exact absurd ⟨junk, φ, notified, n, act, conn, pc⟩ hpass

theorem quiet_heeds (hi : Inv s) (hh : Heeds p i e more done todo s)
    (h : Sys.step p s a = some s') (hpass : ¬ Pass s i a) (harrive : ∀ r, a ≠ .arrive i r) :
    Heeds p i e more done todo s' := by
  have hslots := quiet_slots hi h hpass hh.slots
  rcases effect_loop (Sys.step_effect h).2 hpass harrive with hloop | ⟨hnone, hsome⟩
  · refine ⟨?_, ?_, ?_, hslots⟩ <;> rw [hloop]
    · exact hh.input
    · exact hh.ended
    · exact hh.fresh
  · obtain ⟨-, hcoming⟩ := hh.fresh hnone
    refine ⟨?_, ?_, ?_, hslots⟩ <;> rw [hsome]
    · rintro sock ⟨⟩
      exact ⟨rfl, hcoming⟩
    · exact nofun
    · exact nofun

theorem arrive_heeds (hi : Inv s) {r : ReadResult} (hh : Heeds p i e (items r ++ more) done todo s)
    (h : Sys.step p s (.arrive i r) = some s') : Heeds p i e more done todo s' := by
  have hpass : ¬ Pass s i (.arrive i r) := by
    rintro ⟨junk, φ, notified, n, ha, -⟩
    cases ha
  have hslots := quiet_slots hi h hpass hh.slots
  unfold Sys.step at h
  split at h
  · cases h
  · simp only at h
    split at h
    · cases h
    · rename_i n hn
      split at h
      · cases h
      · cases h
        have hself := loop_self (i := i) hn (Sys.setConn_conns s i { n with
          connection := { n.connection with
            sock := { n.connection.sock with reads := n.connection.sock.reads ++ [r] } } })
        have hloop : loop s i = some (inLoop n) := by
          unfold loop
          rw [hn]
          rfl
        refine ⟨?_, ?_, ?_, hslots⟩ <;> rw [hself]
        · intro sock hsock
          have hin : ∀ x, inLoop n = some x → x.insane = true ∧
              x.reads.flatMap items ++ (items r ++ more) =
                (todo.flatMap Record.bytes).map .byte ++ e :=
            fun x hx => hh.input x (hloop.trans (congrArg some hx))
          obtain ⟨c, pc⟩ := n
          cases pc with
          | reading | pushing ref | locking ref | resetting ref =>
            cases hsock
            obtain ⟨hsane, hitems⟩ := hin c.sock rfl
            refine ⟨hsane, ?_⟩
            rw [List.flatMap_append, List.flatMap_singleton, List.append_assoc]
            exact hitems
          | tearingDown k | waiting | clearing k | gone => cases hsock
        · intro hnone
          refine hh.ended (hloop.trans ?_)
          obtain ⟨c, pc⟩ := n
          cases pc with
          | reading | pushing ref | locking ref | resetting ref => cases hnone
          | tearingDown k | waiting | clearing k | gone => rfl
        · exact nofun

theorem loop_turn {n : Conn} (hn : s.conns[i]? = some n) (c : Connection) (log : List Event)
    (did : Option (Nat × Handled)) : loop (s.afterTurn i c log did) i = some (some c.sock) := by
  have hset : ∀ t pc, t.conns = s.conns.set i ⟨c, pc⟩ → inLoop ⟨c, pc⟩ = some c.sock →
      loop t i = some (some c.sock) :=
    fun t pc hconns hpc => (loop_self hn hconns).trans (congrArg some hpc)
  cases did with
  | none => exact hset _ .reading rfl rfl
  | some x =>
    obtain ⟨slot, h⟩ := x
    cases h with
    | push r => exact hset _ (.pushing ⟨i, slot⟩) rfl rfl
    | _ => exact hset _ .reading rfl rfl

/-- A pass over the next record. -/
theorem handled_heeds (hi : Inv s) (hfilled : ∀ ref, FilledAt p s ref) {x : Record} {n : Conn}
    {junk : Junk} {c : Connection} {did : Option (Nat × Handled)} {log : List Event}
    (hh : Heeds p i e more done (x :: todo) s) (hn : s.conns[i]? = some n) (hpc : n.pc = .reading)
    (hsane : c.sock.insane = true)
    (hleft : c.sock.reads.flatMap items ++ more = (todo.flatMap Record.bytes).map .byte ++ e)
    (hmet : Met p junk n.connection x c.requests did log) :
    Heeds p i e more (done ++ [x]) todo (s.afterTurn i c log did) := by
  have hloop := loop_turn hn c log did
  have hmine : ∀ slot, idIn p x ≠ slot + 1 → mine p slot (done ++ [x]) = mine p slot done := by
    intro slot hne
    rw [mine, List.filter_append, List.filter_singleton, decide_eq_false hne]
    exact List.append_nil _
  refine ⟨?_, ?_, ?_, ?_⟩
  · rw [hloop]
    rintro sock ⟨⟩
    exact ⟨hsane, hleft⟩
  · rw [hloop]
    exact nofun
  · rw [hloop]
    exact nofun
  · intro slot r' hr'
    obtain ⟨pc, hconns⟩ := afterTurn_conns s i c log did
    rcases hmet with ⟨h0, rfl, hreq⟩ | ⟨h0, hd, rfl, hreq, hheard⟩
    · have hsame := request?_set_same hn hconns hreq ⟨i, slot⟩
      rw [hmine slot (by rw [h0]; exact Nat.succ_ne_zero _ |>.symm)]
      exact hh.slots slot r' (hsame ▸ hr')
    · obtain ⟨hself, hother⟩ := request?_settle hn hconns h0 (h := hd) hreq
      by_cases hslot : idIn p x = slot + 1
      · obtain rfl : slot = idIn p x - 1 := by omega
        have hmarks : marksOf (s.afterTurn i c log (some (idIn p x - 1, hd))) ⟨i, idIn p x - 1⟩ =
            marksOf s ⟨i, idIn p x - 1⟩ ++ Sys.marks hd log := marksOf_record _ _ _
        have hmine' : mine p (idIn p x - 1) (done ++ [x]) = mine p (idIn p x - 1) done ++ [x] := by
          rw [mine, List.filter_append, List.filter_singleton, decide_eq_true hslot]
          rfl
        rw [hself] at hr'
        cases hr'
        rw [hmarks, hmine']
        rcases slot_request p junk hn h0 with hr | ⟨-, hnew⟩
        · refine (hh.slots _ _ hr).heard ⟨reading_state hi hn hpc hr, ?_⟩ hheard
          intro hstate
          obtain ⟨-, d, -, hd', -⟩ := (hfilled _ _ hr).reading hstate
          rw [hd']
          rfl
        · rw [hnew] at hheard
          refine Follows.heard (fun hbusy => absurd rfl hbusy) ⟨?_, ?_⟩ hheard
          · intro hsome
            cases hsome
          · intro hstate
            cases hstate
      · have hne : (⟨i, slot⟩ : Ref) ≠ ⟨i, idIn p x - 1⟩ := by
          intro heq
          have hslots : slot = idIn p x - 1 := congrArg Ref.slot heq
          omega
        rw [hother _ hne] at hr'
        rw [hmine slot hslot]
        have hsame : marksOf (s.afterTurn i c log (some (idIn p x - 1, hd))) ⟨i, slot⟩ =
            marksOf s ⟨i, slot⟩ := marksOf_record_ne hne _ _
        rw [hsame]
        exact hh.slots slot r' hr'

theorem reading_heeds (hi : Inv s) (hfilled : ∀ ref, FilledAt p s ref)
    (hpad : ∀ x ∈ todo, ¬ x.PadOnly) (he : ∀ b l, e ≠ .byte b :: l) {n : Conn} {junk : Junk}
    {φ : Fate} {notified : Option Nat} (hh : Heeds p i e more done todo s)
    (hn : s.conns[i]? = some n) (hpc : n.pc = .reading) (h : s.reading p i n junk φ = some s') :
    ∃ new todo', todo = new ++ todo' ∧
      handed p i s (.conn i junk φ notified) = new.map Record.header ∧
      Heeds p i e more (done ++ new) todo' s' := by
  have hloop : loop s i = some (some n.connection.sock) := by
    rw [loop, hn, Option.map_some, inLoop, hpc]
  obtain ⟨hsane, hitems⟩ := hh.input _ hloop
  rw [handed_pass hn hpc hsane]
  unfold Sys.reading at h
  rw [if_pos hsane] at h
  cases todo with
  | nil =>
    rcases turn_end (p := p) junk φ he hitems with hb | ⟨c, hc⟩
    · rw [hb] at h
      cases h
    · rw [hc] at h ⊢
      cases h
      have hconns : (s.setConn i ⟨c, .tearingDown 0⟩).conns =
          s.conns.set i ⟨c, .tearingDown 0⟩ := rfl
      have hself : loop (s.setConn i ⟨c, .tearingDown 0⟩) i = some none := loop_self hn hconns
      obtain ⟨sock, hsock⟩ := Connection.turn_left hc
      have hreq : c.requests = n.connection.requests := by rw [hsock]
      refine ⟨[], [], rfl, rfl, ?_, fun _ => rfl, ?_, ?_⟩
      · rw [hself]
        exact nofun
      · rw [hself]
        exact nofun
      · intro slot r hr
        rw [request?_set_same hn hconns hreq] at hr
        rw [List.append_nil]
        exact hh.slots slot r hr
  | cons x todo =>
    have hrest : n.connection.sock.reads.flatMap items ++ more =
        x.bytes.map .byte ++ ((todo.flatMap Record.bytes).map .byte ++ e) := by
      rw [hitems, List.flatMap_cons, List.map_append, List.append_assoc]
    have hturn := turn_record (p := p) junk φ (hpad x List.mem_cons_self) hsane hrest
    generalize n.connection.turn p junk φ = t at h hturn ⊢
    cases hturn with
    | blocked => cases h
    | down crash log =>
      cases h
      refine ⟨[], x :: todo, rfl, rfl, ?_⟩
      rw [List.append_nil]
      exact ⟨hh.input, hh.ended, hh.fresh, hh.slots⟩
    | handled c did log sane left met =>
      cases h
      exact ⟨[x], todo, rfl, rfl, handled_heeds hi hfilled hh hn hpc sane left met⟩

theorem step_heeds (hi : Inv s) (hfilled : ∀ ref, FilledAt p s ref)
    (hpad : ∀ x ∈ todo, ¬ x.PadOnly) (he : ∀ b l, e ≠ .byte b :: l)
    (hh : Heeds p i e (comes i a ++ more) done todo s) (h : Sys.step p s a = some s') :
    ∃ new todo', todo = new ++ todo' ∧ handed p i s a = new.map Record.header ∧
      Heeds p i e more (done ++ new) todo' s' := by
  by_cases hpass : Pass s i a
  · obtain ⟨junk, φ, notified, n, rfl, hn, hpc⟩ := hpass
    unfold Sys.step at h
    split at h
    · cases h
    · simp only [hn, Sys.connStep, hpc] at h
      exact reading_heeds hi hfilled hpad he hh hn hpc h
  · refine ⟨[], todo, rfl, handed_quiet hpass, ?_⟩
    rw [List.append_nil]
    by_cases harrive : ∃ r, a = .arrive i r
    · obtain ⟨r, rfl⟩ := harrive
      rw [comes, if_pos rfl] at hh
      exact arrive_heeds hi hh h
    · have hno : ∀ r, a ≠ .arrive i r := fun r ha => harrive ⟨r, ha⟩
      have hnone : comes i a = [] := by
        cases a with
        | arrive j r =>
          refine if_neg ?_
          rintro rfl
          exact hno r rfl
        | _ => rfl
      rw [hnone, List.nil_append] at hh
      exact quiet_heeds hi hh h hpass hno

theorem run_heeds {as : List Act} (hi : Inv s) (hfilled : ∀ ref, FilledAt p s ref)
    (hpad : ∀ x ∈ todo, ¬ x.PadOnly) (he : ∀ b l, e ≠ .byte b :: l)
    (hh : Heeds p i e (as.flatMap (comes i) ++ more) done todo s)
    (h : run (Sys.step p) s as = some s') :
    ∃ new todo', todo = new ++ todo' ∧
      trace (Sys.step p) (handed p i) s as = new.map Record.header ∧
      Heeds p i e more (done ++ new) todo' s' := by
  induction as generalizing s done todo with
  | nil =>
    cases h
    refine ⟨[], todo, rfl, rfl, ?_⟩
    rw [List.append_nil]
    exact hh
  | cons a as ih =>
    obtain ⟨s₁, hs, hrest⟩ := run_cons h
    rw [List.flatMap_cons, List.append_assoc] at hh
    obtain ⟨new₁, todo₁, rfl, hhanded, hh₁⟩ := step_heeds hi hfilled hpad he hh hs
    have hpad₁ : ∀ x ∈ todo₁, ¬ x.PadOnly := fun x hx => hpad x (List.mem_append_right _ hx)
    obtain ⟨new₂, todo₂, rfl, htrace, hh₂⟩ := ih (step_inv hi hs)
      (fun ref => step_filled hi (hfilled ref) hs) hpad₁ hh₁ hrest
    refine ⟨new₁ ++ new₂, todo₂, (List.append_assoc ..).symm, ?_, ?_⟩
    · rw [trace_cons hs, hhanded, htrace, List.map_append]
    · rw [← List.append_assoc]
      exact hh₂

section
variable {workers : Nat} {as : List Act} {rs : List Record}

theorem run_received (h : run (Sys.step p) (.init workers) as = some s) (i : Nat)
    (hpad : ∀ x ∈ rs, ¬ x.PadOnly) (he : ∀ b l, e ≠ .byte b :: l)
    (hmore : as.flatMap (comes i) ++ more = (rs.flatMap Record.bytes).map .byte ++ e) :
    ∃ done todo, rs = done ++ todo ∧
      trace (Sys.step p) (handed p i) (.init workers) as = done.map Record.header ∧
      Heeds p i e more done todo s := by
  have hstart : Heeds p i e (as.flatMap (comes i) ++ more) [] rs (.init workers) := by
    refine ⟨?_, ?_, fun _ => ⟨rfl, hmore⟩, ?_⟩
    · intro sock hsock
      cases hsock
    · intro hnone
      cases hnone
    · intro slot r hr
      cases hr
  have hinit : ∀ ref, FilledAt p (.init workers) ref := by
    intro ref r hr
    cases hr
  obtain ⟨done, todo, rfl, htrace, hh⟩ := run_heeds (init_inv workers) hinit hpad he hstart h
  exact ⟨done, todo, rfl, htrace, hh⟩

end

/-- **What the requests are fed.** The peer writes the records `rs` on a connection, with no
padding where there is no content, and then `e`; some of this has arrived, in any cut. In
every run the thread has handled the front records, in order, and has the rest of the bytes
before it; when it leaves its loop it has handled all. A request in use was fed its share of
the handled records with its id behind its BEGIN_REQUEST record. -/
theorem fed_as_written {workers : Nat} {as : List Act}
    (h : run (Sys.step p) (.init workers) as = some s)
    (i : Nat) {rs : List Record} (hpad : ∀ x ∈ rs, ¬ x.PadOnly) {e : List Item}
    (he : ∀ b l, e ≠ .byte b :: l)
    (harrived : as.flatMap (comes i) <+: (rs.flatMap Record.bytes).map .byte ++ e) :
    ∃ done todo, rs = done ++ todo ∧
      trace (Sys.step p) (handed p i) (.init workers) as = done.map Record.header ∧
      (∀ sock, loop s i = some (some sock) → as.flatMap (comes i) =
        (done.flatMap Record.bytes).map .byte ++ sock.reads.flatMap items) ∧
      (loop s i = some none → todo = []) ∧
      ∀ slot r, s.request? ⟨i, slot⟩ = some r → r.state ≠ .ready →
        ∃ before b after c, mine p slot done = before ++ b :: after ∧
          b.header.recType = .beginRequest ∧ current (marksOf s ⟨i, slot⟩) = some c ∧
          share after = (decide (r.state = .readingParams), fed c) := by
  obtain ⟨more, hmore⟩ := harrived
  obtain ⟨done, todo, rfl, htrace, hh⟩ := run_received h i hpad he hmore
  refine ⟨done, todo, rfl, htrace, ?_, hh.ended, fun slot r hr hbusy => hh.slots slot r hr hbusy⟩
  intro sock hsock
  obtain ⟨-, hitems⟩ := hh.input sock hsock
  have hall : as.flatMap (comes i) ++ more =
      (done.flatMap Record.bytes).map .byte ++ sock.reads.flatMap items ++ more := by
    rw [hmore, List.append_assoc, hitems, List.flatMap_append, List.map_append, List.append_assoc]
  exact List.append_cancel_right hall

def beginOne : Record where
  header := .ofBytes [1, 1, 1, 0, 0, 8, 0, 0]
  content := [0, 1, 0, 0, 0, 0, 0, 0]
  padding := []
  contentLength := rfl
  paddingLength := rfl
  beginBody := fun _ => Nat.le_refl 8

def paramsOne : Record where
  header := .ofBytes [1, 4, 1, 0, 0, 0, 0, 0]
  content := []
  padding := []
  contentLength := rfl
  paddingLength := rfl
  beginBody := RecType.noConfusion

def stdinOne : Record where
  header := .ofBytes [1, 5, 1, 0, 0, 2, 0, 0]
  content := [104, 105]
  padding := []
  contentLength := rfl
  paddingLength := rfl
  beginBody := RecType.noConfusion

/-- The STDIN record comes in two parts while the request runs, and then the end of file. -/
def fedRun : List Act :=
  started ++ [.arrive 0 (.data 1 [5, 1]), .arrive 0 (.data 0 [0, 2, 0, 0, 104, 105]),
    .arrive 0 .eof] ++
    connMoves 2

theorem fed_as_written_stdin : ∃ s r before b after c,
    run (Sys.step .standard) (.init 1) fedRun = some s ∧ loop s 0 = some none ∧
      s.request? ⟨0, 0⟩ = some r ∧
      mine .standard 0 [beginOne, paramsOne, stdinOne] = before ++ b :: after ∧
      current (marksOf s ⟨0, 0⟩) = some c ∧ share after = (false, fed c) := by
  have hrun : (run (Sys.step .standard) (.init 1) fedRun).any
      (fun s => decide (loop s 0 = some none) &&
      (s.request? ⟨0, 0⟩).any fun r => r.state = .pending) = true := by decide +kernel
  obtain ⟨s, hs, hcheck⟩ := (Option.any_eq_true _ _).mp hrun
  simp only [Bool.and_eq_true, decide_eq_true_eq, Option.any_eq_true] at hcheck
  obtain ⟨hloop, r, hr, hstate⟩ := hcheck
  have hpad : ∀ x ∈ [beginOne, paramsOne, stdinOne], ¬ x.PadOnly := by
    intro x hx hp
    simp only [List.mem_cons, List.not_mem_nil, or_false] at hx
    rcases hx with rfl | rfl | rfl <;> exact hp.2 rfl
  have harrived : fedRun.flatMap (comes 0) <+:
      ([beginOne, paramsOne, stdinOne].flatMap Record.bytes).map .byte ++ [.eof] :=
    ⟨[], by decide +kernel⟩
  obtain ⟨done, todo, hsplit, -, -, hend, hslots⟩ :=
    fed_as_written hs 0 hpad (fun b l hb => by cases hb) harrived
  rw [hend hloop, List.append_nil] at hsplit
  obtain ⟨before, b, after, c, hmine, -, hc, hshare⟩ :=
    hslots 0 r hr (by rw [hstate]; exact nofun)
  rw [hstate] at hshare
  exact ⟨s, r, before, b, after, c, hs, hloop, hr, hsplit ▸ hmine, hc, hshare⟩

/-! ## The parameters that the peer wrote -/

/-- The contents of the PARAMS records among `rs`. -/
def paramsOf (rs : List Record) : List (List Byte) :=
  (rs.filter fun x => x.header.recType = .params).map Record.content

/-- The PARAMS records that are heard are those up to the first empty one. -/
def HeardParams (rs : List Record) (x : Bool × List (RecType × List Byte)) : Prop :=
  let heard := x.2.filterMap fun y => if y.1 = .params then some y.2 else none
  if x.1 then [] ∉ paramsOf rs ∧ heard = paramsOf rs
  else ∃ records late, paramsOf rs = records ++ [] :: late ∧ [] ∉ records ∧ heard = records ++ [[]]

theorem share_params (rs : List Record) : HeardParams rs (share rs) := by
  induction rs using List.reverseRecOn with
  | nil => exact ⟨List.not_mem_nil, rfl⟩
  | append_singleton rs r ih =>
    have hparams : paramsOf (rs ++ [r]) =
        paramsOf rs ++ if r.header.recType = .params then [r.content] else [] := by
      unfold paramsOf
      rw [List.filter_append, List.map_append]
      by_cases ht : r.header.recType = .params <;> simp [ht]
    rw [share_concat]
    unfold HeardParams at ih ⊢
    rw [hparams]
    generalize share rs = x at ih
    obtain ⟨listening, heard⟩ := x
    cases ht : r.header.recType with
    | params =>
      cases listening with
      | true =>
        obtain ⟨hne, hheard⟩ := ih
        by_cases hc : r.content = []
        · simp only [hear, ht, hc, if_true, ne_eq, not_true, decide_false, Bool.false_eq_true,
            if_false]
          refine ⟨paramsOf rs, [], rfl, hne, ?_⟩
          rw [List.filterMap_append]
          exact congrArg (· ++ [[]]) hheard
        · simp only [hear, ht, hc, if_true, ne_eq, not_false_eq_true, decide_true]
          refine ⟨?_, ?_⟩
          · intro hmem
            rcases List.mem_append.mp hmem with hmem | hmem
            · exact hne hmem
            · exact hc (List.mem_singleton.mp hmem).symm
          · rw [List.filterMap_append]
            exact congrArg (· ++ [r.content]) hheard
      | false =>
        obtain ⟨records, late, hps, hne, hheard⟩ := ih
        simp only [hear, ht, Bool.false_eq_true, if_false, if_true]
        refine ⟨records, late ++ [r.content], ?_, hne, hheard⟩
        rw [hps, List.append_assoc, List.cons_append]
    | stdin | data =>
      simp only [hear, ht, reduceCtorEq, if_false, List.append_nil, List.filterMap_append]
      simpa using ih
    | _ =>
      simp only [hear, ht, reduceCtorEq, if_false, List.append_nil]
      exact ih

/-- **The parameters that the peer wrote.** The peer writes the records `rs` as above. A
request that is queued or held has read the PARAMS records with its id behind its
BEGIN_REQUEST record, up to the first empty one, and its map has what the parser made of
them. Where they hold whole pairs with one-byte lengths none is over the limit, and the map
has for each name the last value of them. -/
theorem params_as_written {workers : Nat} {as : List Act}
    (h : run (Sys.step p) (.init workers) as = some s) {i slot : Nat} (href : ⟨i, slot⟩ ∈ refs s)
    {rs : List Record} (hpad : ∀ x ∈ rs, ¬ x.PadOnly) {e : List Item} (he : ∀ b l, e ≠ .byte b :: l)
    (harrived : as.flatMap (comes i) <+: (rs.flatMap Record.bytes).map .byte ++ e) :
    ∃ done before b after records late r, done <+: rs ∧ mine p slot done = before ++ b :: after ∧
      b.header.recType = .beginRequest ∧ paramsOf after = records ++ [] :: late ∧ [] ∉ records ∧
      s.request? ⟨i, slot⟩ = some r ∧ (∃ d, Read p records r.params d) ∧
      ∀ ess : List (List Entry), records = ess.map encode → (∀ es ∈ ess, ∀ e ∈ es, e.Short) →
        (∀ e ∈ ess.flatten, e.size ≤ p.nvpMaxPairSize) ∧
          ∀ key, r.params.lookup key = (ess.flatten.map Entry.pair).reverse.lookup key := by
  obtain ⟨more, hmore⟩ := harrived
  obtain ⟨done, todo, rfl, -, hh⟩ := run_received h i hpad he hmore
  obtain ⟨n, r, hn, -, hslot, hpending⟩ := (run_inv h).live href
  have hr : s.request? ⟨i, slot⟩ = some r := Sys.request?_eq_some.mpr ⟨n, hn, hslot⟩
  obtain ⟨before, b, after, c, hmine, hb, hc, hshare⟩ :=
    hh.slots slot r hr (by rw [hpending]; exact State.noConfusion)
  obtain ⟨c', records, d, hc', hrecords, hread⟩ := (run_filled h _ r hr).pending hpending
  rw [hc, Option.some.injEq] at hc'
  subst hc'
  have hheard := share_params after
  rw [hshare, hpending] at hheard
  obtain ⟨records', late, hparams, hne, heq⟩ := hheard
  rw [← paramsRecords_fed, hrecords] at heq
  obtain rfl := List.append_cancel_right heq
  exact ⟨done, before, b, after, records, late, r, List.prefix_append done todo, hmine, hb, hparams,
    hne, hr, ⟨d, hread⟩, fun ess => hread.pairs⟩

/-- The record of `aRecord`. -/
def paramsPair (value : Byte) : Record where
  header := .ofBytes [1, 4, 1, 0, 0, 4, 0, 0]
  content := [1, 1, 65, value]
  padding := []
  contentLength := by
    rw [show [1, 1, 65, value].length = 4 from rfl]
    rfl
  paddingLength := rfl
  beginBody := RecType.noConfusion

/-- What stands before the first empty record. -/
theorem records_unique {records records' late late' : List (List Byte)}
    (h : records ++ [] :: late = records' ++ [] :: late') (hne : [] ∉ records)
    (hne' : [] ∉ records') : records = records' := by
  have hfront : ∀ {l m : List (List Byte)}, [] ∉ l →
      (l ++ [] :: m).takeWhile (fun x => decide (x ≠ [])) = l := by
    intro l m hl
    rw [List.takeWhile_append_of_pos, List.takeWhile_cons_of_neg, List.append_nil]
    · simp
    · intro x hx
      exact decide_eq_true fun hnil => hl (hnil ▸ hx)
  rw [← hfront (m := late) hne, h, hfront hne']

/-- The records behind the only BEGIN_REQUEST record. -/
theorem behind_begin {before after rest : List Record} {b x : Record}
    (h : before ++ b :: after <+: x :: rest) (hb : b.header.recType = .beginRequest)
    (hrest : ∀ y ∈ rest, y.header.recType ≠ .beginRequest) : after <+: rest := by
  cases before with
  | nil => exact (List.cons_prefix_cons.mp h).2
  | cons y before =>
    have hmem : b ∈ rest :=
      (List.cons_prefix_cons.mp h).2.subset (List.mem_append_right _ List.mem_cons_self)
    exact absurd hb (hrest b hmem)

theorem params_as_written_named : ∃ s r, run (Sys.step .standard) (.init 1) named = some s ∧
    s.request? ⟨0, 0⟩ = some r ∧
    (∃ d, Read .standard ([[aEntry 98], [aEntry 99]].map encode) r.params d) ∧
    r.params.lookup [65] = some [99] := by
  have hrun : (run (Sys.step .standard) (.init 1) named).any (fun s =>
      decide (⟨0, 0⟩ ∈ refs s)) = true := by decide +kernel
  obtain ⟨s, hs, href⟩ := (Option.any_eq_true _ _).mp hrun
  have hpad : ∀ x ∈ [beginOne, paramsPair 98, paramsPair 99, paramsOne], ¬ x.PadOnly := by
    intro x hx hp
    simp only [List.mem_cons, List.not_mem_nil, or_false] at hx
    rcases hx with rfl | rfl | rfl | rfl <;> exact hp.2 rfl
  have harrived : named.flatMap (comes 0) <+: ([beginOne, paramsPair 98, paramsPair 99,
      paramsOne].flatMap Record.bytes).map .byte ++ [] := ⟨[], by decide +kernel⟩
  obtain ⟨done, before, b, after, records, late, r, hdone, hmine, hb, hparams, hne, hr, hread,
      hpairs⟩ :=
    params_as_written hs (of_decide_eq_true href) hpad (fun b l hb => by cases hb) harrived
  have hafter : after <+: [paramsPair 98, paramsPair 99, paramsOne] := by
    have hfront : mine .standard 0 done <+: [beginOne, paramsPair 98, paramsPair 99, paramsOne] :=
      hdone.filter _
    rw [hmine] at hfront
    refine behind_begin hfront hb ?_
    intro y hy
    simp only [List.mem_cons, List.not_mem_nil, or_false] at hy
    rcases hy with rfl | rfl | rfl <;> exact RecType.noConfusion
  obtain ⟨more, hmore⟩ := hafter
  have hrecords : records = [[aEntry 98], [aEntry 99]].map encode := by
    have happ : paramsOf (after ++ more) = paramsOf after ++ paramsOf more := by
      simp [paramsOf]
    rw [hmore, hparams, List.append_assoc, List.cons_append] at happ
    have hsplit : records ++ [] :: (late ++ paramsOf more) =
        [[aEntry 98], [aEntry 99]].map encode ++ [[]] := happ.symm
    exact records_unique hsplit hne (by decide)
  have hshort : ∀ es ∈ [[aEntry 98], [aEntry 99]], ∀ e ∈ es, e.Short := by
    simp only [List.mem_cons, List.not_mem_nil, or_false, forall_eq_or_imp, forall_eq]
    exact ⟨⟨rfl, rfl⟩, rfl, rfl⟩
  refine ⟨s, r, hs, hr, hrecords ▸ hread, ?_⟩
  rw [(hpairs _ hrecords hshort).2]
  rfl

end Tfcgi.Received
