import Mathlib.Data.List.TakeWhile
import Tfcgi.Content
import Tfcgi.NvpRuns
import Tfcgi.Reuse

/-!
# The parameters of a request

A request in use has read the PARAMS records that came since its acceptance and nothing
else, whatever other records, workers and connections do.

* `step_filled`: each step keeps this;
* `dispatched_records`: a dispatched request has read all records up to the first empty one;
* `parameters`: for records of whole pairs with one-byte lengths its map has the last
  value that was sent for each name.
-/

namespace Tfcgi.Parameters

open Tfcgi.Run Tfcgi.HostOrder Tfcgi.Protocol Tfcgi.NameValuePairs Tfcgi.NvpGrammar
open Tfcgi.NvpRuns Tfcgi.Socket Tfcgi.Iostream Tfcgi.RequestSlot Tfcgi.ConnectionThread
open Tfcgi.System Tfcgi.Content Tfcgi.Accounting Tfcgi.History Tfcgi.Reuse

/-! ## The map -/

theorem lookup_filter {m : Map} {key other : List Byte} (h : key ≠ other) :
    (m.filter fun pair => pair.1 ≠ other).lookup key = m.lookup key := by
  induction m with
  | nil => rfl
  | cons pair m ih =>
    by_cases hp : pair.1 = other
    · have hne : (key == pair.1) = false := by
        rw [hp]
        exact beq_eq_false_iff_ne.mpr h
      simp only [List.filter_cons, hp, ne_eq, not_true, decide_false, Bool.false_eq_true, if_false]
      rw [List.lookup_cons, hne]
      exact ih
    · simp only [List.filter_cons, hp, ne_eq, not_false_eq_true, decide_true, if_true]
      rw [List.lookup_cons, List.lookup_cons]
      simp only [ne_eq] at ih
      rw [ih]

theorem lookup_insert (m : Map) (pair : Pair) (key : List Byte) :
    (m.insert pair).lookup key = if key = pair.1 then some pair.2 else m.lookup key := by
  rw [Map.insert, List.lookup_cons]
  by_cases h : key = pair.1
  · rw [if_pos h, beq_iff_eq.mpr h]
  · rw [if_neg h, beq_eq_false_iff_ne.mpr h]
    exact lookup_filter h

/-- The last call with a name decides. -/
theorem lookup_newKeys (m : Map) (calls : List Pair) (key : List Byte) :
    (m.newKeys calls).lookup key = (calls.reverse.lookup key).or (m.lookup key) := by
  induction calls generalizing m with
  | nil => rfl
  | cons pair calls ih =>
    have hstep : m.newKeys (pair :: calls) = (m.insert pair).newKeys calls := rfl
    rw [hstep, ih, lookup_insert, List.reverse_cons, List.lookup_append]
    cases calls.reverse.lookup key with
    | some value => rfl
    | none =>
      rw [List.lookup_cons]
      by_cases h : key = pair.1
      · rw [if_pos h, beq_iff_eq.mpr h]
        rfl
      · rw [if_neg h, beq_eq_false_iff_ne.mpr h]
        rfl

theorem newKeys_append (m : Map) (calls calls' : List Pair) :
    m.newKeys (calls ++ calls') = (m.newKeys calls).newKeys calls' := List.foldl_append ..

theorem feedAll_append {p : Params} {d d' : Deserializer} {records : List (List Byte)}
    {calls : List Pair} (h : d.feedAll p records = ⟨calls, .returns false d'⟩)
    (more : List (List Byte)) :
    d.feedAll p (records ++ more) = (d'.feedAll p more).prepend calls := by
  induction records generalizing d calls with
  | nil =>
    cases h
    rfl
  | cons data records ih =>
    cases hf : d.feed p data with
    | mk first outcome =>
      cases outcome with
      | returns finished d₁ =>
        rw [feedAll_returns hf] at h
        cases hrest : d₁.feedAll p records with
        | mk later outcome' =>
          rw [hrest] at h
          cases h
          rw [List.cons_append, feedAll_returns hf, ih hrest]
          simp only [Fed.prepend, List.append_assoc]
      | throws what | fault f =>
        simp only [Deserializer.feedAll, hf] at h
        cases h

/-! ## Records and their request -/

/-- The contents of the PARAMS records that were read. -/
def paramsRecords (ms : List Mark) : List (List Byte) := ms.filterMap fun
  | .did (.fed .params data) => some data
  | _ => none

theorem paramsRecords_append (ms ms' : List Mark) :
    paramsRecords (ms ++ ms') = paramsRecords ms ++ paramsRecords ms' := List.filterMap_append

/-- What was given to the parser and to the queues of the streams. -/
def fed (ms : List Mark) : List (RecType × List Byte) := ms.filterMap fun
  | .did (.fed type data) => some (type, data)
  | _ => none

theorem fed_append (ms ms' : List Mark) : fed (ms ++ ms') = fed ms ++ fed ms' :=
  List.filterMap_append

theorem fed_did (log : List Event) : fed (log.map .did) = feeds log := by
  unfold fed feeds
  rw [List.filterMap_map]
  refine List.filterMap_congr ?_
  intro e _
  cases e <;> rfl

theorem paramsRecords_fed (ms : List Mark) :
    paramsRecords ms = (fed ms).filterMap fun x => if x.1 = .params then some x.2 else none := by
  unfold paramsRecords fed
  rw [List.filterMap_filterMap]
  refine List.filterMap_congr ?_
  intro m _
  cases m with
  | did e =>
    cases e with
    | fed type data => cases type <;> rfl
    | _ => rfl
  | _ => rfl

theorem paramsRecords_of_fed {ms : List Mark} (h : fed ms = []) : paramsRecords ms = [] := by
  rw [paramsRecords_fed, h]
  rfl

/-- The parser has read `records`, none of them empty, and the map has their pairs. -/
def Read (p : Params) (records : List (List Byte)) (params : Map) (d : Deserializer) : Prop :=
  [] ∉ records ∧ ∃ nameLen valueLen calls,
    Deserializer.feedAll p (.fresh 0 nameLen valueLen) records = ⟨calls, .returns false d⟩ ∧
    params = Map.newKeys [] calls

/-- What the request of a slot has read since its acceptance. -/
structure Filled (p : Params) (ms : List Mark) (r : Request) : Prop where
  reading : r.state = .readingParams → ∃ c d, current ms = some c ∧
    r.paramsDeserializer = some d ∧ Read p (paramsRecords c) r.params d
  pending : r.state = .pending → ∃ c records d, current ms = some c ∧
    paramsRecords c = records ++ [[]] ∧ Read p records r.params d

/-- What a record does to the parameters of its request. -/
inductive Fills (p : Params) (r : Request) : Handled → List Event → Prop where
  | same (r' : Request) (log : List Event) (state : r'.state = r.state)
      (params : r'.params = r.params) (parser : r'.paramsDeserializer = r.paramsDeserializer)
      (records : paramsRecords (log.map .did) = []) : Fills p r (.idle r') log
  | accept (junk : Junk) (got : List Byte) : Fills p r (.accepted (r.acceptRequest p junk got)) []
  | more (d d' : Deserializer) (data : List Byte) (r' : Request)
      (parser : r.paramsDeserializer = some d) (feed : (d.feed p data).outcome = .returns false d')
      (state : r'.state = r.state) (params : r'.params = r.params.newKeys (d.feed p data).calls)
      (parser' : r'.paramsDeserializer = some d') : Fills p r (.idle r') [.fed .params data]
  | last (d : Deserializer) (r' : Request) (parser : r.paramsDeserializer = some d)
      (state : r'.state = .pending) (params : r'.params = r.params) :
      Fills p r (.push r') [.fed .params []]
  | cancel (r' : Request) (log : List Event) (state : r'.state = .ready) :
      Fills p r (.cancelled r') log

variable {p : Params}

theorem feed_nonempty {d d' : Deserializer} {data : List Byte}
    (h : (d.feed p data).outcome = .returns false d') : data ≠ [] := by
  rintro rfl
  rw [Deserializer.feed, if_pos rfl] at h
  cases h

theorem Read.more {records : List (List Byte)} {params : Map} {d d' : Deserializer}
    (h : Read p records params d) {data : List Byte}
    (hf : (d.feed p data).outcome = .returns false d') :
    Read p (records ++ [data]) (params.newKeys (d.feed p data).calls) d' := by
  obtain ⟨hne, nameLen, valueLen, calls, hall, rfl⟩ := h
  refine ⟨?_, nameLen, valueLen, calls ++ (d.feed p data).calls, ?_, ?_⟩
  · rw [List.mem_append, List.mem_singleton, not_or]
    exact ⟨hne, (feed_nonempty hf).symm⟩
  · have hfed : d.feed p data = ⟨(d.feed p data).calls, .returns false d'⟩ := by
      rw [← hf]
    rw [feedAll_append hall, feedAll_returns hfed]
    simp only [Deserializer.feedAll, Fed.prepend, List.append_nil]
  · rw [newKeys_append]

theorem acceptRequest_fields (junk : Junk) (r : Request) (got : List Byte) :
    (r.acceptRequest p junk got).state = .readingParams ∧
      (r.acceptRequest p junk got).params = [] ∧
      (r.acceptRequest p junk got).paramsDeserializer =
        some (.fresh 0 junk.nameLen junk.valueLen) := ⟨rfl, rfl, rfl⟩

/-- One record, on the request of its slot. -/
theorem Filled.fills {ms : List Mark} {r : Request} {h : Handled} {log : List Event}
    (hr : Filled p ms r) (hreading : r.paramsDeserializer.isSome = true → r.state = .readingParams)
    (hf : Fills p r h log) : Filled p (ms ++ Sys.marks h log) h.request := by
  cases hf with
  | same r' log state params parser records =>
    have hcur : ∀ c, current ms = some c →
        current (ms ++ log.map .did) = some (c ++ log.map .did) := by
      intro c hc
      rw [current_append (accepted_not_mem_did log), hc]
      rfl
    have hrecords : ∀ c, paramsRecords (c ++ log.map .did) = paramsRecords c := by
      intro c
      rw [paramsRecords_append, records, List.append_nil]
    refine ⟨?_, ?_⟩
    · intro hs
      obtain ⟨c, d, hc, hd, hread⟩ := hr.reading (state ▸ hs)
      refine ⟨_, d, hcur c hc, parser.trans hd, ?_⟩
      rw [hrecords]
      exact params ▸ hread
    · intro hs
      obtain ⟨c, records', d, hc, hrec, hread⟩ := hr.pending (state ▸ hs)
      exact ⟨_, records', d, hcur c hc, (hrecords c).trans hrec, params ▸ hread⟩
  | accept junk got =>
    obtain ⟨hstate, hparams, hparser⟩ := acceptRequest_fields (p := p) junk r got
    refine ⟨?_, ?_⟩
    · intro _
      refine ⟨[], _, current_accepted ms, hparser, List.not_mem_nil, junk.nameLen, junk.valueLen,
        [], rfl, hparams⟩
    · intro hs
      have hs' := hstate.symm.trans hs
      cases hs'
  | more d d' data r' parser feed state params parser' =>
    have hs := hreading (by rw [parser]; rfl)
    obtain ⟨c, d₀, hc, hd₀, hread⟩ := hr.reading hs
    obtain rfl : d₀ = d := Option.some.inj (hd₀.symm.trans parser)
    refine ⟨?_, ?_⟩
    · intro _
      refine ⟨c ++ [.did (.fed .params data)], d', ?_, parser', ?_⟩
      · rw [Sys.marks, current_append (accepted_not_mem_did _), hc]
        rfl
      · rw [paramsRecords_append, Handled.request, params]
        exact hread.more feed
    · intro hp
      rw [Handled.request, state, hs] at hp
      cases hp
  | last d r' parser state params =>
    have hs := hreading (by rw [parser]; rfl)
    obtain ⟨c, d₀, hc, -, hread⟩ := hr.reading hs
    refine ⟨?_, ?_⟩
    · intro hp
      have hp' := state.symm.trans hp
      cases hp'
    · intro _
      refine ⟨c ++ [.dispatched, .did (.fed .params [])], paramsRecords c, d₀, ?_, ?_, ?_⟩
      · rw [Sys.marks, current_append (by simp), hc]
        rfl
      · rw [paramsRecords_append]
        rfl
      · exact params ▸ hread
  | cancel r' log state =>
    refine ⟨?_, ?_⟩
    · intro hp
      have hp' := state.symm.trans hp
      cases hp'
    · intro hp
      have hp' := state.symm.trans hp
      cases hp'

/-! ## The records of a run -/

theorem sendOrThrow_records {pkt : Packet} {φ : Fate} {u : Unit} {log : List Event}
    (h : Request.sendOrThrow pkt φ = (.ok u, log)) : paramsRecords (log.map .did) = [] := by
  rw [Request.sendOrThrow_ok h]
  rfl

theorem endl_idle (p : Params) (o : Ostream) : Idle (endl p o) :=
  (write_idle p o _).bind fun _ => flush_idle p _

theorem complain_idle (p : Params) (r : Request) (texts : List String) :
    Idle (complain p r texts) := by
  have htexts : ∀ o : Ostream,
      Idle (texts.foldlM (fun (o : Ostream) text => o.write p (ascii text)) o) := by
    induction texts with
    | nil => exact fun o => .pure o
    | cons text texts ih =>
      intro o
      rw [List.foldlM_cons]
      exact (write_idle p o _).bind ih
  unfold complain
  split
  · refine (endl_idle p _).bind fun o => ?_
    refine (htexts o).bind fun o => ?_
    exact (endl_idle p o).bind fun _ => .pure _
  · exact .pure r

theorem appOp_idle {r : Request} {op : AppOp} {tx : Tx (Request × Option Int)}
    (h : appOp p r op = some tx) : Idle tx := by
  cases op with
  | write o bytes =>
    cases h
    exact (write_idle p _ bytes).bind fun _ => .pure _
  | flush o =>
    cases h
    exact (flush_idle p _).bind fun _ => .pure _
  | close o =>
    cases h
    exact (close_idle p _).bind fun _ => .pure _
  | get =>
    simp only [appOp] at h
    split at h
    · cases h
    · cases h
      exact .pure _

theorem idle_feeds {α : Type} {m : Tx α} (h : Idle m) {φ : Fate} {x : Except Crash α}
    {log : List Event} (hm : m φ = (x, log)) : feeds log = [] := by
  have := h φ
  rwa [hm] at this

/-- Workers and the application read no records. -/
theorem worked_feeds {w : Nat} {ref : Ref} {r r' : Request} {a : Act} {pc pc' : WorkerPc}
    {got : Option Int} {log : List Event} (h : Sys.Worked p w ref r a pc r' pc' got log) :
    feeds log = [] := by
  cases h with
  | start φ role => rfl
  | unknown φ r' body log did => exact idle_feeds ((complain_idle p r _).bind fun _ => .pure _) did
  | cout φ body o log did | cerr φ body o log did => exact idle_feeds (close_idle p _) did
  | send φ body log did => exact idle_feeds (sendOrThrow_idle _) did
  | app φ op tx r' got log op_eq did => exact idle_feeds (appOp_idle op_eq) did
  | finish φ how r' body log did =>
    cases how with
    | returns status => exact idle_feeds (Idle.pure _) did
    | throwsException what | throwsOther =>
      exact idle_feeds ((complain_idle p r _).bind fun _ => .pure _) did

theorem feedParams_fills {r : Request} {d : Deserializer} (hd : r.paramsDeserializer = some d)
    {data : List Byte} {φ : Fate} {h : Handled} {log : List Event}
    (hh : r.feedParams p d data φ = (.ok h, log)) : Fills p r h log := by
  unfold Request.feedParams at hh
  rw [Tx.bind_quiet (rfl : Tx.note (.fed .params data) φ = _) rfl] at hh
  cases ho : (d.feed p data).outcome with
  | returns finished d' =>
    simp only [ho] at hh
    cases finished with
    | false =>
      cases hh
      exact .more d d' data _ hd ho rfl rfl rfl
    | true =>
      have hempty : data = [] := by
        by_contra hne
        exact Bool.noConfusion (Deserializer.feed_returns hne ho)
      subst hempty
      have hcalls : (d.feed p []).calls = [] := by rw [Deserializer.feed, if_pos rfl]
      cases hh
      refine .last d _ hd rfl ?_
      rw [hcalls]
      rfl
  | throws what =>
    simp only [ho] at hh
    obtain ⟨cerr, cout, rfl⟩ := Request.cancel_ok (congrArg Prod.fst hh)
    exact .cancel _ _ rfl
  | fault f =>
    simp only [ho] at hh
    cases hh

theorem handlePacket_fills {junk : Junk} {r : Request} {k : Ipacket} {s s' : Sock}
    {tx : Tx Handled} {k' : Option Ipacket} (h : r.handlePacket p junk k s = .ok (tx, k') s')
    {φ : Fate} {hd : Handled} {log : List Event} (htx : tx φ = (.ok hd, log)) :
    Fills p r hd log := by
  cases ht : k.header.recType with
  | beginRequest =>
    simp only [Request.handlePacket, ht] at h
    split at h
    · cases h
      cases htx
      exact .same r [] rfl rfl rfl rfl
    · obtain ⟨⟨got, k₁⟩, s₁, -, h⟩ := Rd.bind_eq_ok h
      cases h
      cases htx
      exact .accept junk got
  | params =>
    simp only [Request.handlePacket, ht] at h
    cases hp : r.paramsDeserializer with
    | none =>
      simp only [hp] at h
      cases h
      cases htx
      exact .same r [] rfl rfl rfl rfl
    | some d =>
      simp only [hp] at h
      obtain ⟨data, s₁, -, h⟩ := Rd.bind_eq_ok h
      cases h
      exact feedParams_fills hp htx
  | stdin | data =>
    simp only [Request.handlePacket, ht] at h
    split at h
    · obtain ⟨data, s₁, -, h⟩ := Rd.bind_eq_ok h
      cases h
      cases htx
      exact .same _ _ rfl rfl rfl rfl
    · cases h
      cases htx
      exact .same r [] rfl rfl rfl rfl
  | abortRequest | getValues =>
    simp only [Request.handlePacket, ht] at h
    cases h
    cases htx
    exact .same r [] rfl rfl rfl rfl
  | endRequest | stdout | stderr | getValuesResult | unknownType | other =>
    simp only [Request.handlePacket, ht] at h
    cases h
    obtain ⟨u, hsend, he⟩ := Tx.bind_return (fun _ => rfl) htx
    cases he
    exact .same r log rfl rfl rfl (sendOrThrow_records hsend)

/-- What a step does to the parameters of the request of a slot. -/
inductive Step (p : Params) (s : Sys) (a : Act) (s' : Sys) (ref : Ref) : Prop where
  | same (request : ∀ r', s'.request? ref = some r' → ∃ r, s.request? ref = some r ∧
        r'.state = r.state ∧ r'.params = r.params ∧
        (r'.paramsDeserializer = r.paramsDeserializer ∨ r.state = .pending))
      (ms : List Mark) (marks : marksOf s' ref = marksOf s ref ++ ms) (accepted : .accepted ∉ ms)
      (fed : fed ms = [])
  | fills (n : Conn) (junk : Junk) (φ : Fate) (notified : Option Nat) (r : Request) (h : Handled)
      (log : List Event) (act : a = .conn ref.conn junk φ notified)
      (conn : s.conns[ref.conn]? = some n) (pc : n.pc = .reading)
      (slot : s.request? ref = some r ∨ s.request? ref = none ∧ r = .new p (ref.slot + 1) junk)
      (fills : Fills p r h log) (request : s'.request? ref = some h.request)
      (marks : marksOf s' ref = marksOf s ref ++ Sys.marks h log)

/-- A pass over a record, from the header on. -/
theorem turn_dispatches {junk : Junk} {φ : Fate} {c c' : Connection} {header : Header}
    {did : Option (Nat × Handled)} {log : List Event}
    (h : c.turn p junk φ = .handled header c' did log) :
    ∃ k s tx k' s' c₁ s₁, Ipacket.new p junk.header c.sock = .ok k s ∧ k.header = header ∧
      c.dispatch p junk (Connection.idOf p k) k s = .ok (tx, k') s' ∧
      tx φ = (.ok (c₁, did), log) ∧ c' = { c₁ with sock := s₁ } := by
  unfold Connection.turn at h
  split at h
  · cases h
  · cases h
  · rename_i k s hnew
    split at h
    · split at h
      · cases h
      · cases h
      · rename_i tx k' s' hd
        obtain ⟨rfl, c₁, s₁, htx, -, rfl⟩ := Connection.finish_handled h
        exact ⟨k, s, tx, k', s', c₁, s₁, hnew, rfl, hd, htx, rfl⟩
    · split at h <;> cases h

theorem turn_handled {junk : Junk} {φ : Fate} {c c' : Connection} {header : Header}
    {did : Option (Nat × Handled)} {log : List Event}
    (h : c.turn p junk φ = .handled header c' did log) :
    ∃ k s, Ipacket.new p junk.header c.sock = .ok k s ∧ k.header = header ∧
      (Connection.idOf p k = 0 ∧ did = none ∧ c'.requests = c.requests ∨
        Connection.idOf p k ≠ 0 ∧ ∃ tx k' s' hd,
          (c.slot p junk (Connection.idOf p k)).handlePacket p junk k s = .ok (tx, k') s' ∧
          tx φ = (.ok hd, log) ∧ did = some (Connection.idOf p k - 1, hd) ∧
          c'.requests = (c.settle (Connection.idOf p k) hd).requests) := by
  obtain ⟨k, s, tx, k', s', c₁, s₁, hnew, hheader, hd, htx, rfl⟩ := turn_dispatches h
  refine ⟨k, s, hnew, hheader, ?_⟩
  unfold Connection.dispatch at hd
  by_cases h0 : Connection.idOf p k = 0
  · rw [h0, if_neg (by simp)] at hd
    cases ht : k.header.recType with
    | getValues =>
      simp only [ht] at hd
      obtain ⟨data, s₂, -, hd⟩ := Rd.bind_eq_ok hd
      cases hd
      obtain ⟨c₂, hc, he⟩ := Tx.bind_return (fun _ => rfl) htx
      cases he
      obtain ⟨d, o, rfl⟩ := Connection.getValues_ok hc
      exact Or.inl ⟨h0, rfl, rfl⟩
    | _ =>
      simp only [ht] at hd
      cases hd
      obtain ⟨u, -, he⟩ := Tx.bind_return (fun _ => rfl) htx
      cases he
      exact Or.inl ⟨h0, rfl, rfl⟩
  · rw [if_pos h0] at hd
    obtain ⟨⟨tx', k₁⟩, s₂, hh, hd⟩ := Rd.bind_eq_ok hd
    cases hd
    obtain ⟨handled, ha, he⟩ := Tx.bind_return (fun _ => rfl) htx
    cases he
    exact Or.inr ⟨h0, tx', k', s', handled, hh, ha, rfl, rfl⟩

variable {s s' : Sys} {a : Act} {ref : Ref}

theorem Step.quiet (request : s'.request? ref = s.request? ref)
    (marks : marksOf s' ref = marksOf s ref) : Step p s a s' ref := by
  refine .same ?_ [] (by rw [marks, List.append_nil]) List.not_mem_nil rfl
  intro r' hr'
  exact ⟨r', request ▸ hr', rfl, rfl, Or.inl rfl⟩

theorem setConn_quiet {i : Nat} {n : Conn} (hn : s.conns[i]? = some n) (n' : Conn)
    (h : n'.connection.requests = n.connection.requests) (ref : Ref) :
    Step p s a (s.setConn i n') ref :=
  .quiet (request?_set_same hn rfl h ref) rfl

theorem turn_step {i : Nat} {n : Conn} (hn : s.conns[i]? = some n) (hpc : n.pc = .reading)
    {junk : Junk} {φ : Fate} (notified : Option Nat) {header : Header} {c : Connection}
    {did : Option (Nat × Handled)} {log : List Event}
    (h : n.connection.turn p junk φ = .handled header c did log) (ref : Ref) :
    Step p s (.conn i junk φ notified) (s.afterTurn i c log did) ref := by
  obtain ⟨pc, hconns⟩ := afterTurn_conns s i c log did
  obtain ⟨k, sock, -, -, ⟨-, rfl, hreq⟩ | ⟨h0, tx, k', sock', hd, hp, htx, rfl, hreq⟩⟩ :=
    turn_handled h
  · exact .quiet (request?_set_same hn hconns hreq ref) rfl
  · obtain ⟨hself, hother⟩ := request?_settle hn hconns h0 (h := hd) hreq
    by_cases hr : ref = ⟨i, Connection.idOf p k - 1⟩
    · subst hr
      exact .fills n junk φ notified _ hd log rfl hn hpc (slot_request p junk hn h0)
        (handlePacket_fills hp htx) hself (marksOf_record _ _ _)
    · exact .quiet (hother ref hr) (marksOf_record_ne hr _ _)

theorem reading_step {n : Conn} {junk : Junk} {φ : Fate} (notified : Option Nat)
    (hn : s.conns[ref.conn]? = some n) (hpc : n.pc = .reading)
    (h : s.reading p ref.conn n junk φ = some s') :
    Step p s (.conn ref.conn junk φ notified) s' ref := by
  unfold Sys.reading at h
  split at h
  · split at h
    · cases h
    · cases h
      exact .quiet rfl rfl
    · rename_i c hc
      cases h
      obtain ⟨sock, rfl⟩ := Connection.turn_left hc
      refine setConn_quiet hn _ ?_ ref
      rfl
    · rename_i header c did log hc
      cases h
      exact turn_step hn hpc notified hc ref
  · cases h
    refine setConn_quiet hn _ ?_ ref
    rfl

theorem step_params (hi : Inv s) (h : Sys.step p s a = some s') (ref : Ref) :
    Step p s a s' ref := by
  cases step_slot h ref with
  | same request marks => exact .quiet request marks
  | handled n junk φ notified r hd log act conn pc slot handles request marks pushes =>
    subst act
    unfold Sys.step at h
    split at h
    · cases h
    · simp only [conn, Sys.connStep, pc] at h
      exact reading_step notified conn pc h
  | reset n j r conn pc slot request marks =>
    refine .same ?_ [] (by rw [marks, List.append_nil]) List.not_mem_nil rfl
    intro r' hr'
    rw [request] at hr'
    cases hr'
    have hpending : r.state = .pending := by
      obtain ⟨m, hm, hslot⟩ := Sys.request?_eq_some.mp slot
      rw [conn] at hm
      cases hm
      have hun := (hi.accounts _ n conn).unreset ⟨j, ref.slot⟩ (by rw [pc]; rfl)
      exact hun.2 r hslot
    exact ⟨r, slot, rfl, rfl, Or.inr hpending⟩
  | destroyed n φ r log conn pc slot destroys request marks =>
    have hidle : Idle (r.destroy p) := (destroy_idle p _).bind fun _ => destroy_idle p _
    refine .same ?_ _ marks (accepted_not_mem_did log)
      ((fed_did log).trans (idle_feeds hidle destroys))
    intro r' hr'
    rw [request] at hr'
    cases hr'
  | worked w r r' pc pc' got log worker workers slot works request marks =>
    have hfed : fed (log.map .did ++ (got.map .got).toList) = [] := by
      rw [fed_append, fed_did, worked_feeds works]
      cases got <;> rfl
    refine .same ?_ _ marks (accepted_not_mem_work log got) hfed
    intro x hx
    rw [request] at hx
    cases hx
    obtain ⟨-, -, cin, cout, cerr, rfl⟩ := works.keeps
    exact ⟨r, slot, rfl, rfl, Or.inl rfl⟩

/-- What holds of a slot in every reachable state. -/
def FilledAt (p : Params) (s : Sys) (ref : Ref) : Prop :=
  ∀ r, s.request? ref = some r → Filled p (marksOf s ref) r

theorem step_filled (hi : Inv s) (hf : FilledAt p s ref) (h : Sys.step p s a = some s') :
    FilledAt p s' ref := by
  intro r' hr'
  cases step_params hi h ref with
  | same request ms marks accepted hfed =>
    obtain ⟨r, hr, hstate, hparams, hparser⟩ := request r' hr'
    have hold := hf r hr
    have hcur : ∀ c, current (marksOf s ref) = some c →
        current (marksOf s' ref) = some (c ++ ms) := by
      intro c hc
      rw [marks, current_append accepted, hc]
      rfl
    have hrecords : ∀ c, paramsRecords (c ++ ms) = paramsRecords c := by
      intro c
      rw [paramsRecords_append, paramsRecords_of_fed hfed, List.append_nil]
    refine ⟨?_, ?_⟩
    · intro hs
      rw [hstate] at hs
      obtain ⟨c, d, hc, hd, hread⟩ := hold.reading hs
      have hparser' : r'.paramsDeserializer = some d := by
        rcases hparser with hparser | hpending
        · rw [hparser, hd]
        · rw [hs] at hpending
          cases hpending
      refine ⟨_, d, hcur c hc, hparser', ?_⟩
      rw [hrecords, hparams]
      exact hread
    · intro hs
      rw [hstate] at hs
      obtain ⟨c, rs, d, hc, hrec, hread⟩ := hold.pending hs
      refine ⟨_, rs, d, hcur c hc, (hrecords c).trans hrec, ?_⟩
      rw [hparams]
      exact hread
  | fills n junk φ notified r h log act conn pc slot fills request marks =>
    rw [request] at hr'
    cases hr'
    rw [marks]
    rcases slot with hr | ⟨hnone, rfl⟩
    · exact (hf r hr).fills (reading_state hi conn pc hr) fills
    · have hnew : Filled p (marksOf s ref) (.new p (ref.slot + 1) junk) := by
        refine ⟨?_, ?_⟩ <;> intro hstate <;> cases hstate
      refine hnew.fills (fun hsome => ?_) fills
      cases hsome

theorem run_filled {workers : Nat} {as : List Act}
    (h : run (Sys.step p) (.init workers) as = some s) (ref : Ref) : FilledAt p s ref := by
  have hinit : FilledAt p (.init workers) ref := by
    intro r hr
    cases hr
  have hall := run_invariant (I := fun s => Inv s ∧ FilledAt p s ref) ⟨init_inv workers, hinit⟩
    (fun s a s' hI hs => ⟨step_inv hI.1 hs, step_filled hI.1 hI.2 hs⟩) h
  exact hall.2

/-! ## Dispatched requests -/

/-- Whole pairs with one-byte lengths: the map has the last value of each name. -/
theorem Read.pairs {records : List (List Byte)} {params : Map} {d : Deserializer}
    (h : Read p records params d) {ess : List (List Entry)} (hrecords : records = ess.map encode)
    (hshort : ∀ es ∈ ess, ∀ e ∈ es, e.Short) :
    (∀ e ∈ ess.flatten, e.size ≤ p.nvpMaxPairSize) ∧
      ∀ key, params.lookup key = (ess.flatten.map Entry.pair).reverse.lookup key := by
  obtain ⟨hne, nameLen, valueLen, calls, hall, rfl⟩ := h
  subst hrecords
  have hfilled : ∀ es ∈ ess, es ≠ [] := by
    rintro es hes rfl
    exact hne (List.mem_map.mpr ⟨[], hes, rfl⟩)
  have hlimit : (Deserializer.fresh 0 nameLen valueLen).effectiveMaxPairSize p =
      p.nvpMaxPairSize := rfl
  obtain ⟨hcalls, -, hthrows⟩ := feedAll_aligned p ess hfilled hshort _
    (Deserializer.fresh_ready 0 nameLen valueLen) hlimit
  rw [hall] at hcalls hthrows
  have hwithin : ∀ e ∈ ess.flatten, e.size ≤ p.nvpMaxPairSize := by
    intro e he
    by_contra hlt
    obtain ⟨what, hw⟩ := hthrows.mpr ⟨e, he, Nat.lt_of_not_le hlt⟩
    cases hw
  have hpairs : calls = ess.flatten.map Entry.pair := by
    have hcalls' : calls = (ess.flatten.map Entry.pair).takeWhile (within p.nvpMaxPairSize) :=
      hcalls
    rw [hcalls', List.takeWhile_eq_self_iff]
    intro pair hpair
    obtain ⟨e, he, rfl⟩ := List.mem_map.mp hpair
    rw [within_pair]
    exact decide_eq_true (hwithin e he)
  refine ⟨hwithin, ?_⟩
  intro key
  rw [lookup_newKeys, hpairs]
  cases (ess.flatten.map Entry.pair).reverse.lookup key <;> rfl

/-- **Parameters.** In every run, a request that was dispatched has read the PARAMS records
since its acceptance, in order and up to the first empty one, from a parser that was new.
Where these hold whole pairs with one-byte lengths none is over the limit, and the map has
for each name the last value that was sent. -/
theorem parameters {workers : Nat} {as : List Act}
    (h : run (Sys.step p) (.init workers) as = some s) (href : ref ∈ refs s) :
    ∃ r c records d, s.request? ref = some r ∧ current (marksOf s ref) = some c ∧
      paramsRecords c = records ++ [[]] ∧ Read p records r.params d ∧
      ∀ ess : List (List Entry), records = ess.map encode → (∀ es ∈ ess, ∀ e ∈ es, e.Short) →
        (∀ e ∈ ess.flatten, e.size ≤ p.nvpMaxPairSize) ∧
          ∀ key, r.params.lookup key = (ess.flatten.map Entry.pair).reverse.lookup key := by
  obtain ⟨n, r, hn, -, hslot, hpending⟩ := (run_inv h).live href
  have hr : s.request? ref = some r := Sys.request?_eq_some.mpr ⟨n, hn, hslot⟩
  obtain ⟨c, records, d, hc, hrecords, hread⟩ := (run_filled h ref r hr).pending hpending
  exact ⟨r, c, records, d, hr, hc, hrecords, hread, fun ess => hread.pairs⟩

def aEntry (value : Byte) : Entry :=
  ⟨[65], [value], .short, .short, by decide, (by decide : 1 ≤ 127)⟩

/-- A PARAMS record of request 1 with one pair. -/
def aRecord (value : Byte) : ReadResult := .data 1 ([4, 1, 0, 0, 4, 0, 0] ++ encode [aEntry value])

/-- A name is sent twice. -/
def named : List Act :=
  [.accept .zeros, .arrive 0 beginRecord, .arrive 0 (aRecord 98), .arrive 0 (aRecord 99),
    .arrive 0 paramsEnd] ++ connMoves 7 ++ workerMoves 3

theorem parameters_named : ∃ s, run (Sys.step .standard) (.init 1) named = some s ∧
    ∃ r, s.request? ⟨0, 0⟩ = some r ∧ r.params.lookup [65] = some [99] := by
  have hrun : (run (Sys.step .standard) (.init 1) named).any (fun s =>
      decide (⟨0, 0⟩ ∈ refs s) && decide ((current (marksOf s ⟨0, 0⟩)).map paramsRecords =
        some ([[aEntry 98], [aEntry 99]].map encode ++ [[]]))) = true := by decide +kernel
  obtain ⟨s, hs, hcheck⟩ := (Option.any_eq_true _ _).mp hrun
  simp only [Bool.and_eq_true, decide_eq_true_eq] at hcheck
  obtain ⟨href, hrecords⟩ := hcheck
  obtain ⟨r, c, records, d, hr, hc, hrec, -, hpairs⟩ := parameters hs href
  rw [hc, Option.map_some, Option.some.injEq, hrec] at hrecords
  have hess : records = [[aEntry 98], [aEntry 99]].map encode := List.append_cancel_right hrecords
  have hshort : ∀ es ∈ [[aEntry 98], [aEntry 99]], ∀ e ∈ es, e.Short := by
    simp only [List.mem_cons, List.not_mem_nil, or_false, forall_eq_or_imp, forall_eq]
    exact ⟨⟨rfl, rfl⟩, rfl, rfl⟩
  refine ⟨s, hs, r, hr, ?_⟩
  rw [(hpairs _ hess hshort).2]
  rfl

end Tfcgi.Parameters
