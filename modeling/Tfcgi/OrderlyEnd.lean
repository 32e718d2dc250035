import Mathlib.Data.List.Induction
import Tfcgi.Lib.Trace
import Tfcgi.Ending

/-!
# One orderly end for each request

What a slot does between an accepted BEGIN_REQUEST record and the next one, in
runs whose sends succeed.

* `apply_at`: what a stream has sent and still holds is what was written to it;
* `orderly_end`: one END_REQUEST record at most, after both streams ended.
-/

namespace Tfcgi.OrderlyEnd

open Tfcgi.Lib Tfcgi.Run Tfcgi.HostOrder Tfcgi.Protocol Tfcgi.NameValuePairs Tfcgi.Socket
open Tfcgi.Iostream Tfcgi.RequestSlot Tfcgi.ConnectionThread Tfcgi.System Tfcgi.OutputStream
open Tfcgi.Accounting Tfcgi.History Tfcgi.Reuse Tfcgi.Owner Tfcgi.Streams Tfcgi.Ending

/-! ## What left a stream -/

/-- The records of stream `i`. -/
def emitted (i : Stream) (es : List Event) : List Packet :=
  (packets es).filter fun pkt => pkt.recType = typeOf i

/-- What was written to stream `i` while it was open. -/
def written (i : Stream) (es : List Event) : List Byte := es.flatMap fun
  | .wrote type bytes => if type = typeOf i then bytes else []
  | _ => []

def events (c : List Mark) : List Event := c.filterMap fun
  | .did e => some e
  | _ => none

/-- All that was written was sent in non-empty records, and then one empty record. -/
def Finished (i : Stream) (es : List Event) : Prop :=
  ∃ data last, emitted i es = data ++ [last] ∧ last.body = [] ∧ (∀ pkt ∈ data, pkt.body ≠ []) ∧
    data.flatMap Packet.body = written i es

theorem emitted_append (i : Stream) (es es' : List Event) :
    emitted i (es ++ es') = emitted i es ++ emitted i es' := by
  rw [emitted, packets_append, List.filter_append]
  rfl

theorem written_append (i : Stream) (es es' : List Event) :
    written i (es ++ es') = written i es ++ written i es' := List.flatMap_append

theorem events_append (c c' : List Mark) : events (c ++ c') = events c ++ events c' :=
  List.filterMap_append

theorem events_did (log : List Event) : events (log.map .did) = log := by
  rw [events, List.filterMap_map]
  exact List.filterMap_some

theorem events_marks (hd : Handled) (log : List Event) : events (Sys.marks hd log) = log := by
  cases hd with
  | idle => exact events_did log
  | accepted | cancelled | push => exact events_did log

theorem events_work (log : List Event) (got : Option Int) :
    events (log.map .did ++ (got.map Mark.got).toList) = log := by
  rw [events_append, events_did]
  cases got <;> exact List.append_nil log

/-- Events of other kinds. -/
theorem emitted_other {i : Stream} {es : List Event} (h : ∀ e ∈ es, about e ≠ some (typeOf i)) :
    emitted i es = [] ∧ written i es = [] := by
  constructor
  · rw [emitted, List.filter_eq_nil_iff]
    intro pkt hpkt
    obtain ⟨out, he⟩ := mem_packets.mp hpkt
    intro htype
    exact h _ he (congrArg some (of_decide_eq_true htype))
  · rw [written, List.flatMap_eq_nil_iff]
    intro e he
    cases e with
    | wrote type bytes =>
      refine if_neg ?_
      rintro rfl
      exact h _ he rfl
    | sent pkt out | fed type bytes => rfl

theorem emitted_own {i : Stream} {es : List Event} (h : ∀ e ∈ es, about e = some (typeOf i)) :
    emitted i es = packets es := by
  rw [emitted, List.filter_eq_self]
  intro pkt hpkt
  obtain ⟨out, he⟩ := mem_packets.mp hpkt
  exact decide_eq_true (Option.some.inj (h _ he))

theorem written_allSent {i : Stream} {es : List Event} (h : AllSent es) : written i es = [] := by
  rw [written, List.flatMap_eq_nil_iff]
  intro e he
  obtain ⟨pkt, out, rfl⟩ := h e he
  rfl

/-- What an operation notes is what it gives to an open stream. -/
theorem written_noted {i : Stream} {o : Ostream} (ho : Typed i o) (ha : o.attached = true)
    (op : StreamOp) : written i (noted o op) = op.bytes := by
  have htype := ho.type
  cases op <;> simp [noted, written, ha, htype, StreamOp.bytes]

/-! ## A stream and what it has sent -/

structure Flowing (i : Stream) (es : List Event) (o : Ostream) : Prop where
  isOpen : IsOpen o
  eof : o.internal.sendEof = true
  records : ∀ pkt ∈ emitted i es, pkt.body ≠ []
  flow : written i es = (emitted i es).flatMap Packet.body ++ o.internal.pending

/-- The stream after the events `es`. -/
def At (i : Stream) (es : List Event) (o : Ostream) : Prop :=
  Flowing i es o ∨ o.attached = false ∧ Finished i es

theorem At.other {i : Stream} {es es' : List Event} {o : Ostream} (h : At i es o)
    (hother : ∀ e ∈ es', about e ≠ some (typeOf i)) : At i (es ++ es') o := by
  obtain ⟨hemitted, hwritten⟩ := emitted_other hother
  have he : emitted i (es ++ es') = emitted i es := by
    rw [emitted_append, hemitted, List.append_nil]
  have hw : written i (es ++ es') = written i es := by
    rw [written_append, hwritten, List.append_nil]
  unfold At Finished at h ⊢
  rw [he, hw]
  rcases h with ⟨h₁, h₂, h₃, h₄⟩ | h
  · exact Or.inl ⟨h₁, h₂, he ▸ h₃, by rw [he, hw]; exact h₄⟩
  · exact Or.inr h

theorem At.finished {i : Stream} {es : List Event} {o : Ostream} (h : At i es o)
    (ha : o.attached = false) : Finished i es := by
  rcases h with hf | ⟨-, hf⟩
  · rw [hf.isOpen.attached] at ha
    cases ha
  · exact hf

theorem close_at {p : Params} {i : Stream} {o o' : Ostream} {es log : List Event} (ho : Typed i o)
    (h : At i es o) (hc : o.close p Fate.sent = (.ok o', log)) : At i (es ++ log) o' := by
  rcases h with hf | ⟨ha, hf⟩
  · have habout := close_about ho hc
    have hsent : AllSent log := by
      have := close_log p ho.sound Fate.sent
      rw [hc] at this
      exact this
    obtain ⟨log', data, hclose, hpackets, hdata, hbytes⟩ := close_flows p hf.isOpen
    rw [hc] at hclose
    simp only [Prod.mk.injEq, Except.ok.injEq] at hclose
    obtain ⟨rfl, rfl⟩ := hclose
    rw [hf.eof, Bool.true_or] at hpackets
    refine Or.inr ⟨rfl, emitted i es ++ data, o.internal.packet p [], ?_, rfl, ?_, ?_⟩
    · rw [emitted_append, emitted_own habout, hpackets, List.append_assoc]
      rfl
    · intro pkt hpkt
      rcases List.mem_append.mp hpkt with hpkt | hpkt
      · exact hf.records pkt hpkt
      · obtain ⟨d, rfl, hne, -⟩ := hdata pkt hpkt
        exact hne
    · rw [written_append, written_allSent hsent, List.append_nil, hf.flow, List.flatMap_append,
        hbytes]
  · rw [Ostream.close_detached p ha] at hc
    cases hc
    rw [List.append_nil]
    exact Or.inr ⟨ha, hf⟩

theorem apply_at {p : Params} {i : Stream} {o o' : Ostream} {es log : List Event} (ho : Typed i o)
    (h : At i es o) {op : StreamOp} (hop : op ≠ .reset)
    (hd : op.apply p o Fate.sent = (.ok o', log)) : At i (es ++ log) o' := by
  rcases h with hf | ⟨ha, hf⟩
  · by_cases hdata : op.isData = true
    · have habout := apply_about (p := p) ho op Fate.sent
      obtain ⟨sent, hlog, hsent⟩ := apply_log p ho.sound op Fate.sent
      obtain ⟨o₁, log₁, hd₁, hflow⟩ := data_flows p hf.isOpen hdata
      rw [hd] at hd₁ habout hlog
      cases hd₁
      have hwritten : written i log = op.bytes := by
        rw [show log = _ from hlog, written_append, written_noted ho hf.isOpen.attached,
          written_allSent hsent, List.append_nil]
      refine Or.inl ⟨hflow.isOpen, ?_, ?_, ?_⟩
      · rw [hflow.eof, hf.eof, Bool.true_or]
      · intro pkt hpkt
        rw [emitted_append, emitted_own habout] at hpkt
        rcases List.mem_append.mp hpkt with hpkt | hpkt
        · exact hf.records pkt hpkt
        · obtain ⟨d, rfl, hne, -⟩ := hflow.records pkt hpkt
          exact hne
      · rw [written_append, hwritten, hf.flow, emitted_append, emitted_own habout,
          List.flatMap_append, List.append_assoc, List.append_assoc, hflow.flow]
    · cases op with
      | close => exact close_at ho (Or.inl hf) hd
      | reset => exact absurd rfl hop
      | put c | write bytes | flush => exact absurd rfl hdata
  · have hno : .reset ∉ [op] := fun hm => hop (List.mem_singleton.mp hm).symm
    have hclosed := perform_closed p ha hno Fate.sent
    rw [perform_one op hd] at hclosed
    cases hclosed
    rw [List.append_nil]
    exact Or.inr ⟨ha, hf⟩

theorem perform_at {p : Params} {i : Stream} {o o' : Ostream} {es log : List Event}
    {ops : List StreamOp} (ho : Typed i o) (h : At i es o) (hops : .reset ∉ ops)
    (hd : perform p o ops Fate.sent = (.ok o', log)) : At i (es ++ log) o' := by
  induction ops generalizing o es log with
  | nil =>
    cases hd
    rw [List.append_nil]
    exact h
  | cons op ops ih =>
    rw [List.mem_cons, not_or] at hops
    obtain ⟨o₁, es₁, es₂, h₁, h₂, rfl⟩ := Tx.bind_eq_ok hd
    have hnext := apply_at ho h (fun he => hops.1 he.symm) h₁
    rw [← List.append_assoc]
    exact ih (apply_typed ho op h₁) hnext hops.2 h₂

/-! ## Between two BEGIN_REQUEST records -/

structure Orderly (c : List Mark) : Prop where
  oneEnd : c.countP isEnd ≤ 1
  /-- the oversized-parameter path and the dispatch exclude each other -/
  exclusive : .cancelled ∈ c → .dispatched ∉ c
  ended : ∀ before m after, c = before ++ m :: after → isEnd m = true →
    ∀ i, Finished i (events before) ∧ emitted i (events after) = []

/-- `c` follows an accepted BEGIN_REQUEST record, up to the next one or not as far. -/
def Acceptance (ms c : List Mark) : Prop :=
  ∃ before after, ms = before ++ .accepted :: (c ++ after) ∧ .accepted ∉ c

theorem countP_isEnd {c : List Mark} (h : ¬ EndSent c) : c.countP isEnd = 0 := by
  rw [List.countP_eq_zero]
  exact fun m hm he => h ⟨m, hm, he⟩

theorem Orderly.nil : Orderly [] := by
  refine ⟨Nat.zero_le _, nofun, ?_⟩
  intro before m after h
  simp at h

/-- What happens first in orderly marks is orderly. -/
theorem Orderly.part {c c' : List Mark} (h : Orderly (c ++ c')) : Orderly c := by
  refine ⟨?_, ?_, ?_⟩
  · have := h.oneEnd
    rw [List.countP_append] at this
    omega
  · intro hx hd
    exact h.exclusive (List.mem_append_left c' hx) (List.mem_append_left c' hd)
  · rintro before m after rfl he i
    obtain ⟨hf, hq⟩ := h.ended before m (after ++ c') (by simp) he i
    rw [events_append, emitted_append, List.append_eq_nil_iff] at hq
    exact ⟨hf, hq.1⟩

/-- Marks without an END_REQUEST record go on. -/
theorem Orderly.more {c new : List Mark} (h : Orderly c) (hno : ¬ EndSent new)
    (hx : .cancelled ∈ c ++ new → .dispatched ∉ c ++ new)
    (hquiet : EndSent c → ∀ i, emitted i (events new) = []) : Orderly (c ++ new) := by
  refine ⟨?_, hx, ?_⟩
  · rw [List.countP_append, countP_isEnd hno]
    exact h.oneEnd
  · intro before m after he hm i
    rcases List.append_eq_append_iff.mp he with ⟨t, rfl, ht⟩ | ⟨t, rfl, ht⟩
    · exact absurd ⟨m, by rw [ht]; simp, hm⟩ hno
    · cases t with
      | nil =>
        rw [List.nil_append] at ht
        exact absurd ⟨m, by rw [← ht]; simp, hm⟩ hno
      | cons x t =>
        rw [List.cons_append, List.cons.injEq] at ht
        obtain ⟨rfl, rfl⟩ := ht
        obtain ⟨hf, hq⟩ := h.ended before m t rfl hm i
        refine ⟨hf, ?_⟩
        rw [events_append, emitted_append, hq]
        exact hquiet ⟨m, by simp, hm⟩ i

/-- The END_REQUEST record comes behind the end of both streams. -/
theorem Orderly.close {c : List Mark} {m : Mark} (hno : ¬ EndSent c) (hm : isEnd m = true)
    (hx : .cancelled ∈ c → .dispatched ∉ c) (hf : ∀ i, Finished i (events c)) :
    Orderly (c ++ [m]) := by
  have hmark : m ≠ .cancelled ∧ m ≠ .dispatched := by
    constructor <;> (rintro rfl; cases hm)
  refine ⟨?_, ?_, ?_⟩
  · rw [List.countP_append, countP_isEnd hno]
    simp [hm]
  · intro hc hd
    rw [List.mem_append, List.mem_singleton] at hc hd
    have hc' := hc.resolve_right (Ne.symm hmark.1)
    exact hx hc' (hd.resolve_right (Ne.symm hmark.2))
  · intro before m' after he hm' i
    rcases List.append_eq_append_iff.mp he with ⟨t, rfl, ht⟩ | ⟨t, rfl, ht⟩
    · cases t with
      | nil =>
        rw [List.nil_append, List.cons.injEq] at ht
        obtain ⟨-, rfl⟩ := ht
        rw [List.append_nil]
        exact ⟨hf i, rfl⟩
      | cons x t => simp at ht
    · cases t with
      | nil =>
        rw [List.nil_append, List.cons.injEq] at ht
        obtain ⟨-, rfl⟩ := ht
        rw [List.append_nil] at hf
        exact ⟨hf i, rfl⟩
      | cons x t =>
        rw [List.cons_append, List.cons.injEq] at ht
        obtain ⟨rfl, -⟩ := ht
        exact absurd ⟨m', by simp, hm'⟩ hno

/-! ### The current acceptance -/

theorem current_split {ms c : List Mark} (h : current ms = some c) :
    ∃ before, ms = before ++ .accepted :: c ∧ .accepted ∉ c := by
  induction ms using List.reverseRecOn generalizing c with
  | nil => cases h
  | append_singleton ms m ih =>
    by_cases hm : m = .accepted
    · subst hm
      rw [current_accepted] at h
      cases h
      exact ⟨ms, rfl, List.not_mem_nil⟩
    · have hno : .accepted ∉ [m] := fun hx => hm (List.mem_singleton.mp hx).symm
      rw [current_append hno] at h
      obtain ⟨c₀, hc₀, rfl⟩ := Option.map_eq_some_iff.mp h
      obtain ⟨before, rfl, hc⟩ := ih hc₀
      refine ⟨before, by simp, ?_⟩
      rw [List.mem_append, not_or]
      exact ⟨hc, hno⟩

theorem current_acceptance {ms c : List Mark} (h : current ms = some c) : Acceptance ms c := by
  obtain ⟨before, rfl, hc⟩ := current_split h
  exact ⟨before, [], by rw [List.append_nil], hc⟩

theorem current_of_split {before c : List Mark} (h : .accepted ∉ c) :
    current (before ++ .accepted :: c) = some c := by
  have hx : before ++ Mark.accepted :: c = (before ++ [.accepted]) ++ c := by simp
  rw [hx, current_append h, current_accepted]
  rfl

/-- Every acceptance of the slot is orderly. -/
def AllOrderly (ms : List Mark) : Prop := ∀ c, Acceptance ms c → Orderly c

theorem AllOrderly.more {ms new : List Mark} (h : AllOrderly ms) (hacc : .accepted ∉ new)
    (hnew : ∀ c, current ms = some c → Orderly (c ++ new)) : AllOrderly (ms ++ new) := by
  rintro c ⟨before, after, he, hc⟩
  rcases List.append_eq_append_iff.mp he with ⟨t, rfl, ht⟩ | ⟨t, rfl, ht⟩
  · exact absurd (by rw [ht]; simp) hacc
  · cases t with
    | nil =>
      rw [List.nil_append] at ht
      exact absurd (by rw [← ht]; simp) hacc
    | cons x t =>
      rw [List.cons_append, List.cons.injEq] at ht
      obtain ⟨rfl, ht⟩ := ht
      rcases List.append_eq_append_iff.mp ht with ⟨u, rfl, rfl⟩ | ⟨u, rfl, rfl⟩
      · exact h c ⟨before, u, rfl, hc⟩
      · have hcur : current (before ++ .accepted :: t) = some t :=
          current_of_split fun hm => hc (List.mem_append_left u hm)
        have ho := hnew t hcur
        rw [← List.append_assoc] at ho
        exact ho.part

theorem AllOrderly.accepted {ms : List Mark} (h : AllOrderly ms) :
    AllOrderly (ms ++ [.accepted]) := by
  rintro c ⟨before, after, he, hc⟩
  rcases List.eq_nil_or_concat (c ++ after) with hnil | ⟨t, m, ht⟩
  · rw [List.append_eq_nil_iff] at hnil
    rw [hnil.1]
    exact .nil
  · rw [ht, List.concat_eq_append, ← List.cons_append, ← List.append_assoc] at he
    obtain ⟨rfl, hm⟩ := List.append_inj' he rfl
    rw [List.concat_eq_append] at ht
    rcases List.append_eq_append_iff.mp ht with ⟨u, rfl, hu⟩ | ⟨u, rfl, hu⟩
    · exact h c ⟨before, u, rfl, hc⟩
    · cases u with
      | nil =>
        rw [List.append_nil] at hc ⊢
        exact h t ⟨before, [], by rw [List.append_nil], hc⟩
      | cons x u =>
        rw [List.cons_append, List.cons.injEq] at hu
        obtain ⟨rfl, -⟩ := hu
        cases hm
        exact absurd (by simp) hc

/-! ## The slot in a run -/

/-- Every send of the step succeeds. -/
def Succeeds (a : Act) : Prop := ∀ φ, fate? a = some φ → φ = Fate.sent

/-- The request `r` after the marks `c`. -/
structure Tidy (c : List Mark) (r : Request) : Prop where
  streams : ∀ i, At i (events c) (stream r i)
  ready : r.state = .ready → ∀ i, (stream r i).attached = false
  reading : r.state = .readingParams → .cancelled ∉ c

variable {p : Params} {s s' : Sys} {a : Act} {ref : Ref}

/-- Marks that are about neither stream, and that do not end the request. -/
theorem Tidy.quiet {c : List Mark} {r r' : Request} {log : List Event} (h : Tidy c r)
    (hstreams : ∀ i, stream r' i = stream r i) (hstate : r'.state = .pending ∨ r'.state = r.state)
    {ms : List Mark} (hms : events ms = log) (hcan : .cancelled ∉ ms)
    (hlog : ∀ e ∈ log, about e = none ∨ about e = some .unknownType) : Tidy (c ++ ms) r' := by
  have hother : ∀ i, ∀ e ∈ log, about e ≠ some (typeOf i) := by
    intro i e he ha
    rcases hlog e he with hx | hx <;> rw [hx] at ha <;> cases i <;> cases ha
  refine ⟨?_, ?_, ?_⟩
  · intro i
    rw [events_append, hms, hstreams i]
    exact (h.streams i).other (hother i)
  · intro hr i
    rw [hstreams i]
    rcases hstate with hs | hs
    · rw [hs] at hr
      cases hr
    · exact h.ready (hs ▸ hr) i
  · intro hr
    rcases hstate with hs | hs
    · rw [hs] at hr
      cases hr
    · rw [List.mem_append, not_or]
      exact ⟨h.reading (hs ▸ hr), hcan⟩

theorem raise_flowing (i : Stream) {o : Ostream} (ho : o.Sound) (hp : o.internal.pending = []) :
    Flowing i [] (Request.raiseSendEof o.reset) := by
  refine ⟨⟨rfl, ho.room⟩, rfl, fun _ hm => absurd hm List.not_mem_nil, ?_⟩
  show [] = [] ++ o.internal.pending
  rw [hp]
  rfl

/-- The request that was accepted. -/
theorem accepted_tidy {r r' : Request} (hr : AllTyped r) (hrest : Rested r)
    (hready : r.state = .ready) (hreading : r'.state = .readingParams)
    (hstreams : ∀ i, stream r' i = Request.raiseSendEof (stream r i).reset) : Tidy [] r' := by
  refine ⟨?_, ?_, fun _ => List.not_mem_nil⟩
  · intro i
    rw [hstreams i]
    have hp := hrest.1 (by rw [hready]; exact State.noConfusion) i
    exact Or.inl (raise_flowing i (hr i).sound hp)
  · intro h
    rw [hreading] at h
    cases h

/-- The request that was cancelled, and what came before its END_REQUEST record. -/
theorem cancelled_tidy {r r' : Request} {c : List Mark} {log : List Event} (hr : AllTyped r)
    (ht : ∀ i, At i (events c) (stream r i)) (hc : Cancels p Fate.sent r r' log) :
    ∃ es out, log = es ++ [.sent (r.cancelPacket p) out] ∧
      (∀ e ∈ es, about e ≠ some .endRequest) ∧
      (∀ i, At i (events c ++ es) (stream r' i)) ∧ ∀ i, (stream r' i).attached = false := by
  have hclosed := (cancels_streams hr hc).2
  obtain ⟨⟨what, data, cerr, cout, es₁, es₂, out, h₁, h₂, rfl, rfl, rfl⟩, -, -⟩ := hc
  have hfed : ∀ i, ∀ e ∈ [Event.fed .params data], about e ≠ some (typeOf i) := by
    intro i e he
    cases List.mem_singleton.mp he
    exact nofun
  have herr : ∀ e ∈ es₁, about e = some .stderr := by
    have h := perform_about (p := p)
      [.write (ascii what), .write (ascii Request.raiseLimit), .close]
      (hr .cerr) Fate.sent
    rw [show perform p (stream r .cerr) _ Fate.sent = _ from h₁] at h
    exact h
  have hout : ∀ e ∈ es₂, about e = some .stdout := close_about (hr .cout) h₂
  refine ⟨.fed .params data :: (es₁ ++ es₂), out, by simp, ?_, ?_, hclosed⟩
  · intro e he
    simp only [List.mem_cons, List.mem_append] at he
    rcases he with rfl | he | he
    · exact nofun
    · rw [herr e he]
      exact nofun
    · rw [hout e he]
      exact nofun
  · intro i
    have hstart := (ht i).other (hfed i)
    have hsplit : events c ++ .fed .params data :: (es₁ ++ es₂) =
        (events c ++ [.fed .params data]) ++ es₁ ++ es₂ := by simp
    rw [hsplit]
    cases i with
    | cout =>
      have hskip : At .cout (events c ++ [.fed .params data] ++ es₁) (stream r .cout) :=
        hstart.other fun e he => by rw [herr e he]; exact nofun
      exact close_at (hr .cout) hskip h₂
    | cerr =>
      have hall := perform_at (hr .cerr) hstart (by simp) h₁
      exact hall.other (fun e he => by rw [hout e he]; exact nofun)

theorem setStream_at {r : Request} {c : List Mark} {i : Stream} {x : Ostream} {log : List Event}
    (h : ∀ j, At j (events c) (stream r j)) (hx : At i (events c ++ log) x)
    (hlog : ∀ e ∈ log, about e = some (typeOf i)) (j : Stream) :
    At j (events c ++ log) (stream (setStream r i x) j) := by
  by_cases hj : j = i
  · subst hj
    rw [stream_set_self]
    exact hx
  · rw [stream_set_ne hj]
    refine (h j).other ?_
    intro e he ha
    rw [hlog e he] at ha
    apply hj
    cases i <;> cases j <;> first | rfl | cases ha

/-- A worker or the application goes on with the request. -/
theorem moves_at {r r' : Request} {pc pc' : WorkerPc} {c : List Mark} {log : List Event}
    (h : Moves p Fate.sent ref r pc r' pc' log) (hr : AllTyped r)
    (ht : ∀ i, At i (events c) (stream r i)) (i : Stream) :
    At i (events c ++ log) (stream r' i) := by
  cases h with
  | uses j ops x _ _ _ before after kept did =>
    have habout := perform_about (p := p) ops (hr j) Fate.sent
    rw [did] at habout
    exact setStream_at ht (perform_at (hr j) (ht j) kept did) habout i
  | reads cin =>
    rw [List.append_nil]
    have hi := ht i
    cases i <;> exact hi
  | cout body x _ did =>
    exact setStream_at ht (close_at (hr .cout) (ht .cout) did) (close_about (hr .cout) did) i
  | cerr body x _ did =>
    exact setStream_at ht (close_at (hr .cerr) (ht .cerr) did) (close_about (hr .cerr) did) i
  | ends body out =>
    refine (ht i).other ?_
    intro e he ha
    cases List.mem_singleton.mp he
    exact typeOf_ne_end i (Option.some.inj ha).symm

theorem buffer_destroy {b : Ostreambuf} (hp : b.pending = []) {φ : Fate} {es : List Event}
    (h : b.destroy p φ = (.ok (), es)) :
    es = [] ∨ b.sendEof = true ∧ ∃ out, es = [.sent (b.packet p []) out] := by
  rw [Ostreambuf.destroy_empty p hp] at h
  cases he : b.sendEof with
  | false =>
    rw [he] at h
    cases h
    exact Or.inl rfl
  | true =>
    rw [he, if_pos rfl] at h
    split at h
    · cases h
    · cases h
      exact Or.inr ⟨rfl, _, rfl⟩

/-- The destruction of a request, whose buffers are empty, ends its streams. -/
theorem destroy_log {r : Request} (hr : AllTyped r)
    (hp : ∀ i, (stream r i).internal.pending = []) {φ : Fate} {log : List Event}
    (h : r.destroy p φ = (.ok (), log)) :
    (∀ e ∈ log, ∃ i, about e = some (typeOf i)) ∧
      ((∀ i, (stream r i).internal.sendEof = false) → log = []) := by
  obtain ⟨u, es₁, es₂, h₁, h₂, rfl⟩ := Tx.bind_eq_ok h
  have herr := buffer_destroy (hp .cerr) h₁
  have hout := buffer_destroy (hp .cout) h₂
  refine ⟨?_, ?_⟩
  · intro e he
    rcases List.mem_append.mp he with he | he
    · rcases herr with rfl | ⟨-, out, rfl⟩
      · cases he
      · cases List.mem_singleton.mp he
        exact ⟨.cerr, congrArg some (hr .cerr).type⟩
    · rcases hout with rfl | ⟨-, out, rfl⟩
      · cases he
      · cases List.mem_singleton.mp he
        exact ⟨.cout, congrArg some (hr .cout).type⟩
  · intro hq
    have h₁ : es₁ = [] := herr.resolve_right fun hx => by
      cases (hq .cerr).symm.trans hx.1
    have h₂ : es₂ = [] := hout.resolve_right fun hx => by
      cases (hq .cout).symm.trans hx.1
    rw [h₁, h₂]
    rfl

/-- The slot `ref` is in order. -/
structure InOrder (s : Sys) (ref : Ref) : Prop where
  tidy : ∀ r c, s.request? ref = some r → current (marksOf s ref) = some c → Tidy c r
  orderly : AllOrderly (marksOf s ref)

/-- What the rest of the process keeps of the slot. -/
structure Sound (s : Sys) (ref : Ref) : Prop where
  inv : Inv s
  told : Told s ref
  streamed : Streamed s ref

theorem init_sound (workers : Nat) (ref : Ref) : Sound (.init workers) ref :=
  ⟨init_inv workers, Or.inr rfl, init_streamed workers ref⟩

theorem Sound.step (hs : Sound s ref) (h : Sys.step p s a = some s') : Sound s' ref where
  inv := step_inv hs.inv h
  told := step_told hs.inv h hs.told
  streamed := step_streamed hs.inv hs.told hs.streamed h

/-! ## What the application wrote -/

/-- What an operation of the application gives to the stream `i`, if it is open. -/
def opWrites (r : Request) (i : Stream) : AppOp → List Byte
  | .write j bytes => if j = i ∧ (stream r i).attached then bytes else []
  | _ => []

/-- What the application gives to the stream `i` of the request in a step. -/
def appWrites (i : Stream) (ref : Ref) (s : Sys) : Act → List Byte
  | .app w op _ =>
    if s.workers[w]? = some (.running ref) then
      (s.request? ref).elim [] fun r => opWrites r i op
    else []
  | _ => []

theorem opWrites_written {r : Request} (hr : AllTyped r) {op : AppOp}
    {tx : Tx (Request × Option Int)} (hop : appOp p r op = some tx) {φ : Fate} {r' : Request}
    {got : Option Int} {log : List Event} (hd : tx φ = (.ok (r', got), log)) (i : Stream) :
    written i log = opWrites r i op := by
  cases op with
  | write j bytes =>
    cases hop
    obtain ⟨x, hw, -⟩ := Tx.bind_return (fun _ => rfl) hd
    obtain ⟨es, hes, hsent⟩ := write_log p (hr j).sound bytes φ
    rw [hw] at hes
    simp only at hes
    rw [hes, written_append, written_allSent hsent, List.append_nil]
    by_cases hj : j = i
    · subst hj
      cases ha : (stream r j).attached with
      | true => simp [written, opWrites, ha, (hr j).type]
      | false => simp [written, opWrites, ha]
    · have htype : typeOf j ≠ typeOf i := by
        cases i <;> cases j <;> first | exact absurd rfl hj | exact RecType.noConfusion
      cases ha : (stream r j).attached with
      | true => simp [written, opWrites, hj, (hr j).type, htype]
      | false => simp [written, opWrites, hj]
  | flush j =>
    cases hop
    obtain ⟨x, hf, -⟩ := Tx.bind_return (fun _ => rfl) hd
    have hsent := flush_log p (hr j).sound φ
    rw [hf] at hsent
    exact written_allSent hsent
  | close j =>
    cases hop
    obtain ⟨x, hc, -⟩ := Tx.bind_return (fun _ => rfl) hd
    have hsent := close_log p (hr j).sound φ
    rw [hc] at hsent
    exact written_allSent hsent
  | get =>
    simp only [appOp] at hop
    split at hop
    · cases hop
    · cases hop
      cases hd
      rfl

/-- The application uses the request of the worker that runs the callback. -/
theorem app_step {w : Nat} {op : AppOp} {φ : Fate} (h : Sys.step p s (.app w op φ) = some s')
    (hup : s'.down = none) :
    ∃ ref r tx r' got log, s.workers[w]? = some (.running ref) ∧ s.request? ref = some r ∧
      appOp p r op = some tx ∧ tx φ = (.ok (r', got), log) ∧
      marksOf s' ref = marksOf s ref ++ (log.map .did ++ (got.map Mark.got).toList) ∧
      ∀ ref', ref' ≠ ref → marksOf s' ref' = marksOf s ref' := by
  unfold Sys.step at h
  split at h
  · cases h
  · simp only at h
    split at h
    · rename_i ref hw
      unfold Sys.useRequest at h
      split at h
      · cases h
        cases hup
      · rename_i r hr
        split at h
        · cases h
        · rename_i tx' htx
          obtain ⟨tx, hop, rfl⟩ := Option.map_eq_some_iff.mp htx
          split at h
          · cases h
            cases hup
          · rename_i r' pc got log hd
            cases h
            obtain ⟨⟨r₁, got₁⟩, hr₁, he⟩ := Tx.bind_return (fun _ => rfl) hd
            cases he
            have hlog : ((s.setRequest ref r₁).setWorker w (.running ref)).log = s.log := by
              rw [Sys.setWorker_log, Sys.setRequest_log]
            refine ⟨ref, r, tx, r₁, got₁, log, hw, hr, hop, hr₁, ?_, ?_⟩
            · rw [marksOf_record, marksOf_eq hlog]
            · intro ref' hne
              rw [marksOf_record_ne hne, marksOf_eq hlog]
    · cases h

/-- The complaints of the process are on `cerr`. -/
theorem complain_cout {r r' : Request} (hr : AllTyped r) {texts : List String} {φ : Fate}
    {log : List Event} (h : complain p r texts φ = (.ok r', log)) : written .cout log = [] := by
  obtain ⟨ops, x, -, hp, -⟩ := complain_performs h
  have habout := perform_about (p := p) ops (hr .cerr) φ
  rw [show perform p (stream r .cerr) ops φ = _ from hp] at habout
  refine (emitted_other ?_).2
  intro e he ha
  rw [habout e he] at ha
  cases ha

theorem close_written {r : Request} (hr : AllTyped r) {j : Stream} {φ : Fate} {o : Ostream}
    {log : List Event} (h : (stream r j).close p φ = (.ok o, log)) (i : Stream) :
    written i log = [] := by
  have hsent := close_log p (hr j).sound φ
  rw [h] at hsent
  exact written_allSent hsent

theorem worked_cout {w : Nat} {r r' : Request} {a : Act} {pc pc' : WorkerPc} {got : Option Int}
    {log : List Event} (hr : AllTyped r) (h : Sys.Worked p w ref r a pc r' pc' got log)
    (ha : ∀ w op φ, a ≠ .app w op φ) : written .cout log = [] := by
  cases h with
  | start φ role => rfl
  | unknown φ r' body log did =>
    obtain ⟨r₁, hc, -⟩ := Tx.bind_return (fun _ => rfl) did
    exact complain_cout hr hc
  | cout φ body o log did => exact close_written hr (j := .cout) did .cout
  | cerr φ body o log did => exact close_written hr (j := .cerr) did .cout
  | send φ body log did =>
    rw [Request.sendOrThrow_ok did]
    rfl
  | app φ op tx r' got log op_eq did => exact absurd rfl (ha w op φ)
  | finish φ how r' body log did =>
    cases how with
    | returns status =>
      cases did
      rfl
    | throwsException what | throwsOther =>
      obtain ⟨r₁, hc, -⟩ := Tx.bind_return (fun _ => rfl) did
      exact complain_cout hr hc

theorem receives_cout {r : Request} {φ : Fate} {h : Handled} {log : List Event} (hr : AllTyped r)
    (hh : Receives p φ r h log) : written .cout log = [] := by
  cases hh with
  | accepts r' ready reading streams => rfl
  | keeps h log streams about idle =>
    refine (emitted_other ?_).2
    intro e he ha
    rcases about e he with hx | hx <;> rw [hx] at ha <;> cases ha
  | cancels r' log did =>
    obtain ⟨⟨what, data, cerr, cout, es₁, es₂, out, h₁, h₂, -, -, rfl⟩, -, -⟩ := did
    have habout := perform_about (p := p) [.write (ascii what), .write (ascii Request.raiseLimit),
      .close] (hr .cerr) φ
    rw [show perform p (stream r .cerr) _ φ = _ from h₁] at habout
    have herr : written .cout es₁ = [] := by
      refine (emitted_other ?_).2
      intro e he ha
      rw [habout e he] at ha
      cases ha
    have hout : written .cout es₂ = [] := close_written hr (j := .cout) h₂ .cout
    have hparts : written .cout (es₁ ++ (es₂ ++ [.sent (r.cancelPacket p) out])) = [] := by
      rw [written_append, written_append, herr, hout]
      rfl
    exact hparts

theorem destroy_written {r : Request} (hp : ∀ i, (stream r i).internal.pending = []) {φ : Fate}
    {log : List Event} (h : r.destroy p φ = (.ok (), log)) (i : Stream) : written i log = [] := by
  obtain ⟨u, es₁, es₂, h₁, h₂, rfl⟩ := Tx.bind_eq_ok h
  have hsent : ∀ {b : Ostreambuf} {φ : Fate} {es : List Event}, b.pending = [] →
      b.destroy p φ = (.ok (), es) → written i es = [] := by
    intro b φ es hb hd
    rcases buffer_destroy hb hd with rfl | ⟨-, out, rfl⟩
    · rfl
    · rfl
  rw [written_append, hsent (hp .cerr) h₁, hsent (hp .cout) h₂]
  rfl

/-- Each step adds what the application writes; the process adds to `cerr` only. -/
theorem step_written (hi : Inv s) (hs : Streamed s ref) (h : Sys.step p s a = some s')
    (hup : s'.down = none) : ∃ ms, marksOf s' ref = marksOf s ref ++ ms ∧
      ∀ i, written i (events ms) = appWrites i ref s a ∨ i = .cerr ∧ appWrites i ref s a = [] := by
  by_cases happ : ∃ w op φ, a = .app w op φ
  · obtain ⟨w, op, φ, rfl⟩ := happ
    obtain ⟨ref', r, tx, r', got, log, hw, hr, hop, hd, hms, hother⟩ := app_step h hup
    by_cases hne : ref = ref'
    · subst hne
      refine ⟨_, hms, fun i => Or.inl ?_⟩
      rw [events_work, opWrites_written (hs.typed r hr) hop hd i, appWrites, if_pos hw, hr]
      rfl
    · refine ⟨[], by rw [hother ref hne, List.append_nil], fun i => Or.inl ?_⟩
      have hw' : s.workers[w]? ≠ some (.running ref) := by
        rw [hw]
        intro he
        cases he
        exact hne rfl
      exact (if_neg hw').symm
  · have hno : ∀ i, appWrites i ref s a = [] := by
      intro i
      cases a with
      | app w op φ => exact absurd ⟨w, op, φ, rfl⟩ happ
      | _ => rfl
    have hcout : ∀ {ms : List Mark}, written .cout (events ms) = [] → ∀ i,
        written i (events ms) = appWrites i ref s a ∨ i = .cerr ∧ appWrites i ref s a = [] := by
      intro ms hms i
      cases i with
      | cout => exact Or.inl (hms.trans (hno .cout).symm)
      | cerr => exact Or.inr ⟨rfl, hno .cerr⟩
    cases step_slot h ref with
    | same request marks => exact ⟨[], by rw [marks, List.append_nil], hcout rfl⟩
    | handled n junk φ notified r hd log act conn pc slot handles request marks pushes =>
      have hr : AllTyped r := by
        rcases slot with hr | ⟨-, rfl⟩
        · exact hs.typed r hr
        · exact new_typed p _ junk
      refine ⟨_, marks, hcout ?_⟩
      rw [events_marks]
      exact receives_cout hr (handles_receives handles)
    | reset n j r conn pc slot request marks =>
      exact ⟨[], by rw [marks, List.append_nil], hcout rfl⟩
    | destroyed n φ r log conn pc slot destroys request marks =>
      refine ⟨_, marks, hcout ?_⟩
      rw [events_did]
      exact destroy_written (destroyed_pending hi hs conn pc slot) destroys .cout
    | worked w r r' pc pc' got log worker workers slot works request marks =>
      refine ⟨_, marks, hcout ?_⟩
      rw [events_work]
      exact worked_cout (hs.typed r slot) works fun w op φ he => happ ⟨w, op, φ, he⟩

/-- What was written is what the application wrote: on `cout` this is all, on `cerr` it stands
among the complaints of the process. -/
theorem run_written {workers : Nat} {as : List Act}
    (h : run (Sys.step p) (.init workers) as = some s) (hup : s.down = none) (ref : Ref) :
    written .cout (events (marksOf s ref)) =
        trace (Sys.step p) (appWrites .cout ref) (.init workers) as ∧
      (trace (Sys.step p) (appWrites .cerr ref) (.init workers) as).Sublist
        (written .cerr (events (marksOf s ref))) := by
  have hrun : ∀ {t : Sys} {as : List Act}, Sound t ref → run (Sys.step p) t as = some s →
      ∃ ms, marksOf s ref = marksOf t ref ++ ms ∧
        written .cout (events ms) = trace (Sys.step p) (appWrites .cout ref) t as ∧
          (trace (Sys.step p) (appWrites .cerr ref) t as).Sublist (written .cerr (events ms)) := by
    intro t as
    induction as generalizing t with
    | nil =>
      rintro - ⟨⟩
      exact ⟨[], (List.append_nil _).symm, rfl, List.Sublist.slnil⟩
    | cons a as ih =>
      intro hs h
      obtain ⟨t₁, hstep, hrest⟩ := run_cons h
      obtain ⟨ms₁, hms₁, hw₁⟩ := step_written hs.inv hs.streamed hstep (run_up hrest hup)
      obtain ⟨ms₂, hms₂, hout, herr⟩ := ih (hs.step hstep) hrest
      refine ⟨ms₁ ++ ms₂, by rw [hms₂, hms₁, List.append_assoc], ?_, ?_⟩
      · have hcout := (hw₁ .cout).resolve_right fun hx => Stream.noConfusion hx.1
        rw [trace_cons hstep, events_append, written_append, hcout, hout]
      · rw [trace_cons hstep, events_append, written_append]
        refine List.Sublist.append ?_ herr
        rcases hw₁ .cerr with heq | ⟨-, hnil⟩
        · rw [heq]
        · rw [hnil]
          exact List.nil_sublist _
  obtain ⟨ms, hms, hout, herr⟩ := hrun (init_sound workers ref) h
  rw [show marksOf (.init workers) ref = [] from rfl, List.nil_append] at hms
  rw [hms]
  exact ⟨hout, herr⟩

/-! ## The order of a request -/

theorem Sound.rested (hs : Sound s ref) {r : Request} {junk : Junk} (h : s.request? ref = some r ∨
    s.request? ref = none ∧ r = .new p (ref.slot + 1) junk) : Rested r := by
  rcases h with hr | ⟨-, rfl⟩
  · exact ⟨hs.streamed.idle r hr, hs.streamed.ready r hr⟩
  · exact new_rested p _ junk

/-- Once END_REQUEST was sent the streams are closed. -/
theorem ended_closed (hs : Sound s ref) (hp : InOrder s ref) {r : Request} {c : List Mark}
    (hr : s.request? ref = some r) (hc : current (marksOf s ref) = some c) (he : EndSent c)
    (i : Stream) : (stream r i).attached = false := by
  have hstory := story_of_some hs.told hr
  unfold Story at hstory
  cases hstate : r.state with
  | ready => exact (hp.tidy r c hr hc).ready hstate i
  | readingParams =>
    simp only [hstate] at hstory
    obtain ⟨c', hc', -, hno⟩ := hstory
    rw [hc] at hc'
    cases hc'
    exact absurd he hno
  | pending =>
    refine hs.streamed.closed r hr hstate ?_ i
    by_cases hin : ref ∈ refs s
    · exact Or.inr (Or.inl (hs.streamed.once hin ⟨c, hc, he⟩))
    · exact Or.inr (Or.inr hin)
  | appRunning =>
    simp only [hstate] at hstory

/-- Marks that are about neither stream, and that do not end the request. -/
theorem quiet_inOrder (hp : InOrder s ref) {r r' : Request} {ms : List Mark}
    {log : List Event} (hr : ∀ c, current (marksOf s ref) = some c → s.request? ref = some r)
    (hr' : s'.request? ref = some r') (hmarks : marksOf s' ref = marksOf s ref ++ ms)
    (hms : events ms = log) (hacc : .accepted ∉ ms) (hcan : .cancelled ∉ ms) (hno : ¬ EndSent ms)
    (hdis : ∀ c, current (marksOf s ref) = some c → .dispatched ∈ ms → .cancelled ∉ c)
    (hstreams : ∀ i, stream r' i = stream r i) (hstate : r'.state = .pending ∨ r'.state = r.state)
    (hlog : ∀ e ∈ log, about e = none ∨ about e = some .unknownType) : InOrder s' ref := by
  refine ⟨?_, ?_⟩
  · intro r₁ c₁ hr₁ hc₁
    rw [hr'] at hr₁
    cases hr₁
    rw [hmarks, current_append hacc] at hc₁
    obtain ⟨c, hc, rfl⟩ := Option.map_eq_some_iff.mp hc₁
    exact (hp.tidy r c (hr c hc) hc).quiet hstreams hstate hms hcan hlog
  · rw [hmarks]
    refine hp.orderly.more hacc ?_
    intro c hc
    have ho := hp.orderly c (current_acceptance hc)
    refine ho.more hno ?_ ?_
    · intro hx hd
      have hx' := (List.mem_append.mp hx).resolve_right hcan
      rcases List.mem_append.mp hd with hd | hd
      · exact ho.exclusive hx' hd
      · exact hdis c hc hd hx'
    · intro _ i
      rw [hms]
      refine (emitted_other ?_).1
      intro e he ha
      rcases hlog e he with hx | hx <;> rw [hx] at ha <;> cases i <;> cases ha

/-- A cancelled request. -/
theorem cancel_inOrder (hs : Sound s ref) (hp : InOrder s ref) {r r' : Request} {log : List Event}
    (hr : s.request? ref = some r) (hread : r.state = .readingParams)
    (hr' : s'.request? ref = some r') (hcan : Cancels p Fate.sent r r' log)
    (hmarks : marksOf s' ref = marksOf s ref ++ .cancelled :: log.map .did) : InOrder s' ref := by
  have hstory := story_of_some hs.told hr
  unfold Story at hstory
  simp only [hread] at hstory
  obtain ⟨c, hc, hdis, hno⟩ := hstory
  have htidy := hp.tidy r c hr hc
  obtain ⟨es, out, rfl, hes, hat, hclosed⟩ :=
    cancelled_tidy (hs.streamed.typed r hr) htidy.streams hcan
  have hms : Mark.cancelled :: (es ++ [Event.sent (r.cancelPacket p) out]).map Mark.did =
      ([.cancelled] ++ es.map .did) ++ [.did (.sent (r.cancelPacket p) out)] := by simp
  have hacc : .accepted ∉ ([.cancelled] ++ es.map .did) ++
      [Mark.did (.sent (r.cancelPacket p) out)] := by simp
  have hevents : events (c ++ ([.cancelled] ++ es.map .did)) = events c ++ es := by
    rw [events_append, events_append, events_did]
    rfl
  have hend : isEnd (.did (.sent (r.cancelPacket p) out)) = true := rfl
  rw [hms] at hmarks
  have hfinished : ∀ i, Finished i (events (c ++ ([.cancelled] ++ es.map .did))) := by
    intro i
    rw [hevents]
    exact (hat i).finished (hclosed i)
  have hquiet : ¬ EndSent (c ++ ([.cancelled] ++ es.map .did)) := by
    intro hx
    rcases endSent_append hx with hx | hx
    · exact hno hx
    · rcases endSent_append hx with ⟨m, hm, hx⟩ | hx
      · cases List.mem_singleton.mp hm
        cases hx
      · exact not_endSent_about hes hx
  refine ⟨?_, ?_⟩
  · intro r₁ c₁ hr₁ hc₁
    rw [hr'] at hr₁
    cases hr₁
    rw [hmarks, current_append hacc, hc, Option.map_some, Option.some.injEq] at hc₁
    subst hc₁
    refine ⟨?_, fun _ => hclosed, ?_⟩
    · intro i
      rw [← List.append_assoc, events_append, hevents]
      refine (hat i).other ?_
      intro e he ha
      cases List.mem_singleton.mp he
      exact typeOf_ne_end i (Option.some.inj ha).symm
    · intro hx
      rw [hcan.ready] at hx
      cases hx
  · rw [hmarks]
    refine hp.orderly.more hacc ?_
    intro c₁ hc₁
    rw [hc] at hc₁
    cases hc₁
    rw [← List.append_assoc]
    refine Orderly.close hquiet hend (fun _ => ?_) hfinished
    simp [hdis]

/-- A record is handled. -/
theorem handled_inOrder (hs : Sound s ref) (hp : InOrder s ref) {n : Conn} {junk : Junk}
    {r : Request} {h : Handled} {log : List Event} (conn : s.conns[ref.conn]? = some n)
    (pc : n.pc = .reading) (slot : s.request? ref = some r ∨
      s.request? ref = none ∧ r = .new p (ref.slot + 1) junk)
    (receives : Receives p Fate.sent r h log) (request : s'.request? ref = some h.request)
    (marks : marksOf s' ref = marksOf s ref ++ Sys.marks h log) : InOrder s' ref := by
  have hcur : ∀ c, current (marksOf s ref) = some c → s.request? ref = some r := by
    intro c hc
    rcases slot with hr | ⟨hr, -⟩
    · exact hr
    · rcases hs.told with ⟨⟨m, hm, htorn⟩, -⟩ | hstory
      · rw [conn] at hm
        cases hm
        rw [pc] at htorn
        cases htorn
      · rw [hr] at hstory
        rw [show current (marksOf s ref) = none from hstory] at hc
        cases hc
  have hreading : r.paramsDeserializer.isSome = true →
      s.request? ref = some r ∧ r.state = .readingParams := by
    intro hsome
    rcases slot with hr | ⟨-, rfl⟩
    · exact ⟨hr, reading_state hs.inv conn pc hr hsome⟩
    · cases hsome
  have hacc := accepted_not_mem_did log
  cases receives with
  | accepts r' ready reading streams =>
    have hmarks : marksOf s' ref = marksOf s ref ++ [.accepted] := marks
    refine ⟨?_, hmarks ▸ hp.orderly.accepted⟩
    intro r₁ c₁ hr₁ hc₁
    rw [request] at hr₁
    cases hr₁
    rw [hmarks, current_accepted] at hc₁
    cases hc₁
    exact accepted_tidy (slot_typed hs.streamed slot) (hs.rested slot) ready reading streams
  | cancels r' _ did =>
    obtain ⟨hr, hread⟩ := hreading did.reading
    exact cancel_inOrder hs hp hr hread request did marks
  | keeps _ _ streams about idle =>
    have hno : ¬ EndSent (log.map .did) := by
      apply not_endSent_about
      intro e he ha
      rcases about e he with hx | hx <;> rw [hx] at ha <;> cases ha
    rcases idle with ⟨r', rfl, hstate⟩ | ⟨r', rfl, hstate, hsome⟩
    · refine quiet_inOrder hp hcur request marks (events_did log) hacc (by simp [Sys.marks]) hno ?_
        streams (Or.inr hstate) about
      intro c _ hd
      exact absurd hd (dispatched_not_mem_did log)
    · obtain ⟨hr, hread⟩ := hreading hsome
      refine quiet_inOrder hp hcur request marks (events_did log) (by simp [Sys.marks, hacc])
        (by simp [Sys.marks]) ?_ ?_ streams (Or.inl hstate) about
      · rintro ⟨m, hm, hx⟩
        rcases List.mem_cons.mp hm with rfl | hm
        · cases hx
        · exact hno ⟨m, hm, hx⟩
      · intro c hc _
        exact (hp.tidy r c hr hc).reading hread

/-- A worker or the application goes on with the request. -/
theorem worked_inOrder (hs : Sound s ref) (hp : InOrder s ref) {w : Nat} {r r' : Request}
    {pc pc' : WorkerPc} {got : Option Int} {log : List Event} (hsucc : Succeeds a)
    (worker : s.workers[w]? = some pc) (slot : s.request? ref = some r)
    (works : Sys.Worked p w ref r a pc r' pc' got log) (request : s'.request? ref = some r')
    (marks : marksOf s' ref = marksOf s ref ++ (log.map .did ++ (got.map .got).toList)) :
    InOrder s' ref := by
  obtain ⟨hpc, -, hkeeps⟩ := works.keeps
  obtain ⟨r₁, c, hr, hstate, hc, hdis⟩ := held_story hs.inv hs.told worker hpc
  rw [slot] at hr
  cases hr
  obtain ⟨φ, hφ, hm⟩ := worked_moves works
  obtain rfl := hsucc φ hφ
  have htyped := hs.streamed.typed r slot
  have htidy := hp.tidy r c slot hc
  have ho := hp.orderly c (current_acceptance hc)
  have hcan : .cancelled ∉ c := fun hx => ho.exclusive hx hdis
  -- the worker that holds it is not at its last decrement
  have hno : ¬ EndSent c := by
    intro he
    have hin : ref ∈ refs s := List.mem_append_right _ (List.mem_append_right _
      (List.mem_filterMap.mpr ⟨pc, List.mem_of_getElem? worker, hpc⟩))
    have hd := hs.streamed.once hin ⟨c, hc, he⟩
    have heq := held_unique hs.inv hd (List.mem_of_getElem? worker) rfl hpc
    subst heq
    cases works
  have hevents := events_work log got
  have hacc := accepted_not_mem_work log got
  have hpending : r'.state = .pending := by
    obtain ⟨cin, cout, cerr, rfl⟩ := hkeeps
    exact hstate
  refine ⟨?_, ?_⟩
  · intro r₁ c₁ hr₁ hc₁
    rw [request] at hr₁
    cases hr₁
    rw [marks, current_append hacc, hc, Option.map_some, Option.some.injEq] at hc₁
    subst hc₁
    refine ⟨?_, ?_, ?_⟩
    · intro i
      rw [events_append, hevents]
      exact moves_at hm htyped htidy.streams i
    · intro hx
      rw [hpending] at hx
      cases hx
    · intro hx
      rw [hpending] at hx
      cases hx
  · rw [marks]
    refine hp.orderly.more hacc ?_
    intro c₁ hc₁
    rw [hc] at hc₁
    cases hc₁
    have hx : .cancelled ∉ c ++ (log.map .did ++ (got.map Mark.got).toList) := by
      rw [List.mem_append, not_or]
      exact ⟨hcan, cancelled_not_mem_work log got⟩
    rcases hm.about htyped with habout | ⟨body, out, rfl, -, -, rfl⟩
    · exact ho.more (not_endSent_work got habout) (fun hm => absurd hm hx) (fun he => absurd he hno)
    · have hclosed := hs.streamed.closed r slot hstate
        (Or.inl ⟨body, List.mem_of_getElem? worker⟩)
      have hend := Orderly.close hno (rfl : isEnd (.did (.sent (endPacket p r body) out)) = true)
        (fun hx => absurd hx hcan) (fun i => (htidy.streams i).finished (hclosed i))
      rw [← List.append_assoc]
      have hquiet : ∀ e ∈ ([] : List Event), ∃ i, about e = some (typeOf i) :=
        fun e he => absurd he List.not_mem_nil
      refine hend.more (not_endSent_work got hquiet) (fun hm => ?_) (fun _ i => ?_)
      · rw [← List.append_assoc] at hx
        exact absurd hm hx
      · cases got <;> rfl

/-- The slot is emptied. -/
theorem destroyed_inOrder (hs : Sound s ref) (hp : InOrder s ref) {n : Conn} {φ : Fate}
    {r : Request} {log : List Event} (conn : s.conns[ref.conn]? = some n)
    (pc : n.pc = .tearingDown ref.slot ∧ (r.state = .readingParams ∨ r.state = .ready) ∨
      n.pc = .clearing ref.slot) (slot : s.request? ref = some r)
    (destroys : r.destroy p φ = (.ok (), log)) (request : s'.request? ref = none)
    (marks : marksOf s' ref = marksOf s ref ++ log.map .did) : InOrder s' ref := by
  have htyped := hs.streamed.typed r slot
  have hempty := destroyed_pending hs.inv hs.streamed conn pc slot
  obtain ⟨habout, hquiet⟩ := destroy_log htyped hempty destroys
  have hacc := accepted_not_mem_did log
  refine ⟨?_, ?_⟩
  · intro r₁ c₁ hr₁
    rw [request] at hr₁
    cases hr₁
  · rw [marks]
    refine hp.orderly.more hacc ?_
    intro c hc
    have ho := hp.orderly c (current_acceptance hc)
    refine ho.more ?_ ?_ ?_
    · have hw := not_endSent_work none habout
      rwa [show (none.map Mark.got).toList = ([] : List Mark) from rfl, List.append_nil] at hw
    · intro hx hd
      have hcan : Mark.cancelled ∉ log.map Mark.did := by simp
      exact ho.exclusive ((List.mem_append.mp hx).resolve_right hcan)
        ((List.mem_append.mp hd).resolve_right (dispatched_not_mem_did log))
    · intro he i
      have hdone := ended_closed hs hp slot hc he
      rw [hquiet fun j => (htyped j).quiet (hdone j)]
      rfl

theorem step_inOrder (hs : Sound s ref) (hp : InOrder s ref) (hsucc : Succeeds a)
    (h : Sys.step p s a = some s') : InOrder s' ref := by
  cases step_slot h ref with
  | same request marks =>
    refine ⟨?_, marks ▸ hp.orderly⟩
    rw [request, marks]
    exact hp.tidy
  | handled n junk φ notified r hd log act conn pc slot handles request marks pushes =>
    obtain rfl : φ = Fate.sent := hsucc φ (by rw [act]; rfl)
    exact handled_inOrder hs hp conn pc slot (handles_receives handles) request marks
  | reset n j r conn pc slot request marks =>
    refine ⟨?_, marks ▸ hp.orderly⟩
    intro r₁ c hr₁ hc
    rw [request] at hr₁
    cases hr₁
    rw [marks] at hc
    obtain ⟨hstreams, hready, hreading⟩ := hp.tidy r c slot hc
    exact ⟨fun i => by cases i <;> first | exact hstreams .cout | exact hstreams .cerr,
      fun hx i => by cases i <;> first | exact hready hx .cout | exact hready hx .cerr, hreading⟩
  | destroyed n φ r log conn pc slot destroys request marks =>
    exact destroyed_inOrder hs hp conn pc slot destroys request marks
  | worked w r r' pc pc' got log worker workers slot works request marks =>
    exact worked_inOrder hs hp hsucc worker slot works request marks

theorem run_inOrder {workers : Nat} {as : List Act} (hsucc : ∀ a ∈ as, Succeeds a)
    (h : run (Sys.step p) (.init workers) as = some s) (ref : Ref) : InOrder s ref := by
  have hmeets : ∀ (bs : List Act) (t : Sys), (∀ a ∈ bs, Succeeds a) →
      Meets (Sys.step p) (fun _ a => Succeeds a) t bs := by
    intro bs
    induction bs with
    | nil => exact fun _ _ => trivial
    | cons b bs ih =>
      intro t hb
      rw [List.forall_mem_cons] at hb
      exact ⟨hb.1, fun t' _ => ih t' hb.2⟩
  refine (run_invariant_of_meets (I := fun s => Sound s ref ∧ InOrder s ref) ?_ ?_
    (hmeets as _ hsucc) h).2
  · refine ⟨init_sound workers ref, ?_, ?_⟩
    · intro r c hr
      cases hr
    · rintro c ⟨before, after, he, -⟩
      rw [show marksOf (.init workers) ref = [] from rfl] at he
      simp at he
  · rintro s a s' ⟨hs, hp⟩ hsucc hstep
    exact ⟨hs.step hstep, step_inOrder hs hp hsucc hstep⟩

/-- **One orderly end for each request**, in every run whose sends succeed. -/
theorem orderly_end {workers : Nat} {as : List Act} (hsucc : ∀ a ∈ as, Succeeds a)
    (h : run (Sys.step p) (.init workers) as = some s) {c : List Mark}
    (hc : Acceptance (marksOf s ref) c) : Orderly c := (run_inOrder hsucc h ref).orderly c hc

/-- The callback writes, closes `cout` early, writes on and throws. -/
def thrown : List Act :=
  started ++ [.app 0 (.write .cout [104, 105]) Fate.sent, .app 0 (.close .cout) Fate.sent,
    .app 0 (.write .cout [33]) Fate.sent, .finish 0 (.throwsException "no") Fate.sent] ++
      workerMoves 4

theorem thrown_succeeds : ∀ a ∈ thrown, Succeeds a := by
  intro a ha φ hφ
  simp only [thrown, started, connMoves, workerMoves, List.mem_append, List.mem_cons,
    List.mem_replicate, List.not_mem_nil, or_false] at ha
  rcases ha with ((((ha | ha | ha) | ha) | ha) | ha | ha | ha | ha) | ha <;>
    (first | subst ha | obtain rfl := ha.2) <;> cases hφ <;> rfl

theorem orderly_end_thrown : ∃ s c, run (Sys.step .standard) (.init 1) thrown = some s ∧
    Acceptance (marksOf s ⟨0, 0⟩) c ∧ EndSent c ∧ Orderly c ∧
    written .cout (events c) = [104, 105] := by
  have hrun : (run (Sys.step .standard) (.init 1) thrown).any (fun s => decide (s.down = none) &&
      (current (marksOf s ⟨0, 0⟩)).any fun c =>
        c.any isEnd && decide (marksOf s ⟨0, 0⟩ = .accepted :: c)) = true := by
    decide +kernel
  obtain ⟨s, hs, hcheck⟩ := (Option.any_eq_true _ _).mp hrun
  rw [Bool.and_eq_true, decide_eq_true_eq] at hcheck
  obtain ⟨c, hc, hend⟩ := (Option.any_eq_true _ _).mp hcheck.2
  rw [Bool.and_eq_true, decide_eq_true_eq] at hend
  have ha := current_acceptance hc
  have hwritten := (run_written hs hcheck.1 ⟨0, 0⟩).1
  rw [hend.2] at hwritten
  exact ⟨s, c, hs, ha, List.any_eq_true.mp hend.1, orderly_end thrown_succeeds hs ha,
    hwritten.trans (by decide +kernel)⟩

end Tfcgi.OrderlyEnd
