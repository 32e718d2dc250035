import Tfcgi.OutputStream
import Tfcgi.Owner

/-!
# The output streams of a request

`cout` and `cerr` of a request through its whole life, whatever the sends do.

* `perform_typed`, `perform_about`: the records of a stream have its type;
* `Worked.moves`: a worker and the application use one stream at a time;
* `run_kept`: the streams are closed when the END_REQUEST record is sent, which
  happens at most once for each request.
-/

namespace Tfcgi.Streams

open Tfcgi.Run Tfcgi.HostOrder Tfcgi.Protocol Tfcgi.NameValuePairs Tfcgi.Socket Tfcgi.Iostream
open Tfcgi.RequestSlot Tfcgi.ConnectionThread Tfcgi.System Tfcgi.OutputStream
open Tfcgi.Accounting Tfcgi.History Tfcgi.Reuse Tfcgi.Owner

/-! ## One stream -/

def typeOf : Stream → RecType
  | .cout => .stdout
  | .cerr => .stderr

/-- A stream whose records have the type of `i`, and with nothing left to send once
it is closed. -/
structure Typed (i : Stream) (o : Ostream) : Prop where
  sound : o.Sound
  type : o.internal.pktType = typeOf i
  quiet : o.attached = false → o.internal.sendEof = false

/-- The type that an event of an output stream is about. -/
def about : Event → Option RecType
  | .sent pkt _ => some pkt.recType
  | .wrote type _ => some type
  | .fed _ _ => none

/-- What the operation notes of its characters. -/
def noted (o : Ostream) : StreamOp → List Event
  | .put c => if o.attached then [.wrote o.internal.pktType [c]] else []
  | .write bytes => if o.attached then [.wrote o.internal.pktType bytes] else []
  | _ => []

def AllSent (es : List Event) : Prop := ∀ e ∈ es, ∃ pkt out, e = .sent pkt out

theorem puts_allSent {p : Params} {φ : Fate} {b b' : Ostreambuf} {bytes : List Byte}
    {err : Option SendPacket.Errno} {es : List Event}
    (h : Ostreambuf.Puts p φ b bytes b' err es) : AllSent es := by
  intro e he
  obtain ⟨data, out, rfl, -⟩ := h.records e he
  exact ⟨_, out, rfl⟩

theorem write_log (p : Params) {o : Ostream} (ho : o.Sound) (bytes : List Byte) (φ : Fate) :
    ∃ es, (o.write p bytes φ).2 =
      (if o.attached then [.wrote o.internal.pktType bytes] else []) ++ es ∧ AllSent es := by
  cases hg : o.good with
  | false =>
    rw [Ostream.write_bad p hg]
    exact ⟨[], (List.append_nil _).symm, fun _ he => absurd he List.not_mem_nil⟩
  | true =>
    obtain ⟨b', err, es, hw, hp⟩ := Ostream.write_good p hg ho bytes φ
    have ha : o.attached = true := (Bool.and_eq_true_iff.mp hg).1
    rw [hw, if_pos ha]
    exact ⟨es, rfl, puts_allSent hp⟩

theorem flush_log (p : Params) {o : Ostream} (ho : o.Sound) (φ : Fate) :
    AllSent (o.flush p φ).2 := by
  cases hg : o.good with
  | false =>
    rw [Ostream.flush_bad p hg]
    exact fun _ he => absurd he List.not_mem_nil
  | true =>
    obtain ⟨b', err, es, hf, hp, -⟩ := Ostream.flush_good p hg ho φ
    rw [hf]
    exact puts_allSent hp

theorem close_log (p : Params) {o : Ostream} (ho : o.Sound) (φ : Fate) :
    AllSent (o.close p φ).2 := by
  cases ha : o.attached with
  | false =>
    rw [Ostream.close_detached p ha]
    exact fun _ he => absurd he List.not_mem_nil
  | true =>
    obtain ⟨o', es, hf, -, -⟩ := Ostream.flush_sound p ho φ
    have hlog := flush_log p ho φ
    rw [hf] at hlog
    have hmore : ∀ out, AllSent (es ++ [.sent (o.internal.packet p []) out]) := by
      intro out e he
      rcases List.mem_append.mp he with he | he
      · exact hlog e he
      · exact ⟨_, out, List.mem_singleton.mp he⟩
    rw [Ostream.close_attached p ha ho hf]
    split
    · split
      · exact hmore _
      · exact hmore _
    · exact hlog

/-- An operation notes its characters and sends records. -/
theorem apply_log (p : Params) {o : Ostream} (ho : o.Sound) (op : StreamOp) (φ : Fate) :
    ∃ es, (op.apply p o φ).2 = noted o op ++ es ∧ AllSent es := by
  cases op with
  | put c => exact write_log p ho [c] φ
  | write bytes => exact write_log p ho bytes φ
  | flush => exact ⟨_, rfl, flush_log p ho φ⟩
  | close => exact ⟨_, rfl, close_log p ho φ⟩
  | reset => exact ⟨[], rfl, fun _ he => absurd he List.not_mem_nil⟩

variable {p : Params} {i : Stream} {o : Ostream}

theorem Typed.pending (ho : Typed i o) (h : o.attached = false) : o.internal.pending = [] :=
  ho.sound.closed (by rw [Ostream.good, h]; rfl)

theorem close_closed (ho : o.Sound) {φ : Fate} {o' : Ostream} {es : List Event}
    (h : o.close p φ = (.ok o', es)) : o.attached = false ∧ o' = o ∨ o' = o.closed p := by
  cases ha : o.attached with
  | false =>
    rw [Ostream.close_detached p ha] at h
    cases h
    exact Or.inl ⟨rfl, rfl⟩
  | true =>
    obtain ⟨o₁, es₁, hf, -, -⟩ := Ostream.flush_sound p ho φ
    rw [Ostream.close_attached p ha ho hf] at h
    split at h
    · split at h
      · cases h
      · cases h
        exact Or.inr rfl
    · cases h
      exact Or.inr rfl

theorem close_detaches (ho : o.Sound) {φ : Fate} {o' : Ostream} {es : List Event}
    (h : o.close p φ = (.ok o', es)) : o'.attached = false := by
  rcases close_closed ho h with ⟨ha, rfl⟩ | rfl
  · exact ha
  · rfl

theorem write_attached (ho : o.Sound) {bytes : List Byte} {φ : Fate} {o' : Ostream}
    {es : List Event} (h : o.write p bytes φ = (.ok o', es)) : o'.attached = o.attached := by
  cases hg : o.good with
  | false =>
    rw [Ostream.write_bad p hg] at h
    cases h
    rfl
  | true =>
    obtain ⟨b', err, es', hw, -⟩ := Ostream.write_good p hg ho bytes φ
    rw [hw] at h
    cases h
    rfl

theorem flush_attached (ho : o.Sound) {φ : Fate} {o' : Ostream} {es : List Event}
    (h : o.flush p φ = (.ok o', es)) : o'.attached = o.attached := by
  cases hg : o.good with
  | false =>
    rw [Ostream.flush_bad p hg] at h
    cases h
    rfl
  | true =>
    obtain ⟨b', err, es', hf, -⟩ := Ostream.flush_good p hg ho φ
    rw [hf] at h
    cases h
    rfl

/-- Only `close` takes the buffer from a stream, and the new one is empty. -/
theorem apply_quiet (ho : Typed i o) {op : StreamOp} {φ : Fate} {o' : Ostream} {es : List Event}
    (h : op.apply p o φ = (.ok o', es)) (ha : o'.attached = false) :
    o'.internal.sendEof = false := by
  have hsame : o.attached = false → op.isData = true → o'.internal.sendEof = false := by
    intro hd hop
    have hno : .reset ∉ [op] := by
      intro hm
      cases List.mem_singleton.mp hm
      cases hop
    have hp := perform_closed p hd hno φ
    unfold perform at hp
    rw [Tx.bind_ok h] at hp
    have he : (.ok o' : Except Crash Ostream) = .ok o := congrArg Prod.fst hp
    cases he
    exact ho.quiet hd
  cases op with
  | put c =>
    have he := write_attached ho.sound h
    exact hsame (he.symm.trans ha) rfl
  | write bytes =>
    have he := write_attached ho.sound h
    exact hsame (he.symm.trans ha) rfl
  | flush =>
    have he := flush_attached ho.sound h
    exact hsame (he.symm.trans ha) rfl
  | close =>
    rcases close_closed ho.sound h with ⟨hd, rfl⟩ | rfl
    · exact ho.quiet hd
    · rfl
  | reset =>
    cases h
    cases ha

theorem apply_typed (ho : Typed i o) (op : StreamOp) {φ : Fate} {o' : Ostream} {es : List Event}
    (h : op.apply p o φ = (.ok o', es)) : Typed i o' := by
  obtain ⟨hs, hh⟩ := (apply_stamps p ho.sound op φ).left o' (by rw [h])
  refine ⟨hs, ?_, apply_quiet ho h⟩
  have htype := ho.type
  simp only [Ostreambuf.pktType] at htype ⊢
  rw [hh]
  cases op with
  | close =>
    simp only [headerAfter]
    split
    · simp only [Ostream.closed, Ostreambuf.new, Ostreambuf.pktType, Header.recType] at htype ⊢
      rw [htype]
      cases i <;> rfl
    · exact htype
  | _ => exact htype

theorem apply_about (ho : Typed i o) (op : StreamOp) (φ : Fate) :
    ∀ e ∈ (op.apply p o φ).2, about e = some (typeOf i) := by
  obtain ⟨es, hes, hsent⟩ := apply_log p ho.sound op φ
  have hrecords := (apply_stamps p ho.sound op φ).records
  rw [hes] at hrecords ⊢
  intro e he
  rcases List.mem_append.mp he with hn | hs
  · have hnoted : ∀ bytes, e ∈ (if o.attached then [.wrote o.internal.pktType bytes] else []) →
        about e = some (typeOf i) := by
      intro bytes hm
      split at hm
      · cases List.mem_singleton.mp hm
        exact congrArg some ho.type
      · cases hm
    cases op with
    | put c => exact hnoted [c] hn
    | write bytes => exact hnoted bytes hn
    | flush | close | reset => cases hn
  · obtain ⟨pkt, out, rfl⟩ := hsent e hs
    obtain ⟨data, rfl⟩ := hrecords pkt (mem_packets.mpr ⟨out, he⟩)
    exact congrArg some ho.type

theorem perform_typed {ops : List StreamOp} (ho : Typed i o) {φ : Fate} {o' : Ostream}
    {es : List Event} (h : perform p o ops φ = (.ok o', es)) : Typed i o' := by
  induction ops generalizing o φ es with
  | nil =>
    cases h
    exact ho
  | cons op ops ih =>
    obtain ⟨o₁, es₁, es₂, h₁, h₂, -⟩ := Tx.bind_eq_ok h
    exact ih (apply_typed ho op h₁) h₂

theorem perform_about (ops : List StreamOp) (ho : Typed i o) (φ : Fate) :
    ∀ e ∈ (perform p o ops φ).2, about e = some (typeOf i) := by
  induction ops generalizing o φ with
  | nil => exact fun e he => absurd he List.not_mem_nil
  | cons op ops ih =>
    have h₁ := apply_about (p := p) ho op φ
    unfold perform
    cases hr : op.apply p o φ with
    | mk result es =>
      rw [hr] at h₁
      cases result with
      | error c =>
        rw [Tx.bind_error hr]
        exact h₁
      | ok o₁ =>
        rw [Tx.bind_ok hr]
        intro e he
        rcases List.mem_append.mp he with he | he
        · exact h₁ e he
        · exact ih (apply_typed ho op hr) _ e he

theorem perform_append {ops ops' : List StreamOp} {φ : Fate} {o₁ o₂ : Ostream}
    {es₁ es₂ : List Event} (h₁ : perform p o ops φ = (.ok o₁, es₁))
    (h₂ : perform p o₁ ops' (fun n => φ (n + sends es₁)) = (.ok o₂, es₂)) :
    perform p o (ops ++ ops') φ = (.ok o₂, es₁ ++ es₂) := by
  induction ops generalizing o φ es₁ with
  | nil =>
    cases h₁
    exact h₂
  | cons op ops ih =>
    obtain ⟨o', es, es', h, h', rfl⟩ := Tx.bind_eq_ok h₁
    have hshift : (fun n => φ (n + sends (es ++ es'))) =
        fun n => (fun n => φ (n + sends es)) (n + sends es') := by
      funext n
      simp only [sends, List.countP_append]
      congr 1
      omega
    rw [hshift] at h₂
    have hrest := ih h' h₂
    rw [List.cons_append]
    unfold perform
    rw [Tx.bind_ok h, hrest, List.append_assoc]

theorem perform_one (op : StreamOp) {φ : Fate} {o' : Ostream} {es : List Event}
    (h : op.apply p o φ = (.ok o', es)) : perform p o [op] φ = (.ok o', es) := by
  unfold perform
  rw [Tx.bind_ok h]
  exact Prod.ext rfl (List.append_nil es)

/-! ## What is done with the streams of a request -/

@[simp] theorem stream_set_self (r : Request) (i : Stream) (x : Ostream) :
    stream (setStream r i x) i = x := by
  cases i <;> rfl

theorem stream_set_ne {i j : Stream} (h : j ≠ i) (r : Request) (x : Ostream) :
    stream (setStream r i x) j = stream r j := by
  cases i <;> cases j <;> first | rfl | exact absurd rfl h

theorem endl_performs {φ : Fate} {o' : Ostream} {es : List Event}
    (h : endl p o φ = (.ok o', es)) : perform p o [.write [10], .flush] φ = (.ok o', es) := by
  obtain ⟨o₁, es₁, es₂, hw, hf, rfl⟩ := Tx.bind_eq_ok h
  exact perform_append (perform_one (.write [10]) hw) (perform_one .flush hf)

theorem texts_perform {texts : List String} {φ : Fate} {o' : Ostream} {es : List Event}
    (h : texts.foldlM (fun (o : Ostream) text => o.write p (ascii text)) o φ = (.ok o', es)) :
    perform p o (texts.map fun text => .write (ascii text)) φ = (.ok o', es) := by
  induction texts generalizing o φ es with
  | nil =>
    cases h
    rfl
  | cons text texts ih =>
    rw [List.foldlM_cons] at h
    obtain ⟨o₁, es₁, es₂, hw, hrest, rfl⟩ := Tx.bind_eq_ok h
    exact perform_append (perform_one (.write (ascii text)) hw) (ih hrest)

theorem complain_performs {r r' : Request} {texts : List String} {φ : Fate} {log : List Event}
    (h : complain p r texts φ = (.ok r', log)) :
    ∃ ops x, .reset ∉ ops ∧ perform p r.cerr ops φ = (.ok x, log) ∧ r' = setStream r .cerr x := by
  unfold complain at h
  split at h
  · obtain ⟨o₁, es₁, es₂, h₁, hmore, rfl⟩ := Tx.bind_eq_ok h
    obtain ⟨o₂, es₃, es₄, h₂, hlast, rfl⟩ := Tx.bind_eq_ok hmore
    obtain ⟨o₃, h₃, rfl⟩ := Tx.bind_return (fun _ => rfl) hlast
    have hrest := perform_append (texts_perform h₂) (endl_performs h₃)
    refine ⟨_, o₃, ?_, perform_append (endl_performs h₁) hrest, rfl⟩
    simp
  · cases h
    exact ⟨[], r.cerr, List.not_mem_nil, rfl, rfl⟩

/-- The streams are not closed for good yet. -/
def early : WorkerPc → Bool
  | .popped _ => true
  | .running _ => true
  | .closingCout _ _ => true
  | _ => false

/-- A worker or the application goes on with the request. -/
inductive Moves (p : Params) (φ : Fate) (ref : Ref) (r : Request) :
    WorkerPc → Request → WorkerPc → List Event → Prop where
  | uses (i : Stream) (ops : List StreamOp) (x : Ostream) (log : List Event) (pc pc' : WorkerPc)
      (before : early pc = true) (after : early pc' = true) (kept : .reset ∉ ops)
      (did : perform p (stream r i) ops φ = (.ok x, log)) :
      Moves p φ ref r pc (setStream r i x) pc' log
  | reads (cin : Istream) :
      Moves p φ ref r (.running ref) { r with cin := cin } (.running ref) []
  | cout (body : EndRequestBody) (x : Ostream) (log : List Event)
      (did : r.cout.close p φ = (.ok x, log)) :
      Moves p φ ref r (.closingCout ref body) (setStream r .cout x) (.closingCerr ref body) log
  | cerr (body : EndRequestBody) (x : Ostream) (log : List Event)
      (did : r.cerr.close p φ = (.ok x, log)) :
      Moves p φ ref r (.closingCerr ref body) (setStream r .cerr x) (.sending ref body) log
  | ends (body : EndRequestBody) (out : SendPacket.SendOutcome) :
      Moves p φ ref r (.sending ref body) r (.decrementing ref) [.sent (endPacket p r body) out]

/-- The outcomes of the sends of the step. -/
def fate? : Act → Option Fate
  | .conn _ _ φ _ => some φ
  | .worker _ φ => some φ
  | .app _ _ φ => some φ
  | .finish _ _ φ => some φ
  | _ => none

theorem worked_moves {w : Nat} {ref : Ref} {r r' : Request} {a : Act} {pc pc' : WorkerPc}
    {got : Option Int} {log : List Event} (h : Sys.Worked p w ref r a pc r' pc' got log) :
    ∃ φ, fate? a = some φ ∧ Moves p φ ref r pc r' pc' log := by
  have hcomplain : ∀ {texts : List String} {φ : Fate} {r' : Request} {log : List Event}
      {pc pc' : WorkerPc}, complain p r texts φ = (.ok r', log) → early pc = true →
        early pc' = true → Moves p φ ref r pc r' pc' log := by
    intro texts φ r' log pc pc' hc hpc hpc'
    obtain ⟨ops, x, hreset, hp, rfl⟩ := complain_performs hc
    exact .uses .cerr ops x log pc pc' hpc hpc' hreset hp
  cases h with
  | start φ role => exact ⟨φ, rfl, .uses .cout [] r.cout [] _ _ rfl rfl List.not_mem_nil rfl⟩
  | unknown φ r' body log did =>
    obtain ⟨r₁, hc, he⟩ := Tx.bind_return (fun _ => rfl) did
    cases he
    exact ⟨φ, rfl, hcomplain hc rfl rfl⟩
  | cout φ body o log did => exact ⟨φ, rfl, .cout body o log did⟩
  | cerr φ body o log did => exact ⟨φ, rfl, .cerr body o log did⟩
  | send φ body log did =>
    rw [Request.sendOrThrow_ok did]
    exact ⟨φ, rfl, .ends body _⟩
  | app φ op tx r' got log op_eq did =>
    refine ⟨φ, rfl, ?_⟩
    have hone : ∀ {i : Stream} (op : StreamOp) {x : Ostream}, op ≠ .reset →
        op.apply p (stream r i) φ = (.ok x, log) →
          Moves p φ ref r (.running ref) (setStream r i x) (.running ref) log := by
      intro i op x hne hd
      refine .uses i [op] x log _ _ rfl rfl ?_ (perform_one op hd)
      exact fun hm => hne (List.mem_singleton.mp hm).symm
    cases op with
    | write i bytes =>
      cases op_eq
      obtain ⟨x, hx, he⟩ := Tx.bind_return (fun _ => rfl) did
      cases he
      exact hone (.write bytes) StreamOp.noConfusion hx
    | flush i =>
      cases op_eq
      obtain ⟨x, hx, he⟩ := Tx.bind_return (fun _ => rfl) did
      cases he
      exact hone .flush StreamOp.noConfusion hx
    | close i =>
      cases op_eq
      obtain ⟨x, hx, he⟩ := Tx.bind_return (fun _ => rfl) did
      cases he
      exact hone .close StreamOp.noConfusion hx
    | get =>
      simp only [appOp] at op_eq
      split at op_eq
      · cases op_eq
      · cases op_eq
        cases did
        exact .reads _
  | finish φ how r' body log did =>
    refine ⟨φ, rfl, ?_⟩
    cases how with
    | returns status =>
      cases did
      exact .uses .cout [] r.cout [] _ _ rfl rfl List.not_mem_nil rfl
    | throwsException what | throwsOther =>
      obtain ⟨r₁, hc, he⟩ := Tx.bind_return (fun _ => rfl) did
      cases he
      exact hcomplain hc rfl rfl

def AllTyped (r : Request) : Prop := ∀ i, Typed i (stream r i)

theorem set_typed {r : Request} (h : AllTyped r) {x : Ostream} (hx : Typed i x) :
    AllTyped (setStream r i x) := by
  intro j
  by_cases hj : j = i
  · subst hj
    rw [stream_set_self]
    exact hx
  · rw [stream_set_ne hj]
    exact h j

/-- A stream that is closed stays as it is. -/
theorem set_kept {r : Request} {x : Ostream} (h : (stream r i).attached = false → x = stream r i)
    (j : Stream) (hj : (stream r j).attached = false) :
    stream (setStream r i x) j = stream r j := by
  by_cases he : j = i
  · subst he
    rw [stream_set_self, h hj]
  · rw [stream_set_ne he]

theorem close_typed (ho : Typed i o) {φ : Fate} {o' : Ostream} {es : List Event}
    (h : o.close p φ = (.ok o', es)) : Typed i o' := apply_typed ho .close h

theorem close_about (ho : Typed i o) {φ : Fate} {o' : Ostream} {es : List Event}
    (h : o.close p φ = (.ok o', es)) : ∀ e ∈ es, about e = some (typeOf i) := by
  have ha := apply_about (p := p) ho .close φ
  simp only [StreamOp.apply, h] at ha
  exact ha

theorem close_kept {φ : Fate} {o' : Ostream} {es : List Event}
    (h : o.close p φ = (.ok o', es)) (ha : o.attached = false) : o' = o := by
  rw [Ostream.close_detached p ha] at h
  cases h
  rfl

section
variable {φ : Fate} {ref : Ref} {r r' : Request} {pc pc' : WorkerPc} {log : List Event}

theorem Moves.typed (h : Moves p φ ref r pc r' pc' log) (hr : AllTyped r) : AllTyped r' := by
  cases h with
  | uses i ops x log _ _ before after kept did => exact set_typed hr (perform_typed (hr i) did)
  | reads cin =>
    intro i
    have hi := hr i
    cases i <;> exact hi
  | cout body x log did => exact set_typed hr (close_typed (hr .cout) did)
  | cerr body x log did => exact set_typed hr (close_typed (hr .cerr) did)
  | ends body out => exact hr

theorem Moves.kept (h : Moves p φ ref r pc r' pc' log) (i : Stream)
    (ha : (stream r i).attached = false) : stream r' i = stream r i := by
  cases h with
  | uses j ops x log _ _ before after kept did =>
    refine set_kept ?_ i ha
    intro hd
    rw [perform_closed p hd kept] at did
    cases did
    rfl
  | reads cin => cases i <;> rfl
  | cout body x log did => exact set_kept (i := .cout) (close_kept did) i ha
  | cerr body x log did => exact set_kept (i := .cerr) (close_kept did) i ha
  | ends body out => rfl

/-- A worker sends END_REQUEST only in its last use of the request. -/
theorem Moves.about (h : Moves p φ ref r pc r' pc' log) (hr : AllTyped r) :
    (∀ e ∈ log, ∃ i, about e = some (typeOf i)) ∨
      ∃ body out, pc = .sending ref body ∧ pc' = .decrementing ref ∧ r' = r ∧
        log = [.sent (endPacket p r body) out] := by
  cases h with
  | uses i ops x log _ _ before after kept did =>
    refine Or.inl fun e he => ⟨i, ?_⟩
    have ha := perform_about (p := p) ops (hr i) φ
    rw [did] at ha
    exact ha e he
  | reads cin => exact Or.inl fun e he => absurd he List.not_mem_nil
  | cout body x log did =>
    exact Or.inl fun e he => ⟨.cout, close_about (hr .cout) did e he⟩
  | cerr body x log did =>
    exact Or.inl fun e he => ⟨.cerr, close_about (hr .cerr) did e he⟩
  | ends body out => exact Or.inr ⟨body, out, rfl, rfl, rfl, rfl⟩

end

/-! ## What a record does to the streams -/

theorem accept_stream (p : Params) (junk : Junk) (r : Request) (got : List Byte) (i : Stream) :
    stream (r.acceptRequest p junk got) i = Request.raiseSendEof (stream r i).reset := by
  simp only [Request.acceptRequest, Request.resetInputs]
  cases i <;> (split <;> [split; skip]) <;> rfl

/-- The request is cancelled: the error goes to `cerr`, and both streams end. -/
structure Cancels (p : Params) (φ : Fate) (r r' : Request) (log : List Event) : Prop where
  did : ∃ what data cerr cout es₁ es₂ out,
    perform p r.cerr [.write (ascii what), .write (ascii Request.raiseLimit), .close] φ =
      (.ok cerr, es₁) ∧
    r.cout.close p (fun n => φ (n + sends es₁)) = (.ok cout, es₂) ∧
    r'.cerr = cerr ∧ r'.cout = cout ∧
    log = .fed .params data :: (es₁ ++ (es₂ ++ [.sent (r.cancelPacket p) out]))
  reading : r.paramsDeserializer.isSome = true
  ready : r'.state = .ready

/-- What becomes of the streams when a record is handled. -/
inductive Receives (p : Params) (φ : Fate) (r : Request) : Handled → List Event → Prop where
  | accepts (r' : Request) (ready : r.state = .ready) (reading : r'.state = .readingParams)
      (streams : ∀ i, stream r' i = Request.raiseSendEof (stream r i).reset) :
      Receives p φ r (.accepted r') []
  | cancels (r' : Request) (log : List Event) (did : Cancels p φ r r' log) :
      Receives p φ r (.cancelled r') log
  | keeps (h : Handled) (log : List Event) (streams : ∀ i, stream h.request i = stream r i)
      (about : ∀ e ∈ log, about e = none ∨ about e = some .unknownType)
      (idle : (∃ r', h = .idle r' ∧ r'.state = r.state) ∨
        ∃ r', h = .push r' ∧ r'.state = .pending ∧ r.paramsDeserializer.isSome = true) :
      Receives p φ r h log

theorem cancel_cancels {r : Request} {what : String} {φ : Fate} {h : Handled} {log : List Event}
    (hc : r.cancel p what φ = (.ok h, log)) :
    ∃ cerr cout es₁ es₂ out,
      perform p r.cerr [.write (ascii what), .write (ascii Request.raiseLimit), .close] φ =
        (.ok cerr, es₁) ∧
      r.cout.close p (fun n => φ (n + sends es₁)) = (.ok cout, es₂) ∧
      h = .cancelled { r with
        cerr := cerr, cout := cout, paramsDeserializer := none, state := .ready } ∧
      log = es₁ ++ (es₂ ++ [.sent (r.cancelPacket p) out]) := by
  obtain ⟨o₁, es₁, es₂, h₁, hraise, rfl⟩ := Tx.bind_eq_ok hc
  obtain ⟨o₂, es₃, es₄, h₂, hcerr, rfl⟩ := Tx.bind_eq_ok hraise
  obtain ⟨cerr, es₅, es₆, h₃, hcout, rfl⟩ := Tx.bind_eq_ok hcerr
  obtain ⟨cout, es₇, es₈, h₄, hend, rfl⟩ := Tx.bind_eq_ok hcout
  obtain ⟨u, h₅, rfl⟩ := Tx.bind_return (fun _ => rfl) hend
  obtain ⟨out, rfl⟩ : ∃ out, es₈ = [.sent (r.cancelPacket p) out] :=
    ⟨_, Request.sendOrThrow_ok h₅⟩
  have hlast := perform_append (perform_one (.write (ascii Request.raiseLimit)) h₂)
    (perform_one .close h₃)
  have hall := perform_append (perform_one (.write (ascii what)) h₁) hlast
  refine ⟨cerr, cout, es₁ ++ (es₃ ++ es₅), es₇, out, hall, ?_, rfl, ?_⟩
  · have hshift : (fun n => φ (n + sends (es₁ ++ (es₃ ++ es₅)))) =
        fun n => φ (n + sends es₅ + sends es₃ + sends es₁) := by
      funext n
      simp only [sends, List.countP_append]
      congr 1
      omega
    rw [hshift]
    exact h₄
  · simp only [List.append_assoc]

theorem handles_receives {junk : Junk} {φ : Fate} {r : Request} {h : Handled} {log : List Event}
    (hh : Request.Handles p junk φ r (.ok h, log)) : Receives p φ r h log := by
  generalize hx : (Except.ok h, log) = x at hh
  cases hh with
  | ignore =>
    cases hx
    exact .keeps _ _ (fun _ => rfl) (fun e he => absurd he List.not_mem_nil) (Or.inl ⟨_, rfl, rfl⟩)
  | accept got ready =>
    cases hx
    exact .accepts _ ready rfl (accept_stream p junk r got)
  | more d d' params data reading =>
    cases hx
    refine .keeps _ _ (fun i => by cases i <;> rfl) ?_ (Or.inl ⟨_, rfl, rfl⟩)
    exact fun e he => Or.inl (by cases List.mem_singleton.mp he; rfl)
  | push d d' params data reading =>
    cases hx
    refine .keeps _ _ (fun i => by cases i <;> rfl) ?_
      (Or.inr ⟨_, rfl, rfl, by rw [reading]; rfl⟩)
    exact fun e he => Or.inl (by cases List.mem_singleton.mp he; rfl)
  | cancel d params data what reading =>
    simp only [Prod.mk.injEq] at hx
    obtain ⟨hok, rfl⟩ := hx
    obtain ⟨cerr, cout, es₁, es₂, out, h₁, h₂, rfl, hlog⟩ :=
      cancel_cancels (Prod.ext hok.symm rfl)
    have hfed := congrArg (Event.fed .params data :: ·) hlog
    refine .cancels _ _ ⟨⟨what, data, cerr, cout, es₁, es₂, out, h₁, h₂, rfl, rfl, hfed⟩, ?_, rfl⟩
    rw [reading]
    rfl
  | fault d data f reading cause => cases hx
  | stdin data busy | data data busy =>
    cases hx
    refine .keeps _ _ (fun i => by cases i <;> rfl) ?_ (Or.inl ⟨_, rfl, rfl⟩)
    exact fun e he => Or.inl (by cases List.mem_singleton.mp he; rfl)
  | unknown type =>
    obtain ⟨u, hu, rfl⟩ := Tx.bind_return (fun _ => rfl) hx.symm
    refine .keeps _ _ (fun _ => rfl) ?_ (Or.inl ⟨_, rfl, rfl⟩)
    intro e he
    rw [Request.sendOrThrow_ok hu, List.mem_singleton] at he
    subst he
    exact Or.inr (congrArg some (Request.unknownTypePacket_recType p r.requestId type))

end Tfcgi.Streams
