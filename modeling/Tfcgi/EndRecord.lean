import Tfcgi.Ending

/-!
# The END_REQUEST record of a worker

The worker prefills the record in network byte order and stores the status of the
callback or the role in the order of the host.

* `run_decided`: the body that a worker holds is the one for the outcome of its
  request, in every run;
* `reported_iff`: when the record that is sent reports that outcome.
-/

namespace Tfcgi.EndRecord

open Tfcgi.Run Tfcgi.HostOrder Tfcgi.Protocol Tfcgi.Socket Tfcgi.Iostream Tfcgi.RequestSlot
open Tfcgi.ConnectionThread Tfcgi.System Tfcgi.Accounting Tfcgi.History Tfcgi.Reuse
open Tfcgi.Owner Tfcgi.Ending

variable {p : Params} {s s' : Sys} {a : Act} {ref : Ref}

/-- How the request of a worker ended. -/
inductive Outcome where
  | returned (status : Nat)
  | threw
  | unsupported (role : Nat)
  deriving DecidableEq, Repr

namespace Outcome

/-- The value that the peer is to read, 32 bits of it. -/
def appStatus : Outcome → Nat
  | returned status => status
  | threw => 0xA990EEEE
  | unsupported role => role

def protocolStatus : Outcome → EndRequestProtoStatus
  | returned _ => .requestComplete
  | threw => .requestComplete
  | unsupported _ => .unknownRole

/-- What the worker leaves in the record. -/
def body (p : Params) : Outcome → EndRequestBody
  | returned status => { endRequestBody p with appStatus := .store p.host status }
  | threw => endRequestBody p
  | unsupported role => ⟨.store p.host role, .unknownRole⟩

/-- The outcome reads the same in both byte orders, or was prefilled. -/
def Faithful (host : Host) (o : Outcome) : Prop :=
  o = threw ∨ ntohl host o.appStatus = o.appStatus % 4294967296

end Outcome

def endOutcome : AppEnd → Outcome
  | .returns status => .returned status
  | .throwsException _ => .threw
  | .throwsOther => .threw

/-- The `RESPONDER` case of the role switch. -/
def Supported (p : Params) (r : Request) : Prop :=
  BeginRequestRole.ofNat (r.role p) = .responder ∧ p.fcgiResponder = true

instance (p : Params) (r : Request) : Decidable (Supported p r) :=
  inferInstanceAs (Decidable (_ ∧ _))

/-- The outcome of the request `ref` that the step decides. -/
def decided (p : Params) (s : Sys) (ref : Ref) : Act → Option Outcome
  | .finish w how _ => if s.workers[w]? = some (.running ref) then some (endOutcome how) else none
  | .worker w _ =>
    if s.workers[w]? = some (.popped ref) then
      (s.request? ref).bind fun r =>
        if Supported p r then none else some (.unsupported (r.role p))
    else none
  | _ => none

/-- The last outcome of the request `ref` in a run from `s`, and `last` before. -/
def outcome (p : Params) (ref : Ref) (s : Sys) (last : Option Outcome) : List Act → Option Outcome
  | [] => last
  | a :: as =>
    match Sys.step p s a with
    | none => last
    | some s' => outcome p ref s' ((decided p s ref a).or last) as

/-! ## The body follows the outcome -/

/-- The body that the worker at this place sends. -/
def bodyAt : WorkerPc → Option EndRequestBody
  | .closingCout _ body => some body
  | .closingCerr _ body => some body
  | .sending _ body => some body
  | _ => none

/-- A worker that ends the request holds the body for its outcome. -/
def Decided (p : Params) (s : Sys) (ref : Ref) (last : Option Outcome) : Prop :=
  ∀ pc ∈ s.workers, pc.request? = some ref → ∀ body, bodyAt pc = some body →
    ∃ o, last = some o ∧ body = o.body p

theorem decided_worker {o : Outcome} (h : decided p s ref a = some o) :
    ∃ pc ∈ s.workers, pc.request? = some ref ∧ bodyAt pc = none := by
  cases a with
  | finish w how φ =>
    simp only [decided] at h
    split at h
    · rename_i hw
      exact ⟨_, List.mem_of_getElem? hw, rfl, rfl⟩
    · cases h
  | worker w φ =>
    simp only [decided] at h
    split at h
    · rename_i hw
      exact ⟨_, List.mem_of_getElem? hw, rfl, rfl⟩
    · cases h
  | _ => cases h

/-- A supported role goes to the callback. -/
theorem supported_runs {w : Nat} {φ : Fate} {r : Request} (hw : s.workers[w]? = some (.popped ref))
    (hr : s.request? ref = some r) (hsup : Supported p r)
    (h : Sys.step p s (.worker w φ) = some s') : s'.workers = s.workers.set w (.running ref) := by
  have hwork : workRequest p r (.popped ref) = some (return (r, .running ref)) := if_pos hsup
  unfold Sys.step at h
  split at h
  · cases h
  · simp only [hw, Sys.workerStep, Sys.useRequest, hr, hwork, Option.map_some] at h
    cases h
    rw [Sys.record_workers, Sys.setWorker_workers, Sys.setRequest_workers]

theorem finish_body {r r' : Request} {how : AppEnd} {body : EndRequestBody} {φ : Fate}
    {log : List Event} (h : callbackEnds p r how φ = (.ok (r', body), log)) :
    body = (endOutcome how).body p := by
  cases how with
  | returns status =>
    cases h
    rfl
  | throwsException what | throwsOther =>
    obtain ⟨r₁, -, he⟩ := Tx.bind_return (fun _ => rfl) h
    cases he
    rfl

theorem step_decided {last : Option Outcome} (hi : Inv s) (hd : Decided p s ref last)
    (h : Sys.step p s a = some s') : Decided p s' ref ((decided p s ref a).or last) := by
  intro pc hm hpc body hbody
  rcases step_holders h hm hpc with hold | rfl | ⟨w, r, r', pc₀, got, log, hw, hr, works, -, -⟩
  · obtain ⟨o, ho, rfl⟩ := hd pc hold hpc body hbody
    refine ⟨o, ?_, rfl⟩
    cases hx : decided p s ref a with
    | none => exact ho
    | some o' =>
      -- the worker that decides would be the one that has decided
      obtain ⟨pc', hm', hpc', hnone⟩ := decided_worker hx
      rw [held_unique hi hm' hold hpc' hpc, hbody] at hnone
      cases hnone
  · cases hbody
  · have hkept : bodyAt pc₀ = some body → decided p s ref a = none →
        ∃ o, (decided p s ref a).or last = some o ∧ body = o.body p := by
      intro hb hnone
      rw [hnone]
      exact hd pc₀ (List.mem_of_getElem? hw) works.keeps.1 body hb
    cases works with
    | start φ role | send φ body' log did | app φ op tx r' got log op_eq did => cases hbody
    | unknown φ r' body' log did =>
      cases hbody
      obtain ⟨r₁, -, he⟩ := Tx.bind_return (fun _ => rfl) did
      cases he
      by_cases hsup : Supported p r
      · -- then the worker is in the callback
        rw [supported_runs hw hr hsup h] at hm
        rcases List.mem_or_eq_of_mem_set hm with hm | hm
        · cases held_unique hi hm (List.mem_of_getElem? hw) rfl rfl
        · cases hm
      · have hx : decided p s ref (.worker w φ) = some (.unsupported (r.role p)) := by
          simp only [decided, hw, if_true, hr, Option.bind_some, if_neg hsup]
        rw [hx]
        exact ⟨_, rfl, rfl⟩
    | cout φ body' o log did =>
      cases hbody
      exact hkept rfl (by simp [decided, hw])
    | cerr φ body' o log did =>
      cases hbody
      exact hkept rfl (by simp [decided, hw])
    | finish φ how r' body' log did =>
      cases hbody
      have hx : decided p s ref (.finish w how φ) = some (endOutcome how) := by
        simp only [decided, hw, if_true]
      rw [hx]
      exact ⟨_, rfl, finish_body did⟩

theorem run_decided {as : List Act} {last : Option Outcome} (hi : Inv s)
    (hd : Decided p s ref last) (h : run (Sys.step p) s as = some s') :
    Decided p s' ref (outcome p ref s last as) := by
  induction as generalizing s last with
  | nil =>
    cases h
    exact hd
  | cons a as ih =>
    obtain ⟨s₁, hs, ht⟩ := run_cons h
    simp only [outcome, hs]
    exact ih (step_inv hi hs) (step_decided hi hd hs) ht

/-! ## The id of a request -/

theorem accept_requestId (p : Params) (junk : Junk) (r : Request) (got : List Byte) :
    (r.acceptRequest p junk got).requestId = r.requestId := by
  simp only [Request.acceptRequest, Request.resetInputs]
  split
  · split <;> rfl
  · rfl

theorem handles_requestId {junk : Junk} {φ : Fate} {r : Request} {hd : Handled} {log : List Event}
    (h : Request.Handles p junk φ r (.ok hd, log)) : hd.request.requestId = r.requestId := by
  generalize hx : (Except.ok hd, log) = x at h
  cases h with
  | ignore | more d d' params data reading | push d d' params data reading | stdin data busy
  | data data busy =>
    cases hx
    rfl
  | accept got ready =>
    cases hx
    exact accept_requestId p junk r got
  | cancel d params data what reading =>
    obtain ⟨cerr, cout, rfl⟩ := Request.cancel_ok (congrArg Prod.fst hx).symm
    rfl
  | fault d data f reading cause => cases hx
  | unknown type =>
    obtain rfl := Request.unknownType_ok hx.symm
    rfl

def Numbered (s : Sys) (ref : Ref) : Prop :=
  ∀ r, s.request? ref = some r → r.requestId = ref.slot + 1

theorem step_numbered (hn : Numbered s ref) (h : Sys.step p s a = some s') : Numbered s' ref := by
  intro r' hr'
  cases step_slot h ref with
  | same request marks => exact hn r' (request ▸ hr')
  | handled n junk φ notified r hd log act conn pc slot handles request marks pushes =>
    rw [request] at hr'
    cases hr'
    rw [handles_requestId handles]
    rcases slot with hr | ⟨-, rfl⟩
    · exact hn r hr
    · rfl
  | reset n j r conn pc slot request marks =>
    rw [request] at hr'
    cases hr'
    exact hn r slot
  | destroyed n φ r log conn pc slot destroys request marks =>
    rw [request] at hr'
    cases hr'
  | worked w r r₁ pc pc' got log worker workers slot works request marks =>
    rw [request] at hr'
    cases hr'
    obtain ⟨-, -, cin, cout, cerr, rfl⟩ := works.keeps
    exact hn r slot

theorem run_numbered {workers : Nat} {as : List Act}
    (h : run (Sys.step p) (.init workers) as = some s) (ref : Ref) : Numbered s ref :=
  run_invariant (I := fun s => Numbered s ref) (fun r hr => by cases hr)
    (fun _ _ _ hn hs => step_numbered hn hs) h

theorem requestId_lt {r : Request} (hi : Inv s) (hn : Numbered s ref)
    (hr : s.request? ref = some r) : r.requestId < 65536 := by
  obtain ⟨n, hconn, hslot⟩ := Sys.request?_eq_some.mp hr
  have hroom := (hi.accounts _ n hconn).room
  have hlt := (List.getElem?_eq_some_iff.mp hslot).1
  rw [hn r hr]
  omega

/-! ## The record -/

/-- The record is the END_REQUEST of the request `requestId` with the outcome `o`,
to a peer that reads network byte order. -/
structure Reports (pkt : Packet) (requestId : Nat) (o : Outcome) : Prop where
  recType : pkt.recType = .endRequest
  requestId : pkt.header.requestId.be = requestId
  contentLength : pkt.header.contentLength.be = 8
  reserved : pkt.header.reserved = 0
  appStatus : (U32.ofBytes pkt.body).be = o.appStatus % 4294967296
  rest : pkt.body.drop 4 = [o.protocolStatus.toByte, 0, 0, 0]

theorem be_store (host : Host) (n : Nat) : (U32.store host n).be = ntohl host n := by
  cases host with
  | big => simp only [U32.store, U32.be, ntohl, UInt8.toNat_ofNat']; omega
  | little => simp only [U32.store, U32.be, ntohl, UInt8.toNat_ofNat', Nat.reducePow]

theorem be_prefilled (host : Host) : (U32.store host (ntohl host 0xA990EEEE)).be = 0xA990EEEE := by
  rw [store_ntohl]
  decide

theorem body_rest (o : Outcome) :
    (o.body p).bytes.drop 4 = [o.protocolStatus.toByte, 0, 0, 0] := by
  cases o <;> rfl

/-- The status reads right when it was prefilled or its bytes are the same in both orders. -/
theorem body_faithful (o : Outcome) : (U32.ofBytes (o.body p).bytes).be = o.appStatus % 4294967296 ↔
    o.Faithful p.host := by
  have hbytes : U32.ofBytes (o.body p).bytes = (o.body p).appStatus := rfl
  rw [hbytes]
  cases o with
  | returned status => simp [Outcome.body, Outcome.Faithful, Outcome.appStatus, be_store]
  | unsupported role => simp [Outcome.body, Outcome.Faithful, Outcome.appStatus, be_store]
  | threw => simp [Outcome.body, Outcome.Faithful, Outcome.appStatus, endRequestBody, be_prefilled]

theorem reports_iff {r : Request} (hid : r.requestId < 65536) (o : Outcome) :
    Reports (endPacket p r (o.body p)) r.requestId o ↔ o.Faithful p.host := by
  rw [← body_faithful o]
  constructor
  · exact Reports.appStatus
  · intro happ
    refine ⟨rfl, ?_, ?_, rfl, happ, body_rest o⟩
    · exact (be_store_ntohs p.host r.requestId).trans (Nat.mod_eq_of_lt hid)
    · exact be_store_ntohs p.host 8

theorem sending_log {w : Nat} {body : EndRequestBody} {φ : Fate} {r : Request}
    (hw : s.workers[w]? = some (.sending ref body)) (hr : s.request? ref = some r)
    (h : Sys.step p s (.worker w φ) = some s') (hdown : s'.down = none) :
    ∃ out, s'.log = s.log ++ [(ref, .did (.sent (endPacket p r body) out))] := by
  unfold Sys.step at h
  split at h
  · cases h
  · simp only [hw, Sys.workerStep, Sys.useRequest, hr, workRequest, Option.map_some] at h
    split at h
    · cases h
      cases hdown
    · rename_i r' pc got log did
      obtain ⟨x, hx, he⟩ := Tx.bind_return (fun _ => rfl) did
      cases he
      obtain ⟨u, hsent, rfl⟩ := Tx.bind_return (fun _ => rfl) hx
      rw [Request.sendOrThrow_ok hsent] at h
      cases h
      refine ⟨φ 0 (endPacket p r body), ?_⟩
      rw [Sys.record_log, Sys.setWorker_log, Sys.setRequest_log]
      rfl

/-- **END_REQUEST reports the outcome** of a request exactly if the callback threw
or the status or role has the same four bytes in both orders. -/
theorem reported_iff {workers : Nat} {as : List Act} {w : Nat} {φ : Fate} {body : EndRequestBody}
    (h : run (Sys.step p) (.init workers) as = some s)
    (hw : s.workers[w]? = some (.sending ref body))
    (hs : Sys.step p s (.worker w φ) = some s') (hdown : s'.down = none) :
    ∃ r o out, s.request? ref = some r ∧ outcome p ref (.init workers) none as = some o ∧
      s'.log = s.log ++ [(ref, .did (.sent (endPacket p r body) out))] ∧
      (Reports (endPacket p r body) r.requestId o ↔ o.Faithful p.host) := by
  have hi := run_inv h
  have hinit : Decided p (.init workers) ref none := by
    intro pc hm hpc
    cases List.eq_of_mem_replicate hm
    cases hpc
  obtain ⟨o, ho, rfl⟩ := run_decided (init_inv workers) hinit h _
    (List.mem_of_getElem? hw) rfl _ rfl
  obtain ⟨r, hr, -⟩ := held_not_ready hi (run_told h ref) (List.mem_of_getElem? hw) rfl
  have hid := requestId_lt hi (run_numbered h ref) hr
  obtain ⟨out, hlog⟩ := sending_log hw hr hs hdown
  exact ⟨r, o, out, hr, ho, hlog, reports_iff hid o⟩

/-- The callback returns, and the streams are closed. -/
def ending (status : Nat) : List Act :=
  started ++ [.finish 0 (.returns status) Fate.sent] ++ workerMoves 2

/-- The bytes 01 02 02 01 are the same in both orders. -/
def palindrome : Nat := 16908801

theorem reported_iff_palindrome : ∃ s s' r out,
    run (Sys.step .standard) (.init 1) (ending palindrome) = some s ∧
      Sys.step .standard s (.worker 0 Fate.sent) = some s' ∧ s.request? ⟨0, 0⟩ = some r ∧
      outcome .standard ⟨0, 0⟩ (.init 1) none (ending palindrome) = some (.returned palindrome) ∧
      s'.log = s.log ++ [(⟨0, 0⟩, .did (.sent (endPacket .standard r
        ⟨⟨1, 2, 2, 1⟩, .requestComplete⟩) out))] ∧
      Reports (endPacket .standard r ⟨⟨1, 2, 2, 1⟩, .requestComplete⟩) r.requestId
        (.returned palindrome) := by
  have hrun : (run (Sys.step .standard) (.init 1) (ending palindrome)).any (fun s =>
      s.workers[0]? = some (.sending ⟨0, 0⟩ ⟨⟨1, 2, 2, 1⟩, .requestComplete⟩) &&
        (Sys.step .standard s (.worker 0 Fate.sent)).any fun s' => s'.down.isNone) = true := by
    decide +kernel
  have hout : outcome .standard ⟨0, 0⟩ (.init 1) none (ending palindrome) =
      some (.returned palindrome) := by
    decide +kernel
  obtain ⟨s, hs, hcheck⟩ := (Option.any_eq_true _ _).mp hrun
  obtain ⟨hw, hstep⟩ := Bool.and_eq_true_iff.mp hcheck
  obtain ⟨s', hs', hdown⟩ := (Option.any_eq_true _ _).mp hstep
  obtain ⟨r, o, out, hr, ho, hlog, hiff⟩ :=
    reported_iff hs (of_decide_eq_true hw) hs' (Option.isNone_iff_eq_none.mp hdown)
  obtain rfl := Option.some.inj (hout.symm.trans ho)
  exact ⟨s, s', r, out, hs, hs', hr, hout, hlog, hiff.mpr (Or.inr (by decide))⟩

/-- A callback that returns 1 on a little-endian host is reported with the bytes 01 00 00 00. -/
theorem one_misreported : ∃ s s' r out,
    run (Sys.step .standard) (.init 1) (ending 1) = some s ∧
      Sys.step .standard s (.worker 0 Fate.sent) = some s' ∧ s.request? ⟨0, 0⟩ = some r ∧
      outcome .standard ⟨0, 0⟩ (.init 1) none (ending 1) = some (.returned 1) ∧
      s'.log = s.log ++
        [(⟨0, 0⟩, .did (.sent ⟨⟨1, 3, ⟨0, 1⟩, ⟨0, 8⟩, 0, 0⟩, [1, 0, 0, 0, 0, 0, 0, 0]⟩
        out))] ∧
      ¬ Reports ⟨⟨1, 3, ⟨0, 1⟩, ⟨0, 8⟩, 0, 0⟩, [1, 0, 0, 0, 0, 0, 0, 0]⟩ r.requestId
        (.returned 1) := by
  have hrun : (run (Sys.step .standard) (.init 1) (ending 1)).any (fun s =>
      (s.request? ⟨0, 0⟩).isSome && (Sys.step .standard s (.worker 0 Fate.sent)).any fun s' =>
        s'.log = s.log ++ [(⟨0, 0⟩, .did (.sent
          ⟨⟨1, 3, ⟨0, 1⟩, ⟨0, 8⟩, 0, 0⟩, [1, 0, 0, 0, 0, 0, 0, 0]⟩ .sent))]) = true := by
    decide +kernel
  have hout : outcome .standard ⟨0, 0⟩ (.init 1) none (ending 1) = some (.returned 1) := by
    decide +kernel
  obtain ⟨s, hs, hcheck⟩ := (Option.any_eq_true _ _).mp hrun
  obtain ⟨hr, hstep⟩ := Bool.and_eq_true_iff.mp hcheck
  obtain ⟨r, hr⟩ := Option.isSome_iff_exists.mp hr
  obtain ⟨s', hs', hlog⟩ := (Option.any_eq_true _ _).mp hstep
  refine ⟨s, s', r, .sent, hs, hs', hr, hout, of_decide_eq_true hlog, ?_⟩
  intro hrep
  have happ := hrep.appStatus
  revert happ
  decide

end Tfcgi.EndRecord
