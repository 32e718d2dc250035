import Tfcgi.Reuse

/-!
# What the application reads from `cin`

`Delivered` says that each byte read was the next one of the STDIN stream of the
current request, and that end of file was reported only behind all of it. The
code never gives the stream its buffer.

* `run_detached`: `cin` has no buffer in any reachable state;
* `delivered_iff`: a run delivers exactly when it reads only from streams that
  are empty and have ended.
-/

namespace Tfcgi.Stdin

open Tfcgi.Run Tfcgi.HostOrder Tfcgi.Protocol Tfcgi.Socket Tfcgi.Iostream Tfcgi.RequestSlot
open Tfcgi.ConnectionThread Tfcgi.System Tfcgi.Accounting Tfcgi.History Tfcgi.Reuse

/-! ## The stream and the reads -/

/-- The contents of the STDIN records of a request. -/
def contents (c : List Mark) : List (List Byte) := c.filterMap fun
  | .did (.fed .stdin bytes) => some bytes
  | _ => none

/-- The bytes before the empty record. -/
def received (c : List Mark) : List Int :=
  ((contents c).takeWhile (· ≠ [])).flatten.map fun b => (b.toNat : Int)

/-- The results of all reads. -/
def reads (c : List Mark) : List Int := c.filterMap fun
  | .got x => some x
  | _ => none

/-- The bytes that were read. -/
def taken (c : List Mark) : List Int := (reads c).filter (· ≠ Istreambuf.eof)

/-- After `c` the result `x` of a read is right. -/
def Right (c : List Mark) (x : Int) : Prop :=
  if x = Istreambuf.eof then [] ∈ contents c ∧ taken c = received c
  else taken c ++ [x] <+: received c

def Delivered (ms : List Mark) : Prop :=
  ∀ before x, before ++ [.got x] <+: ms → ∃ c, current before = some c ∧ Right c x

theorem delivered_concat {ms : List Mark} {m : Mark} :
    Delivered (ms ++ [m]) ↔
      Delivered ms ∧ ∀ x, m = .got x → ∃ c, current ms = some c ∧ Right c x := by
  constructor
  · intro hd
    refine ⟨?_, ?_⟩
    · intro before x hp
      exact hd before x (hp.trans (List.prefix_append ms [m]))
    · rintro x rfl
      exact hd ms x (List.prefix_refl _)
  · rintro ⟨hd, hlast⟩ before x hp
    rcases List.prefix_concat_iff.mp hp with he | hp
    · obtain ⟨rfl, hm⟩ := List.append_inj' he rfl
      exact hlast x (List.singleton_inj.mp hm).symm
    · exact hd before x hp

theorem delivered_append {ms ms' : List Mark} (h : ∀ x, .got x ∉ ms') :
    Delivered (ms ++ ms') ↔ Delivered ms := by
  induction ms' generalizing ms with
  | nil => rw [List.append_nil]
  | cons m ms' ih =>
    have hm : ∀ x, m ≠ .got x := fun x he => h x (by rw [he]; exact List.mem_cons_self)
    have hx : ms ++ m :: ms' = (ms ++ [m]) ++ ms' := by
      rw [List.append_assoc, List.singleton_append]
    rw [hx, ih (fun x hmem => h x (List.mem_cons_of_mem m hmem)), delivered_concat]
    exact ⟨And.left, fun hd => ⟨hd, fun x he => absurd he (hm x)⟩⟩

theorem got_not_mem_did (log : List Event) (x : Int) : Mark.got x ∉ log.map Mark.did := by
  intro h
  obtain ⟨e, -, he⟩ := List.mem_map.mp h
  cases he

theorem got_not_mem_marks (h : Handled) (log : List Event) (x : Int) :
    Mark.got x ∉ Sys.marks h log := by
  have hlog := got_not_mem_did log x
  cases h <;> simp [Sys.marks, hlog]

/-! ## `cin` has no buffer -/

theorem handles_attached {p : Params} {junk : Junk} {φ : Fate} {r : Request} {h : Handled}
    {log : List Event} (hh : Request.Handles p junk φ r (.ok h, log))
    (hr : r.cin.attached = false) : h.request.cin.attached = false := by
  generalize hx : (Except.ok h, log) = x at hh
  cases hh with
  | accept got ready =>
    cases hx
    simp only [Handled.request, Request.acceptRequest, Request.resetInputs]
    split
    · split <;> exact hr
    · exact hr
  | cancel d params data what reading =>
    obtain ⟨cerr, cout, rfl⟩ := Request.cancel_ok (congrArg Prod.fst hx).symm
    exact hr
  | fault d data f reading cause => cases hx
  | unknown type =>
    obtain rfl := Request.unknownType_ok hx.symm
    exact hr
  | ignore | more _ _ _ _ _ | push _ _ _ _ _ | stdin _ _ | data _ _ =>
    cases hx
    exact hr

/-- Without a buffer a read gives end of file at once and changes nothing. -/
theorem worked_detached {p : Params} {w : Nat} {ref : Ref} {r r' : Request} {a : Act}
    {pc pc' : WorkerPc} {got : Option Int} {log : List Event}
    (h : Sys.Worked p w ref r a pc r' pc' got log) (hr : r.cin.attached = false) :
    r'.cin.attached = false ∧
      (got = none ∧ (∀ v φ, a ≠ .app v .get φ) ∨
        got = some Istreambuf.eof ∧ log = [] ∧ pc = .running ref ∧ ∃ φ, a = .app w .get φ) := by
  cases h with
  | start φ role => exact ⟨hr, Or.inl ⟨rfl, fun v φ => Act.noConfusion⟩⟩
  | unknown φ r' body log did =>
    obtain ⟨r₁, hc, he⟩ := Tx.bind_return (fun _ => rfl) did
    cases he
    obtain ⟨cerr, rfl⟩ := Sys.complain_ok hc
    exact ⟨hr, Or.inl ⟨rfl, fun v φ => Act.noConfusion⟩⟩
  | cout φ body o log did => exact ⟨hr, Or.inl ⟨rfl, fun v φ => Act.noConfusion⟩⟩
  | cerr φ body o log did => exact ⟨hr, Or.inl ⟨rfl, fun v φ => Act.noConfusion⟩⟩
  | send φ body log did => exact ⟨hr, Or.inl ⟨rfl, fun v φ => Act.noConfusion⟩⟩
  | app φ op tx r' got log op_eq did =>
    have hstream : ∀ o x, (setStream r o x).cin = r.cin := by
      intro o x
      cases o <;> rfl
    cases op with
    | write o bytes | flush o | close o =>
      cases op_eq
      obtain ⟨x, -, he⟩ := Tx.bind_return (fun _ => rfl) did
      cases he
      refine ⟨by rw [hstream]; exact hr, Or.inl ⟨rfl, ?_⟩⟩
      intro v φ he
      cases he
    | get =>
      have hget : r.cin.get = some (Istreambuf.eof, r.cin) := by
        simp only [Istream.get, hr, Bool.false_eq_true, if_false]
      simp only [appOp, hget] at op_eq
      cases op_eq
      cases did
      exact ⟨hr, Or.inr ⟨rfl, rfl, rfl, φ, rfl⟩⟩
  | finish φ how r' body log did =>
    have hcin : r'.cin = r.cin := by
      cases how with
      | returns status =>
        cases did
        rfl
      | throwsException what | throwsOther =>
        obtain ⟨r₁, hc, he⟩ := Tx.bind_return (fun _ => rfl) did
        cases he
        obtain ⟨cerr, rfl⟩ := Sys.complain_ok hc
        rfl
    exact ⟨by rw [hcin]; exact hr, Or.inl ⟨rfl, fun v φ => Act.noConfusion⟩⟩

/-- `cin` of the slot has no buffer, and all its reads gave end of file. -/
structure Detached (s : Sys) (ref : Ref) : Prop where
  cin : ∀ r, s.request? ref = some r → r.cin.attached = false
  reads : ∀ x, .got x ∈ marksOf s ref → x = Istreambuf.eof

theorem step_detached {p : Params} {s s' : Sys} {a : Act} (h : Sys.step p s a = some s') {ref : Ref}
    (hd : Detached s ref) : Detached s' ref := by
  cases step_slot h ref with
  | same request marks =>
    refine ⟨?_, ?_⟩
    · rw [request]
      exact hd.cin
    · rw [marks]
      exact hd.reads
  | handled n junk φ notified r hd' log act conn pc slot handles request marks =>
    refine ⟨?_, ?_⟩
    · rw [request]
      rintro r' he
      cases he
      refine handles_attached handles ?_
      rcases slot with hr | ⟨-, rfl⟩
      · exact hd.cin r hr
      · rfl
    · intro x hx
      rw [marks] at hx
      rcases List.mem_append.mp hx with hx | hx
      · exact hd.reads x hx
      · exact absurd hx (got_not_mem_marks hd' log x)
  | reset n j r conn pc slot request marks =>
    refine ⟨?_, ?_⟩
    · rw [request]
      rintro r' he
      cases he
      exact hd.cin r slot
    · rw [marks]
      exact hd.reads
  | destroyed n φ r log conn pc slot destroys request marks =>
    refine ⟨?_, ?_⟩
    · rw [request]
      rintro r' he
      cases he
    · intro x hx
      rw [marks] at hx
      rcases List.mem_append.mp hx with hx | hx
      · exact hd.reads x hx
      · exact absurd hx (got_not_mem_did log x)
  | worked w r r' pc pc' got log worker workers slot works request marks =>
    obtain ⟨hcin, hgot⟩ := worked_detached works (hd.cin r slot)
    refine ⟨?_, ?_⟩
    · rw [request]
      rintro r₁ he
      cases he
      exact hcin
    · intro x hx
      rw [marks] at hx
      rcases List.mem_append.mp hx with hx | hx
      · exact hd.reads x hx
      rcases List.mem_append.mp hx with hx | hx
      · exact absurd hx (got_not_mem_did log x)
      rcases hgot with ⟨rfl, -⟩ | ⟨rfl, -⟩
      · cases hx
      · cases List.mem_singleton.mp hx
        rfl

/-! ## When the reads are right -/

/-- The stream of `c` is empty, and has ended. -/
def EndedEmpty (c : List Mark) : Prop := ∃ rest, contents c = [] :: rest

theorem right_eof {c : List Mark} (h : ∀ x, .got x ∈ c → x = Istreambuf.eof) :
    Right c Istreambuf.eof ↔ EndedEmpty c := by
  have htaken : taken c = [] := by
    rw [taken, List.filter_eq_nil_iff]
    intro x hx
    obtain ⟨m, hm, he⟩ := List.mem_filterMap.mp hx
    cases m with
    | got y =>
      cases he
      simp [h x hm]
    | accepted | cancelled | dispatched | did e => cases he
  have hreceived : received c = [] ↔ contents c = [] ∨ EndedEmpty c := by
    unfold received EndedEmpty
    rw [List.map_eq_nil_iff]
    cases contents c with
    | nil => simp
    | cons bytes rest =>
      cases bytes with
      | nil => simp
      | cons b bytes => simp
  unfold Right
  rw [if_pos rfl, htaken, eq_comm, hreceived]
  constructor
  · rintro ⟨hmem, hnil | hend⟩
    · rw [hnil] at hmem
      cases hmem
    · exact hend
  · rintro ⟨rest, hc⟩
    exact ⟨by rw [hc]; exact List.mem_cons_self, Or.inr ⟨rest, hc⟩⟩

structure ReadInv (s : Sys) : Prop where
  inv : Inv s
  told : ∀ ref, Told s ref
  detached : ∀ ref, Detached s ref

theorem init_readInv (workers : Nat) : ReadInv (.init workers) := by
  refine ⟨init_inv workers, fun _ => Or.inr rfl, fun ref => ⟨?_, ?_⟩⟩
  · intro r hr
    cases hr
  · intro x hx
    cases hx

theorem step_readInv {p : Params} {s s' : Sys} {a : Act} (hi : ReadInv s)
    (h : Sys.step p s a = some s') : ReadInv s' :=
  ⟨step_inv hi.inv h, fun ref => step_told hi.inv h (hi.told ref),
    fun ref => step_detached h (hi.detached ref)⟩

/-- The application reads from `cin` of `ref`. -/
def ReadsFrom (s : Sys) (a : Act) (ref : Ref) : Prop :=
  ∃ w φ, a = .app w .get φ ∧ s.workers[w]? = some (.running ref)

theorem read_marks {p : Params} {s s' : Sys} {a : Act} {ref : Ref} {r : Request}
    (hr : s.request? ref = some r) (hcin : r.cin.attached = false) (hread : ReadsFrom s a ref)
    (h : Sys.step p s a = some s') :
    marksOf s' ref = marksOf s ref ++ [.got Istreambuf.eof] := by
  obtain ⟨w, φ, rfl, hw⟩ := hread
  have hget : r.cin.get = some (Istreambuf.eof, r.cin) := by
    simp only [Istream.get, hcin, Bool.false_eq_true, if_false]
  unfold Sys.step at h
  split at h
  · cases h
  · simp only [hw, Sys.useRequest, hr, appOp, hget, Option.map_some] at h
    cases h
    rw [marksOf_record]
    congr 1
    exact marksOf_eq (by simp) ref

/-- Another step adds no read to the history. -/
theorem quiet_marks {p : Params} {s s' : Sys} {a : Act} {ref : Ref} (hd : Detached s ref)
    (hread : ¬ ReadsFrom s a ref) (h : Sys.step p s a = some s') :
    ∃ ms, marksOf s' ref = marksOf s ref ++ ms ∧ ∀ x, .got x ∉ ms := by
  cases step_slot h ref with
  | same request marks => exact ⟨[], by rw [marks, List.append_nil], fun x => List.not_mem_nil⟩
  | handled n junk φ notified r hd log act conn pc slot handles request marks =>
    exact ⟨_, marks, got_not_mem_marks hd log⟩
  | reset n j r conn pc slot request marks =>
    exact ⟨[], by rw [marks, List.append_nil], fun x => List.not_mem_nil⟩
  | destroyed n φ r log conn pc slot destroys request marks =>
    exact ⟨_, marks, got_not_mem_did log⟩
  | worked w r r' pc pc' got log worker workers slot works request marks =>
    obtain ⟨-, hgot⟩ := worked_detached works (hd.cin r slot)
    rcases hgot with ⟨rfl, -⟩ | ⟨-, -, rfl, φ, rfl⟩
    · refine ⟨_, marks, ?_⟩
      intro x hx
      rcases List.mem_append.mp hx with hx | hx
      · exact got_not_mem_did log x hx
      · cases hx
    · exact absurd ⟨w, φ, rfl, worker⟩ hread

/-- Only a read of the slot can break its delivery. -/
theorem slot_delivered {p : Params} {s s' : Sys} {a : Act} (hi : ReadInv s)
    (h : Sys.step p s a = some s') (ref : Ref) :
    Delivered (marksOf s' ref) ↔ Delivered (marksOf s ref) ∧
      (ReadsFrom s a ref → ∃ c, current (marksOf s ref) = some c ∧ EndedEmpty c) := by
  have hd := hi.detached ref
  by_cases hread : ReadsFrom s a ref
  · obtain ⟨w, φ, -, hw⟩ := id hread
    obtain ⟨r, c, hr, -, hc, -⟩ := held_story hi.inv (hi.told ref) hw rfl
    rw [read_marks hr (hd.cin r hr) hread h, delivered_concat]
    have heof : ∀ x, .got x ∈ c → x = Istreambuf.eof := fun x hx =>
      hd.reads x (current_subset hc hx)
    constructor
    · rintro ⟨hdel, hlast⟩
      obtain ⟨c', hc', hright⟩ := hlast _ rfl
      rw [hc] at hc'
      cases hc'
      exact ⟨hdel, fun _ => ⟨c, hc, (right_eof heof).mp hright⟩⟩
    · rintro ⟨hdel, hend⟩
      refine ⟨hdel, ?_⟩
      intro x hx
      cases hx
      obtain ⟨c', hc', hend⟩ := hend hread
      rw [hc] at hc'
      cases hc'
      exact ⟨c, hc, (right_eof heof).mpr hend⟩
  · obtain ⟨ms, hms, hno⟩ := quiet_marks hd hread h
    rw [hms, delivered_append hno]
    exact ⟨fun hdel => ⟨hdel, fun hr => absurd hr hread⟩, And.left⟩

/-- A step that reads `cin` of a request reads an empty stream that has ended. -/
def ReadsEnded (s : Sys) (a : Act) : Prop :=
  ∀ ref, ReadsFrom s a ref → ∃ c, current (marksOf s ref) = some c ∧ EndedEmpty c

def AllDelivered (s : Sys) : Prop := ∀ ref, Delivered (marksOf s ref)

theorem init_allDelivered (workers : Nat) : AllDelivered (.init workers) := by
  intro ref before x hp
  have hnil := List.prefix_nil.mp hp
  simp at hnil

theorem step_allDelivered {p : Params} {s s' : Sys} {a : Act} (hi : ReadInv s)
    (h : Sys.step p s a = some s') : AllDelivered s' ↔ AllDelivered s ∧ ReadsEnded s a := by
  simp only [AllDelivered, ReadsEnded, slot_delivered hi h, forall_and]

/-- **Delivery** of STDIN to the application, for every request of every run. -/
theorem delivered_iff {p : Params} {workers : Nat} {as : List Act} {s : Sys}
    (h : run (Sys.step p) (.init workers) as = some s) :
    AllDelivered s ↔ Meets (Sys.step p) ReadsEnded (.init workers) as := by
  rw [holds_iff_meets (fun _ _ _ => step_readInv) (fun _ _ _ => step_allDelivered)
    (init_readInv workers) h]
  exact ⟨And.right, fun hm => ⟨init_allDelivered workers, hm⟩⟩

/-- A worker has started the callback, the STDIN records `records` arrive and are
handled, and the callback reads. -/
def readRun (records : List ReadResult) : List Act :=
  started ++ records.map (.arrive 0) ++ connMoves records.length ++ [.app 0 .get Fate.sent]

def stdinEnd : ReadResult := .data 1 [5, 1, 0, 0, 0, 0, 0]

theorem delivered_iff_stdinEnd :
    ∃ s, run (Sys.step .standard) (.init 1) (readRun [stdinEnd]) = some s ∧
      (AllDelivered s ↔ Meets (Sys.step .standard) ReadsEnded (.init 1) (readRun [stdinEnd])) := by
  obtain ⟨s, hs⟩ : ∃ s, run (Sys.step .standard) (.init 1) (readRun [stdinEnd]) = some s :=
    Option.isSome_iff_exists.mp (by decide +kernel)
  exact ⟨s, hs, delivered_iff hs⟩

/-- A STDIN record with two bytes. -/
def stdinRecord : ReadResult := .data 1 [5, 1, 0, 0, 2, 0, 0, 104, 105]

/-- The read gives end of file though a record is queued. -/
theorem stdinRecord_not_delivered :
    ∃ s, run (Sys.step .standard) (.init 1) (readRun [stdinRecord]) = some s ∧
      ∃ before, marksOf s ⟨0, 0⟩ = before ++ [.got Istreambuf.eof] ∧
        .did (.fed .stdin [104, 105]) ∈ before ∧ ¬ AllDelivered s := by
  have hrun : (run (Sys.step .standard) (.init 1) (readRun [stdinRecord])).any (fun s =>
      decide (marksOf s ⟨0, 0⟩ = [.accepted, .dispatched, .did (.fed .params []),
        .did (.fed .stdin [104, 105])] ++ [.got Istreambuf.eof])) = true := by
    decide +kernel
  obtain ⟨s, hs, hmarks⟩ := (Option.any_eq_true _ _).mp hrun
  rw [decide_eq_true_eq] at hmarks
  refine ⟨s, hs, _, hmarks, by simp, ?_⟩
  intro hd
  have hlast := hd ⟨0, 0⟩
  rw [hmarks] at hlast
  obtain ⟨c, hc, hright⟩ := hlast _ _ (List.prefix_refl _)
  cases hc
  exact absurd hright.1 (by decide)

end Tfcgi.Stdin
