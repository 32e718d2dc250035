import Tfcgi.Lib.Code
import Tfcgi.OrderlyEnd

/-!
# Headers of a response

What the utilities of `Request` write on `cout`, and a reader of header lines.

* `readLine_iff`: when a line is read, and which;
* `headers_read`: the headers of an answered request are read from its STDOUT records
  exactly when no text ends a line or a name too early.
-/

namespace Tfcgi.Headers

open Tfcgi.Lib Tfcgi.Run Tfcgi.HostOrder Tfcgi.Protocol Tfcgi.Socket Tfcgi.Iostream
open Tfcgi.ConnectionThread Tfcgi.System Tfcgi.OutputStream
open Tfcgi.History Tfcgi.Reuse Tfcgi.Streams Tfcgi.Ending Tfcgi.OrderlyEnd

/-! ## Lines -/

structure Line where
  name : List Byte
  value : List Byte
  deriving DecidableEq, Repr

def Line.bytes (l : Line) : List Byte := l.name ++ 58 :: 32 :: (l.value ++ [10])

/-- No text ends the line too early, or the name. -/
structure Line.Clean (l : Line) : Prop where
  colon : 58 ∉ l.name
  name : 10 ∉ l.name
  value : 10 ∉ l.value

/-- What is before the first `b`, and what is behind it. -/
def cut (b : Byte) : List Byte → Option (List Byte × List Byte)
  | [] => none
  | x :: w => if x = b then some ([], w) else (cut b w).map fun y => (x :: y.1, y.2)

/-- A line of a header, and what comes behind it. -/
def readLine (w : List Byte) : Option (Line × List Byte) :=
  match cut 10 w with
  | none => none
  | some (line, rest) =>
    match cut 58 line with
    | some (name, 32 :: value) => some (⟨name, value⟩, rest)
    | _ => none

theorem cut_eq_some {b : Byte} {u v w : List Byte} :
    cut b w = some (u, v) ↔ w = u ++ b :: v ∧ b ∉ u := by
  induction w generalizing u v with
  | nil => simp [cut]
  | cons x w ih =>
    unfold cut
    split
    · rename_i hx
      subst hx
      cases u with
      | nil => simp
      | cons y u =>
        simp only [Option.some.injEq, Prod.mk.injEq, reduceCtorEq, false_and, List.cons_append,
          List.cons.injEq, List.mem_cons, not_or, false_iff, not_and]
        rintro ⟨rfl, -⟩ hne
        exact absurd rfl hne
    · rename_i hx
      rw [Option.map_eq_some_iff]
      constructor
      · rintro ⟨⟨u', v'⟩, h, hy⟩
        cases hy
        obtain ⟨rfl, hb⟩ := ih.mp h
        refine ⟨rfl, ?_⟩
        rw [List.mem_cons, not_or]
        exact ⟨fun h => hx h.symm, hb⟩
      · rintro ⟨hw, hb⟩
        cases u with
        | nil =>
          rw [List.nil_append, List.cons.injEq] at hw
          exact absurd hw.1 hx
        | cons y u =>
          rw [List.cons_append, List.cons.injEq] at hw
          rw [List.mem_cons, not_or] at hb
          exact ⟨(u, v), ih.mpr ⟨hw.2, hb.2⟩, by rw [hw.1]⟩

theorem readLine_iff {w rest : List Byte} {l : Line} :
    readLine w = some (l, rest) ↔ w = l.bytes ++ rest ∧ l.Clean := by
  constructor
  · intro h
    unfold readLine at h
    split at h
    · cases h
    · rename_i line rest' hline
      split at h
      · rename_i name value hname
        cases h
        obtain ⟨rfl, hend⟩ := cut_eq_some.mp hline
        obtain ⟨rfl, hcolon⟩ := cut_eq_some.mp hname
        simp only [List.mem_append, List.mem_cons, not_or] at hend
        refine ⟨?_, hcolon, hend.1, hend.2.2.2⟩
        simp only [Line.bytes, List.append_assoc, List.cons_append, List.nil_append]
      · cases h
  · rintro ⟨rfl, hcolon, hname, hvalue⟩
    have hline : cut 10 (l.bytes ++ rest) = some (l.name ++ 58 :: 32 :: l.value, rest) := by
      rw [cut_eq_some]
      refine ⟨?_, ?_⟩
      · simp only [Line.bytes, List.append_assoc, List.cons_append, List.nil_append]
      · simp only [List.mem_append, List.mem_cons, not_or]
        exact ⟨hname, by decide, by decide, hvalue⟩
    have hcut : cut 58 (l.name ++ 58 :: 32 :: l.value) = some (l.name, 32 :: l.value) :=
      cut_eq_some.mpr ⟨rfl, hcolon⟩
    unfold readLine
    simp only [hline, hcut]

/-- Header lines as a code. -/
def lines : Code Line Byte where
  encode := Line.bytes
  decode := readLine
  Valid := Line.Clean
  decode_encode := by
    intro l hl
    exact readLine_iff.mpr ⟨(List.append_nil _).symm, hl⟩
  decode_append := by
    intro w l rest h v
    obtain ⟨rfl, hl⟩ := readLine_iff.mp h
    exact readLine_iff.mpr ⟨List.append_assoc _ _ _, hl⟩
  decode_shorter := by
    intro w l rest h
    obtain ⟨rfl, -⟩ := readLine_iff.mp h
    simp only [Line.bytes, List.length_append, List.length_cons]
    omega

theorem lines_sound : lines.Sound := fun h => (readLine_iff.mp h).2

/-- The empty line, behind which the body comes. -/
theorem decode_empty (body : List Byte) : lines.decode (10 :: body) = none := by
  show readLine (10 :: body) = none
  unfold readLine
  simp [cut]

/-! ## The utilities of `Request` -/

/-- `cout << text << text << ...`. -/
def toCout (texts : List (List Byte)) : List AppOp := texts.map (AppOp.write .cout)

def sendHeader (key value : List Byte) : List AppOp := toCout [key, ascii ": ", value, [10]]

def sendHeaderPair (keyval : List Byte × List Byte) : List AppOp :=
  toCout [keyval.1, ascii ": ", keyval.2, [10]]

def sendStatus (code : Nat) : List AppOp := toCout [ascii "Status: ", ascii (toString code), [10]]

def sendStatusMsg (code : Nat) (msg : List Byte) : List AppOp :=
  toCout [ascii "Status: ", ascii (toString code), [32], msg, [10]]

def sendRedirect (destination : List Byte) : List AppOp :=
  toCout [ascii "Redirect: ", destination, [10]]

def sendContent_Type (mime : List Byte) : List AppOp := toCout [ascii "Content-Type: ", mime, [10]]

def finishHeaders : List AppOp := toCout [[10]]

/-- A call of one of them that sends a header. -/
inductive Call where
  | header (key value : List Byte)
  | pair (keyval : List Byte × List Byte)
  | status (code : Nat)
  | statusMsg (code : Nat) (msg : List Byte)
  | redirect (destination : List Byte)
  | contentType (mime : List Byte)

def Call.ops : Call → List AppOp
  | .header key value => sendHeader key value
  | .pair keyval => sendHeaderPair keyval
  | .status code => sendStatus code
  | .statusMsg code msg => sendStatusMsg code msg
  | .redirect destination => sendRedirect destination
  | .contentType mime => sendContent_Type mime

/-- The header that is meant. -/
def Call.line : Call → Line
  | .header key value => ⟨key, value⟩
  | .pair keyval => ⟨keyval.1, keyval.2⟩
  | .status code => ⟨ascii "Status", ascii (toString code)⟩
  | .statusMsg code msg => ⟨ascii "Status", ascii (toString code) ++ 32 :: msg⟩
  | .redirect destination => ⟨ascii "Redirect", destination⟩
  | .contentType mime => ⟨ascii "Content-Type", mime⟩

/-- The texts of the caller do not break the line. -/
def Call.Clean : Call → Prop
  | .header key value => 58 ∉ key ∧ 10 ∉ key ∧ 10 ∉ value
  | .pair keyval => 58 ∉ keyval.1 ∧ 10 ∉ keyval.1 ∧ 10 ∉ keyval.2
  | .status _ => True
  | .statusMsg _ msg => 10 ∉ msg
  | .redirect destination => 10 ∉ destination
  | .contentType mime => 10 ∉ mime

/-- What operations give to `cout`. -/
def given (ops : List AppOp) : List Byte := ops.flatMap fun
  | .write .cout bytes => bytes
  | _ => []

theorem digits_clean (n : Nat) : 10 ∉ ascii (toString n) := by
  intro h
  obtain ⟨c, hc, hb⟩ := List.mem_map.mp h
  have hdigit : c.isDigit = true :=
    Nat.isDigit_of_mem_toDigits (b := 10) (by decide) (by decide)
      (by rwa [Nat.toString_eq_ofList_toDigits, String.toList_ofList] at hc)
  have hrange : 48 ≤ c.toNat ∧ c.toNat ≤ 57 := by
    simp only [Char.isDigit, Bool.and_eq_true, decide_eq_true_eq, ge_iff_le,
      UInt32.le_iff_toNat_le] at hdigit
    exact hdigit
  have hmod : c.toNat % 256 = 10 := congrArg UInt8.toNat hb
  omega

theorem call_given (call : Call) : given call.ops = call.line.bytes := by
  cases call <;>
    simp [given, Call.ops, Call.line, Line.bytes, sendHeader, sendHeaderPair, sendStatus,
      sendStatusMsg, sendRedirect, sendContent_Type, toCout, ascii]

theorem call_clean (call : Call) : call.line.Clean ↔ call.Clean := by
  have hline : ∀ l : Line, l.Clean ↔ 58 ∉ l.name ∧ 10 ∉ l.name ∧ 10 ∉ l.value :=
    fun l => ⟨fun h => ⟨h.colon, h.name, h.value⟩, fun h => ⟨h.1, h.2.1, h.2.2⟩⟩
  rw [hline]
  cases call with
  | header key value => rfl
  | pair keyval => rfl
  | status code =>
    simp only [Call.line, Call.Clean, iff_true]
    exact ⟨by decide, by decide, digits_clean code⟩
  | statusMsg code msg =>
    simp only [Call.line, Call.Clean, List.mem_append, List.mem_cons, not_or]
    constructor
    · exact fun h => h.2.2.2.2
    · exact fun h => ⟨by decide, by decide, digits_clean code, by decide, h⟩
  | redirect | contentType =>
    simp only [Call.line, Call.Clean]
    exact ⟨fun h => h.2.2, fun h => ⟨by decide, by decide, h⟩⟩

theorem given_append (ops ops' : List AppOp) : given (ops ++ ops') = given ops ++ given ops' :=
  List.flatMap_append

theorem calls_given (calls : List Call) :
    given (calls.flatMap Call.ops) = lines.encodeAll (calls.map Call.line) := by
  induction calls with
  | nil => rfl
  | cons call calls ih =>
    rw [List.flatMap_cons, given_append, call_given, ih]
    rfl

/-- **Headers.** In every run whose sends succeed: where the application sent headers,
finished them and went on with the body, the contents of the STDOUT records of the answered
request read as these headers and this body exactly when no text breaks a line. -/
theorem headers_read {p : Params} {workers : Nat} {as : List Act} {s : Sys} {ref : Ref}
    (hsucc : ∀ a ∈ as, Succeeds a) (h : run (Sys.step p) (.init workers) as = some s)
    {before after : List Mark} {m : Mark}
    (hc : Acceptance (marksOf s ref) (before ++ m :: after)) (hm : isEnd m = true)
    {calls : List Call} {body : List Byte}
    (hw : written .cout (events before) =
      given (calls.flatMap Call.ops ++ finishHeaders) ++ body) :
    lines.decodeAll ((emitted .cout (events before)).flatMap Packet.body) =
      (calls.map Call.line, 10 :: body) ↔ ∀ call ∈ calls, call.Clean := by
  obtain ⟨hfinished, -⟩ :=
    ((run_inOrder hsucc h ref).orderly _ hc).ended before m after rfl hm .cout
  obtain ⟨data, last, hemitted, hlast, -, hbytes⟩ := hfinished
  have hcontent : (emitted .cout (events before)).flatMap Packet.body =
      lines.encodeAll (calls.map Call.line) ++ 10 :: body := by
    rw [hemitted, List.flatMap_append, hbytes, hw, given_append, calls_given,
      List.flatMap_singleton, hlast, List.append_nil, List.append_assoc]
    rfl
  rw [hcontent, Code.decodeAll_eq_iff lines_sound (decode_empty body), List.forall_mem_map]
  exact forall₂_congr fun call _ => call_clean call

def aCalls : List Call := [.status 200, .contentType (ascii "text/plain")]

/-- A response of two headers and a body. -/
def headed : List Act :=
  started ++ (aCalls.flatMap Call.ops ++ finishHeaders ++ toCout [ascii "hi"]).map
    (fun op => .app 0 op Fate.sent) ++ [.finish 0 (.returns 0) Fate.sent] ++ workerMoves 4

theorem headers_read_headed : ∃ s c, run (Sys.step .standard) (.init 1) headed = some s ∧
    Acceptance (marksOf s ⟨0, 0⟩) c ∧
    lines.decodeAll ((emitted .cout (events c.dropLast)).flatMap Packet.body) =
      (aCalls.map Call.line, 10 :: ascii "hi") := by
  have hsucc : ∀ a ∈ headed, Succeeds a := by
    intro a ha φ hφ
    simp only [headed, started, connMoves, workerMoves, List.mem_append, List.mem_cons,
      List.mem_replicate, List.mem_map, List.not_mem_nil, or_false] at ha
    rcases ha with (((((ha | ha | ha) | ha) | ha) | ⟨op, -, ha⟩) | ha) | ha <;>
      (first | subst ha | obtain rfl := ha.2) <;> cases hφ <;> rfl
  have hrun : (run (Sys.step .standard) (.init 1) headed).any (fun s =>
      (current (marksOf s ⟨0, 0⟩)).any fun c => c.getLast?.any isEnd &&
        written .cout (events c.dropLast) =
          given (aCalls.flatMap Call.ops ++ finishHeaders) ++ ascii "hi") = true := by
    decide +kernel
  obtain ⟨s, hs, hcheck⟩ := (Option.any_eq_true _ _).mp hrun
  obtain ⟨c, hc, hend⟩ := (Option.any_eq_true _ _).mp hcheck
  rw [Bool.and_eq_true, decide_eq_true_eq] at hend
  obtain ⟨hlast, hw⟩ := hend
  obtain ⟨m, hm, hisEnd⟩ := (Option.any_eq_true _ _).mp hlast
  have ha := current_acceptance hc
  have hsplit : c.dropLast ++ [m] = c := List.dropLast_append_getLast? m hm
  have ha' : Acceptance (marksOf s ⟨0, 0⟩) (c.dropLast ++ m :: []) := by rwa [hsplit]
  refine ⟨s, c, hs, ha, (headers_read hsucc hs ha' hisEnd hw).mpr ?_⟩
  simp only [aCalls, List.mem_cons, List.not_mem_nil, or_false, forall_eq_or_imp, forall_eq]
  exact ⟨trivial, (by decide : 10 ∉ ascii "text/plain")⟩

end Tfcgi.Headers
