import Tfcgi.Iostream
import Tfcgi.Lib.Run

/-!
# An open `istreambuf`

`istreambuf::underflow` gives the first character of a packet as a `char` made an
`int`, so the byte 255 looks like the end of file, and `istreambuf::feed` rings no
bell, so a reader that waits already goes on waiting.

* `transparent_iff`: read to its end, the buffer gives the bytes of its packets
  exactly when none of them starts with 255;
* `sgetc_iff`: a peek at a new packet gives its first byte only below 128;
* `never_asleep_iff`: no reader sleeps over input exactly when nothing is fed while
  it is parked.
-/

namespace Tfcgi.InputBuffer

open Tfcgi.Run Tfcgi.HostOrder Tfcgi.Iostream Tfcgi.Iostream.Istreambuf

/-! ## Reading to the end -/

/-- `n` calls of `sbumpc`, or `none` once one of them waits. -/
def sbumpcs : Nat → Istreambuf → Option (List Int × Istreambuf)
  | 0, b => some ([], b)
  | n + 1, b =>
    match b.sbumpc with
    | .waits => none
    | .int c b => (sbumpcs n b).map fun x => (c :: x.1, x.2)

/-- The first `n` characters of a stream of `bytes`, with end of file behind them. -/
def expected : Nat → List Byte → List Int
  | 0, _ => []
  | n + 1, [] => eof :: expected n []
  | n + 1, b :: bytes => b.toNat :: expected n bytes

/-- Reads give `bytes`, each as its value from 0 to 255, and end of file only behind the
last of them, when the empty packet was popped. -/
def Transparent (b : Istreambuf) (bytes : List Byte) : Prop :=
  ∀ n, ∃ b', sbumpcs n b = some (expected n bytes, b') ∧
    (b'.isOpen = true ↔ n ≤ bytes.length) ∧ (b'.isOpen = false → b'.queue = [])

/-- A character is end of file as an `int` for one byte only. -/
theorem ofChar_eq_eof (c : Byte) : ofChar c = eof ↔ c = 0xFF := by
  have hlt := c.toNat_lt
  unfold ofChar eof
  constructor
  · intro h
    apply UInt8.toNat_inj.mp
    split at h
    · omega
    · show c.toNat = 255
      omega
  · rintro rfl
    decide

/-- What is left to read: an open buffer whose packets end with the empty one. -/
structure Feeding (b : Istreambuf) (packets : List (List Byte)) : Prop where
  isOpen : b.isOpen = true
  queue : b.queue = packets ++ [[]]
  filled : ∀ pkt ∈ packets, pkt ≠ []

theorem sbumpc_get (b : Istreambuf) {c : Byte} {cs : List Byte} (h : b.getArea = c :: cs) :
    b.sbumpc = .int c.toNat { b with getArea := cs } := by
  simp only [sbumpc, h]

theorem sbumpc_packet {b : Istreambuf} {c : Byte} {cs : List Byte} {packets : List (List Byte)}
    (h : Feeding b ((c :: cs) :: packets)) (hg : b.getArea = []) :
    b.sbumpc = if c = 0xFF then
        .int eof { b with queue := packets ++ [[]], getArea := c :: cs }
      else .int c.toNat { b with queue := packets ++ [[]], getArea := cs } := by
  simp only [sbumpc, hg, underflow, h.isOpen, h.queue, List.cons_append, if_true, ofChar_eq_eof]

theorem sbumpc_end {b : Istreambuf} (h : Feeding b []) (hg : b.getArea = []) :
    b.sbumpc = .int eof { b with isOpen := false, queue := [] } := by
  simp only [sbumpc, hg, underflow, h.isOpen, h.queue, List.nil_append, if_true]

/-- Once the stream has ended, every read gives end of file. -/
theorem sbumpcs_ended (n : Nat) {b : Istreambuf} (ho : b.isOpen = false) (hg : b.getArea = []) :
    sbumpcs n b = some (expected n [], b) := by
  have hb : b.sbumpc = .int eof b := by
    simp only [sbumpc, hg, underflow, ho, Bool.false_eq_true, if_false, if_true]
  induction n with
  | zero => rfl
  | succ n ih => simp only [sbumpcs, hb, ih, Option.map_some, expected]

/-- One read of a byte that is next. -/
theorem sbumpcs_succ {n : Nat} {b b₁ b' : Istreambuf} {c : Byte} {bytes : List Byte}
    (h : b.sbumpc = .int c.toNat b₁) (hn : sbumpcs n b₁ = some (expected n bytes, b')) :
    sbumpcs (n + 1) b = some (expected (n + 1) (c :: bytes), b') := by
  simp only [sbumpcs, h, hn, Option.map_some, expected]

theorem sbumpcs_feeding (n : Nat) {b : Istreambuf} {packets : List (List Byte)}
    (h : Feeding b packets) (hff : ∀ pkt ∈ packets, pkt.head? ≠ some 0xFF) :
    ∃ b', sbumpcs n b = some (expected n (b.getArea ++ packets.flatten), b') ∧
      (b'.isOpen = true ↔ n ≤ (b.getArea ++ packets.flatten).length) ∧
      (b'.isOpen = false → b'.queue = []) := by
  induction n generalizing b packets with
  | zero =>
    refine ⟨b, rfl, ?_, ?_⟩
    · simp [h.isOpen]
    · intro ho
      rw [h.isOpen] at ho
      cases ho
  | succ n ih =>
    cases hg : b.getArea with
    | cons c cs =>
      obtain ⟨b', hb', hopen, hqueue⟩ :=
        ih (b := { b with getArea := cs }) ⟨h.isOpen, h.queue, h.filled⟩ hff
      refine ⟨b', sbumpcs_succ (sbumpc_get b hg) hb', ?_, hqueue⟩
      rw [hopen]
      simp only [List.cons_append, List.length_cons]
      omega
    | nil =>
      cases packets with
      | nil =>
        refine ⟨{ b with isOpen := false, queue := [] }, ?_, ?_, fun _ => rfl⟩
        · have hend := sbumpcs_ended n (b := { b with isOpen := false, queue := [] }) rfl hg
          simp only [sbumpcs, sbumpc_end h hg, hend, Option.map_some]
          rfl
        · simp
      | cons pkt packets =>
        cases pkt with
        | nil => exact absurd rfl (h.filled [] List.mem_cons_self)
        | cons c cs =>
          simp only [List.mem_cons, forall_eq_or_imp] at hff
          have hc : c ≠ 0xFF := fun hc => hff.1 (by rw [hc]; rfl)
          have hfirst := sbumpc_packet h hg
          rw [if_neg hc] at hfirst
          obtain ⟨b', hb', hopen, hqueue⟩ :=
            ih (b := { b with queue := packets ++ [[]], getArea := cs })
              ⟨h.isOpen, rfl, fun q hq => h.filled q (List.mem_cons_of_mem _ hq)⟩ hff.2
          refine ⟨b', sbumpcs_succ hfirst hb', ?_, hqueue⟩
          rw [hopen]
          simp only [List.nil_append, List.flatten_cons, List.cons_append, List.length_cons]
          omega

/-- The first read of a transparent buffer gives the first byte. -/
theorem transparent_next {b b₁ : Istreambuf} {x : Int} {c : Byte} {bytes : List Byte}
    (h : b.sbumpc = .int x b₁) (ht : Transparent b (c :: bytes)) :
    x = c.toNat ∧ Transparent b₁ bytes := by
  have hread : ∀ n, sbumpcs (n + 1) b = (sbumpcs n b₁).map fun y => (x :: y.1, y.2) := by
    intro n
    simp only [sbumpcs, h]
  refine ⟨?_, ?_⟩
  · obtain ⟨b', hb', -⟩ := ht 1
    rw [hread] at hb'
    simp only [sbumpcs, Option.map_some, expected, Option.some.injEq, Prod.mk.injEq,
      List.cons.injEq] at hb'
    exact hb'.1.1
  · intro n
    obtain ⟨b', hb', hopen, hqueue⟩ := ht (n + 1)
    rw [hread] at hb'
    obtain ⟨⟨xs, b''⟩, hn, he⟩ := Option.map_eq_some_iff.mp hb'
    simp only [expected, Prod.mk.injEq, List.cons.injEq] at he
    obtain ⟨⟨-, rfl⟩, rfl⟩ := he
    refine ⟨b'', hn, ?_, hqueue⟩
    rw [hopen, List.length_cons]
    omega

/-- The induction is on the bytes that are left. -/
theorem transparent_heads {bytes : List Byte} {b : Istreambuf} {packets : List (List Byte)}
    (hbytes : b.getArea ++ packets.flatten = bytes) (h : Feeding b packets)
    (ht : Transparent b bytes) : ∀ pkt ∈ packets, pkt.head? ≠ some 0xFF := by
  induction bytes generalizing b packets with
  | nil =>
    intro pkt hp
    have hnil : pkt = [] := by
      have := (List.append_eq_nil_iff.mp hbytes).2
      exact List.flatten_eq_nil_iff.mp this pkt hp
    exact absurd hnil (h.filled pkt hp)
  | cons x bytes ih =>
    cases hg : b.getArea with
    | cons c cs =>
      rw [hg, List.cons_append, List.cons.injEq] at hbytes
      obtain ⟨rfl, hbytes⟩ := hbytes
      exact ih (b := { b with getArea := cs }) hbytes ⟨h.isOpen, h.queue, h.filled⟩
        (transparent_next (sbumpc_get b hg) ht).2
    | nil =>
      cases packets with
      | nil =>
        intro pkt hp
        cases hp
      | cons pkt packets =>
        cases pkt with
        | nil => exact absurd rfl (h.filled [] List.mem_cons_self)
        | cons c cs =>
          rw [hg, List.nil_append, List.flatten_cons, List.cons_append, List.cons.injEq] at hbytes
          obtain ⟨rfl, hbytes⟩ := hbytes
          have hfirst := sbumpc_packet h hg
          by_cases hc : c = 0xFF
          · rw [if_pos hc] at hfirst
            have heof : eof = (c.toNat : Int) := (transparent_next hfirst ht).1
            rw [hc] at heof
            exact absurd heof (by decide)
          · rw [if_neg hc] at hfirst
            have hrest := ih (b := { b with queue := packets ++ [[]], getArea := cs }) hbytes
              ⟨h.isOpen, rfl, fun q hq => h.filled q (List.mem_cons_of_mem _ hq)⟩
              (transparent_next hfirst ht).2
            simp only [List.mem_cons, forall_eq_or_imp]
            refine ⟨?_, hrest⟩
            rw [List.head?_cons, ne_eq, Option.some.injEq]
            exact hc

/-- **Refill.** An open buffer with non-empty packets before an empty one is read
byte for byte exactly when no packet starts with the byte 255. -/
theorem transparent_iff {b : Istreambuf} {packets : List (List Byte)} (ho : b.isOpen = true)
    (hq : b.queue = packets ++ [[]]) (hne : ∀ pkt ∈ packets, pkt ≠ []) :
    Transparent b (b.getArea ++ packets.flatten) ↔ ∀ pkt ∈ packets, pkt.head? ≠ some 0xFF := by
  refine ⟨fun ht => transparent_heads rfl ⟨ho, hq, hne⟩ ht, ?_⟩
  intro hff n
  exact sbumpcs_feeding n ⟨ho, hq, hne⟩ hff

/-- Two packets, the second one with a byte above 127 in front. -/
theorem transparent_iff_two :
    Transparent ⟨true, [[104, 105], [128, 255], []], []⟩ [104, 105, 128, 255] :=
  (@transparent_iff ⟨true, [[104, 105], [128, 255], []], []⟩ [[104, 105], [128, 255]] rfl rfl
    (by decide)).mpr (by decide)

/-- The first character of the packet is taken for the end of file, which is open yet. -/
theorem marked_not_transparent :
    sbumpcs 1 ⟨true, [[255], []], []⟩ = some ([eof], ⟨true, [[]], [255]⟩) ∧
      ¬ Transparent ⟨true, [[255], []], []⟩ [255] := by
  refine ⟨by decide, ?_⟩
  intro ht
  have hfeeding : Feeding ⟨true, [[255], []], []⟩ [[255]] := ⟨rfl, rfl, by decide⟩
  exact transparent_heads rfl hfeeding ht [255] (by decide) rfl

/-- `std::streambuf::sgetc`: a peek, which gives what `underflow` gave. -/
def sgetc (b : Istreambuf) : Underflow :=
  match b.getArea with
  | c :: _ => .int c.toNat b
  | [] => b.underflow

theorem sgetc_iff {b : Istreambuf} {c : Byte} {cs : List Byte} {queue : List (List Byte)}
    (ho : b.isOpen = true) (hg : b.getArea = []) (hq : b.queue = (c :: cs) :: queue) :
    (∃ b', sgetc b = .int c.toNat b') ↔ c.toNat < 128 := by
  have hs : sgetc b = .int (ofChar c) { b with queue := queue, getArea := c :: cs } := by
    simp only [sgetc, hg, underflow, ho, hq, if_true]
  have hlt := c.toNat_lt
  rw [hs, ofChar]
  constructor
  · rintro ⟨b', h⟩
    simp only [Underflow.int.injEq] at h
    split at h <;> omega
  · intro hc
    rw [if_pos hc]
    exact ⟨_, rfl⟩

/-! ## A reader and the connection thread -/

/-- Where the thread that reads stands. -/
inductive ReaderPc where
  | outside
  /-- in `queue_bell.wait`, and not notified -/
  | parked
  /-- notified in `queue_bell.wait`, without the mutex yet -/
  | notified
  /-- awake for no reason, without the mutex yet -/
  | woken
  deriving DecidableEq, Repr

structure Inbox where
  buf : Istreambuf
  reader : ReaderPc
  deriving DecidableEq, Repr

/-- An open buffer without packets. -/
def Inbox.init (getArea : List Byte) : Inbox := ⟨⟨true, [], getArea⟩, .outside⟩

inductive Act where
  /-- the reader calls `underflow` and takes `queue_mutex` -/
  | underflow
  /-- it takes the mutex again behind the wait -/
  | resume
  /-- a spurious wake-up -/
  | wake
  /-- the connection thread is in the critical section of `feed` -/
  | feed (data : List Byte)
  deriving DecidableEq, Repr

namespace Inbox

/-- `queue_bell.notify_all()`. -/
def notifyAll : ReaderPc → ReaderPc
  | .parked => .notified
  | pc => pc

/-- From the test of the `while` to the wait or to the end of `underflow`; the bell
rings behind the empty packet, when the reader is not in the wait. -/
def enter (s : Inbox) : Inbox :=
  match s.buf.underflow with
  | .waits => { s with reader := .parked }
  | .int _ b => ⟨b, if s.buf.isOpen && !b.isOpen then notifyAll .outside else .outside⟩

def step (s : Inbox) : Act → Option Inbox
  | .underflow => if s.reader = .outside then some s.enter else none
  | .resume => if s.reader = .notified ∨ s.reader = .woken then some s.enter else none
  | .wake => if s.reader = .parked then some { s with reader := .woken } else none
  | .feed data => some { s with buf := s.buf.feed data }

end Inbox

/-- The reader waits unnotified while there is a packet for it. -/
def Asleep (s : Inbox) : Prop := s.reader = .parked ∧ s.buf.queue ≠ []

/-- Nothing is fed while the reader is parked. -/
def Attended (s : Inbox) (a : Act) : Prop := ∀ data, a = .feed data → s.reader ≠ .parked

theorem enter_not_asleep (s : Inbox) : ¬ Asleep s.enter := by
  rintro ⟨hp, hq⟩
  unfold Inbox.enter at hp hq
  cases hu : s.buf.underflow with
  | waits =>
    simp only [hu] at hq
    unfold underflow at hu
    split at hu
    · split at hu
      · rename_i hnil
        exact hq hnil
      · cases hu
      · cases hu
    · cases hu
  | int c b =>
    simp only [hu, Inbox.notifyAll, ite_self] at hp
    cases hp

theorem step_asleep {s s' : Inbox} {a : Act} (h : s.step a = some s') :
    ¬ Asleep s' ↔ Attended s a := by
  cases a with
  | underflow | resume =>
    simp only [Inbox.step] at h
    split at h
    · cases h
      exact ⟨fun _ data hd => (by cases hd), fun _ => enter_not_asleep s⟩
    · cases h
  | wake =>
    simp only [Inbox.step] at h
    split at h
    · cases h
      exact ⟨fun _ data hd => (by cases hd), fun _ hs => (by cases hs.1)⟩
    · cases h
  | feed data =>
    cases h
    have hq : (s.buf.feed data).queue ≠ [] := by simp [feed]
    constructor
    · intro hs data' _ hp
      exact hs ⟨hp, hq⟩
    · intro ha hs
      exact ha data rfl hs.1

/-- **No lost packet.** In the states of a run no reader sleeps over input exactly
when nothing is fed while it is parked. -/
theorem never_asleep_iff {getArea : List Byte} {as : List Act} {s : Inbox}
    (h : run Inbox.step (.init getArea) as = some s) :
    (∀ as₁ as₂ m, as = as₁ ++ as₂ → run Inbox.step (.init getArea) as₁ = some m → ¬ Asleep m) ↔
      Meets Inbox.step Attended (.init getArea) as :=
  states_iff_meets (fun _ _ _ _ hs => step_asleep hs) (fun hs => hs.2 rfl) h

/-- Two packets come before the reader. -/
def behind : List Act := [.feed [104], .feed [105], .underflow]

theorem behind_attended : Meets Inbox.step Attended (.init []) behind := by
  have hcheck : checks Inbox.step (fun s _ => decide (s.reader ≠ .parked)) (.init []) behind =
      true := by
    decide
  refine meets_of_checks ?_ hcheck
  intro s a _ hc data _
  simpa using hc

theorem never_asleep_iff_behind : ¬ Asleep ⟨⟨true, [[105]], [104]⟩, .outside⟩ :=
  (@never_asleep_iff [] behind _ rfl).mpr behind_attended behind [] _ rfl rfl

/-- The reader is ahead of the network: it parks, then a packet is fed. -/
theorem ahead_asleep : ∃ s, run Inbox.step (.init []) [.underflow, .feed [104]] = some s ∧
    Asleep s :=
  ⟨⟨⟨true, [[104]], []⟩, .parked⟩, rfl, rfl, by decide⟩

end Tfcgi.InputBuffer
