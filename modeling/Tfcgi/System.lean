import Tfcgi.Lib.Run
import Tfcgi.Lib.Slots
import Tfcgi.ConnectionThread

/-!
# The process: main, the connection threads and the workers

`step` lets one thread move. A connection keeps its index for ever; one that was
erased from `global_list` is `gone`. What runs under a mutex is one step, as is
what a thread does to objects that it alone uses; `wait` releases `queue_mutex`,
so a worker may be parked between two steps. `arrive` is the network.

`log` keeps, in order, what was done for each slot of each connection. No code
reads it.

* `step_effect`: what a step does to the connections, the queue and the workers.
-/

namespace Tfcgi.System

open Tfcgi.Run Tfcgi.HostOrder Tfcgi.Protocol Tfcgi.NameValuePairs Tfcgi.Socket Tfcgi.Iostream
open Tfcgi.RequestSlot Tfcgi.ConnectionThread

/-- A `Request &`. -/
structure Ref where
  conn : Nat
  slot : Nat
  deriving DecidableEq, Repr

/-- Where a connection thread stands. -/
inductive ConnPc where
  /-- at the loop condition of `thread_func` -/
  | reading
  /-- `push_request` is called -/
  | pushing (request : Ref)
  /-- `workers_backlog++` is done -/
  | locking (request : Ref)
  /-- back from `push_request`, before `params_deserializer.reset()` -/
  | resetting (request : Ref)
  /-- the loop that destroys requests is at slot `i` -/
  | tearingDown (i : Nat)
  /-- at the loop condition on `request_actives` -/
  | waiting
  /-- `global_list.erase`, which destroys slot `i` next -/
  | clearing (i : Nat)
  | gone
  deriving DecidableEq, Repr

structure Conn where
  connection : Connection
  pc : ConnPc
  deriving DecidableEq, Repr

/-- Where a worker stands in `worker::thread_func`. -/
inductive WorkerPc where
  /-- reads `socket_listening` -/
  | loopTop
  /-- reads `socket_active` -/
  | checkActive
  | popping
  /-- in `queue_bell.wait` -/
  | parked
  /-- notified, and about to take `queue_mutex` again -/
  | notified
  /-- the same after a spurious wake-up -/
  | woken
  | popped (request : Ref)
  /-- in `fcgi::respond` -/
  | running (request : Ref)
  | closingCout (request : Ref) (body : EndRequestBody)
  | closingCerr (request : Ref) (body : EndRequestBody)
  | sending (request : Ref) (body : EndRequestBody)
  | decrementing (request : Ref)
  | exited
  deriving DecidableEq, Repr

/-- The request that a worker holds. -/
def WorkerPc.request? : WorkerPc → Option Ref
  | .popped r => some r
  | .running r => some r
  | .closingCout r _ => some r
  | .closingCerr r _ => some r
  | .sending r _ => some r
  | .decrementing r => some r
  | _ => none

inductive MainPc where
  | accepting
  | joining
  | ended
  deriving DecidableEq, Repr

/-- What happened for a slot. -/
inductive Mark where
  | accepted
  | cancelled
  | dispatched
  | did (e : Event)
  /-- the application read from `cin` -/
  | got (c : Int)
  deriving DecidableEq, Repr

structure Sys where
  conns : List Conn
  queue : List Ref
  workersBacklog : Nat
  workers : List WorkerPc
  socketListening : Bool
  socketActive : Nat
  main : MainPc
  down : Option Crash
  log : List (Ref × Mark)

/-- `main` before its loop, with `n` workers started. -/
def Sys.init (n : Nat) : Sys where
  conns := []
  queue := []
  workersBacklog := 0
  workers := List.replicate n .loopTop
  socketListening := true
  socketActive := 0
  main := .accepting
  down := none
  log := []

inductive Stream where
  | cout
  | cerr
  deriving DecidableEq, Repr

/-- What the application does with the request in the callback. -/
inductive AppOp where
  | write (o : Stream) (bytes : List Byte)
  | flush (o : Stream)
  | close (o : Stream)
  | get
  deriving DecidableEq, Repr

/-- How the callback ends. -/
inductive AppEnd where
  | returns (status : Nat)
  | throwsException (what : String)
  | throwsOther
  deriving DecidableEq, Repr

inductive Act where
  /-- `accept` gave a socket -/
  | accept (junk : Junk)
  /-- `accept` failed for good -/
  | closeListening
  | leaveLoop
  | join
  | arrive (i : Nat) (r : ReadResult)
  /-- the thread of connection `i` moves; `notified` is the worker that
  `notify_one` wakes -/
  | conn (i : Nat) (junk : Junk) (φ : Fate) (notified : Option Nat)
  | worker (w : Nat) (φ : Fate)
  /-- a spurious wake-up -/
  | wake (w : Nat)
  | app (w : Nat) (op : AppOp) (φ : Fate)
  | finish (w : Nat) (how : AppEnd) (φ : Fate)

/-! ## The parts of `worker::thread_func` that use the request -/

/-- `<< std::endl`. -/
def endl (p : Params) (o : Ostream) : Tx Ostream := do
  let o ← o.write p [10]
  o.flush p

/-- A line on `cerr` behind an empty one, if `cerr` is good. -/
def complain (p : Params) (r : Request) (texts : List String) : Tx Request :=
  if r.cerr.good then do
    let o ← endl p r.cerr
    let o ← texts.foldlM (fun (o : Ostream) text => o.write p (ascii text)) o
    let o ← endl p o
    return { r with cerr := o }
  else return r

def endRequestBody (p : Params) : EndRequestBody :=
  ⟨.store p.host (ntohl p.host 0xA990EEEE), .requestComplete⟩

/-- The `default` case of the role switch. -/
def unknownRole (p : Params) (r : Request) : Tx (Request × EndRequestBody) := do
  let body : EndRequestBody := ⟨.store p.host (r.role p), .unknownRole⟩
  let r ← complain p r ["Unknow role ", toString (r.role p), " is not suported."]
  return (r, body)

/-- The end of the `try` block by each way out of the callback. -/
def callbackEnds (p : Params) (r : Request) : AppEnd → Tx (Request × EndRequestBody)
  | .returns status => return (r, { endRequestBody p with appStatus := .store p.host status })
  | .throwsException what => do
    let r ← complain p r ["Exception occured : ", what]
    return (r, endRequestBody p)
  | .throwsOther => do
    let r ← complain p r ["An unknow exception occured."]
    return (r, endRequestBody p)

def endPacket (p : Params) (r : Request) (body : EndRequestBody) : Packet :=
  .make p.host .endRequest r.requestId body.bytes

def stream (r : Request) : Stream → Ostream
  | .cout => r.cout
  | .cerr => r.cerr

def setStream (r : Request) (o : Stream) (x : Ostream) : Request :=
  match o with
  | .cout => { r with cout := x }
  | .cerr => { r with cerr := x }

/-- A use of the request in the callback; `none` while a read waits. -/
def appOp (p : Params) (r : Request) : AppOp → Option (Tx (Request × Option Int))
  | .write o bytes => some do
    let x ← (stream r o).write p bytes
    return (setStream r o x, none)
  | .flush o => some do
    let x ← (stream r o).flush p
    return (setStream r o x, none)
  | .close o => some do
    let x ← (stream r o).close p
    return (setStream r o x, none)
  | .get =>
    match r.cin.get with
    | none => none
    | some (c, cin) => some (return ({ r with cin := cin }, some c))

/-- What a worker does with its request in one step, and where it stands then.
The `fcgi::respond` call itself and the last decrement are not among these. -/
def workRequest (p : Params) (r : Request) : WorkerPc → Option (Tx (Request × WorkerPc))
  | .popped ref =>
    if BeginRequestRole.ofNat (r.role p) = .responder ∧ p.fcgiResponder then
      some (return (r, .running ref))
    else some do
      let (r, body) ← unknownRole p r
      return (r, .closingCout ref body)
  | .closingCout ref body => some do
    let o ← r.cout.close p
    return ({ r with cout := o }, .closingCerr ref body)
  | .closingCerr ref body => some do
    let o ← r.cerr.close p
    return ({ r with cerr := o }, .sending ref body)
  | .sending ref body => some do
    Request.sendOrThrow (endPacket p r body)
    return (r, .decrementing ref)
  | _ => none

/-! ## Steps -/

namespace Sys

def setConn (s : Sys) (i : Nat) (n : Conn) : Sys := { s with conns := s.conns.set i n }

def setWorker (s : Sys) (w : Nat) (pc : WorkerPc) : Sys := { s with workers := s.workers.set w pc }

/-- `std::terminate`, or undefined behaviour. -/
def crash (s : Sys) (c : Crash) : Sys := { s with down := some c }

def record (s : Sys) (ref : Ref) (marks : List Mark) : Sys :=
  { s with log := s.log ++ marks.map fun m => (ref, m) }

def request? (s : Sys) (ref : Ref) : Option Request :=
  match s.conns[ref.conn]? with
  | none => none
  | some n => n.connection.requests.getD ref.slot none

def setRequest (s : Sys) (ref : Ref) (r : Request) : Sys :=
  match s.conns[ref.conn]? with
  | none => s
  | some n =>
    s.setConn ref.conn { n with
      connection := { n.connection with
        requests := n.connection.requests.set ref.slot (some r) } }

@[simp] theorem setConn_conns (s : Sys) (i : Nat) (n : Conn) :
    (s.setConn i n).conns = s.conns.set i n := rfl

@[simp] theorem setConn_queue (s : Sys) (i : Nat) (n : Conn) :
    (s.setConn i n).queue = s.queue := rfl

@[simp] theorem setConn_workers (s : Sys) (i : Nat) (n : Conn) :
    (s.setConn i n).workers = s.workers := rfl

@[simp] theorem setConn_log (s : Sys) (i : Nat) (n : Conn) : (s.setConn i n).log = s.log := rfl

@[simp] theorem setWorker_conns (s : Sys) (w : Nat) (pc : WorkerPc) :
    (s.setWorker w pc).conns = s.conns := rfl

@[simp] theorem setWorker_queue (s : Sys) (w : Nat) (pc : WorkerPc) :
    (s.setWorker w pc).queue = s.queue := rfl

@[simp] theorem setWorker_workers (s : Sys) (w : Nat) (pc : WorkerPc) :
    (s.setWorker w pc).workers = s.workers.set w pc := rfl

@[simp] theorem setWorker_log (s : Sys) (w : Nat) (pc : WorkerPc) :
    (s.setWorker w pc).log = s.log := rfl

@[simp] theorem record_conns (s : Sys) (ref : Ref) (marks : List Mark) :
    (s.record ref marks).conns = s.conns := rfl

@[simp] theorem record_queue (s : Sys) (ref : Ref) (marks : List Mark) :
    (s.record ref marks).queue = s.queue := rfl

@[simp] theorem record_workers (s : Sys) (ref : Ref) (marks : List Mark) :
    (s.record ref marks).workers = s.workers := rfl

@[simp] theorem record_log (s : Sys) (ref : Ref) (marks : List Mark) :
    (s.record ref marks).log = s.log ++ marks.map fun m => (ref, m) := rfl

@[simp] theorem setRequest_queue (s : Sys) (ref : Ref) (r : Request) :
    (s.setRequest ref r).queue = s.queue := by
  unfold setRequest
  split <;> rfl

@[simp] theorem setRequest_workers (s : Sys) (ref : Ref) (r : Request) :
    (s.setRequest ref r).workers = s.workers := by
  unfold setRequest
  split <;> rfl

@[simp] theorem setRequest_log (s : Sys) (ref : Ref) (r : Request) :
    (s.setRequest ref r).log = s.log := by
  unfold setRequest
  split <;> rfl

theorem setRequest_conns {s : Sys} {ref : Ref} {n : Conn} (h : s.conns[ref.conn]? = some n)
    (r : Request) :
    (s.setRequest ref r).conns = s.conns.set ref.conn { n with connection := { n.connection with
      requests := n.connection.requests.set ref.slot (some r) } } := by
  simp only [setRequest, h, setConn_conns]

theorem request?_eq_some {s : Sys} {ref : Ref} {r : Request} :
    s.request? ref = some r ↔
      ∃ n, s.conns[ref.conn]? = some n ∧ n.connection.requests[ref.slot]? = some (some r) := by
  unfold request?
  cases s.conns[ref.conn]? with
  | none => simp
  | some n =>
    simp only [List.getD_eq_getElem?_getD, Option.some.injEq, exists_eq_left']
    cases n.connection.requests[ref.slot]? <;> simp

/-- What a pass of the loop over a record leaves in the log of the slot. -/
def marks (h : Handled) (log : List Event) : List Mark :=
  match h with
  | .idle _ => log.map .did
  | .accepted _ => .accepted :: log.map .did
  | .cancelled _ => .cancelled :: log.map .did
  | .push _ => .dispatched :: log.map .did

/-- The thread of connection `i` after a pass that handled a record. -/
def afterTurn (s : Sys) (i : Nat) (c : Connection) (log : List Event) :
    Option (Nat × Handled) → Sys
  | none => s.setConn i ⟨c, .reading⟩
  | some (slot, h) =>
    let pc : ConnPc := match h with
      | .push _ => .pushing ⟨i, slot⟩
      | _ => .reading
    (s.setConn i ⟨c, pc⟩).record ⟨i, slot⟩ (marks h log)

def reading (p : Params) (s : Sys) (i : Nat) (n : Conn) (junk : Junk) (φ : Fate) : Option Sys :=
  if n.connection.sock.insane then
    match n.connection.turn p junk φ with
    | .blocked => none
    | .down c _ => some (s.crash c)
    | .left c => some (s.setConn i ⟨c, .tearingDown 0⟩)
    | .handled _ c did log => some (s.afterTurn i c log did)
  else some (s.setConn i { n with pc := .tearingDown 0 })

/-- The connections that hold a descriptor, which is an `int`. -/
def live (s : Sys) : Nat := s.conns.countP fun n => n.pc ≠ .gone

/-- `queue_bell.notify_one()`. -/
def notifyOne (s : Sys) : Option Nat → Option Sys
  | none => if WorkerPc.parked ∈ s.workers then none else some s
  | some w => if s.workers[w]? = some .parked then some (s.setWorker w .notified) else none

/-- `params_deserializer.reset()`. -/
def resetParams (c : Connection) (slot : Nat) : Connection :=
  match c.requests.getD slot none with
  | none => c
  | some r =>
    { c with requests := c.requests.set slot (some { r with paramsDeserializer := none }) }

def tearingDown (p : Params) (s : Sys) (i : Nat) (n : Conn) (k : Nat) (φ : Fate) : Sys :=
  if k < n.connection.requests.length then
    match n.connection.tearDown p k φ with
    | (.error c, _) => s.crash c
    | (.ok c, log) =>
      (s.setConn i ⟨c, .tearingDown (k + 1)⟩).record ⟨i, k⟩ (log.map .did)
  else s.setConn i { n with pc := .waiting }

def clearing (p : Params) (s : Sys) (i : Nat) (n : Conn) (k : Nat) (φ : Fate) : Sys :=
  if k < n.connection.requests.length then
    match n.connection.clearSlot p k φ with
    | (.error c, _) => s.crash c
    | (.ok c, log) => (s.setConn i ⟨c, .clearing (k + 1)⟩).record ⟨i, k⟩ (log.map .did)
  else
    match n.connection.destroy p φ with
    | (.error c, _) => s.crash c
    | (.ok c, _) => { s.setConn i ⟨c, .gone⟩ with socketActive := decr s.socketActive }

def connStep (p : Params) (s : Sys) (i : Nat) (n : Conn) (junk : Junk) (φ : Fate)
    (notified : Option Nat) : Option Sys :=
  match n.pc with
  | .reading => s.reading p i n junk φ
  | .pushing ref =>
    some { s.setConn i { n with pc := .locking ref } with workersBacklog := incr s.workersBacklog }
  | .locking ref =>
    notifyOne
      { s.setConn i { n with pc := .resetting ref } with queue := s.queue ++ [ref] } notified
  | .resetting ref => some (s.setConn i ⟨resetParams n.connection ref.slot, .reading⟩)
  | .tearingDown k => some (s.tearingDown p i n k φ)
  | .waiting =>
    if n.connection.requestActives = 0 then some (s.setConn i { n with pc := .clearing 0 })
    else none
  | .clearing k => some (s.clearing p i n k φ)
  | .gone => none

/-- `pop_request` with `queue_mutex` held. -/
def pop (s : Sys) (w : Nat) : Sys :=
  match s.queue with
  | [] => s.setWorker w .parked
  | ref :: queue =>
    { s.setWorker w (.popped ref) with
      queue := queue
      workersBacklog := decr s.workersBacklog }

/-- `--request.connection.request_actives`, the last use of the request. -/
def decrement (s : Sys) (w : Nat) (ref : Ref) : Sys :=
  match s.conns[ref.conn]? with
  | none => s.crash .useAfterFree
  | some n =>
    if n.pc = .gone then s.crash .useAfterFree
    else (s.setConn ref.conn { n with connection :=
      { n.connection with
        requestActives := decr n.connection.requestActives } }).setWorker w .loopTop

/-- A worker or the application uses the request. -/
def useRequest (s : Sys) (w : Nat) (ref : Ref) (φ : Fate)
    (use : Request → Option (Tx (Request × WorkerPc × Option Int))) : Option Sys :=
  match s.request? ref with
  | none => some (s.crash .useAfterFree)
  | some r =>
    match use r with
    | none => none
    | some tx =>
      match tx φ with
      | (.error c, _) => some (s.crash c)
      | (.ok (r, pc, got), log) =>
        some (((s.setRequest ref r).setWorker w pc).record ref
          (log.map .did ++ (got.map .got).toList))

def workerStep (p : Params) (s : Sys) (w : Nat) (pc : WorkerPc) (φ : Fate) : Option Sys :=
  match pc with
  | .loopTop => some (s.setWorker w (if s.socketListening then .popping else .checkActive))
  | .checkActive => some (s.setWorker w (if s.socketActive ≠ 0 then .popping else .exited))
  | .popping => some (s.pop w)
  | .notified => some (s.pop w)
  | .woken => some (s.pop w)
  | .decrementing ref => some (s.decrement w ref)
  | .parked => none
  | .running _ => none
  | .exited => none
  | .popped ref | .closingCout ref _ | .closingCerr ref _ | .sending ref _ =>
    s.useRequest w ref φ fun r => (workRequest p r pc).map fun tx => do
      let (r, pc) ← tx
      return (r, pc, none)

def step (p : Params) (s : Sys) (a : Act) : Option Sys :=
  if s.down.isSome then none
  else match a with
    | .accept junk =>
      if s.main = .accepting ∧ s.socketListening ∧ s.live < 2147483648 then
        some { s with
          conns := s.conns ++ [⟨.new p junk, .reading⟩]
          socketActive := incr s.socketActive }
      else none
    | .closeListening =>
      if s.main = .accepting ∧ s.socketListening then some { s with socketListening := false }
      else none
    | .leaveLoop =>
      if s.main = .accepting ∧ ¬ s.socketListening then some { s with main := .joining } else none
    | .join =>
      if s.main = .joining ∧ ∀ pc ∈ s.workers, pc = .exited then some { s with main := .ended }
      else none
    | .arrive i r =>
      match s.conns[i]? with
      | none => none
      | some n =>
        if n.pc = .gone then none
        else some (s.setConn i { n with connection := { n.connection with
          sock := { n.connection.sock with reads := n.connection.sock.reads ++ [r] } } })
    | .conn i junk φ notified =>
      match s.conns[i]? with
      | none => none
      | some n => s.connStep p i n junk φ notified
    | .worker w φ =>
      match s.workers[w]? with
      | none => none
      | some pc => s.workerStep p w pc φ
    | .wake w => if s.workers[w]? = some .parked then some (s.setWorker w .woken) else none
    | .app w op φ =>
      match s.workers[w]? with
      | some (.running ref) =>
        s.useRequest w ref φ fun r => (appOp p r op).map fun tx => do
          let (r, got) ← tx
          return (r, .running ref, got)
      | _ => none
    | .finish w how φ =>
      match s.workers[w]? with
      | some (.running ref) =>
        s.useRequest w ref φ fun r => some do
          let (r, body) ← callbackEnds p r how
          return (r, .closingCout ref body, none)
      | _ => none

/-! ## What a step does -/

/-- A step of a worker on its request. -/
inductive Worked (p : Params) (w : Nat) (ref : Ref) (r : Request) :
    Act → WorkerPc → Request → WorkerPc → Option Int → List Event → Prop where
  | start (φ : Fate) (role : BeginRequestRole.ofNat (r.role p) = .responder) :
      Worked p w ref r (.worker w φ) (.popped ref) r (.running ref) none []
  | unknown (φ : Fate) (r' : Request) (body : EndRequestBody) (log : List Event)
      (did : unknownRole p r φ = (.ok (r', body), log)) :
      Worked p w ref r (.worker w φ) (.popped ref) r' (.closingCout ref body) none log
  | cout (φ : Fate) (body : EndRequestBody) (o : Ostream) (log : List Event)
      (did : r.cout.close p φ = (.ok o, log)) :
      Worked p w ref r (.worker w φ) (.closingCout ref body) { r with cout := o }
        (.closingCerr ref body) none log
  | cerr (φ : Fate) (body : EndRequestBody) (o : Ostream) (log : List Event)
      (did : r.cerr.close p φ = (.ok o, log)) :
      Worked p w ref r (.worker w φ) (.closingCerr ref body) { r with cerr := o }
        (.sending ref body) none log
  | send (φ : Fate) (body : EndRequestBody) (log : List Event)
      (did : Request.sendOrThrow (endPacket p r body) φ = (.ok (), log)) :
      Worked p w ref r (.worker w φ) (.sending ref body) r (.decrementing ref) none log
  | app (φ : Fate) (op : AppOp) (tx : Tx (Request × Option Int)) (r' : Request)
      (got : Option Int) (log : List Event) (op_eq : appOp p r op = some tx)
      (did : tx φ = (.ok (r', got), log)) :
      Worked p w ref r (.app w op φ) (.running ref) r' (.running ref) got log
  | finish (φ : Fate) (how : AppEnd) (r' : Request) (body : EndRequestBody) (log : List Event)
      (did : callbackEnds p r how φ = (.ok (r', body), log)) :
      Worked p w ref r (.finish w how φ) (.running ref) r' (.closingCout ref body) none log

theorem complain_ok {p : Params} {r r' : Request} {texts : List String} {φ : Fate}
    {log : List Event} (h : complain p r texts φ = (.ok r', log)) :
    ∃ cerr, r' = { r with cerr := cerr } := by
  unfold complain at h
  split at h
  · obtain ⟨o₁, es₁, es₂, -, h, -⟩ := Tx.bind_eq_ok h
    obtain ⟨o₂, es₃, es₄, -, h, -⟩ := Tx.bind_eq_ok h
    obtain ⟨o₃, -, rfl⟩ := Tx.bind_return (fun _ => rfl) h
    exact ⟨o₃, rfl⟩
  · cases h
    exact ⟨r.cerr, rfl⟩

/-- A worker and the application change nothing of a request but its streams. -/
theorem Worked.keeps {p : Params} {w : Nat} {ref : Ref} {r r' : Request} {a : Act}
    {pc pc' : WorkerPc} {got : Option Int} {log : List Event}
    (h : Worked p w ref r a pc r' pc' got log) :
    pc.request? = some ref ∧ pc'.request? = some ref ∧
      ∃ cin cout cerr, r' = { r with cin := cin, cout := cout, cerr := cerr } := by
  cases h with
  | start φ role => exact ⟨rfl, rfl, _, _, _, rfl⟩
  | unknown φ r' body log did =>
    obtain ⟨r₁, hc, he⟩ := Tx.bind_return (fun _ => rfl) did
    cases he
    obtain ⟨cerr, rfl⟩ := complain_ok hc
    exact ⟨rfl, rfl, _, _, _, rfl⟩
  | cout φ body o log did => exact ⟨rfl, rfl, _, _, _, rfl⟩
  | cerr φ body o log did => exact ⟨rfl, rfl, _, _, _, rfl⟩
  | send φ body log did => exact ⟨rfl, rfl, _, _, _, rfl⟩
  | app φ op tx r' got log op_eq did =>
    refine ⟨rfl, rfl, ?_⟩
    have hstream : ∀ o x, ∃ cin cout cerr,
        setStream r o x = { r with cin := cin, cout := cout, cerr := cerr } := by
      intro o x
      cases o <;> exact ⟨_, _, _, rfl⟩
    cases op with
    | write o bytes | flush o | close o =>
      cases op_eq
      obtain ⟨x, -, he⟩ := Tx.bind_return (fun _ => rfl) did
      cases he
      exact hstream o x
    | get =>
      simp only [appOp] at op_eq
      split at op_eq
      · cases op_eq
      · cases op_eq
        cases did
        exact ⟨_, _, _, rfl⟩
  | finish φ how r' body log did =>
    refine ⟨rfl, rfl, ?_⟩
    cases how with
    | returns status =>
      cases did
      exact ⟨_, _, _, rfl⟩
    | throwsException what | throwsOther =>
      obtain ⟨r₁, hc, he⟩ := Tx.bind_return (fun _ => rfl) did
      cases he
      obtain ⟨cerr, rfl⟩ := complain_ok hc
      exact ⟨_, _, _, rfl⟩

inductive Effect (p : Params) (s : Sys) : Act → Sys → Prop where
  | crash (a : Act) (c : Crash) : Effect p s a (s.crash c)
  /-- no request is touched -/
  | quiet (a : Act) (s' : Sys) (conns : s'.conns = s.conns) (queue : s'.queue = s.queue)
      (held : s'.workers.filterMap WorkerPc.request? = s.workers.filterMap WorkerPc.request?)
      (down : s'.down = s.down) (log : s'.log = s.log)
      (busy : ∀ pc ∈ s'.workers, pc.request? ≠ none → pc ∈ s.workers) : Effect p s a s'
  | accept (junk : Junk) (s' : Sys) (conns : s'.conns = s.conns ++ [⟨.new p junk, .reading⟩])
      (queue : s'.queue = s.queue) (workers : s'.workers = s.workers) (down : s'.down = s.down)
      (log : s'.log = s.log) : Effect p s (.accept junk) s'
  | arrive (i : Nat) (n : Conn) (r : ReadResult) (sock : Sock) (conn : s.conns[i]? = some n) :
      Effect p s (.arrive i r)
        (s.setConn i { n with connection := { n.connection with sock := sock } })
  | turn (i : Nat) (n : Conn) (junk : Junk) (φ : Fate) (notified : Option Nat) (c : Connection)
      (sock : Sock) (did : Option (Nat × Handled)) (log : List Event)
      (conn : s.conns[i]? = some n) (pc : n.pc = .reading)
      (dispatched : Connection.Dispatched p junk φ n.connection c did log) :
      Effect p s (.conn i junk φ notified) (s.afterTurn i { c with sock := sock } log did)
  /-- the thread goes from one place to another, with nothing but the socket changed -/
  | move (i : Nat) (n : Conn) (junk : Junk) (φ : Fate) (notified : Option Nat) (sock : Sock)
      (pc : ConnPc) (conn : s.conns[i]? = some n)
      (moves : n.pc = .reading ∧ pc = .tearingDown 0 ∨
        (∃ k, n.pc = .tearingDown k ∧ n.connection.requests.length ≤ k ∧ pc = .waiting) ∨
        n.pc = .waiting ∧ n.connection.requestActives = 0 ∧ pc = .clearing 0) :
      Effect p s (.conn i junk φ notified)
        (s.setConn i ⟨{ n.connection with sock := sock }, pc⟩)
  | backlog (i : Nat) (n : Conn) (junk : Junk) (φ : Fate) (notified : Option Nat) (ref : Ref)
      (s' : Sys) (conn : s.conns[i]? = some n) (pc : n.pc = .pushing ref)
      (conns : s'.conns = (s.setConn i { n with pc := .locking ref }).conns)
      (queue : s'.queue = s.queue) (workers : s'.workers = s.workers) (down : s'.down = s.down)
      (log : s'.log = s.log) : Effect p s (.conn i junk φ notified) s'
  | push (i : Nat) (n : Conn) (junk : Junk) (φ : Fate) (notified : Option Nat) (ref : Ref)
      (s' : Sys) (conn : s.conns[i]? = some n) (pc : n.pc = .locking ref)
      (conns : s'.conns = (s.setConn i { n with pc := .resetting ref }).conns)
      (queue : s'.queue = s.queue ++ [ref])
      (held : s'.workers.filterMap WorkerPc.request? = s.workers.filterMap WorkerPc.request?)
      (down : s'.down = s.down) (log : s'.log = s.log)
      (busy : ∀ pc ∈ s'.workers, pc.request? ≠ none → pc ∈ s.workers) :
      Effect p s (.conn i junk φ notified) s'
  | reset (i : Nat) (n : Conn) (junk : Junk) (φ : Fate) (notified : Option Nat) (ref : Ref)
      (conn : s.conns[i]? = some n) (pc : n.pc = .resetting ref) :
      Effect p s (.conn i junk φ notified)
        (s.setConn i ⟨resetParams n.connection ref.slot, .reading⟩)
  | tear (i : Nat) (n : Conn) (junk : Junk) (φ : Fate) (notified : Option Nat) (k : Nat)
      (c : Connection) (log : List Event) (conn : s.conns[i]? = some n)
      (pc : n.pc = .tearingDown k) (lt : k < n.connection.requests.length)
      (tore : n.connection.tearDown p k φ = (.ok c, log)) :
      Effect p s (.conn i junk φ notified)
        ((s.setConn i ⟨c, .tearingDown (k + 1)⟩).record ⟨i, k⟩ (log.map .did))
  | clear (i : Nat) (n : Conn) (junk : Junk) (φ : Fate) (notified : Option Nat) (k : Nat)
      (c : Connection) (log : List Event) (conn : s.conns[i]? = some n)
      (pc : n.pc = .clearing k) (lt : k < n.connection.requests.length)
      (cleared : n.connection.clearSlot p k φ = (.ok c, log)) :
      Effect p s (.conn i junk φ notified)
        ((s.setConn i ⟨c, .clearing (k + 1)⟩).record ⟨i, k⟩ (log.map .did))
  | erase (i : Nat) (n : Conn) (junk : Junk) (φ : Fate) (notified : Option Nat) (k : Nat)
      (c : Connection) (log : List Event) (s' : Sys) (conn : s.conns[i]? = some n)
      (pc : n.pc = .clearing k) (le : n.connection.requests.length ≤ k)
      (destroyed : n.connection.destroy p φ = (.ok c, log))
      (conns : s'.conns = (s.setConn i ⟨c, .gone⟩).conns)
      (queue : s'.queue = s.queue) (workers : s'.workers = s.workers) (down : s'.down = s.down)
      (log_eq : s'.log = s.log) : Effect p s (.conn i junk φ notified) s'
  | pop (w : Nat) (φ : Fate) (pc : WorkerPc) (ref : Ref) (queue : List Ref) (s' : Sys)
      (worker : s.workers[w]? = some pc) (free : pc.request? = none)
      (queue_eq : s.queue = ref :: queue) (conns : s'.conns = s.conns) (queue' : s'.queue = queue)
      (workers : s'.workers = s.workers.set w (.popped ref)) (down : s'.down = s.down)
      (log : s'.log = s.log) : Effect p s (.worker w φ) s'
  | work (a : Act) (w : Nat) (ref : Ref) (r r' : Request) (pc pc' : WorkerPc) (got : Option Int)
      (log : List Event) (worker : s.workers[w]? = some pc) (request : s.request? ref = some r)
      (worked : Worked p w ref r a pc r' pc' got log) :
      Effect p s a (((s.setRequest ref r').setWorker w pc').record ref
        (log.map .did ++ (got.map .got).toList))
  | decrement (w : Nat) (φ : Fate) (ref : Ref) (n : Conn)
      (worker : s.workers[w]? = some (.decrementing ref)) (conn : s.conns[ref.conn]? = some n) :
      Effect p s (.worker w φ) ((s.setConn ref.conn { n with connection :=
        { n.connection with requestActives := decr n.connection.requestActives } }).setWorker w
          .loopTop)

theorem busy_set {workers : List WorkerPc} {w : Nat} {pc : WorkerPc} (h : pc.request? = none) :
    ∀ x ∈ workers.set w pc, x.request? ≠ none → x ∈ workers := by
  intro x hx hb
  rcases List.mem_or_eq_of_mem_set hx with hx | rfl
  · exact hx
  · exact absurd h hb

theorem quiet_worker (p : Params) {s : Sys} {w : Nat} {pc pc' : WorkerPc}
    (h : s.workers[w]? = some pc) (hf : pc.request? = none) (hf' : pc'.request? = none) (a : Act) :
    Effect p s a (s.setWorker w pc') :=
  .quiet a _ rfl rfl (Slots.filterMap_set_same h (hf'.trans hf.symm)) rfl rfl (busy_set hf')

theorem reading_effect {p : Params} {s s' : Sys} {i : Nat} {n : Conn} {junk : Junk} {φ : Fate}
    {notified : Option Nat} (hn : s.conns[i]? = some n) (hpc : n.pc = .reading)
    (h : s.reading p i n junk φ = some s') : Effect p s (.conn i junk φ notified) s' := by
  unfold reading at h
  split at h
  · split at h
    · cases h
    · cases h
      exact .crash _ _
    · rename_i c hc
      cases h
      obtain ⟨sock, rfl⟩ := Connection.turn_left hc
      exact .move i n junk φ notified sock _ hn (Or.inl ⟨hpc, rfl⟩)
    · rename_i header c did log hc
      cases h
      obtain ⟨c₁, sock, hd, rfl⟩ := Connection.turn_dispatched hc
      exact .turn i n junk φ notified c₁ sock did log hn hpc hd
  · cases h
    exact .move i n junk φ notified n.connection.sock _ hn (Or.inl ⟨hpc, rfl⟩)

theorem notifyOne_effect {s s' : Sys} {notified : Option Nat}
    (h : s.notifyOne notified = some s') :
    s'.conns = s.conns ∧ s'.queue = s.queue ∧
      s'.workers.filterMap WorkerPc.request? = s.workers.filterMap WorkerPc.request? ∧
      s'.down = s.down ∧ s'.log = s.log ∧
      ∀ pc ∈ s'.workers, pc.request? ≠ none → pc ∈ s.workers := by
  unfold notifyOne at h
  split at h
  · split at h
    · cases h
    · cases h
      exact ⟨rfl, rfl, rfl, rfl, rfl, fun _ hpc _ => hpc⟩
  · split at h
    · rename_i w hw
      cases h
      exact ⟨rfl, rfl, Slots.filterMap_set_same hw rfl, rfl, rfl, busy_set rfl⟩
    · cases h

theorem connStep_effect {p : Params} {s s' : Sys} {i : Nat} {n : Conn} {junk : Junk} {φ : Fate}
    {notified : Option Nat} (hn : s.conns[i]? = some n)
    (h : s.connStep p i n junk φ notified = some s') :
    Effect p s (.conn i junk φ notified) s' := by
  cases hpc : n.pc with
  | reading =>
    simp only [connStep, hpc] at h
    exact reading_effect hn hpc h
  | pushing ref =>
    simp only [connStep, hpc] at h
    cases h
    exact .backlog i n junk φ notified ref _ hn hpc rfl rfl rfl rfl rfl
  | locking ref =>
    simp only [connStep, hpc] at h
    obtain ⟨h1, h2, h3, h4, h5, h6⟩ := notifyOne_effect h
    exact .push i n junk φ notified ref _ hn hpc h1 h2 h3 h4 h5 h6
  | resetting ref =>
    simp only [connStep, hpc] at h
    cases h
    exact .reset i n junk φ notified ref hn hpc
  | tearingDown k =>
    simp only [connStep, hpc, tearingDown] at h
    split at h
    · rename_i hk
      split at h
      · cases h
        exact .crash _ _
      · rename_i c log hc
        cases h
        exact .tear i n junk φ notified k c log hn hpc hk hc
    · cases h
      exact .move i n junk φ notified n.connection.sock _ hn
        (Or.inr (Or.inl ⟨k, hpc, by omega, rfl⟩))
  | waiting =>
    simp only [connStep, hpc] at h
    split at h
    · rename_i hz
      cases h
      exact .move i n junk φ notified n.connection.sock _ hn (Or.inr (Or.inr ⟨hpc, hz, rfl⟩))
    · cases h
  | clearing k =>
    simp only [connStep, hpc, clearing] at h
    split at h
    · rename_i hk
      split at h
      · cases h
        exact .crash _ _
      · rename_i c log hc
        cases h
        exact .clear i n junk φ notified k c log hn hpc hk hc
    · split at h
      · cases h
        exact .crash _ _
      · rename_i c log hc
        cases h
        exact .erase i n junk φ notified k c log _ hn hpc (by omega) hc rfl rfl rfl rfl rfl
  | gone =>
    simp only [connStep, hpc] at h
    cases h

theorem useRequest_effect {p : Params} {s s' : Sys} {a : Act} {w : Nat} {pc : WorkerPc} {ref : Ref}
    {φ : Fate} {use : Request → Option (Tx (Request × WorkerPc × Option Int))}
    (hw : s.workers[w]? = some pc)
    (huse : ∀ r tx r' pc' got log, use r = some tx → tx φ = (.ok (r', pc', got), log) →
      Worked p w ref r a pc r' pc' got log)
    (h : s.useRequest w ref φ use = some s') : Effect p s a s' := by
  unfold useRequest at h
  split at h
  · cases h
    exact .crash _ _
  · rename_i r hr
    split at h
    · cases h
    · rename_i tx htx
      split at h
      · cases h
        exact .crash _ _
      · rename_i r' pc' got log hd
        cases h
        exact .work a w ref r r' pc pc' got log hw hr (huse r tx r' pc' got log htx hd)

theorem workRequest_worked {p : Params} {w : Nat} {ref : Ref} {r r' : Request} {pc pc' : WorkerPc}
    {tx : Tx (Request × WorkerPc)} {φ : Fate} {log : List Event} (href : pc.request? = some ref)
    (h : workRequest p r pc = some tx) (hd : tx φ = (.ok (r', pc'), log)) :
    Worked p w ref r (.worker w φ) pc r' pc' none log := by
  cases pc with
  | popped ref' =>
    cases href
    simp only [workRequest] at h
    split at h
    · rename_i hrole
      cases h
      cases hd
      exact .start φ hrole.1
    · cases h
      obtain ⟨⟨r₁, body⟩, hu, he⟩ := Tx.bind_return (fun _ => rfl) hd
      cases he
      exact .unknown φ r₁ body log hu
  | closingCout ref' body =>
    cases href
    cases h
    obtain ⟨o, ho, he⟩ := Tx.bind_return (fun _ => rfl) hd
    cases he
    exact .cout φ body o log ho
  | closingCerr ref' body =>
    cases href
    cases h
    obtain ⟨o, ho, he⟩ := Tx.bind_return (fun _ => rfl) hd
    cases he
    exact .cerr φ body o log ho
  | sending ref' body =>
    cases href
    cases h
    obtain ⟨u, ho, he⟩ := Tx.bind_return (fun _ => rfl) hd
    cases he
    exact .send φ body log ho
  | _ => cases h

/-- What a worker does by itself: it looks at the flags, at the queue, works on its
request, or lets go of it. -/
theorem workerStep_cases {p : Params} {s s' : Sys} {w : Nat} {pc : WorkerPc} {φ : Fate}
    (h : s.workerStep p w pc φ = some s') :
    (pc = .loopTop ∧ s' = s.setWorker w (if s.socketListening then .popping else .checkActive)) ∨
      (pc = .checkActive ∧
        s' = s.setWorker w (if s.socketActive ≠ 0 then .popping else .exited)) ∨
      ((pc = .popping ∨ pc = .notified ∨ pc = .woken) ∧ s' = s.pop w) ∨
      (∃ ref, pc.request? = some ref ∧
        (s.useRequest w ref φ fun r => (workRequest p r pc).map fun tx => do
          let (r, pc) ← tx
          return (r, pc, none)) = some s') ∨
      ∃ ref, pc = .decrementing ref ∧ s' = s.decrement w ref := by
  cases pc with
  | loopTop =>
    cases h
    exact Or.inl ⟨rfl, rfl⟩
  | checkActive =>
    cases h
    exact Or.inr (Or.inl ⟨rfl, rfl⟩)
  | popping | notified | woken =>
    cases h
    exact Or.inr (Or.inr (Or.inl ⟨by simp, rfl⟩))
  | popped ref | closingCout ref body | closingCerr ref body | sending ref body =>
    exact Or.inr (Or.inr (Or.inr (Or.inl ⟨ref, rfl, h⟩)))
  | decrementing ref =>
    cases h
    exact Or.inr (Or.inr (Or.inr (Or.inr ⟨ref, rfl, rfl⟩)))
  | parked | running _ | exited => cases h

theorem workerStep_effect {p : Params} {s s' : Sys} {w : Nat} {pc : WorkerPc} {φ : Fate}
    (hw : s.workers[w]? = some pc) (h : s.workerStep p w pc φ = some s') :
    Effect p s (.worker w φ) s' := by
  rcases workerStep_cases h with ⟨rfl, rfl⟩ | ⟨rfl, rfl⟩ | ⟨hpc, rfl⟩ | ⟨ref, href, hu⟩ |
    ⟨ref, rfl, rfl⟩
  · exact quiet_worker p hw rfl (by cases s.socketListening <;> rfl) _
  · refine quiet_worker p hw rfl ?_ _
    split <;> rfl
  · have hfree : pc.request? = none := by rcases hpc with rfl | rfl | rfl <;> rfl
    unfold pop
    split
    · exact quiet_worker p hw hfree rfl _
    · rename_i ref queue hq
      exact .pop w φ pc ref queue _ hw hfree hq rfl rfl rfl rfl rfl
  · refine useRequest_effect hw ?_ hu
    intro r tx r' pc' got log htx hd
    obtain ⟨tx', htx', rfl⟩ := Option.map_eq_some_iff.mp htx
    obtain ⟨⟨r₁, pc₁⟩, hr, he⟩ := Tx.bind_return (fun _ => rfl) hd
    cases he
    exact workRequest_worked href htx' hr
  · unfold decrement
    split
    · exact .crash _ _
    · rename_i n hn
      split
      · exact .crash _ _
      · exact .decrement w φ ref n hw hn

theorem step_effect {p : Params} {s s' : Sys} {a : Act} (h : step p s a = some s') :
    s.down = none ∧ Effect p s a s' := by
  unfold step at h
  split at h
  · cases h
  · rename_i hdown
    refine ⟨by simpa using hdown, ?_⟩
    cases a with
    | accept junk =>
      simp only at h
      split at h
      · cases h
        exact .accept junk _ rfl rfl rfl rfl rfl
      · cases h
    | closeListening | leaveLoop | join =>
      simp only at h
      split at h
      · cases h
        exact .quiet _ _ rfl rfl rfl rfl rfl fun _ hpc _ => hpc
      · cases h
    | arrive i r =>
      simp only at h
      split at h
      · cases h
      · rename_i n hn
        split at h
        · cases h
        · cases h
          exact .arrive i n r _ hn
    | conn i junk φ notified =>
      simp only at h
      split at h
      · cases h
      · rename_i n hn
        exact connStep_effect hn h
    | worker w φ =>
      simp only at h
      split at h
      · cases h
      · rename_i pc hw
        exact workerStep_effect hw h
    | wake w =>
      simp only at h
      split at h
      · rename_i hw
        cases h
        exact quiet_worker p hw rfl rfl _
      · cases h
    | app w op φ =>
      simp only at h
      split at h
      · rename_i ref hw
        refine useRequest_effect hw ?_ h
        intro r tx r' pc' got log htx hd
        obtain ⟨tx', htx', rfl⟩ := Option.map_eq_some_iff.mp htx
        obtain ⟨⟨r₁, got₁⟩, hr, he⟩ := Tx.bind_return (fun _ => rfl) hd
        cases he
        exact .app φ op tx' r₁ got₁ log htx' hr
      · cases h
    | finish w how φ =>
      simp only at h
      split at h
      · rename_i ref hw
        refine useRequest_effect hw ?_ h
        intro r tx r' pc' got log htx hd
        cases htx
        obtain ⟨⟨r₁, body⟩, hr, he⟩ := Tx.bind_return (fun _ => rfl) hd
        cases he
        exact .finish φ how r₁ body log hr
      · cases h

end Sys

/-! ## A run -/

/-- A run that is up at its end was up before. -/
theorem run_up {p : Params} {s s' : Sys} {as : List Act} (h : run (Sys.step p) s as = some s')
    (hup : s'.down = none) : s.down = none := by
  cases as with
  | nil =>
    cases h
    exact hup
  | cons a as =>
    obtain ⟨s₁, hstep, -⟩ := run_cons h
    exact (Sys.step_effect hstep).1

/-- A BEGIN_REQUEST record for a responder, then the end of its PARAMS stream. -/
def beginRecord : ReadResult := .data 1 [1, 1, 0, 0, 8, 0, 0, 0, 1, 0, 0, 0, 0, 0, 0]

def paramsEnd : ReadResult := .data 1 [4, 1, 0, 0, 0, 0, 0]

/-- Connection 0 moves `n` times, and then worker 0. -/
def connMoves (n : Nat) : List Act := List.replicate n (.conn 0 .zeros Fate.sent none)

def workerMoves (n : Nat) : List Act := List.replicate n (.worker 0 Fate.sent)

/-- Both records arrive, the request is queued and a worker starts the callback. -/
def started : List Act :=
  [.accept .zeros, .arrive 0 beginRecord, .arrive 0 paramsEnd] ++ connMoves 5 ++ workerMoves 3

/-- The callback returns, and the worker ends the request. -/
def served : List Act := started ++ [.finish 0 (.returns 0) Fate.sent] ++ workerMoves 4

theorem served_runs : ∃ s, run (Sys.step .standard) (.init 1) served = some s :=
  Option.isSome_iff_exists.mp (by decide +kernel)

end Tfcgi.System
