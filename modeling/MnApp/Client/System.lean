/-
# `MnApp.Client.System` — one connection of `mnhttpc.c` and its threads

A connection is shared by the threads that call `mnhttpc_request_finalize`
and by two workers of its own.  The threads of mnthr switch only where they
wait, so the system is a state and a list of actions: each is what one
thread does from one such place to the next.

    client k    call → acquire → (close → connect → sslinit) → out_body_cb
                → recv_signal → return
    httpsnd     bytestream_produce_data → bytestream_rewind → send_signal
    httprcv     mnthr_wait_for_read → http_parse_response → recv_signal k

`Step` says what every action does, `step` computes it, and `step_cases`
relates the two; whatever is proved about the system is proved from `Step`.

**mnthr.**  `reqfin_sema` has capacity 1 and is annotated with who holds it.
`mnthr_signal_send` wakes the subscriber, if there is one, and is lost
otherwise; neither it nor `MNTHR_SPAWN` switches.  `mnthr_join` waits for
the end of the thread.  An acquire, a wait, a read, a write or a subscribe
may fail at any time, which is how interrupts and a lost connection show.

**bytestream.**  `bytestream_produce_data` writes the bytes that stand
between `pos` and `eod` when it is called, waiting before each write;
`bytestream_rewind` sets both to 0.  Every byte of `out` carries the request
and the offset in it that it was written for.

**The parser** is `loopStep` of `MnApp.Http.Parser`, one action for each of
its steps, on `conn->in`.  `errno` is whatever it is when the call starts.

**The header callback** puts the headers of a response into a table, which is
what the calls leave (`inHeaders`).  The process dies in it when there is no
request, and when a header that is new to the table has no value
(`headerDies`): it reads through NULL.

**mncommon.**  The hash is a finite map on bytes, `bytes_set_lower` lowers
ASCII letters.  `bytes_new_from_str` copies a C string; the value of a header
that has none is NULL.

`Log` is not part of the program: it notes what happened, so that a
statement about a run is one about the state it leads to.
-/
import MnApp.Http.Parser
import MnApp.Http.Uri
import MnApp.Lib.Run

namespace MnHttpc

open MnHttp

/-! ## The callbacks of a response -/

/-- `response.in.headers`. -/
abbrev HeaderTable := List (List UInt8 × List UInt8)

/-- `mnhttpc_request_in_header`. -/
def mnhttpcRequestInHeader (headers : HeaderTable) (name : List UInt8) : Option (List UInt8) :=
  headers.lookup name

/-- `mnhttpc_response_header_cb`, which always returns 0: the table it leaves, or
`none` when it reads a value that is NULL. -/
def mnhttpcResponseHeaderCb (headers : HeaderTable) (ctx : Ctx) (bs : Stream) :
    Option HeaderTable :=
  let name := (CLib.cstr (bs.mem ctx.currentHeaderName.start)).map CLib.tolower
  -- first found wins
  match headers.lookup name with
  | some _ => some headers
  | none =>
      if ctx.currentHeaderValue.start < 0 then none
      else some ((name, CLib.cstr (bs.mem ctx.currentHeaderValue.start)) :: headers)

/-- `mnhttpc_response_line_cb`, `mnhttpc_response_header_cb` and `in_body_cb`, by
what they return; `in_body_cb` may be NULL. -/
def responseCallbacks (inBodyCb : Option Callback) : Callbacks :=
  ⟨some fun _ _ _ => 0, some fun _ _ _ => 0, inBodyCb⟩

/-- The table after the calls that were made. -/
def inHeaders (calls : List Call) : Option HeaderTable :=
  (calls.filter fun c => c.kind = .header).foldlM
    (fun t c => mnhttpcResponseHeaderCb t c.ctx c.inp) []

theorem headerCb_valued {ctx : Ctx} (h : 0 ≤ ctx.currentHeaderValue.start) (headers : HeaderTable)
    (bs : Stream) : ∃ t, mnhttpcResponseHeaderCb headers ctx bs = some t := by
  unfold mnhttpcResponseHeaderCb
  simp only [Int.not_lt.mpr h, if_false]
  split
  · exact ⟨_, rfl⟩
  · exact ⟨_, rfl⟩

theorem inHeaders_valued {calls : List Call}
    (h : ∀ c ∈ calls, c.kind = .header → 0 ≤ c.ctx.currentHeaderValue.start) :
    (inHeaders calls).isNone = false := by
  unfold inHeaders
  have hvalued : ∀ c ∈ calls.filter (fun c => c.kind = .header),
      0 ≤ c.ctx.currentHeaderValue.start := fun c hc => by
    obtain ⟨hmem, hkind⟩ := List.mem_filter.mp hc
    exact h c hmem (of_decide_eq_true hkind)
  generalize calls.filter (fun c => c.kind = .header) = cs at hvalued
  suffices ∀ t : HeaderTable,
      (cs.foldlM (fun t c => mnhttpcResponseHeaderCb t c.ctx c.inp) t).isNone = false from this []
  induction cs with
  | nil => exact fun _ => rfl
  | cons c cs ih =>
      intro t
      obtain ⟨t', ht'⟩ := headerCb_valued (hvalued c List.mem_cons_self) t c.inp
      rw [List.foldlM_cons, ht']
      exact ih (fun c' hc' => hvalued c' (List.mem_cons_of_mem _ hc')) t'

/-! ## The connection -/

/-- A request, by number. -/
abbrev ReqId := Nat

/-- Which functions a stream reads or writes with: those of mnthr, or
`bytestream_ssl_recv_more` and `bytestream_ssl_send`. -/
inductive StreamFns where
  | plain | ssl
deriving DecidableEq, Repr

/-- `conn->fp`: -1, NULL, a socket, or an SSL object, which is named by the
socket it was made for. -/
inductive Fp where
  | invalid | null
  | sock (n : Nat)
  | ssl (n : Nat)
deriving DecidableEq, Repr

/-- One byte of `conn->out`. -/
structure OutByte where
  byte : UInt8
  req : ReqId
  idx : Nat
deriving DecidableEq, Repr

/-- `mnhttpc_connection_t` without its key.  Sockets are numbered as they are
opened; `none` is -1 for `fd` and NULL for `ssl`. -/
structure Conn where
  fd : Option Nat
  fp : Fp
  sslctx : Bool
  ssl : Option Nat
  sendThread : Bool
  recvThread : Bool
  reqfinSema : Option ReqId
  inp : Stream
  readMore : StreamFns
  out : List OutByte
  outPos : Nat
  write : StreamFns
  requests : List ReqId

/-- `bytestream_init`. -/
def bytestreamInit : Stream := ⟨[], [], 0⟩

/-- `mnhttpc_connection_init`. -/
def connectionInit (scheme : Scheme) : Conn where
  fd := none
  fp := if scheme = .https then .null else .invalid
  sslctx := scheme = .https
  ssl := none
  sendThread := false
  recvThread := false
  reqfinSema := none
  inp := bytestreamInit
  readMore := if scheme = .https then .ssl else .plain
  out := []
  outPos := 0
  write := if scheme = .https then .ssl else .plain
  requests := []

/-- `mnhttpc_connection_gc`, with the semaphore held. -/
def Conn.gc (c : Conn) : Conn :=
  { c with
    inp := bytestreamInit
    readMore := .plain
    out := []
    outPos := 0
    write := .plain }

/-- `mnhttpc_connection_close`, once the workers are gone. -/
def Conn.closeFd (c : Conn) : Conn := { c with ssl := none, fd := none, fp := .invalid }

/-- `mnhttpc_connection_ssl_init`: `SSL_new` for the socket, if there is an
`sslctx`. -/
def Conn.sslInit (c : Conn) : Conn :=
  if c.sslctx then
    match c.fd with
    | some n => { c with ssl := some n, fp := .ssl n }
    | none => c
  else c

theorem Conn.sslInit_plain {c : Conn} (h : c.sslctx = false) : c.sslInit = c := by
  unfold Conn.sslInit
  rw [h]
  rfl

theorem Conn.sslInit_tls {c : Conn} {n : Nat} (h : c.sslctx = true) (hfd : c.fd = some n) :
    c.sslInit = { c with ssl := some n, fp := .ssl n } := by
  simp only [Conn.sslInit, h, hfd, if_true]

/-- `sslinit` touches nothing but `ssl` and `fp`. -/
theorem Conn.sslInit_frame (c : Conn) :
    c.sslInit = { c with ssl := c.sslInit.ssl, fp := c.sslInit.fp } := by
  unfold Conn.sslInit
  split
  · split <;> rfl
  · rfl

/-- The bytes of `out` that are still to be written. -/
def Conn.unsent (c : Conn) : List OutByte := c.out.drop c.outPos

/-! ## The threads -/

/-- What `mnhttpc_request_finalize` returns: 0, `MNHTTPC_REQUEST_FINALIZE + n`,
or what an interrupted `mnthr_signal_subscribe` gave. -/
inductive FinRes where
  | ok
  | finalize (n : Nat)
  | interrupted
deriving DecidableEq, Repr

/-- Where a call of `mnhttpc_request_finalize` stands. -/
inductive ClientPc where
  | idle
  /-- `mnthr_sema_acquire` -/
  | acquire
  /-- `mnthr_set_interrupt_and_join` of the send worker -/
  | joinSend
  /-- `mnthr_set_interrupt_and_join` of the receive worker -/
  | joinRecv
  /-- `mnthr_socket_connect` -/
  | connect
  /-- `mnthr_join` of `sslinit`, which has not run yet or has -/
  | joinSsl (started : Bool)
  /-- `out_body_cb`, with what it still has to append -/
  | body (rest : List OutByte)
  /-- `mnthr_signal_subscribe(&req->recv_signal)` -/
  | subscribed
  /-- signalled, and not running yet -/
  | woken
  | done (res : FinRes)
deriving DecidableEq, Repr

/-- The call holds the semaphore. -/
def ClientPc.holds : ClientPc → Bool
  | .idle | .acquire | .done _ => false
  | _ => true

/-- The call has put its request into the queue. -/
def ClientPc.enqueued : ClientPc → Bool
  | .subscribed | .woken | .done .ok | .done .interrupted => true
  | _ => false

/-- The call has not put its request into the queue yet. -/
def ClientPc.early : ClientPc → Bool
  | .subscribed | .woken | .done _ => false
  | _ => true

/-- `mnhttpc_connection_send_worker`. -/
inductive SendPc where
  | none
  | spawned
  /-- `bytestream_produce_data`, with what it still has to write -/
  | writing (rest : List OutByte)
  /-- `mnthr_signal_subscribe(&conn->send_signal)` -/
  | subscribed
  | woken
deriving DecidableEq, Repr

/-- The send worker after `mnthr_signal_send(&conn->send_signal)`. -/
def SendPc.signalled : SendPc → SendPc
  | .subscribed => .woken
  | pc => pc

/-- A call of `http_parse_response` on `conn->in`: for which request, and where
it stands. -/
structure Parse where
  req : Option ReqId
  pc : Pc
  ctx : Ctx
  errno : Int
  calls : List Call
deriving DecidableEq, Repr

/-- `mnhttpc_connection_recv_worker`. -/
inductive RecvPc where
  | none
  /-- `mnthr_wait_for_read` -/
  | waitRead
  | parsing (p : Parse)
deriving DecidableEq, Repr

def Parse.start (req : Option ReqId) (errno : Int) : Parse := ⟨req, .top, httpCtxInit, errno, []⟩

/-- The loop of the parser, with the reads it gets. -/
def Parse.loop (p : Parse) (inp : Stream) (reads : List Read) : LoopState :=
  ⟨p.pc, ⟨p.ctx, inp, p.errno, p.calls⟩, reads⟩

/-- Where the loop goes on. -/
def Parse.next (p : Parse) (pc : Pc) (q : Parser) : Parse := ⟨p.req, pc, q.ctx, q.errno, q.calls⟩

/-! ## The system -/

/-- A parse that has returned. -/
structure Parsed where
  req : Option ReqId
  res : Res
  calls : List Call
deriving DecidableEq, Repr

/-- What has happened. -/
structure Log where
  /-- the order in which the semaphore was acquired -/
  acquired : List ReqId
  /-- the socket a request was begun on -/
  sock : ReqId → Option Nat
  /-- the request that was begun first on a socket -/
  opener : Option Nat → Option ReqId
  /-- the bytes written, with the socket each went to -/
  wire : List (Option Nat × OutByte)
  /-- the bytes received -/
  received : List UInt8
  /-- the socket each byte of `conn->in` came from -/
  origins : List (Option Nat)
  /-- the sockets of the bytes a parse for the request was given -/
  fed : ReqId → List (Option Nat)
  /-- the parses that have returned -/
  parses : List Parsed

structure Sys where
  conn : Conn
  client : ReqId → ClientPc
  send : SendPc
  recv : RecvPc
  /-- how many sockets have been opened -/
  nsock : Nat
  /-- the process has died -/
  crashed : Bool
  log : Log

/-- What the requests of a run are, and what is fixed outside the program. -/
structure Setting where
  pf : Platform
  /-- what `mnhttpc_request_finalize` writes up to the end of the header -/
  head : ReqId → List UInt8
  head_ne : ∀ k, head k ≠ []
  /-- what `out_body_cb` appends in all; `none` is NULL -/
  body : ReqId → Option (List UInt8)
  inBodyCb : ReqId → Option Callback

/-- Bytes of a request, from an offset on. -/
def tag (k : ReqId) (off : Nat) (bs : List UInt8) : List OutByte :=
  (bs.zipIdx off).map fun e => ⟨e.1, k, e.2⟩

section
variable (S : Setting)

def Setting.headOf (k : ReqId) : List OutByte := tag k 0 (S.head k)

def Setting.bodyOf (k : ReqId) : List OutByte := tag k (S.head k).length ((S.body k).getD [])

theorem Setting.headOf_ne (k : ReqId) : S.headOf k ≠ [] := by
  intro h
  have hlen := congrArg List.length h
  simp only [Setting.headOf, tag, List.length_map, List.length_zipIdx, List.length_nil] at hlen
  exact S.head_ne k (List.length_eq_zero_iff.mp hlen)

/-- What the receive worker calls `http_parse_response` with. -/
def Setting.callbacks : Option ReqId → Callbacks
  | some k => responseCallbacks (S.inBodyCb k)
  | none => responseCallbacks none

end

/-- `mnhttpc_response_header_cb` was called, and its `udata` is NULL. -/
def nullHeader (req : Option ReqId) (calls : List Call) : Bool :=
  req.isNone && calls.any fun c => c.kind == .header

/-- `mnhttpc_response_header_cb` reads through NULL: there is no request, or no
value. -/
def headerDies (req : Option ReqId) (calls : List Call) : Bool :=
  nullHeader req calls || (inHeaders calls).isNone

/-- A new connection. -/
def Sys.init (scheme : Scheme) : Sys where
  conn := connectionInit scheme
  client _ := .idle
  send := .none
  recv := .none
  nsock := 0
  crashed := false
  log :=
    { acquired := [], sock := fun _ => none, opener := fun _ => none, wire := [],
      received := [], origins := [], fed := fun _ => [], parses := [] }

namespace Sys

/-! ## What the clients do -/

def setClient (s : Sys) (k : ReqId) (pc : ClientPc) : Sys :=
  { s with client := Function.update s.client k pc }

/-- `mnthr_sema_acquire`. -/
def hold (s : Sys) (k : ReqId) : Sys :=
  { s with
    conn := { s.conn with reqfinSema := some k }
    log := { s.log with acquired := s.log.acquired ++ [k] } }

/-- `mnthr_sema_release`, and return. -/
def release (s : Sys) (k : ReqId) (res : FinRes) : Sys :=
  { s with conn := { s.conn with reqfinSema := none } }.setClient k (.done res)

/-- Bytes appended to `conn->out`. -/
def append (s : Sys) (bs : List OutByte) : Sys :=
  { s with conn := { s.conn with out := s.conn.out ++ bs } }

/-- The first bytes of a request appended to `conn->out`. -/
def beginRequest (s : Sys) (k : ReqId) (bs : List OutByte) : Sys :=
  { s with
    conn := { s.conn with out := s.conn.out ++ bs }
    log := { s.log with
      sock := Function.update s.log.sock k s.conn.fd
      opener := Function.update s.log.opener s.conn.fd
        (some ((s.log.opener s.conn.fd).getD k)) } }

/-- The request goes into the queue, the send worker is told, and the call
waits for its response. -/
def enqueue (s : Sys) (k : ReqId) : Sys :=
  { s with
    conn := { s.conn with requests := s.conn.requests ++ [k] }
    send := s.send.signalled }.setClient k .subscribed

/-- From `mnhttp_uri_start_request` on, which may fail with some bytes
written. -/
def startRequest (S : Setting) (s : Sys) (k : ReqId) (failed : Option Nat) : Sys :=
  match failed with
  | some 0 => s.release k (.finalize 3)
  | some (n + 1) => (s.beginRequest k ((S.headOf k).take (n + 1))).release k (.finalize 3)
  | none =>
      if (S.body k).isSome then
        (s.beginRequest k (S.headOf k)).setClient k (.body (S.bodyOf k))
      else (s.beginRequest k (S.headOf k)).enqueue k

/-- `mnhttpc_connection_close` without workers, and on to
`mnhttpc_connection_connect`. -/
def closeFd (s : Sys) (k : ReqId) : Sys :=
  { s with conn := s.conn.closeFd }.setClient k .connect

/-- `mnhttpc_connection_close`, from the receive worker on. -/
def closeRecv (s : Sys) (k : ReqId) : Sys :=
  if s.conn.recvThread then s.setClient k .joinRecv else s.closeFd k

/-- `mnhttpc_connection_close`. -/
def close (s : Sys) (k : ReqId) : Sys :=
  if s.conn.sendThread then s.setClient k .joinSend else s.closeRecv k

/-- `conn->send_thread = NULL`, behind the join. -/
def clearSend (s : Sys) : Sys := { s with conn := { s.conn with sendThread := false } }

/-- `conn->recv_thread = NULL`, behind the join. -/
def clearRecv (s : Sys) : Sys := { s with conn := { s.conn with recvThread := false } }

/-- `mnhttpc_connection_ensure_connected`. -/
def ensureConnected (S : Setting) (s : Sys) (k : ReqId) (failed : Option Nat) : Sys :=
  if s.conn.sendThread && s.conn.recvThread then s.startRequest S k failed else s.close k

/-- A socket is there; `sslinit` is spawned. -/
def connected (s : Sys) (k : ReqId) : Sys :=
  { s with
    conn := { s.conn with fd := some s.nsock, fp := .sock s.nsock }
    nsock := s.nsock + 1 }.setClient k (.joinSsl false)

/-- `mnhttpc_connection_ssl_init`, up to the handshake. -/
def sslInit (s : Sys) (k : ReqId) : Sys :=
  { s with conn := s.conn.sslInit }.setClient k (.joinSsl true)

/-- The workers are spawned. -/
def spawn (s : Sys) : Sys :=
  { s with
    conn := { s.conn with sendThread := true, recvThread := true }
    send := .spawned
    recv := .waitRead }

/-! ## What the send worker does -/

/-- `bytestream_produce_data` has bytes to write. -/
def writing (s : Sys) (rest : List OutByte) : Sys := { s with send := .writing rest }

/-- `bytestream_produce_data` is done: `bytestream_rewind`, and wait for a
signal. -/
def produced (s : Sys) : Sys :=
  { s with conn := { s.conn with out := [], outPos := 0 }, send := .subscribed }

/-- `bytestream_produce_data`, with `rest` to write. -/
def produce (s : Sys) (rest : List OutByte) : Sys :=
  if rest = [] then s.produced else s.writing rest

/-- Bytes written to the socket. -/
def wrote (s : Sys) (bs : List OutByte) : Sys :=
  { s with
    conn := { s.conn with outPos := s.conn.outPos + bs.length }
    log := { s.log with wire := s.log.wire ++ bs.map fun b => (s.conn.fd, b) } }

/-- The send worker exits. -/
def sendExit (s : Sys) : Sys :=
  { s with conn := { s.conn with sendThread := false }, send := .none }

/-! ## What the receive worker does -/

/-- The receive worker exits. -/
def recvExit (s : Sys) : Sys :=
  { s with conn := { s.conn with recvThread := false }, recv := .none }

/-- `http_parse_response` for no request. -/
def parseNull (s : Sys) (errno : Int) : Sys := { s with recv := .parsing (.start none errno) }

/-- `http_parse_response` for the first request of the queue. -/
def parseFor (s : Sys) (k : ReqId) (ks : List ReqId) (errno : Int) : Sys :=
  { s with
    conn := { s.conn with requests := ks }
    recv := .parsing (.start (some k) errno)
    log := { s.log with
      fed := Function.update s.log.fed k (s.log.origins.drop s.conn.inp.pos.toNat) } }

/-- There is something to read. -/
def recvReady (s : Sys) (errno : Int) : Sys :=
  match s.conn.requests with
  | [] => s.parseNull errno
  | k :: ks => s.parseFor k ks errno

/-- Bytes read into `conn->in`, for the parse of a request. -/
def noteRead (s : Sys) (req : Option ReqId) (bs : List UInt8) : Sys :=
  let fds := List.replicate bs.length s.conn.fd
  { s with log := { s.log with
      received := s.log.received ++ bs
      origins := s.log.origins ++ fds
      fed := fun k => if req = some k then s.log.fed k ++ fds else s.log.fed k } }

/-- The parser leaves the stream as `inp`; what it has recycled is gone. -/
def setInp (s : Sys) (inp : Stream) : Sys :=
  { s with
    conn := { s.conn with inp := inp }
    log := { s.log with
      origins := s.log.origins.drop (s.log.origins.length - inp.data.length) } }

/-- The parser goes on. -/
def parseOn (s : Sys) (p : Parse) (pc : Pc) (q : Parser) : Sys :=
  { s.setInp q.inp with recv := .parsing (p.next pc q) }

/-- `mnthr_signal_send(&req->recv_signal)`, if there is a request. -/
def signalRecv (s : Sys) (req : Option ReqId) : Sys :=
  { s with client := fun k =>
      if req = some k ∧ s.client k = .subscribed then .woken else s.client k }

/-- A parse has returned `r`, and its request is told. -/
def parsed (s : Sys) (p : Parse) (r : Res) (q : Parser) : Sys :=
  { s.setInp q.inp with log := { (s.setInp q.inp).log with
      parses := s.log.parses ++ [Parsed.mk p.req r q.calls] } }.signalRecv p.req

/-- Back to `mnthr_wait_for_read`. -/
def waitRead (s : Sys) : Sys := { s with recv := .waitRead }

/-- The process dies. -/
def crash (s : Sys) : Sys := { s with crashed := true }

/-- `mnhttpc_connection_gc`. -/
def gc (s : Sys) : Sys :=
  { s with conn := s.conn.gc, log := { s.log with origins := [] } }

end Sys

/-! ## Steps -/

inductive Act where
  | call (k : ReqId)
  | acquire (k : ReqId) (failed : Option Nat)
  | acquireFails (k : ReqId)
  | sendJoined (k : ReqId)
  | recvJoined (k : ReqId)
  | connected (k : ReqId)
  | connectFails (k : ReqId)
  | sslStart (k : ReqId)
  | sslDone (k : ReqId) (failed : Option Nat)
  | sslFails (k : ReqId)
  | body (k : ReqId) (n : Nat)
  | bodyDone (k : ReqId)
  | wake (k : ReqId)
  | interrupt (k : ReqId)
  | sendRun
  | sendWrite (n : Nat)
  | sendExit
  | recvReady (errno : Int)
  | recv (rd : Option Read)
  | recvExit
  | gc
deriving DecidableEq, Repr

/-- A read that delivers something, or fails. -/
def ReadOk : Option Read → Prop
  | some (.bytes bs _) => bs ≠ []
  | _ => True

/-- What a read delivers. -/
def bytesOf : Option Read → List UInt8
  | some (.bytes bs _) => bs
  | _ => []

instance : (rd : Option Read) → Decidable (ReadOk rd)
  | some (.bytes bs _) => inferInstanceAs (Decidable (bs ≠ []))
  | some (.fail _) => isTrue trivial
  | none => isTrue trivial

section
variable (S : Setting)

/-- One step of the parser in the receive worker. -/
def Sys.parseStep (s : Sys) (p : Parse) (rd : Option Read) : Loop.Next LoopState Outcome :=
  loopStep S.pf parseStatusLine (S.callbacks p.req) (p.loop s.conn.inp rd.toList)

/-- The callback calls that have been made when a step of the parser ends. -/
def stepCalls : Loop.Next LoopState Outcome → List Call
  | .again l => l.par.calls
  | .done (.blocked q) => q.calls
  | .done (.returned _ q _) => q.calls

/-- From `mnhttp_uri_start_request` on. -/
inductive Starts (s : Sys) (k : ReqId) : Option Nat → Sys → Prop
  | refused : Starts s k (some 0) (s.release k (.finalize 3))
  | broken {n : Nat} : Starts s k (some (n + 1))
      ((s.beginRequest k ((S.headOf k).take (n + 1))).release k (.finalize 3))
  | body : (S.body k).isSome = true →
      Starts s k none ((s.beginRequest k (S.headOf k)).setClient k (.body (S.bodyOf k)))
  | plain : (S.body k).isSome = false →
      Starts s k none ((s.beginRequest k (S.headOf k)).enqueue k)

/-- `mnhttpc_connection_close`. -/
inductive Closes (s : Sys) (k : ReqId) : Sys → Prop
  | joinSend : s.conn.sendThread = true → Closes s k (s.setClient k .joinSend)
  | joinRecv : s.conn.sendThread = false → s.conn.recvThread = true →
      Closes s k (s.setClient k .joinRecv)
  | connect : s.conn.sendThread = false → s.conn.recvThread = false → Closes s k (s.closeFd k)

/-- What each action does, and when it can. -/
inductive Step : Sys → Act → Sys → Prop
  | call {s : Sys} {k : ReqId} : s.client k = .idle →
      Step s (.call k) (s.setClient k .acquire)
  | acquire {s s' : Sys} {k : ReqId} {failed : Option Nat} : s.client k = .acquire →
      s.conn.reqfinSema = none → s.conn.sendThread = true → s.conn.recvThread = true →
      Starts S (s.hold k) k failed s' → Step s (.acquire k failed) s'
  | reconnect {s s' : Sys} {k : ReqId} {failed : Option Nat} : s.client k = .acquire →
      s.conn.reqfinSema = none → Closes (s.hold k) k s' → Step s (.acquire k failed) s'
  | acquireFails {s : Sys} {k : ReqId} : s.client k = .acquire →
      Step s (.acquireFails k) (s.setClient k (.done (.finalize 1)))
  | sendJoined {s s' : Sys} {k : ReqId} : s.client k = .joinSend → s.send = .none →
      Closes s.clearSend k s' → Step s (.sendJoined k) s'
  | recvJoined {s : Sys} {k : ReqId} : s.client k = .joinRecv → s.recv = .none →
      Step s (.recvJoined k) (s.clearRecv.closeFd k)
  | connected {s : Sys} {k : ReqId} : s.client k = .connect →
      Step s (.connected k) (s.connected k)
  | connectFails {s : Sys} {k : ReqId} : s.client k = .connect →
      Step s (.connectFails k) (s.release k (.finalize 2))
  | sslStart {s : Sys} {k : ReqId} : s.client k = .joinSsl false →
      Step s (.sslStart k) (s.sslInit k)
  | sslDone {s s' : Sys} {k : ReqId} {failed : Option Nat} : s.client k = .joinSsl true →
      Starts S s.spawn k failed s' → Step s (.sslDone k failed) s'
  | sslFails {s : Sys} {k : ReqId} : s.client k = .joinSsl true →
      Step s (.sslFails k) (s.release k (.finalize 2))
  | body {s : Sys} {k : ReqId} {n : Nat} {rest : List OutByte} : s.client k = .body rest →
      Step s (.body k n) ((s.append (rest.take n)).setClient k (.body (rest.drop n)))
  | bodyDone {s : Sys} {k : ReqId} {rest : List OutByte} : s.client k = .body rest →
      Step s (.bodyDone k) ((s.append rest).enqueue k)
  | wake {s : Sys} {k : ReqId} : s.client k = .woken →
      Step s (.wake k) (s.release k .ok)
  | interrupt {s : Sys} {k : ReqId} : s.client k = .subscribed →
      Step s (.interrupt k) (s.release k .interrupted)
  | sendNothing {s : Sys} : s.send = .spawned ∨ s.send = .woken → s.conn.unsent = [] →
      Step s .sendRun s.produced
  | sendStart {s : Sys} : s.send = .spawned ∨ s.send = .woken → s.conn.unsent ≠ [] →
      Step s .sendRun (s.writing s.conn.unsent)
  | sendSome {s : Sys} {n : Nat} {rest : List OutByte} : s.send = .writing rest → 0 < n →
      n < rest.length → Step s (.sendWrite n) ((s.wrote (rest.take n)).writing (rest.drop n))
  | sendLast {s : Sys} {rest : List OutByte} : s.send = .writing rest → rest ≠ [] →
      Step s (.sendWrite rest.length) (s.wrote rest).produced
  | sendExit {s : Sys} : s.send = .subscribed ∨ (∃ rest, s.send = .writing rest) →
      Step s .sendExit s.sendExit
  | recvNull {s : Sys} {errno : Int} : s.recv = .waitRead → s.conn.requests = [] →
      Step s (.recvReady errno) (s.parseNull errno)
  | recvFor {s : Sys} {errno : Int} {k : ReqId} {ks : List ReqId} : s.recv = .waitRead →
      s.conn.requests = k :: ks → Step s (.recvReady errno) (s.parseFor k ks errno)
  | recvOn {s : Sys} {rd : Option Read} {p : Parse} {pc : Pc} {q : Parser} :
      s.recv = .parsing p → ReadOk rd → s.parseStep S p rd = .again (LoopState.mk pc q []) →
      headerDies p.req q.calls = false →
      Step s (.recv rd) ((s.noteRead p.req (bytesOf rd)).parseOn p pc q)
  | recvOk {s : Sys} {rd : Option Read} {p : Parse} {q : Parser} :
      s.recv = .parsing p → ReadOk rd → s.parseStep S p rd = .done (.returned .ok q []) →
      headerDies p.req q.calls = false →
      Step s (.recv rd) ((s.noteRead p.req (bytesOf rd)).parsed p .ok q).waitRead
  | recvBad {s : Sys} {rd : Option Read} {p : Parse} {r : Res} {q : Parser} :
      s.recv = .parsing p → ReadOk rd → s.parseStep S p rd = .done (.returned r q []) →
      r ≠ .ok → r ≠ .crash → headerDies p.req q.calls = false →
      Step s (.recv rd) ((s.noteRead p.req (bytesOf rd)).parsed p r q).recvExit
  | recvDies {s : Sys} {rd : Option Read} {p : Parse} : s.recv = .parsing p → ReadOk rd →
      headerDies p.req (stepCalls (s.parseStep S p rd)) = true → Step s (.recv rd) s.crash
  | recvCrash {s : Sys} {rd : Option Read} {p : Parse} {q : Parser} : s.recv = .parsing p →
      ReadOk rd → s.parseStep S p rd = .done (.returned .crash q []) → Step s (.recv rd) s.crash
  | recvExit {s : Sys} : s.recv = .waitRead → Step s .recvExit s.recvExit
  | gc {s : Sys} : s.conn.reqfinSema = none → Step s .gc s.gc

/-- One step of the receive worker inside `http_parse_response`. -/
def Sys.stepRecv (s : Sys) (rd : Option Read) : Option Sys :=
  match s.recv with
  | .parsing p =>
      if ReadOk rd then
        match s.parseStep S p rd with
        | .again ⟨pc, q, []⟩ =>
            if headerDies p.req q.calls then some s.crash
            else some ((s.noteRead p.req (bytesOf rd)).parseOn p pc q)
        | .done (.returned r q []) =>
            if headerDies p.req q.calls then some s.crash
            else if r = .ok then some ((s.noteRead p.req (bytesOf rd)).parsed p .ok q).waitRead
            else if r = .crash then some s.crash
            else some ((s.noteRead p.req (bytesOf rd)).parsed p r q).recvExit
        | _ => none
      else none
  | _ => none

/-- `guarded c s`: the action leads to `s`, and is enabled if `c`. -/
def guarded (c : Prop) [Decidable c] (s : Sys) : Option Sys := if c then some s else none

/-- The action, computed. -/
def act (s : Sys) : Act → Option Sys
  | .call k => guarded (s.client k = .idle) (s.setClient k .acquire)
  | .acquire k failed =>
      guarded (s.client k = .acquire ∧ s.conn.reqfinSema = none)
        ((s.hold k).ensureConnected S k failed)
  | .acquireFails k =>
      guarded (s.client k = .acquire) (s.setClient k (.done (.finalize 1)))
  | .sendJoined k => guarded (s.client k = .joinSend ∧ s.send = .none) (s.clearSend.closeRecv k)
  | .recvJoined k => guarded (s.client k = .joinRecv ∧ s.recv = .none) (s.clearRecv.closeFd k)
  | .connected k => guarded (s.client k = .connect) (s.connected k)
  | .connectFails k => guarded (s.client k = .connect) (s.release k (.finalize 2))
  | .sslStart k => guarded (s.client k = .joinSsl false) (s.sslInit k)
  | .sslDone k failed =>
      guarded (s.client k = .joinSsl true) (s.spawn.startRequest S k failed)
  | .sslFails k => guarded (s.client k = .joinSsl true) (s.release k (.finalize 2))
  | .body k n =>
      match s.client k with
      | .body rest => some ((s.append (rest.take n)).setClient k (.body (rest.drop n)))
      | _ => none
  | .bodyDone k =>
      match s.client k with
      | .body rest => some ((s.append rest).enqueue k)
      | _ => none
  | .wake k => guarded (s.client k = .woken) (s.release k .ok)
  | .interrupt k => guarded (s.client k = .subscribed) (s.release k .interrupted)
  | .sendRun =>
      guarded (s.send = .spawned ∨ s.send = .woken) (s.produce s.conn.unsent)
  | .sendWrite n =>
      match s.send with
      | .writing rest =>
          guarded (0 < n ∧ n ≤ rest.length) ((s.wrote (rest.take n)).produce (rest.drop n))
      | _ => none
  | .sendExit =>
      match s.send with
      | .subscribed => some s.sendExit
      | .writing _ => some s.sendExit
      | _ => none
  | .recvReady errno => guarded (s.recv = .waitRead) (s.recvReady errno)
  | .recv rd => s.stepRecv S rd
  | .recvExit => guarded (s.recv = .waitRead) s.recvExit
  | .gc => guarded (s.conn.reqfinSema = none) s.gc

/-- A dead process does nothing. -/
def step (s : Sys) (a : Act) : Option Sys := if s.crashed then none else act S s a

variable {S}

theorem guarded_eq {c : Prop} [Decidable c] {s s' : Sys} (h : guarded c s = some s') :
    c ∧ s = s' := by
  unfold guarded at h
  split at h
  · exact ⟨‹c›, Option.some.inj h⟩
  · cases h

theorem headerDies_some {k : ReqId} {calls : List Call}
    (h : (inHeaders calls).isNone = false) : headerDies (some k) calls = false := h

theorem startRequest_cases (s : Sys) (k : ReqId) (failed : Option Nat) :
    Starts S s k failed (s.startRequest S k failed) := by
  unfold Sys.startRequest
  split
  · exact .refused
  · exact .broken
  · split
    · exact .body ‹_›
    · exact .plain (Bool.eq_false_iff.mpr ‹_›)

theorem closeRecv_cases {s : Sys} {k : ReqId} (h : s.conn.sendThread = false) :
    Closes s k (s.closeRecv k) := by
  unfold Sys.closeRecv
  split
  · exact .joinRecv h ‹_›
  · exact .connect h (Bool.eq_false_iff.mpr ‹_›)

theorem close_cases (s : Sys) (k : ReqId) : Closes s k (s.close k) := by
  unfold Sys.close
  split
  · exact .joinSend ‹_›
  · exact closeRecv_cases (Bool.eq_false_iff.mpr ‹_›)

theorem recvReady_cases {s : Sys} (errno : Int) (h : s.recv = .waitRead) :
    Step S s (.recvReady errno) (s.recvReady errno) := by
  unfold Sys.recvReady
  split
  · exact .recvNull h ‹_›
  · exact .recvFor h ‹_›

theorem stepRecv_cases {s s' : Sys} {rd : Option Read} (h : s.stepRecv S rd = some s') :
    Step S s (.recv rd) s' := by
  unfold Sys.stepRecv at h
  split at h
  · rename_i p hp
    split at h
    · rename_i hrd
      split at h
      · rename_i heq
        split at h
        · cases h
          exact .recvDies hp hrd (by rw [heq]; assumption)
        · cases h
          exact .recvOn hp hrd heq (Bool.eq_false_iff.mpr ‹_›)
      · rename_i r q heq
        split at h
        · cases h
          exact .recvDies hp hrd (by rw [heq]; assumption)
        · rename_i hlives
          have hlives := Bool.eq_false_iff.mpr hlives
          split at h
          · rename_i hok
            cases h
            exact .recvOk hp hrd (hok ▸ heq) hlives
          · split at h
            · rename_i hcrash
              cases h
              exact .recvCrash hp hrd (hcrash ▸ heq)
            · cases h
              exact .recvBad hp hrd heq ‹_› ‹_› hlives
      · cases h
    · cases h
  · cases h

theorem sendRun_cases {s : Sys} (h : s.send = .spawned ∨ s.send = .woken) :
    Step S s .sendRun (s.produce s.conn.unsent) := by
  unfold Sys.produce
  split
  · exact .sendNothing h ‹_›
  · exact .sendStart h ‹_›

theorem sendWrite_cases {s : Sys} {n : Nat} {rest : List OutByte} (h : s.send = .writing rest)
    (h0 : 0 < n) (hn : n ≤ rest.length) :
    Step S s (.sendWrite n) ((s.wrote (rest.take n)).produce (rest.drop n)) := by
  unfold Sys.produce
  split
  · rename_i hnil
    obtain rfl : n = rest.length := by
      have := List.drop_eq_nil_iff.mp hnil
      omega
    rw [List.take_length]
    exact .sendLast h (List.length_pos_iff.mp h0)
  · rename_i hne
    refine .sendSome h h0 ?_
    have := mt List.drop_eq_nil_iff.mpr hne
    omega

theorem act_cases {s s' : Sys} {a : Act} (h : act S s a = some s') : Step S s a s' := by
  cases a with
  | call k => obtain ⟨hk, rfl⟩ := guarded_eq h; exact .call hk
  | acquire k failed =>
      obtain ⟨⟨hk, hs⟩, rfl⟩ := guarded_eq h
      unfold Sys.ensureConnected
      split
      · rename_i hthreads
        obtain ⟨hsend, hrecv⟩ := Bool.and_eq_true_iff.mp hthreads
        exact .acquire hk hs hsend hrecv (startRequest_cases _ k failed)
      · exact .reconnect hk hs (close_cases _ k)
  | acquireFails k => obtain ⟨hk, rfl⟩ := guarded_eq h; exact .acquireFails hk
  | sendJoined k =>
      obtain ⟨⟨hk, hs⟩, rfl⟩ := guarded_eq h
      exact .sendJoined hk hs (closeRecv_cases rfl)
  | recvJoined k => obtain ⟨⟨hk, hr⟩, rfl⟩ := guarded_eq h; exact .recvJoined hk hr
  | connected k => obtain ⟨hk, rfl⟩ := guarded_eq h; exact .connected hk
  | connectFails k => obtain ⟨hk, rfl⟩ := guarded_eq h; exact .connectFails hk
  | sslStart k => obtain ⟨hk, rfl⟩ := guarded_eq h; exact .sslStart hk
  | sslDone k failed =>
      obtain ⟨hk, rfl⟩ := guarded_eq h
      exact .sslDone hk (startRequest_cases _ k failed)
  | sslFails k => obtain ⟨hk, rfl⟩ := guarded_eq h; exact .sslFails hk
  | body k n =>
      simp only [act] at h
      split at h
      · rename_i hk; cases h; exact .body hk
      · cases h
  | bodyDone k =>
      simp only [act] at h
      split at h
      · rename_i hk; cases h; exact .bodyDone hk
      · cases h
  | wake k => obtain ⟨hk, rfl⟩ := guarded_eq h; exact .wake hk
  | interrupt k => obtain ⟨hk, rfl⟩ := guarded_eq h; exact .interrupt hk
  | sendRun => obtain ⟨hs, rfl⟩ := guarded_eq h; exact sendRun_cases hs
  | sendWrite n =>
      simp only [act] at h
      split at h
      · rename_i hs
        obtain ⟨⟨h0, hn⟩, rfl⟩ := guarded_eq h
        exact sendWrite_cases hs h0 hn
      · cases h
  | sendExit =>
      simp only [act] at h
      split at h
      · rename_i hs; cases h; exact .sendExit (.inl hs)
      · rename_i hs; cases h; exact .sendExit (.inr ⟨_, hs⟩)
      · cases h
  | recvReady errno => obtain ⟨hr, rfl⟩ := guarded_eq h; exact recvReady_cases errno hr
  | recv rd => exact stepRecv_cases h
  | recvExit => obtain ⟨hr, rfl⟩ := guarded_eq h; exact .recvExit hr
  | gc => obtain ⟨hs, rfl⟩ := guarded_eq h; exact .gc hs

/-- **What a step does.** -/
theorem step_cases {s s' : Sys} {a : Act} (h : step S s a = some s') :
    s.crashed = false ∧ Step S s a s' := by
  unfold step at h
  split at h
  · cases h
  · exact ⟨Bool.eq_false_iff.mpr ‹_›, act_cases h⟩

end

end MnHttpc
