/-
# `MnApp.Server.TcpServer` — the TCP server of `local_server.c`

A `mnapp_tcp_server_t` listens, and a thread of its own accepts connections in
batches and hands them to `srv->cb` one by one.

    caller    init → start → (serve | stop | fini)
    worker    ready → accepting → calling → … → accepting → … → returned

The threads of mnthr switch only where they wait.  The worker waits in
`mnthr_accept_all2` and, for all that is known, in the callback; the caller
waits for the worker at the end of `stop` and `fini`.  The system is a state
and a list of actions, each of which is what one thread does from one such
place to the next.  A server may be started more than once, and each time has
a worker of its own.

**Outside this code.**  What the system calls return is part of the action
(`SysCalls`), and so are the batch and the result of `mnthr_accept_all2` and
the result of the callback.  Any of these may be anything.  `log` is not part of
the program: it notes what a worker has accepted and handed over.

**The callback fails.**  Its result breaks the inner loop only.  What is left of
the batch is freed, and unless the server is shutting down the worker goes on
accepting.  **No socket is lost exactly in those runs in which this does not
happen** and a failing accept has no sockets (`delivered_iff`); then a
worker that returned 0 has handed over everything (`serve_zero`).

**Start and stop.**  A `start` that fails leaves no socket and no thread
(`start_spec`).  For a path it is defined only if there is room for one byte more
than the path and its NUL (`start_isSome`).  Nothing takes `shutting_down` back
(`step_shuttingDown`).  What that does to the workers is in
`MnApp.Server.Lifecycle`.
-/
import MnApp.Http.Uri
import MnApp.Lib.Cut
import MnApp.Lib.Run

namespace MnTcps

open CLib MnHttp Run

/-! ## The server -/

/-- `srv->family`. -/
inductive Family where
  | pfInet | pfLocal
deriving DecidableEq, Repr

/-- `mnapp_tcp_server_t` without the callback.  Workers are numbered as they are
started. -/
structure Server where
  thread : Option Nat
  hostname : Option (List UInt8)
  servname : Option (List UInt8)
  listenBacklog : Int
  family : Family
  fd : Int
  shuttingDown : Bool
deriving DecidableEq, Repr

/-- `mnapp_tcp_server_init`, with `addr` up to its NUL. -/
def mnappTcpServerInit (listenBacklog : Int) (addr : List UInt8) : Server where
  thread := none
  hostname := some (match strchr addr COLON with
    | some sz => addr.take sz
    | none => addr)
  servname := (strchr addr COLON).map fun sz => addr.drop (sz + 1)
  listenBacklog := listenBacklog
  family := if (strchr addr COLON).isSome then .pfInet else .pfLocal
  fd := -1
  shuttingDown := false

/-- What the calls of `mnapp_tcp_server_start` return. -/
structure SysCalls where
  socketBind : Option (List UInt8) → Option (List UInt8) → Int
  socket : Int
  fcntl : Int → Int
  bind : Int → List UInt8 → Int
  listen : Int → Int → Int

/-- `sa.sun_path`, an array of `size` bytes, with `hostname` in it; `none` is a
write behind it. -/
def sunPath (size : Nat) (hostname : List UInt8) : Option (List UInt8) :=
  let sz := min (hostname.length + 1) size
  let copied := (hostname ++ [NUL]).take sz ++ List.replicate (size - sz) NUL
  if sz < size then some (copied.set sz NUL) else none

/-- What `mnapp_tcp_server_start` returns, with `some n` for
`MNAPP_TCP_SERVER_START + n` and `none` for 0, and the server behind it. -/
abbrev Start := Option Nat × Server

/-- `listen` and `MNTHR_SPAWN`; `tid` is the number of the new thread. -/
def Server.listening (sys : SysCalls) (tid : Nat) (srv : Server) : Start :=
  if sys.listen srv.fd srv.listenBacklog ≠ 0 then (some 5, { srv with fd := -1 })
  else (none, { srv with thread := some tid })

/-- `mnapp_tcp_server_start`; `none` is a call that reads through a NULL `hostname`
or writes behind `sun_path`. -/
def mnappTcpServerStart (size : Nat) (sys : SysCalls) (tid : Nat) (srv : Server) : Option Start :=
  match srv.family with
  | .pfInet =>
      let fd := sys.socketBind srv.hostname srv.servname
      if fd < 0 then some (some 1, { srv with fd := fd })
      else some (Server.listening sys tid { srv with fd := fd })
  | .pfLocal => do
      let path ← sunPath size (← srv.hostname)
      if sys.socket < 0 then some (some 2, { srv with fd := sys.socket })
      else if sys.fcntl sys.socket = -1 then some (some 3, { srv with fd := -1 })
      else if sys.bind sys.socket path ≠ 0 then some (some 4, { srv with fd := -1 })
      else some (Server.listening sys tid { srv with fd := sys.socket })

/-! ## The worker -/

section
variable (Sock : Type)

/-- Where `mnapp_tcp_server_worker` waits.  In the callback, what is left of the
batch behind the socket it was called with. -/
inductive Pc where
  | ready | accepting
  | calling (rest : List Sock)
  | returned (res : Int)
deriving DecidableEq, Repr

/-- What a worker has done. -/
inductive Event where
  | accepted (res : Int) (sockets : List Sock)
  | called (sock : Sock)
  | result (res : Int)
deriving DecidableEq, Repr

structure Worker where
  pc : Pc Sock
  log : List (Event Sock)
deriving DecidableEq, Repr

/-- What a worker goes on with: `mnthr_accept_all2` returns, or the callback does. -/
inductive WorkerAction where
  | run
  | accept (res : Int) (sockets : List Sock)
  | result (res : Int)

end

variable {Sock : Type}

/-- `while (!srv->shutting_down)`, and `MNTHRET` behind it. -/
def Worker.outer (shuttingDown : Bool) (res : Int) (log : List (Event Sock)) : Worker Sock :=
  ⟨if shuttingDown then .returned res else .accepting, log⟩

/-- `for (i = 0; i < sz; ++i)`, with `res` 0. -/
def Worker.inner (shuttingDown : Bool) (log : List (Event Sock)) : List Sock → Worker Sock
  | [] => Worker.outer shuttingDown 0 log
  | sock :: rest => ⟨.calling rest, log ++ [.called sock]⟩

/-- `mnapp_tcp_server_worker`, from one wait to the next. -/
def mnappTcpServerWorker (shuttingDown : Bool) (w : Worker Sock) :
    WorkerAction Sock → Option (Worker Sock)
  | .run =>
      match w.pc with
      | .ready => some (.outer shuttingDown 0 w.log)
      | _ => none
  | .accept res sockets =>
      match w.pc with
      | .accepting =>
          let log := w.log ++ [.accepted res sockets]
          some (if res ≠ 0 then ⟨.returned res, log⟩ else .inner shuttingDown log sockets)
      | _ => none
  | .result res =>
      match w.pc with
      | .calling rest =>
          let log := w.log ++ [.result res]
          -- the `break` leaves `rest`
          some (if res ≠ 0 then .outer shuttingDown res log else .inner shuttingDown log rest)
      | _ => none

/-! ## The system -/

structure State (Sock : Type) where
  srv : Server
  workers : List (Worker Sock)

/-- What a thread does between two waits.  `stop` is the beginning of
`mnapp_tcp_server_stop` and of `mnapp_tcp_server_fini`, `stopped` and `finished` are
their ends. -/
inductive Action (Sock : Type) where
  | start (sys : SysCalls)
  | worker (i : Nat) (a : WorkerAction Sock)
  | stop | stopped | finished

/-- What `mnthr_join` on the server's thread returns, when it does. -/
def State.joined (s : State Sock) : Option Int := do
  let w ← s.workers[← s.srv.thread]?
  match w.pc with
  | .returned res => some res
  | _ => none

/-- `mnapp_tcp_server_serve`, when it returns. -/
def mnappTcpServerServe (s : State Sock) : Option Int := s.joined

def step (size : Nat) (s : State Sock) : Action Sock → Option (State Sock)
  | .start sys =>
      (mnappTcpServerStart size sys s.workers.length s.srv).map fun st =>
        ⟨st.2, if st.1 = none then s.workers ++ [⟨.ready, []⟩] else s.workers⟩
  | .worker i a => do
      let w ← s.workers[i]?
      let w' ← mnappTcpServerWorker s.srv.shuttingDown w a
      some { s with workers := s.workers.set i w' }
  | .stop => some { s with srv := { s.srv with shuttingDown := true } }
  | .stopped =>
      if s.srv.shuttingDown ∧ (s.srv.thread = none ∨ s.joined.isSome) then
        some { s with srv := { s.srv with thread := none } }
      else none
  | .finished =>
      if s.srv.shuttingDown ∧ (s.srv.thread = none ∨ s.joined.isSome) then
        some { s with srv := { s.srv with
          thread := none, hostname := none, servname := none, fd := -1 } }
      else none

def State.init (listenBacklog : Int) (addr : List UInt8) : State Sock :=
  ⟨mnappTcpServerInit listenBacklog addr, []⟩

/-! ## What is asked -/

def Event.sockets : Event Sock → List Sock
  | .accepted _ sockets => sockets
  | _ => []

def Event.handed : Event Sock → List Sock
  | .called sock => [sock]
  | _ => []

/-- The sockets that were accepted, in order. -/
def accepted (log : List (Event Sock)) : List Sock := log.flatMap Event.sockets

/-- The sockets the callback was called with, in order. -/
def passed (log : List (Event Sock)) : List Sock := log.flatMap Event.handed

def Pc.pending : Pc Sock → List Sock
  | .calling rest => rest
  | _ => []

/-- Every socket was passed, once and in order, or still will be; or the worker has
returned what the callback that failed had returned. -/
def Worker.Delivered (w : Worker Sock) : Prop :=
  passed w.log ++ w.pc.pending = accepted w.log ∨
    ∃ res, res ≠ 0 ∧ w.pc = .returned res ∧ w.log.getLast? = some (.result res)

def Delivered (s : State Sock) : Prop := ∀ w ∈ s.workers, w.Delivered

/-- A callback fails with the last socket of its batch only, unless the server is
shutting down, and a failing accept has no sockets. -/
def Worker.Allows (shuttingDown : Bool) (w : Worker Sock) : WorkerAction Sock → Prop
  | .run => True
  | .accept res sockets => res ≠ 0 → sockets = []
  | .result res => res ≠ 0 → shuttingDown = true ∨ w.pc.pending = []

instance Worker.decidableAllows (shuttingDown : Bool) (w : Worker Sock) :
    (a : WorkerAction Sock) → Decidable (w.Allows shuttingDown a)
  | .run => isTrue trivial
  | .accept res sockets => inferInstanceAs (Decidable (res ≠ 0 → sockets = []))
  | .result res => inferInstanceAs (Decidable (res ≠ 0 → shuttingDown = true ∨ w.pc.pending = []))

def Allows (s : State Sock) : Action Sock → Prop
  | .worker i a => ∀ w ∈ s.workers[i]?, w.Allows s.srv.shuttingDown a
  | _ => True

instance decidableAllows (s : State Sock) : (a : Action Sock) → Decidable (Allows s a)
  | .worker i a =>
      inferInstanceAs (Decidable (∀ w ∈ s.workers[i]?, w.Allows s.srv.shuttingDown a))
  | .start _ | .stop | .stopped | .finished => isTrue trivial

/-! ## The address and the socket -/

theorem init_addr (listenBacklog : Int) (addr : List UInt8) :
    (∃ host serv, COLON ∉ host ∧ addr = host ++ COLON :: serv ∧
      mnappTcpServerInit listenBacklog addr =
        ⟨none, some host, some serv, listenBacklog, .pfInet, -1, false⟩) ∨
    (COLON ∉ addr ∧ mnappTcpServerInit listenBacklog addr =
      ⟨none, some addr, none, listenBacklog, .pfLocal, -1, false⟩) := by
  obtain hcolon | ⟨host, serv, rfl, hhost⟩ := Cut.cases COLON addr
  · have hnone : strchr addr COLON = none := Cut.findIdx?_of_not_mem hcolon
    refine .inr ⟨hcolon, ?_⟩
    simp [mnappTcpServerInit, hnone]
  · have hat : strchr (host ++ COLON :: serv) COLON = some host.length :=
      Cut.findIdx?_append_cons hhost serv
    refine .inl ⟨host, serv, hhost, rfl, ?_⟩
    simp [mnappTcpServerInit, hat]

/-- The path is copied when there are two bytes more than it has: the last write is
one behind its NUL. -/
theorem sunPath_isSome (size : Nat) (hostname : List UInt8) :
    (sunPath size hostname).isSome ↔ hostname.length + 1 < size := by
  simp only [sunPath]
  split
  · rename_i hlt
    refine iff_of_true rfl ?_
    omega
  · rename_i hge
    refine iff_of_false Bool.false_ne_true ?_
    omega

theorem sunPath_eq {size : Nat} {hostname : List UInt8} (h : hostname.length + 1 < size) :
    sunPath size hostname =
      some (hostname ++ NUL :: List.replicate (size - (hostname.length + 1)) NUL) := by
  obtain ⟨k, hk⟩ : ∃ k, size - (hostname.length + 1) = k + 1 :=
    ⟨size - (hostname.length + 1) - 1, by omega⟩
  simp only [sunPath, Nat.min_eq_left (Nat.le_of_lt h), if_pos h]
  rw [List.take_of_length_le (by simp), hk, List.replicate_succ,
    List.set_append_right _ _ (by simp)]
  simp

theorem cstr_sunPath {size : Nat} {hostname path : List UInt8}
    (h : sunPath size hostname = some path) (hnul : ∀ b ∈ hostname, b ≠ NUL) :
    path.length = size ∧ cstr path = hostname := by
  have hlt := (sunPath_isSome size hostname).mp (h ▸ rfl)
  rw [sunPath_eq hlt] at h
  cases h
  refine ⟨?_, cstr_stop hnul⟩
  simp only [List.length_append, List.length_cons, List.length_replicate]
  omega

theorem start_isSome (size : Nat) (sys : SysCalls) (tid : Nat) (srv : Server) :
    (mnappTcpServerStart size sys tid srv).isSome ↔
      srv.family = .pfInet ∨ ∃ name, srv.hostname = some name ∧ name.length + 1 < size := by
  obtain ⟨thread, hostname, servname, listenBacklog, family, fd, shuttingDown⟩ := srv
  cases family with
  | pfInet =>
      refine iff_of_true ?_ (.inl rfl)
      simp only [mnappTcpServerStart]
      split <;> rfl
  | pfLocal =>
      cases hostname with
      | none => simp [mnappTcpServerStart]
      | some name =>
          simp only [mnappTcpServerStart, Option.bind_eq_bind, Option.bind_some, reduceCtorEq,
            Option.some.injEq, exists_eq_left', false_or]
          rw [← sunPath_isSome]
          cases sunPath size name with
          | none => simp
          | some path =>
              refine iff_of_true ?_ rfl
              rw [Option.bind_some]
              split
              · rfl
              · split
                · rfl
                · split <;> rfl

/-- What `mnapp_tcp_server_start` does: a server that was not started has no socket
and no new thread. -/
structure StartSpec (tid : Nat) (srv : Server) (st : Start) : Prop where
  shuttingDown : st.2.shuttingDown = srv.shuttingDown
  outcome : (st.1 = none ∧ 0 ≤ st.2.fd ∧ st.2.thread = some tid) ∨
    ∃ n, st.1 = some n ∧ 1 ≤ n ∧ n ≤ 5 ∧ st.2.fd < 0 ∧ st.2.thread = srv.thread

section
variable {size : Nat} {sys : SysCalls} {tid : Nat} {srv : Server}

theorem StartSpec.failed {n : Nat} {fd : Int} (h1 : 1 ≤ n) (h5 : n ≤ 5) (hfd : fd < 0) :
    StartSpec tid srv (some n, { srv with fd := fd }) :=
  ⟨rfl, .inr ⟨n, rfl, h1, h5, hfd, rfl⟩⟩

theorem listening_spec {fd : Int} (hfd : ¬ fd < 0) :
    StartSpec tid srv (Server.listening sys tid { srv with fd := fd }) := by
  unfold Server.listening
  split
  · exact .failed (by decide) (by decide) (by decide)
  · exact ⟨rfl, .inl ⟨rfl, Int.not_lt.mp hfd, rfl⟩⟩

theorem start_spec {st : Start} (h : mnappTcpServerStart size sys tid srv = some st) :
    StartSpec tid srv st := by
  obtain ⟨thread, hostname, servname, listenBacklog, family, fd, shuttingDown⟩ := srv
  cases family with
  | pfInet =>
      simp only [mnappTcpServerStart] at h
      split at h
      · cases h
        exact .failed (by decide) (by decide) ‹_›
      · cases h
        exact listening_spec ‹_›
  | pfLocal =>
      obtain ⟨name, -, h⟩ := Option.bind_eq_some_iff.mp h
      obtain ⟨path, -, h⟩ := Option.bind_eq_some_iff.mp h
      split at h
      · cases h
        exact .failed (by decide) (by decide) ‹_›
      · split at h
        · cases h
          exact .failed (by decide) (by decide) (by decide)
        · split at h
          · cases h
            exact .failed (by decide) (by decide) (by decide)
          · cases h
            exact listening_spec ‹_›

end

/-! ## One worker -/

section
variable {sd : Bool} {w w' : Worker Sock}

theorem worker_cases {a : WorkerAction Sock} (h : mnappTcpServerWorker sd w a = some w') :
    (a = .run ∧ w.pc = .ready ∧ w' = .outer sd 0 w.log) ∨
    (∃ res sockets, a = .accept res sockets ∧ w.pc = .accepting ∧
      ((res ≠ 0 ∧ w' = ⟨.returned res, w.log ++ [.accepted res sockets]⟩) ∨
        (res = 0 ∧ w' = .inner sd (w.log ++ [.accepted res sockets]) sockets))) ∨
    (∃ res rest, a = .result res ∧ w.pc = .calling rest ∧
      ((res ≠ 0 ∧ w' = .outer sd res (w.log ++ [.result res])) ∨
        (res = 0 ∧ w' = .inner sd (w.log ++ [.result res]) rest))) := by
  obtain ⟨pc, log⟩ := w
  cases a with
  | run =>
      cases pc <;> cases h
      exact .inl ⟨rfl, rfl, rfl⟩
  | accept res sockets =>
      cases pc <;> cases h
      refine .inr (.inl ⟨res, sockets, rfl, rfl, ?_⟩)
      by_cases hres : res = 0
      · exact .inr ⟨hres, if_neg (not_not_intro hres)⟩
      · exact .inl ⟨hres, if_pos hres⟩
  | result res =>
      cases pc <;> cases h
      refine .inr (.inr ⟨res, _, rfl, rfl, ?_⟩)
      by_cases hres : res = 0
      · exact .inr ⟨hres, if_neg (not_not_intro hres)⟩
      · exact .inl ⟨hres, if_pos hres⟩

@[simp] theorem accepted_concat (log : List (Event Sock)) (e : Event Sock) :
    accepted (log ++ [e]) = accepted log ++ e.sockets := by
  unfold accepted
  rw [List.flatMap_append, List.flatMap_singleton]

@[simp] theorem passed_concat (log : List (Event Sock)) (e : Event Sock) :
    passed (log ++ [e]) = passed log ++ e.handed := by
  unfold passed
  rw [List.flatMap_append, List.flatMap_singleton]

/-- Before it returns, a worker has passed or will pass everything. -/
theorem Worker.Delivered.pending (h : w.Delivered) (hpc : ∀ res, w.pc ≠ .returned res) :
    passed w.log ++ w.pc.pending = accepted w.log :=
  h.resolve_right fun ⟨res, _, hret, _⟩ => hpc res hret

theorem outer_pending (res : Int) (log : List (Event Sock)) :
    (Worker.outer sd res log).pc.pending = [] := by
  cases sd <;> rfl

theorem outer_delivered {log : List (Event Sock)} (h : passed log = accepted log) (res : Int) :
    (Worker.outer sd res log).Delivered := by
  refine .inl ?_
  rw [outer_pending, List.append_nil]
  exact h

theorem inner_delivered {log : List (Event Sock)} {rest : List Sock}
    (h : passed log ++ rest = accepted log) : (Worker.inner sd log rest).Delivered := by
  cases rest with
  | nil =>
      rw [List.append_nil] at h
      exact outer_delivered h 0
  | cons sock rest =>
      refine .inl ?_
      simpa [Worker.inner, Pc.pending, Event.handed, Event.sockets] using h

/-- An accept that fails with sockets has lost them. -/
theorem failed_accept_iff {log : List (Event Sock)} (h : passed log = accepted log) (res : Int)
    (sockets : List Sock) :
    (Worker.mk (.returned res) (log ++ [.accepted res sockets])).Delivered ↔ sockets = [] := by
  constructor
  · rintro (hpassed | ⟨_, _, _, hlast⟩)
    · simpa [Pc.pending, Event.handed, Event.sockets, h] using hpassed
    · simp at hlast
  · rintro rfl
    refine .inl ?_
    simp [Pc.pending, Event.handed, Event.sockets, h]

/-- A callback that fails has the rest of its batch dropped: the worker returns, or
there was no rest. -/
theorem failed_result_iff {log : List (Event Sock)} {rest : List Sock}
    (h : passed log ++ rest = accepted log) {res : Int} (hres : res ≠ 0) :
    (Worker.outer sd res (log ++ [.result res])).Delivered ↔ sd = true ∨ rest = [] := by
  cases sd with
  | true =>
      refine iff_of_true (.inr ⟨res, hres, rfl, ?_⟩) (.inl rfl)
      simp [Worker.outer]
  | false =>
      constructor
      · rintro (hpassed | ⟨_, _, hpc, _⟩)
        · refine .inr ?_
          simpa [Worker.outer, Pc.pending, Event.handed, Event.sockets, ← h] using hpassed
        · cases hpc
      · rintro (hsd | rfl)
        · cases hsd
        · refine outer_delivered ?_ res
          simpa [Event.handed, Event.sockets] using h

/-- **A step keeps to what is asked exactly when it is allowed.** -/
theorem Worker.Delivered.step_iff (h : w.Delivered) {a : WorkerAction Sock}
    (hs : mnappTcpServerWorker sd w a = some w') : w'.Delivered ↔ w.Allows sd a := by
  have hall := h.pending
  rcases worker_cases hs with ⟨rfl, hpc, rfl⟩ | ⟨res, sockets, rfl, hpc, hw⟩ |
      ⟨res, rest, rfl, hpc, hw⟩
  · have hall : passed w.log = accepted w.log := by simpa [hpc, Pc.pending] using hall
    exact iff_of_true (outer_delivered hall 0) trivial
  · have hall : passed w.log = accepted w.log := by simpa [hpc, Pc.pending] using hall
    rcases hw with ⟨hres, rfl⟩ | ⟨rfl, rfl⟩
    · rw [failed_accept_iff hall]
      exact ⟨fun hnil _ => hnil, fun hnil => hnil hres⟩
    · refine iff_of_true (inner_delivered ?_) fun hne => absurd rfl hne
      simp [Event.handed, Event.sockets, hall]
  · have hall : passed w.log ++ rest = accepted w.log := by simpa [hpc, Pc.pending] using hall
    rcases hw with ⟨hres, rfl⟩ | ⟨rfl, rfl⟩
    · rw [failed_result_iff hall hres, Worker.Allows, hpc]
      exact ⟨fun hlast _ => hlast, fun hlast => hlast hres⟩
    · refine iff_of_true (inner_delivered ?_) fun hne => absurd rfl hne
      simpa [Event.handed, Event.sockets] using hall

end

/-! ## All workers -/

section
variable {size : Nat} {s s' t : State Sock}

theorem step_workers {a : Action Sock} (h : step size s a = some s') :
    (∃ i wa w w', a = .worker i wa ∧ s.workers[i]? = some w ∧
      mnappTcpServerWorker s.srv.shuttingDown w wa = some w' ∧ s'.srv = s.srv ∧
      s'.workers = s.workers.set i w') ∨
    ((∀ i wa, a ≠ .worker i wa) ∧
      (s'.workers = s.workers ∨ s'.workers = s.workers ++ [⟨.ready, []⟩])) := by
  cases a with
  | start sys =>
      obtain ⟨st, -, rfl⟩ := Option.map_eq_some_iff.mp h
      refine .inr ⟨fun _ _ h => (by cases h), ?_⟩
      by_cases hst : st.1 = none
      · exact .inr (if_pos hst)
      · exact .inl (if_neg hst)
  | worker i wa =>
      obtain ⟨w, hw, h⟩ := Option.bind_eq_some_iff.mp h
      obtain ⟨w', hw', h⟩ := Option.bind_eq_some_iff.mp h
      cases h
      exact .inl ⟨i, wa, w, w', rfl, hw, hw', rfl, rfl⟩
  | stop =>
      cases h
      exact .inr ⟨fun _ _ h => (by cases h), .inl rfl⟩
  | stopped | finished =>
      simp only [step] at h
      split at h
      · cases h
        exact .inr ⟨fun _ _ h => (by cases h), .inl rfl⟩
      · cases h

theorem allows_worker {i : Nat} {w : Worker Sock} (hw : s.workers[i]? = some w)
    (a : WorkerAction Sock) : Allows s (.worker i a) ↔ w.Allows s.srv.shuttingDown a := by
  simp only [Allows, hw, Option.mem_some_iff, forall_eq']

theorem Delivered.step_iff (h : Delivered s) {a : Action Sock} (hs : step size s a = some s') :
    Delivered s' ↔ Allows s a := by
  rcases step_workers hs with ⟨i, wa, w, w', rfl, hw, hstep, -, hworkers⟩ | ⟨hother, hworkers⟩
  · have hone := (h w (List.mem_of_getElem? hw)).step_iff hstep
    have hlt : i < s.workers.length := (List.getElem?_eq_some_iff.mp hw).1
    rw [allows_worker hw, ← hone]
    constructor
    · intro hall
      refine hall w' ?_
      rw [hworkers]
      exact List.mem_set hlt w'
    · intro hw' x hx
      rw [hworkers] at hx
      rcases List.mem_or_eq_of_mem_set hx with hx | rfl
      · exact h x hx
      · exact hw'
  · refine iff_of_true ?_ ?_
    · rcases hworkers with hworkers | hworkers
      · unfold Delivered
        rw [hworkers]
        exact h
      · intro x hx
        rw [hworkers] at hx
        rcases List.mem_append.mp hx with hx | hx
        · exact h x hx
        · cases List.mem_singleton.mp hx
          exact .inl rfl
    · cases a with
      | worker i wa => exact absurd rfl (hother i wa)
      | _ => trivial

end

/-- **In a run from `mnapp_tcp_server_init` on, no socket is lost exactly when every
step is allowed.** -/
theorem delivered_iff (size : Nat) (listenBacklog : Int) (addr : List UInt8)
    (as : List (Action Sock)) (t : State Sock)
    (h : exec (step size) (State.init listenBacklog addr) as = some t) :
    Along (step size) Delivered (State.init listenBacklog addr) as ↔
      Meets (step size) Allows (State.init listenBacklog addr) as := by
  have hinit : Delivered (State.init listenBacklog addr : State Sock) :=
    fun w hw => absurd hw List.not_mem_nil
  have keep : ∀ (s : State Sock) a s', Delivered s → Allows s a → step size s a = some s' →
      Delivered s' := fun s a s' hd ha hs => (hd.step_iff hs).mpr ha
  constructor
  · exact meets_of_along keep (fun s a s' hd hs hd' => (hd.step_iff hs).mp hd') hinit h
  · exact along_of_meets keep (fun _ hd => hd) hinit

/-- Every call succeeds, with socket 7. -/
def SysCalls.fine : SysCalls := ⟨fun _ _ => 7, 7, fun _ => 0, fun _ _ => 0, fun _ _ => 0⟩

/-- Two sockets are accepted and passed, the second one while the server is being
stopped, and with an error. -/
def stoppedRun : List (Action Nat) :=
  [.start .fine, .worker 0 .run, .worker 0 (.accept 0 [8, 9]), .worker 0 (.result 0), .stop,
    .worker 0 (.result 1), .stopped]

theorem delivered_iff_stopped :
    Along (step 108) Delivered (State.init 1 (ascii "localhost:80")) stoppedRun := by
  refine (delivered_iff 108 1 (ascii "localhost:80") stoppedRun
    ⟨⟨none, some (ascii "localhost"), some (ascii "80"), 1, .pfInet, 7, true⟩,
      [⟨.returned 1, [.accepted 0 [8, 9], .called 8, .result 0, .called 9, .result 1]⟩]⟩
    ?_).mpr ?_
  · rfl
  · decide

/-- The callback fails with the first of two sockets. -/
def droppedRun : List (Action Nat) :=
  [.start .fine, .worker 0 .run, .worker 0 (.accept 0 [8, 9]), .worker 0 (.result 1),
    .worker 0 (.accept 0 [10])]

/-- **The second socket is lost, and the worker goes on.** -/
theorem socket_lost : ∃ t, exec (step 108) (State.init 1 (ascii "localhost:80")) droppedRun =
      some t ∧
    t.workers.map (fun w => (w.pc, accepted w.log, passed w.log)) =
      [(.calling [], [8, 9, 10], [8, 10])] ∧
    ¬ Along (step 108) Delivered (State.init 1 (ascii "localhost:80")) droppedRun := by
  refine ⟨_, rfl, rfl, fun hall => ?_⟩
  rcases hall.last rfl _ (List.mem_singleton.mpr rfl) with hpassed | ⟨_, _, hpc, _⟩
  · exact absurd hpassed (by decide)
  · cases hpc

/-! ## After a run -/

section
variable {size : Nat} {s s' t : State Sock}

/-- **When `mnapp_tcp_server_serve` returns 0, everything was handed over.** -/
theorem serve_zero (h : Delivered s) (hserve : mnappTcpServerServe s = some 0) :
    ∃ i w, s.srv.thread = some i ∧ s.workers[i]? = some w ∧ passed w.log = accepted w.log := by
  obtain ⟨i, hi, hserve⟩ := Option.bind_eq_some_iff.mp hserve
  obtain ⟨w, hw, hserve⟩ := Option.bind_eq_some_iff.mp hserve
  refine ⟨i, w, hi, hw, ?_⟩
  cases hpc : w.pc with
  | returned res =>
      simp only [hpc, Option.some.injEq] at hserve
      rcases h w (List.mem_of_getElem? hw) with hall | ⟨r, hr, hret, -⟩
      · simpa [hpc, Pc.pending] using hall
      · rw [hpc, hserve] at hret
        cases hret
        exact absurd rfl hr
  | _ => simp [hpc] at hserve

theorem step_shuttingDown {a : Action Sock} (hs : step size s a = some s')
    (h : s.srv.shuttingDown = true) : s'.srv.shuttingDown = true := by
  cases a with
  | start sys =>
      obtain ⟨st, hst, rfl⟩ := Option.map_eq_some_iff.mp hs
      exact (start_spec hst).shuttingDown.trans h
  | worker i wa =>
      obtain ⟨w, -, hs⟩ := Option.bind_eq_some_iff.mp hs
      obtain ⟨w', -, hs⟩ := Option.bind_eq_some_iff.mp hs
      cases hs
      exact h
  | stop =>
      cases hs
      rfl
  | stopped | finished =>
      simp only [step] at hs
      split at hs
      · cases hs
        exact h
      · cases hs

end

end MnTcps
