/-
# `MnApp.Client.Transport` — which functions and which handle a connection reads and writes with

A connection with an `sslctx` must read and write through the SSL functions
and hand them its SSL object; one without must use mnthr's and the socket.
Five operations set these fields:

    init       both functions, by the scheme
    connect    `fp`, to the socket
    sslinit    `ssl` and `fp`, to the SSL object, if there is an `sslctx`
    close      `fp`, `ssl` and `fd`, when both workers have ended
    gc         both functions, to mnthr's

All but the last agree with each other, from any state the others can leave
(`Paired.step`).  The last one does not look at `sslctx`.  So in a client of
any number of connections the pairing holds exactly as long as no connection
with an `sslctx` is collected (`transport_consistent_iff`).

The runs here are those of a whole client: calls of `mnhttpc_new` and steps
of the threads of any of its connections, in any order.  What one connection
does in such a run is a run of that connection alone (`connection_runs`).
-/
import MnApp.Client.Cache
import MnApp.Client.Ownership

namespace MnHttpc

open MnHttp Run

/-! ## Runs of a client -/

inductive CliAct where
  | new (c : NewCall)
  | conn (i : Nat) (a : Act)
deriving DecidableEq, Repr

/-- `mnhttpc_request_finalize` works on the connection its request is bound
to. -/
def Cli.mayAct (cli : Cli) (i : Nat) : Act → Bool
  | .call k => cli.requests[k]?.any fun r => r.connection == i
  | _ => true

/-- The process has died. -/
def Cli.dead (cli : Cli) : Bool := cli.connections.any fun x => x.sys.crashed

section
variable (H : Hasher) (S : Setting)

/-- A thread of connection `i` goes on. -/
def Cli.act (cli : Cli) (i : Nat) (a : Act) : Option Cli :=
  match cli.connections[i]? with
  | some x =>
      (MnHttpc.step S x.sys a).map fun s =>
        { cli with connections := cli.connections.set i { x with sys := s } }
  | none => none

def Cli.step (cli : Cli) : CliAct → Option Cli
  | .new c => if cli.dead then none else mnhttpcNew H cli c
  | .conn i a => if cli.dead ∨ !cli.mayAct i a then none else cli.act S i a

variable {H S}

theorem cliStep_cases {cli cli' : Cli} {a : CliAct} (h : cli.step H S a = some cli') :
    (∃ c, a = .new c ∧ mnhttpcNew H cli c = some cli') ∨
    ∃ i b x s, a = .conn i b ∧ cli.connections[i]? = some x ∧ step S x.sys b = some s ∧
      cli' = { cli with connections := cli.connections.set i { x with sys := s } } := by
  cases a with
  | new c =>
      left
      simp only [Cli.step] at h
      split at h
      · cases h
      · exact ⟨c, rfl, h⟩
  | conn i b =>
      right
      simp only [Cli.step] at h
      split at h
      · cases h
      · unfold Cli.act at h
        split at h
        · rename_i x hx
          obtain ⟨s, hs, rfl⟩ := Option.map_eq_some_iff.mp h
          exact ⟨i, b, x, s, rfl, hx, hs, rfl⟩
        · cases h

/-- What all connections have is kept when `mnhttpc_new` gives it to a new one
and each step keeps it. -/
theorem connections_step {P : Sys → Prop} {cli cli' : Cli} {a : CliAct}
    (hP : ∀ x ∈ cli.connections, P x.sys) (hinit : ∀ scheme, P (.init scheme))
    (hstep : ∀ i b x s, a = .conn i b → cli.connections[i]? = some x → P x.sys →
      step S x.sys b = some s → P s)
    (h : cli.step H S a = some cli') : ∀ x ∈ cli'.connections, P x.sys := by
  obtain ⟨c, -, hnew⟩ | ⟨i, b, x, s, ha, hx, hs, rfl⟩ := cliStep_cases h
  · obtain ⟨-, rfl⟩ | ⟨-, ⟨_, _, _, _, rfl⟩ | ⟨_, rfl⟩⟩ := mnhttpcNew_cases hnew
    · exact hP
    · exact hP
    · intro y hy
      rcases List.mem_append.mp hy with hy | hy
      · exact hP y hy
      · cases List.mem_singleton.mp hy
        exact hinit _
  · intro y hy
    rcases List.mem_or_eq_of_mem_set hy with hy | rfl
    · exact hP y hy
    · exact hstep i b x s ha hx (hP x (List.mem_of_getElem? hx)) hs

/-- **Each connection of a client is in a state that it reaches in a run of its
own.** -/
theorem connection_runs {as : List CliAct} {cli : Cli}
    (h : exec (Cli.step H S) .init as = some cli) :
    ∀ x ∈ cli.connections, ∃ scheme bs, exec (step S) (.init scheme) bs = some x.sys := by
  refine exec_always (I := fun cli => ∀ x ∈ cli.connections,
    ∃ scheme bs, exec (step S) (.init scheme) bs = some x.sys) ?_ (fun x hx => by cases hx) h
  intro cli a cli' hI hs
  refine connections_step (P := fun s => ∃ scheme bs, exec (step S) (.init scheme) bs = some s)
    hI (fun scheme => ⟨scheme, [], rfl⟩) ?_ hs
  rintro i b x s - - ⟨scheme, bs, hbs⟩ hb
  refine ⟨scheme, bs ++ [b], ?_⟩
  rw [exec_append, hbs]
  simp only [Option.bind_some, exec, hb]

end

/-! ## The pairing -/

/-- The functions a connection should use. -/
def Conn.fns (c : Conn) : StreamFns := if c.sslctx then .ssl else .plain

/-- `fp` is what the functions expect. -/
def Conn.FpOk (c : Conn) : Prop :=
  if c.sslctx then ∃ n, c.ssl = some n ∧ c.fp = .ssl n else ∃ n, c.fd = some n ∧ c.fp = .sock n

/-- The SSL functions are used exactly with an `sslctx`, and while both workers
run `fp` is the SSL object with one and the socket without. -/
structure Conn.Consistent (c : Conn) : Prop where
  fns : c.readMore = .ssl ∧ c.write = .ssl ↔ c.sslctx = true
  fp : c.sendThread = true → c.recvThread = true → c.FpOk

/-- The pairing, with what it takes to establish it. -/
structure Paired (s : Sys) : Prop where
  readMore : s.conn.readMore = s.conn.fns
  write : s.conn.write = s.conn.fns
  running : s.conn.sendThread = true ∨ s.conn.recvThread = true → s.conn.FpOk
  socket : ∀ k, s.client k = .joinSsl false → ∃ n, s.conn.fd = some n ∧ s.conn.fp = .sock n
  handle : ∀ k, s.client k = .joinSsl true → s.conn.FpOk

section
variable {S : Setting} {s s' : Sys} {k : ReqId}

theorem Paired.consistent (h : Paired s) : s.conn.Consistent := by
  refine ⟨?_, fun hs _ => h.running (.inl hs)⟩
  rw [h.readMore, h.write]
  unfold Conn.fns
  cases s.conn.sslctx <;> simp

theorem paired_init (scheme : Scheme) : Paired (.init scheme) where
  readMore := by
    show (connectionInit scheme).readMore = (connectionInit scheme).fns
    unfold connectionInit Conn.fns
    by_cases h : scheme = .https <;> simp [h]
  write := by
    show (connectionInit scheme).write = (connectionInit scheme).fns
    unfold connectionInit Conn.fns
    by_cases h : scheme = .https <;> simp [h]
  running h := by rcases h with h | h <;> cases h
  socket _ h := by cases h
  handle _ h := by cases h

/-- What the pairing is about. -/
structure Link where
  sslctx : Bool
  readMore : StreamFns
  write : StreamFns
  fd : Option Nat
  ssl : Option Nat
  fp : Fp
deriving DecidableEq

def Conn.link (c : Conn) : Link := ⟨c.sslctx, c.readMore, c.write, c.fd, c.ssl, c.fp⟩

theorem Paired.same (h : Paired s) (hlink : s'.conn.link = s.conn.link)
    (hrun : s'.conn.sendThread = true ∨ s'.conn.recvThread = true →
      s.conn.sendThread = true ∨ s.conn.recvThread = true)
    (hclient : ∀ k b, s'.client k = .joinSsl b → s.client k = .joinSsl b) : Paired s' := by
  simp only [Conn.link, Link.mk.injEq] at hlink
  obtain ⟨hctx, hread, hwrite, hfd, hssl, hfp⟩ := hlink
  have hfns : s'.conn.fns = s.conn.fns := by unfold Conn.fns; rw [hctx]
  have hok : s'.conn.FpOk ↔ s.conn.FpOk := by unfold Conn.FpOk; rw [hctx, hfd, hssl, hfp]
  refine ⟨?_, ?_, fun hr => hok.mpr (h.running (hrun hr)), fun k hk => ?_,
    fun k hk => hok.mpr (h.handle k (hclient k _ hk))⟩
  · rw [hread, hfns]; exact h.readMore
  · rw [hwrite, hfns]; exact h.write
  · rw [hfd, hfp]; exact h.socket k (hclient k _ hk)

theorem joinSsl_update {c : ReqId → ClientPc} {pc : ClientPc} (hpc : ∀ b, pc ≠ .joinSsl b) :
    ∀ j b, Function.update c k pc j = .joinSsl b → c j = .joinSsl b := by
  intro j b hj
  by_cases hjk : j = k
  · rw [hjk, Function.update_self] at hj
    exact absurd hj (hpc b)
  · rwa [Function.update_of_ne hjk] at hj

theorem joinSsl_signalRecv (req : Option ReqId) :
    ∀ j b, (s.signalRecv req).client j = .joinSsl b → s.client j = .joinSsl b := by
  intro j b hj
  unfold Sys.signalRecv at hj
  dsimp only at hj
  split at hj
  · cases hj
  · exact hj

theorem Paired.move (h : Paired s) {pc : ClientPc}
    (hclient : s'.client = Function.update s.client k pc) (hpc : ∀ b, pc ≠ .joinSsl b)
    (hlink : s'.conn.link = s.conn.link)
    (hthreads : s'.conn.sendThread = s.conn.sendThread ∧ s'.conn.recvThread = s.conn.recvThread) :
    Paired s' :=
  h.same hlink (by rw [hthreads.1, hthreads.2]; exact id)
    fun j b hj => joinSsl_update hpc j b (hclient ▸ hj)

theorem Paired.starts {failed : Option Nat} (h : Paired s) (hst : Starts S s k failed s') :
    Paired s' := by
  cases hst with
  | refused => exact h.move rfl (fun _ => nofun) rfl ⟨rfl, rfl⟩
  | broken => exact h.move rfl (fun _ => nofun) rfl ⟨rfl, rfl⟩
  | body => exact h.move rfl (fun _ => nofun) rfl ⟨rfl, rfl⟩
  | plain => exact h.move rfl (fun _ => nofun) rfl ⟨rfl, rfl⟩

theorem Wf.only_joinSsl (h : Wf s) (hk : (s.client k).holds = true) {j : ReqId} {b : Bool}
    (hj : s.client j = .joinSsl b) : j = k :=
  h.holder.other hk (by rw [hj]; rfl)

theorem Paired.closeFd (h : Paired s) (hw : Wf (s.closeFd k))
    (hthreads : s.conn.sendThread = false ∧ s.conn.recvThread = false) :
    Paired (s.closeFd k) := by
  have hk : (s.closeFd k).client k = .connect := Function.update_self ..
  have hnone : ∀ j b, (s.closeFd k).client j ≠ .joinSsl b := fun j b hj => by
    obtain rfl := hw.only_joinSsl (by rw [hk]; rfl) hj
    rw [hk] at hj
    cases hj
  refine ⟨h.readMore, h.write, fun hr => ?_, fun j hj => absurd hj (hnone j _),
    fun j hj => absurd hj (hnone j _)⟩
  have hr : s.conn.sendThread = true ∨ s.conn.recvThread = true := hr
  rw [hthreads.1, hthreads.2] at hr
  rcases hr with hr | hr <;> cases hr

theorem Paired.closes (h : Paired s) (hw : Wf s') (hcl : Closes s k s') : Paired s' := by
  cases hcl with
  | joinSend => exact h.move rfl (fun _ => nofun) rfl ⟨rfl, rfl⟩
  | joinRecv => exact h.move rfl (fun _ => nofun) rfl ⟨rfl, rfl⟩
  | connect hs hr => exact h.closeFd hw ⟨hs, hr⟩

theorem Paired.connected (h : Paired s) (hw : Wf s) (hw' : Wf (s.connected k))
    (hk : s.client k = .connect) : Paired (s.connected k) := by
  have hk' : (s.connected k).client k = .joinSsl false := Function.update_self ..
  have hsend := hw.workers.noSend k trivial (by rw [hk]; rfl)
  have hrecv := hw.workers.noRecv k trivial (by rw [hk]; rfl)
  refine ⟨h.readMore, h.write, fun hr => ?_, fun _ _ => ⟨s.nsock, rfl, rfl⟩, fun j hj => ?_⟩
  · rcases hr with hr | hr
    · exact absurd hsend (hw.workers.send.mp hr)
    · exact absurd hrecv (hw.workers.recv.mp hr)
  · obtain rfl := hw'.only_joinSsl (by rw [hk']; rfl) hj
    rw [hk'] at hj
    cases hj

theorem Paired.sslInit (h : Paired s) (hw' : Wf (s.sslInit k))
    (hk : s.client k = .joinSsl false) : Paired (s.sslInit k) := by
  have hk' : (s.sslInit k).client k = .joinSsl true := Function.update_self ..
  obtain ⟨n, hfd, hfp⟩ := h.socket k hk
  have hok : s.conn.sslInit.FpOk ∧ s.conn.sslInit.readMore = s.conn.sslInit.fns ∧
      s.conn.sslInit.write = s.conn.sslInit.fns := by
    cases hctx : s.conn.sslctx with
    | true =>
        rw [Conn.sslInit_tls hctx hfd]
        refine ⟨?_, h.readMore, h.write⟩
        simp only [Conn.FpOk, hctx, if_true]
        exact ⟨n, rfl, rfl⟩
    | false =>
        rw [Conn.sslInit_plain hctx]
        refine ⟨?_, h.readMore, h.write⟩
        unfold Conn.FpOk
        rw [hctx]
        exact ⟨n, hfd, hfp⟩
  obtain ⟨hok, hread, hwrite⟩ := hok
  refine ⟨hread, hwrite, fun _ => hok, fun j hj => ?_, fun _ _ => hok⟩
  obtain rfl := hw'.only_joinSsl (by rw [hk']; rfl) hj
  rw [hk'] at hj
  cases hj

theorem Paired.spawn (h : Paired s) (hk : s.client k = .joinSsl true) : Paired s.spawn :=
  ⟨h.readMore, h.write, fun _ => h.handle k hk, h.socket, h.handle⟩

/-- The pairing is kept by every step but a collection. -/
theorem Paired.step {a : Act} (h : Paired s) (hw : Wf s) (hw' : Wf s')
    (hgc : a = .gc → s.conn.sslctx = false) (hs : Step S s a s') : Paired s' := by
  cases hs with
  | call => exact h.move rfl (fun _ => nofun) rfl ⟨rfl, rfl⟩
  | @acquire _ k _ _ _ _ _ hst =>
      exact Paired.starts (s := s.hold k) (h.same rfl id fun _ _ => id) hst
  | @reconnect _ k _ _ _ hcl =>
      exact Paired.closes (s := s.hold k) (h.same rfl id fun _ _ => id) hw' hcl
  | acquireFails => exact h.move rfl (fun _ => nofun) rfl ⟨rfl, rfl⟩
  | sendJoined _ _ hcl =>
      refine Paired.closes (s := s.clearSend) (h.same rfl (fun hr => ?_) fun _ _ => id) hw' hcl
      exact .inr (hr.resolve_left nofun)
  | @recvJoined k hk _ =>
      have hsend := hw.workers.noSend k trivial (by rw [hk]; rfl)
      have hthread : s.conn.sendThread = false :=
        Bool.eq_false_iff.mpr fun ht => hw.workers.send.mp ht hsend
      refine Paired.closeFd (s := s.clearRecv) (h.same rfl (fun hr => ?_) fun _ _ => id) hw'
        ⟨hthread, rfl⟩
      exact .inl (hr.resolve_right nofun)
  | connected hk => exact h.connected hw hw' hk
  | connectFails => exact h.move rfl (fun _ => nofun) rfl ⟨rfl, rfl⟩
  | sslStart hk => exact h.sslInit hw' hk
  | sslDone hk hst => exact (h.spawn hk).starts hst
  | sslFails => exact h.move rfl (fun _ => nofun) rfl ⟨rfl, rfl⟩
  | body => exact h.move rfl (fun _ => nofun) rfl ⟨rfl, rfl⟩
  | bodyDone => exact h.move rfl (fun _ => nofun) rfl ⟨rfl, rfl⟩
  | wake => exact h.move rfl (fun _ => nofun) rfl ⟨rfl, rfl⟩
  | interrupt => exact h.move rfl (fun _ => nofun) rfl ⟨rfl, rfl⟩
  | sendExit => exact h.same rfl (fun hr => .inr (hr.resolve_left nofun)) fun _ _ => id
  | recvOk => exact h.same rfl id (joinSsl_signalRecv _)
  | recvBad =>
      exact h.same rfl (fun hr => .inl (hr.resolve_right nofun)) (joinSsl_signalRecv _)
  | recvExit => exact h.same rfl (fun hr => .inl (hr.resolve_right nofun)) fun _ _ => id
  | gc =>
      have hctx := hgc rfl
      have hfns : s.conn.fns = .plain := by unfold Conn.fns; rw [hctx]; rfl
      exact ⟨hfns.symm, hfns.symm, h.running, h.socket, h.handle⟩
  | _ => exact h.same rfl id fun _ _ => id

/-! ## Every run of a client -/

/-- All connections of the client use the transport they were made for. -/
def TransportConsistent (cli : Cli) : Prop := ∀ x ∈ cli.connections, x.sys.conn.Consistent

/-- The action does not collect a connection with an `sslctx`. -/
def SparesTls (cli : Cli) (a : CliAct) : Prop :=
  ∀ i, a = .conn i .gc → ∀ x ∈ cli.connections[i]?, x.sys.conn.sslctx = false

theorem gc_inconsistent (h : s.conn.sslctx = true) : ¬ s.gc.conn.Consistent := by
  intro hc
  have hfns : s.gc.conn.readMore = .ssl ∧ s.gc.conn.write = .ssl := hc.fns.mpr h
  cases hfns.1

/-- **The transport of every connection is consistent exactly as long as no
connection with an `sslctx` is collected.**  In any run of a client: calls of
`mnhttpc_new`, and threads of its connections that finalize, lose their
socket, reconnect and collect. -/
theorem transport_consistent_iff (H : Hasher) (S : Setting) (as : List CliAct) (cli : Cli)
    (h : exec (Cli.step H S) .init as = some cli) :
    Along (Cli.step H S) TransportConsistent .init as ↔
      Meets (Cli.step H S) SparesTls .init as := by
  constructor
  · intro hcons
    refine meets_of_along (I := fun _ => True) (fun _ _ _ _ _ _ => trivial) ?_ trivial h hcons
    rintro cli a cli' - hs hcons i rfl x hx
    obtain ⟨c, ha, -⟩ | ⟨j, b, y, s, ha, hy, hstep, rfl⟩ := cliStep_cases hs
    · cases ha
    · cases ha
      cases Option.some.inj (hy.symm.trans hx)
      obtain ⟨-, hgc⟩ := step_cases hstep
      cases hgc with
      | gc hsema =>
          cases htls : x.sys.conn.sslctx with
          | false => rfl
          | true =>
              have hlt : i < cli.connections.length := (List.getElem?_eq_some_iff.mp hx).1
              exact absurd (hcons { x with sys := x.sys.gc } (List.mem_set hlt _))
                (gc_inconsistent htls)
  · intro hm
    refine along_of_meets (I := fun cli => ∀ x ∈ cli.connections, Wf x.sys ∧ Paired x.sys) ?_
      (fun cli hI x hx => (hI x hx).2.consistent) (fun x hx => by cases hx) hm
    intro cli a cli' hI hspare hs
    refine connections_step (P := fun s => Wf s ∧ Paired s) hI
      (fun scheme => ⟨wf_init scheme, paired_init scheme⟩) ?_ hs
    rintro i b x s rfl hx ⟨hw, hp⟩ hb
    have hstep := (step_cases hb).2
    have hw' := hw.step hstep
    exact ⟨hw', hp.step hw hw' (fun hgc => hspare i (by rw [hgc]) x hx) hstep⟩

end

/-- A request over TLS, up to where it waits for its response. -/
def tlsCall : List CliAct := .new (callOf "https://h/") :: firstCall.map (.conn 0)

/-- The connections, as far as the pairing is concerned. -/
def Cli.links (cli : Cli) : List Link := cli.connections.map fun x => x.sys.conn.link

theorem transport_consistent_iff_tls : ∃ cli,
    exec (Cli.step .small .small) .init tlsCall = some cli ∧
      cli.links = [⟨true, .ssl, .ssl, some 0, some 0, .ssl 0⟩] ∧
      Along (Cli.step .small .small) TransportConsistent .init tlsCall := by
  have hrun : (exec (Cli.step .small .small) .init tlsCall).map Cli.links =
      some [⟨true, .ssl, .ssl, some 0, some 0, .ssl 0⟩] := by decide +kernel
  obtain ⟨cli, hexec, hlinks⟩ := Option.map_eq_some_iff.mp hrun
  refine ⟨cli, hexec, hlinks, (transport_consistent_iff _ _ _ _ hexec).mpr ?_⟩
  have hno : ∀ a ∈ tlsCall, ∀ i, a ≠ .conn i .gc := by
    simp [tlsCall, firstCall]
  refine meets_of_stateless hno fun _ a ha i hi => absurd hi (ha i)

/-- **A collected TLS connection talks in the clear.** -/
theorem gc_leaves_plain : ∃ cli,
    exec (Cli.step .small .small) .init [.new (callOf "https://h/"), .conn 0 .gc] = some cli ∧
      cli.links = [⟨true, .plain, .plain, none, none, .null⟩] ∧ ¬ TransportConsistent cli := by
  have hrun : (exec (Cli.step .small .small) .init
      [.new (callOf "https://h/"), .conn 0 .gc]).map Cli.links =
        some [⟨true, .plain, .plain, none, none, .null⟩] := by decide +kernel
  obtain ⟨cli, hexec, hlinks⟩ := Option.map_eq_some_iff.mp hrun
  refine ⟨cli, hexec, hlinks, fun hcons => ?_⟩
  obtain ⟨x, hx, hlink⟩ : ∃ x ∈ cli.connections, x.sys.conn.link =
      ⟨true, .plain, .plain, none, none, .null⟩ :=
    List.mem_map.mp (by
      show _ ∈ cli.links
      rw [hlinks]
      exact List.mem_cons_self)
  simp only [Conn.link, Link.mk.injEq] at hlink
  have hssl := (hcons x hx).fns.mpr hlink.1
  rw [hlink.2.1] at hssl
  cases hssl.1

end MnHttpc
