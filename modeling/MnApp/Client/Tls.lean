/-
# `MnApp.Client.Tls` — the calls that go through an SSL object

Three functions repeat an SSL call until it need not wait:

| function | call | returns |
| :-- | :-- | :-- |
| `bytestream_ssl_recv_more` | `SSL_read` | the bytes read, or -1 |
| `bytestream_ssl_send` | `SSL_write` | the bytes written, or -1 |
| `mnhttpc_connection_ssl_init` | `SSL_connect` | 0, what the wait returned, or `-0x8000` |

`MnApp.Client.System` knows a write, a read and a handshake as one action
each, taken where the thread wakes up.  Here the waits in between are seen:
`Retry.retry` is the loop of all three, and its rounds hold what the other
threads do during each wait.

**Sending.**  `bytestream_ssl_send` takes its bytes from `conn->out` afresh at
every turn, and `SSL_write` must be repeated with the bytes it was called with
first.  Calls append to `conn->out` meanwhile, which does not matter: every turn
offers the same bytes, and the whole of it is one `sendWrite` or `sendExit` of
the system, at the time it returns (`ssl_send_is_one_write`).

**Connecting.**  So is the handshake, `sslDone` or `sslFails`
(`ssl_init_is_one_step`).

**Receiving.**  `bytestream_ssl_recv_more` makes room before its loop and not
inside.  Nobody but `mnhttpc_connection_gc` touches `conn->in` meanwhile, and
that leaves a new buffer of 4096 bytes: reads of at most so many are safe, and
longer ones are not (`ssl_recv_more_in_bounds_iff`).

Two functions of bytestream are used: `bytestream_init(s, n)` gives a buffer of
`n` bytes with nothing in it, `bytestream_grow(s, n)` the same bytes with room
for `n` more.
-/
import MnApp.Client.Sending
import MnApp.Lib.Retry

namespace MnHttpc

open MnHttp Run Retry

/-! ## What stays while the send worker writes -/

def SendPc.isWriting : SendPc → Bool
  | .writing _ => true
  | _ => false

/-- No collection while the send worker is inside `bytestream_produce_data`. -/
def SparesWrite (s : Sys) (a : Act) : Prop := ¬ (a = .gc ∧ s.send.isWriting = true)

instance decidableSparesWrite (s : Sys) (a : Act) : Decidable (SparesWrite s a) :=
  inferInstanceAs (Decidable (¬ _))

/-- What the send worker has still to write are the first bytes that are unsent.
Others may follow. -/
structure Window (s : Sys) : Prop where
  bound : s.conn.outPos ≤ s.conn.out.length
  rest : ∀ rest, s.send = .writing rest → rest <+: s.conn.unsent

section
variable {S : Setting} {s s' : Sys} {k : ReqId} {a : Act} {rest : List OutByte}

/-- Only a collection takes bytes away from a stream that is being written. -/
theorem Step.keeps_out (hs : Step S s a s') (ha : a ≠ .gc) (hsend : s.send = .writing rest)
    (hw : a.isWrite = false) : s.conn.out <+: s'.conn.out := by
  cases hs with
  | acquire _ _ _ _ hst =>
      obtain ⟨bs, hout, -⟩ := hst.sends
      rw [hout]
      exact List.prefix_append ..
  | reconnect _ _ hcl =>
      rw [hcl.sends.1]
      exact List.prefix_rfl
  | sendJoined _ _ hcl =>
      rw [hcl.sends.1]
      exact List.prefix_rfl
  | sslStart =>
      have hout : s.conn.out = s.conn.sslInit.out := s.conn.sslInit_out.1.symm
      exact ⟨[], (List.append_nil _).trans hout⟩
  | sslDone _ hst =>
      obtain ⟨bs, hout, -⟩ := hst.sends
      rw [hout]
      exact List.prefix_append ..
  | body => exact List.prefix_append ..
  | bodyDone => exact List.prefix_append ..
  | sendNothing hspawned =>
      rw [hsend] at hspawned
      rcases hspawned with h | h <;> cases h
  | sendSome => cases hw
  | sendLast => cases hw
  | gc => exact absurd rfl ha
  | _ => exact List.prefix_rfl

theorem window_init (scheme : Scheme) : Window (.init scheme) where
  bound := Nat.le_refl 0
  rest _ := nofun

theorem Window.step (h : Window s) (hw : Wf s) (hgc : SparesWrite s a)
    (hs : MnHttpc.step S s a = some s') : Window s' := by
  have hstep := (step_cases hs).2
  cases hstep.sends hw with
  | appends bs _ hout hpos _ hsend =>
      refine ⟨?_, fun rest hr => ?_⟩
      · rw [hout, hpos, List.length_append]
        exact Nat.le_add_right_of_le h.bound
      · have hold := h.rest rest (hr ▸ hsend).writing
        unfold Conn.unsent at hold ⊢
        rw [hout, hpos, List.drop_append_of_le_length h.bound]
        exact hold.trans (List.prefix_append ..)
  | starts _ hout hpos _ hsend =>
      refine ⟨by rw [hout, hpos]; exact h.bound, fun rest hr => ?_⟩
      cases hsend.symm.trans hr
      have hunsent : s.conn.unsent = s'.conn.unsent := by
        unfold Conn.unsent
        rw [hout, hpos]
      exact ⟨[], (List.append_nil _).trans hunsent⟩
  | nothing _ hout hpos _ hsend =>
      exact ⟨by rw [hout, hpos]; exact Nat.le_refl 0, fun rest hr => nomatch hsend.symm.trans hr⟩
  | some bs rest _ hsend _ hout hpos _ hsend' =>
      have hold : bs ++ rest <+: s.conn.out.drop s.conn.outPos := h.rest _ hsend
      have hlen := hold.length_le
      rw [List.length_append, List.length_drop] at hlen
      have hbound := h.bound
      refine ⟨by rw [hout, hpos]; omega, fun rest' hr => ?_⟩
      cases hsend'.symm.trans hr
      obtain ⟨more, hmore⟩ := hold
      refine ⟨more, ?_⟩
      unfold Conn.unsent
      rw [hout, hpos, ← List.drop_drop, ← hmore, List.append_assoc, List.drop_left]
  | last _ _ _ hout hpos _ hsend =>
      exact ⟨by rw [hout, hpos]; exact Nat.le_refl 0, fun rest hr => nomatch hsend.symm.trans hr⟩
  | exits hout hpos _ hsend =>
      exact ⟨by rw [hout, hpos]; exact h.bound, fun rest hr => nomatch hsend.symm.trans hr⟩
  | collects ha hout hpos _ hsend =>
      refine ⟨by rw [hout, hpos]; exact Nat.le_refl 0, fun rest hr => ?_⟩
      -- the worker writes, so this is no collection, and there was nothing to collect
      have hold := hsend.symm.trans hr
      have hne : a ≠ .gc := fun he => hgc ⟨he, by rw [hold]; rfl⟩
      have hnil : s.conn.out = [] := List.prefix_nil.mp (hout ▸ hstep.keeps_out hne hold ha)
      have hrest := h.rest rest hold
      unfold Conn.unsent at hrest ⊢
      rw [hnil, List.drop_nil] at hrest
      rw [hout, List.drop_nil]
      exact hrest

/-- An action of a thread that is not the send worker, and no collection. -/
def Act.besideSend : Act → Bool
  | .sendRun | .sendWrite _ | .sendExit | .gc => false
  | _ => true

theorem Step.still_writing (hs : Step S s a s') (hw : Wf s) (ha : a.besideSend = true)
    (hsend : s.send = .writing rest) : s'.send = .writing rest := by
  have signalled : s.send.signalled = .writing rest := by rw [hsend]; rfl
  cases hs with
  | acquire _ _ _ _ hst =>
      obtain ⟨-, -, -, -, hsame | hsig⟩ := hst.sends
      · exact hsame.trans hsend
      · exact hsig.trans signalled
  | reconnect _ _ hcl => exact hcl.sends.2.2.2.trans hsend
  | sendJoined _ hnone _ => exact nomatch hnone.symm.trans hsend
  | sslDone hk _ =>
      have hnone := hw.workers.noSend _ trivial (by rw [hk]; rfl)
      exact nomatch hnone.symm.trans hsend
  | bodyDone => exact signalled
  | sendNothing => cases ha
  | sendStart => cases ha
  | sendSome => cases ha
  | sendLast => cases ha
  | sendExit => cases ha
  | gc => cases ha
  | _ => exact hsend

/-- Where the send worker stands during its waits. -/
structure InWrite (rest : List OutByte) (s : Sys) : Prop where
  wf : Wf s
  window : Window s
  send : s.send = .writing rest

theorem InWrite.step (h : InWrite rest s) (ha : a.besideSend = true)
    (hs : MnHttpc.step S s a = some s') : InWrite rest s' := by
  have hstep := (step_cases hs).2
  have hgc : SparesWrite s a := by
    rintro ⟨rfl, -⟩
    cases ha
  exact ⟨h.wf.step hstep, h.window.step h.wf hgc hs, hstep.still_writing h.wf ha h.send⟩

/-- What `SSL_write` finds at `buf.data + pos`. -/
theorem InWrite.take (h : InWrite rest s) {n : Nat} (hn : n ≤ rest.length) :
    s.conn.unsent.take n = rest.take n := by
  obtain ⟨more, hmore⟩ := h.window.rest rest h.send
  rw [← hmore, List.take_append_of_le_length hn]

end

/-! ## `bytestream_ssl_send` -/

/-- What an SSL function has returned, or that it waits. -/
inductive SslRes (σ : Type) where
  | returned (res : Int) (s : σ)
  | waiting (s : σ)

/-- `bytestream_ssl_send(&conn->out, ssl, sz)`: a turn of the loop answers with
the number of bytes written. -/
def bytestreamSslSend (S : Setting) (s : Sys) (sz : Nat) (rounds : List (Round Act Nat)) :
    Option (SslRes Sys) :=
  if s.conn.out.length < s.conn.outPos + sz then some (.returned (-1) s)
  else (retry (step S) s rounds).map fun
    | .done u n => .returned n (u.wrote (u.conn.unsent.take n))
    | .waitFailed u _ => .returned (-1) u
    | .failed u => .returned (-1) u
    | .waiting u => .waiting u

/-- The worker behind the call, inside `bytestream_produce_data` with `rest` to
write: it goes on, or exits. -/
def Sys.afterSend (rest : List OutByte) (res : Int) (u : Sys) : Sys :=
  if 0 < res then u.produce (rest.drop res.toNat) else u.sendExit

/-- What the call is for the system. -/
def sendAct (res : Int) : Act := if 0 < res then .sendWrite res.toNat else .sendExit

section
variable {S : Setting} {s u : Sys} {rest : List OutByte}

theorem InWrite.wrote (h : InWrite rest u) (halive : u.crashed = false) {n : Nat} (hpos : 0 < n)
    (hn : n ≤ rest.length) :
    MnHttpc.step S u (.sendWrite n) =
      some ((u.wrote (u.conn.unsent.take n)).produce (rest.drop n)) := by
  rw [h.take hn]
  simp [MnHttpc.step, halive, act, h.send, guarded, hpos, hn]

theorem InWrite.exits (h : InWrite rest u) (halive : u.crashed = false) :
    MnHttpc.step S u .sendExit = some u.sendExit := by
  simp [MnHttpc.step, halive, act, h.send]

end

/-- **A call of `bytestream_ssl_send`, with all its waits, is one write.**  In
every run without a collection while the worker writes, whatever the other
threads do while it waits: each `SSL_write` is given the same bytes, the first
that are left to write; and what the call does is what the other threads did,
followed by one write of the bytes it says it has written, or by the end of the
worker. -/
theorem ssl_send_is_one_write (S : Setting) (scheme : Scheme) (as : List Act) (s : Sys)
    (rest : List OutByte) (sz : Nat) (rounds : List (Round Act Nat)) (r : SslRes Sys)
    (h : exec (step S) (.init scheme) as = some s)
    (hgc : Meets (step S) SparesWrite (.init scheme) as)
    (hsend : s.send = .writing rest) (hsz : sz ≤ rest.length)
    (hothers : ∀ q ∈ rounds, ∀ a ∈ q.others, a.besideSend = true)
    (hreply : ∀ q ∈ rounds, ∀ n, q.reply = .ok n → 0 < n ∧ n ≤ sz)
    (hcall : bytestreamSslSend S s sz rounds = some r) :
    (∀ u ∈ calls (step S) s rounds, u.conn.unsent.take sz = rest.take sz) ∧
    ∀ res u, r = .returned res u → u.crashed = false →
      exec (step S) s (used rounds ++ [sendAct res]) = some (u.afterSend rest res) := by
  have hstart : InWrite rest s := by
    have hinv : Wf s ∧ Window s := exec_invariant (C := SparesWrite)
      (I := fun s => Wf s ∧ Window s)
      (fun _ _ _ hI hC hs => ⟨hI.1.step (step_cases hs).2, hI.2.step hI.1 hC hs⟩)
      ⟨wf_init scheme, window_init scheme⟩ hgc h
    exact ⟨hinv.1, hinv.2, hsend⟩
  obtain ⟨hcalls, hend⟩ := retry_invariant (I := InWrite rest)
    (D := fun a : Act => a.besideSend = true)
    (fun _ _ _ hI ha hs => hI.step ha hs) hstart hothers
  refine ⟨fun u hu => (hcalls u hu).take hsz, fun res u hr halive => ?_⟩
  subst hr
  -- the bytes are there, so the check at the beginning is passed
  have hroom : ¬ s.conn.out.length < s.conn.outPos + sz := by
    have hlen := (hstart.window.rest rest hsend).length_le
    rw [Conn.unsent, List.length_drop] at hlen
    have hbound := hstart.window.bound
    omega
  rw [bytestreamSslSend, if_neg hroom] at hcall
  obtain ⟨e, he, hres⟩ := Option.map_eq_some_iff.mp hcall
  have hused := exec_used he
  have hin := hend e he
  rw [exec_append, hused, Option.bind_some]
  cases e with
  | done v n =>
      cases hres
      obtain ⟨-, q, hq, hqn⟩ := done_reply he
      obtain ⟨hpos, hn⟩ := hreply q hq n hqn
      have hpos' : (0 : Int) < n := by omega
      rw [sendAct, Sys.afterSend, if_pos hpos', if_pos hpos', Int.toNat_natCast]
      exact congrArg (Option.bind · some) (hin.wrote halive hpos (Nat.le_trans hn hsz))
  | waitFailed v res =>
      cases hres
      exact congrArg (Option.bind · some) (hin.exits halive)
  | failed v =>
      cases hres
      exact congrArg (Option.bind · some) (hin.exits halive)
  | waiting v => cases hres

/-- Request 0 is on its way, its worker about to write. -/
def aboutToWrite : List Act := firstCall ++ [.sendRun]

/-- `SSL_write` wants to wait, another call is made meanwhile, and then it writes. -/
def writeAfterWait : List (Round Act Nat) := [⟨.want .write, [.call 1], 0⟩, ⟨.ok 1, [], 0⟩]

theorem ssl_send_is_one_write_waiting : ∃ s u,
    exec (step .small) (.init .https) aboutToWrite = some s ∧
    bytestreamSslSend .small s 1 writeAfterWait = some (.returned 1 u) ∧
    exec (step .small) s [.call 1, .sendWrite 1] = some (u.afterSend [⟨0, 0, 0⟩] 1) := by
  have hrun : (exec (step .small) (.init .https) aboutToWrite).map (fun s =>
      (s.send, (bytestreamSslSend .small s 1 writeAfterWait).bind fun
        | .returned 1 u => some u.crashed
        | _ => none)) = some (.writing [⟨0, 0, 0⟩], some false) := by decide
  obtain ⟨s, hs, hobs⟩ := Option.map_eq_some_iff.mp hrun
  obtain ⟨hsend, hret⟩ := Prod.mk.inj hobs
  obtain ⟨r, hr, hu⟩ := Option.bind_eq_some_iff.mp hret
  obtain ⟨u, rfl, halive⟩ : ∃ u, r = .returned 1 u ∧ u.crashed = false := by
    split at hu
    · exact ⟨_, rfl, Option.some.inj hu⟩
    · cases hu
  refine ⟨s, u, hs, hr, ?_⟩
  exact (ssl_send_is_one_write .small .https aboutToWrite s [⟨0, 0, 0⟩] 1 writeAfterWait _ hs
    (by decide) hsend (Nat.le_refl 1) (by decide) (by simp [writeAfterWait]) hr).2 1 u rfl halive

/-! ## `mnhttpc_connection_ssl_init` -/

/-- Whose call takes the action; a worker or a collection otherwise. -/
def Act.caller : Act → Option ReqId
  | .call k | .acquire k _ | .acquireFails k | .sendJoined k | .recvJoined k | .connected k
  | .connectFails k | .sslStart k | .sslDone k _ | .sslFails k | .body k _ | .bodyDone k
  | .wake k | .interrupt k => some k
  | .sendRun | .sendWrite _ | .sendExit | .recvReady _ | .recv _ | .recvExit | .gc => none

section
variable {S : Setting} {s s' : Sys} {j k : ReqId} {a : Act}

theorem client_of_update {pc : ClientPc} (hjk : some j ≠ some k)
    (hclient : s'.client = Function.update s.client j pc) : s'.client k = s.client k := by
  rw [hclient, Function.update_of_ne fun h => hjk (by rw [h])]

/-- The others leave a call where it is, unless they tell it that its response
has come. -/
theorem Step.client_of_other (hs : Step S s a s') (ha : a.caller ≠ some k)
    (hk : s.client k ≠ .subscribed) : s'.client k = s.client k := by
  have told : ∀ req, (s.signalRecv req).client k = s.client k := fun req =>
    if_neg fun hc => hk hc.2
  cases hs with
  | call => exact client_of_update ha rfl
  | acquire _ _ _ _ hst => exact client_of_update ha hst.client.choose_spec.1
  | reconnect _ _ hcl => exact client_of_update ha hcl.client.choose_spec.1
  | acquireFails => exact client_of_update ha rfl
  | sendJoined _ _ hcl => exact client_of_update ha hcl.client.choose_spec.1
  | recvJoined => exact client_of_update ha rfl
  | connected => exact client_of_update ha rfl
  | connectFails => exact client_of_update ha rfl
  | sslStart => exact client_of_update ha rfl
  | sslDone _ hst => exact client_of_update ha hst.client.choose_spec.1
  | sslFails => exact client_of_update ha rfl
  | body => exact client_of_update ha rfl
  | bodyDone => exact client_of_update ha rfl
  | wake => exact client_of_update ha rfl
  | interrupt => exact client_of_update ha rfl
  | recvOk => exact told _
  | recvBad => exact told _
  | _ => rfl

end

/-- `MNHTTPC_CONNECTION_SSL_ERROR`. -/
def connectionSslError : Int := -0x8000

/-- `mnhttpc_connection_ssl_init`, for the call of request `k`. -/
def mnhttpcConnectionSslInit (S : Setting) (s : Sys) (k : ReqId)
    (rounds : List (Round Act Unit)) : Option (SslRes Sys) :=
  if s.conn.sslctx then
    (retry (step S) (s.sslInit k) rounds).map fun
      | .done u _ => .returned 0 u
      | .waitFailed u res => .returned res u
      | .failed u => .returned connectionSslError u
      | .waiting u => .waiting u
  else some (.returned 0 (s.sslInit k))

/-- The call behind `mnthr_join`: the workers are spawned and the request is
started, or it returns. -/
def Sys.afterJoin (S : Setting) (k : ReqId) (failed : Option Nat) (res : Int) (u : Sys) : Sys :=
  if res = 0 then u.spawn.startRequest S k failed else u.release k (.finalize 2)

/-- What that is for the system. -/
def joinAct (k : ReqId) (failed : Option Nat) (res : Int) : Act :=
  if res = 0 then .sslDone k failed else .sslFails k

theorem step_joinAct {S : Setting} {u : Sys} {k : ReqId} (hk : u.client k = .joinSsl true)
    (halive : u.crashed = false) (failed : Option Nat) (res : Int) :
    step S u (joinAct k failed res) = some (u.afterJoin S k failed res) := by
  unfold joinAct Sys.afterJoin
  split <;> simp [step, halive, act, hk, guarded]

/-- **A handshake, with all its waits, is one step.**  Whatever the other threads
do while `mnhttpc_connection_ssl_init` waits, the call that joins it stays where
it is; it succeeds when there is no TLS or `SSL_connect` has succeeded, and what
happens is its start, what the other threads did, and one of the two steps behind
the join. -/
theorem ssl_init_is_one_step (S : Setting) (s : Sys) (k : ReqId) (rounds : List (Round Act Unit))
    (failed : Option Nat) (res : Int) (u : Sys)
    (hk : s.client k = .joinSsl false) (halive : s.crashed = false)
    (hothers : ∀ q ∈ rounds, ∀ a ∈ q.others, a.caller ≠ some k)
    (hcall : mnhttpcConnectionSslInit S s k rounds = some (.returned res u))
    (hend : u.crashed = false) :
    (res = 0 ↔ s.conn.sslctx = false ∨ retry (step S) (s.sslInit k) rounds = some (.done u ())) ∧
    exec (step S) s (.sslStart k :: (if s.conn.sslctx then used rounds else []) ++
      [joinAct k failed res]) = some (u.afterJoin S k failed res) := by
  have hk' : (s.sslInit k).client k = .joinSsl true := Function.update_self ..
  have hstart : step S s (.sslStart k) = some (s.sslInit k) := by
    simp [step, halive, act, hk, guarded]
  rw [List.cons_append, exec, hstart, Option.bind_some, exec_append]
  unfold mnhttpcConnectionSslInit at hcall
  cases hctx : s.conn.sslctx with
  | false =>
      rw [hctx] at hcall
      cases hcall
      refine ⟨⟨fun _ => .inl rfl, fun _ => rfl⟩, ?_⟩
      exact congrArg (Option.bind · some) (step_joinAct hk' hend failed 0)
  | true =>
      rw [hctx, if_pos rfl] at hcall
      obtain ⟨e, he, hres⟩ := Option.map_eq_some_iff.mp hcall
      have hstay : e.state.client k = .joinSsl true := by
        refine (retry_invariant (I := fun s => s.client k = .joinSsl true)
          (D := fun a => a.caller ≠ some k) (fun s a s' hI ha hs => ?_) hk' hothers).2 e he
        have hother : s.client k ≠ .subscribed := by
          rw [hI]
          intro h
          cases h
        rw [(step_cases hs).2.client_of_other ha hother]
        exact hI
      rw [if_pos rfl, exec_used he, Option.bind_some, he]
      cases e with
      | done v x =>
          cases hres
          refine ⟨⟨fun _ => .inr rfl, fun _ => rfl⟩, ?_⟩
          exact congrArg (Option.bind · some) (step_joinAct hstay hend failed 0)
      | waitFailed v w =>
          cases hres
          refine ⟨⟨fun h0 => absurd h0 (waitFailed_ne_zero he), ?_⟩, ?_⟩
          · rintro (h | h) <;> cases h
          · exact congrArg (Option.bind · some) (step_joinAct hstay hend failed _)
      | failed v =>
          cases hres
          refine ⟨⟨fun h0 => absurd h0 (by decide), ?_⟩, ?_⟩
          · rintro (h | h) <;> cases h
          · exact congrArg (Option.bind · some) (step_joinAct hstay hend failed _)
      | waiting v => cases hres

/-- The handshake waits, another call is made, and the wait is interrupted. -/
def handshakeLost : List (Round Act Unit) := [⟨.want .read, [.call 1], -1⟩]

theorem ssl_init_is_one_step_lost : ∃ s u,
    exec (step .small) (.init .https) (firstCall.take 3) = some s ∧
    mnhttpcConnectionSslInit .small s 0 handshakeLost = some (.returned (-1) u) ∧
    exec (step .small) s [.sslStart 0, .call 1, .sslFails 0] =
      some (u.afterJoin .small 0 none (-1)) := by
  have hrun : (exec (step .small) (.init .https) (firstCall.take 3)).map (fun s =>
      (s.client 0, s.crashed, s.conn.sslctx,
        (mnhttpcConnectionSslInit .small s 0 handshakeLost).bind fun
          | .returned (-1) u => some u.crashed
          | _ => none)) = some (.joinSsl false, false, true, some false) := by decide
  obtain ⟨s, hs, hobs⟩ := Option.map_eq_some_iff.mp hrun
  obtain ⟨hk, halive, hctx, hret⟩ : s.client 0 = .joinSsl false ∧ s.crashed = false ∧
      s.conn.sslctx = true ∧ _ = some false := by
    simpa only [Prod.mk.injEq] using hobs
  obtain ⟨r, hr, hu⟩ := Option.bind_eq_some_iff.mp hret
  obtain ⟨u, rfl, hend⟩ : ∃ u, r = .returned (-1) u ∧ u.crashed = false := by
    split at hu
    · exact ⟨_, rfl, Option.some.inj hu⟩
    · cases hu
  have hstep := (ssl_init_is_one_step .small s 0 handshakeLost none (-1) u hk halive
    (by decide) hr hend).2
  rw [hctx] at hstep
  exact ⟨s, u, hs, hr, hstep⟩

/-! ## `bytestream_ssl_recv_more` -/

/-- `conn->in`: the bytes up to `eod`, and how many there is room for. -/
structure InBuf where
  data : List UInt8
  size : Nat
  bound : data.length ≤ size

/-- `BLOCKSZ`. -/
def blocksz : Nat := 4096

/-- `bytestream_init(&conn->in, 4096)`. -/
def InBuf.init : InBuf := ⟨[], 4096, Nat.zero_le _⟩

/-- `bytestream_grow`. -/
def InBuf.grow (b : InBuf) (n : Nat) : InBuf :=
  ⟨b.data, b.size + n, Nat.le_add_right_of_le b.bound⟩

/-- `bytestream_ssl_recv_more`, up to its loop. -/
def InBuf.makeRoom (b : InBuf) (sz : Nat) : InBuf :=
  let need : Int := (b.data.length + sz : Int) - b.size
  if 0 < need then b.grow (if need < blocksz then blocksz else need.toNat) else b

/-- What another thread does to `conn->in` during a wait. -/
inductive InAct where
  | gc
deriving DecidableEq, Repr

def inStep (_ : InBuf) : InAct → Option InBuf
  | .gc => some .init

/-- How `bytestream_ssl_recv_more` ends; `overrun` when `SSL_read` writes behind
the end of the buffer. -/
inductive RecvRes where
  | returned (res : Int) (b : InBuf)
  | overrun
  | waiting (b : InBuf)

/-- `stream->eod += nrecv`, behind `SSL_read`. -/
def InBuf.add (b : InBuf) (bs : List UInt8) : RecvRes :=
  if h : b.data.length + bs.length ≤ b.size then
    .returned bs.length ⟨b.data ++ bs, b.size, by rw [List.length_append]; exact h⟩
  else .overrun

/-- What follows the loop of `bytestream_ssl_recv_more`. -/
def recvEnd : End InBuf (List UInt8) → RecvRes
  | .done u bs => u.add bs
  | .waitFailed u _ => .returned (-1) u
  | .failed u => .returned (-1) u
  | .waiting u => .waiting u

/-- `bytestream_ssl_recv_more(&conn->in, ssl, sz)`: a turn of the loop answers with
the bytes read.  `grown` says whether `bytestream_grow` succeeds. -/
def bytestreamSslRecvMore (b : InBuf) (sz : Nat) (grown : Bool)
    (rounds : List (Round InAct (List UInt8))) : Option RecvRes :=
  if b.size < b.data.length + sz ∧ grown = false then some (.returned (-1) b)
  else (retry inStep (b.makeRoom sz) rounds).map recvEnd

/-- `SSL_read` is given `(int)sz`, and answers with so many bytes at most. -/
def ReadsUpTo (sz : Nat) (rounds : List (Round InAct (List UInt8))) : Prop :=
  ∀ q ∈ rounds, ∀ bs, q.reply = .ok bs → bs ≠ [] ∧ (bs.length : Int) ≤ CLib.toInt sz

/-- There is room for what `SSL_read` may answer with. -/
def InBuf.Room (sz : Nat) (b : InBuf) : Prop := (b.data.length + CLib.toInt sz : Int) ≤ b.size

theorem makeRoom_data (b : InBuf) (sz : Nat) : (b.makeRoom sz).data = b.data := by
  unfold InBuf.makeRoom
  dsimp only
  split <;> rfl

theorem makeRoom_room (b : InBuf) (sz : Nat) : (b.makeRoom sz).Room sz := by
  have hint : CLib.toInt sz ≤ sz := CLib.toInt_le (Int.natCast_nonneg sz)
  rw [InBuf.Room, makeRoom_data]
  unfold InBuf.makeRoom
  dsimp only
  split
  · show _ ≤ ((b.size + _ : Nat) : Int)
    split <;> omega
  · omega

theorem InBuf.Room.add {sz : Nat} {b : InBuf} (h : b.Room sz) {bs : List UInt8}
    (hbs : (bs.length : Int) ≤ CLib.toInt sz) :
    ∃ b', b.add bs = .returned bs.length b' ∧ b'.data = b.data ++ bs := by
  have hroom : b.data.length + bs.length ≤ b.size := by
    unfold InBuf.Room at h
    omega
  exact ⟨_, dif_pos hroom, rfl⟩

/-- What a call has done to the bytes that were there. -/
inductive Received (data : List UInt8) : RecvRes → Prop
  | failed {b : InBuf} : b.data = data → Received data (.returned (-1) b)
  | read {b : InBuf} {bs : List UInt8} : bs ≠ [] → b.data = data ++ bs →
      Received data (.returned bs.length b)
  | waits {b : InBuf} : b.data = data → Received data (.waiting b)

section
variable {b : InBuf} {sz : Nat} {grown : Bool} {rounds : List (Round InAct (List UInt8))}

theorem received_of_room {e : End InBuf (List UInt8)} (hreads : ReadsUpTo sz rounds)
    (he : retry inStep b rounds = some e) (hroom : e.state.Room sz) :
    Received e.state.data (recvEnd e) := by
  cases e with
  | done u bs =>
      obtain ⟨-, q, hq, hreply⟩ := done_reply he
      obtain ⟨hne, hlen⟩ := hreads q hq bs hreply
      have hu : u.Room sz := hroom
      obtain ⟨b', hadd, hdata⟩ := hu.add hlen
      show Received u.data (u.add bs)
      rw [hadd]
      exact .read hne hdata
  | waitFailed u res => exact .failed rfl
  | failed u => exact .failed rfl
  | waiting u => exact .waits rfl

theorem received_alone {r : RecvRes} (hreads : ReadsUpTo sz rounds)
    (hothers : ∀ q ∈ rounds, q.others = [])
    (h : bytestreamSslRecvMore b sz grown rounds = some r) : Received b.data r := by
  unfold bytestreamSslRecvMore at h
  split at h
  · cases h
    exact .failed rfl
  · obtain ⟨e, he, rfl⟩ := Option.map_eq_some_iff.mp h
    have hsame : e.state = b.makeRoom sz :=
      (retry_invariant (I := (· = b.makeRoom sz)) (D := fun _ => False) (fun _ _ _ _ ha => ha.elim)
        rfl fun q hq a ha => by rw [hothers q hq] at ha; cases ha).2 e he
    have hrecv := received_of_room hreads he (by rw [hsame]; exact makeRoom_room b sz)
    rw [hsame, makeRoom_data] at hrecv
    exact hrecv

theorem not_overrun (hsz : CLib.toInt sz ≤ 4096) (hreads : ReadsUpTo sz rounds) :
    bytestreamSslRecvMore b sz grown rounds ≠ some .overrun := by
  intro h
  unfold bytestreamSslRecvMore at h
  split at h
  · cases h
  · obtain ⟨e, he, hover⟩ := Option.map_eq_some_iff.mp h
    -- the new buffer has room as well
    have hroom : e.state.Room sz := by
      refine (retry_invariant (I := InBuf.Room sz) (D := fun _ => True) (fun u a u' _ _ hu => ?_)
        (makeRoom_room b sz) fun _ _ _ _ => trivial).2 e he
      cases a
      cases hu
      unfold InBuf.Room InBuf.init
      dsimp only
      simpa using hsz
    have hrecv := received_of_room hreads he hroom
    rw [hover] at hrecv
    cases hrecv

end

/-- A collection during the wait, and then a read of `n` bytes. -/
def readAfterGc (n : Nat) : List (Round InAct (List UInt8)) :=
  [⟨.want .read, [.gc], 0⟩, ⟨.ok (List.replicate n 0), [], 0⟩]

theorem overrun_after_gc (sz : Nat) {n : Nat} (hn : 4096 < n) :
    bytestreamSslRecvMore .init sz true (readAfterGc n) = some .overrun := by
  have hroom : ¬ InBuf.init.data.length + (List.replicate n (0 : UInt8)).length ≤
      InBuf.init.size := by
    rw [List.length_replicate]
    show ¬ 0 + n ≤ 4096
    omega
  have hloop : retry inStep (InBuf.init.makeRoom sz) (readAfterGc n) =
      some (.done .init (List.replicate n 0)) := by
    simp only [readAfterGc, retry, exec, inStep, Option.bind_some, if_true]
  have hgrown : ¬ (InBuf.init.size < InBuf.init.data.length + sz ∧ true = false) :=
    fun h => Bool.noConfusion h.2
  rw [bytestreamSslRecvMore, if_neg hgrown, hloop, Option.map_some, recvEnd, InBuf.add,
    dif_neg hroom]

theorem readAfterGc_reads {sz n : Nat} (hn : 0 < n) (hsz : (n : Int) ≤ CLib.toInt sz) :
    ReadsUpTo sz (readAfterGc n) := by
  intro q hq bs hbs
  rcases List.mem_pair.mp hq with rfl | rfl
  · cases hbs
  · obtain rfl : List.replicate n 0 = bs := Reply.ok.inj hbs
    refine ⟨?_, by rw [List.length_replicate]; exact hsz⟩
    rw [ne_eq, List.replicate_eq_nil_iff]
    exact Nat.ne_of_gt hn

/-- **Where `bytestream_ssl_recv_more` stays inside its buffer.**  When nobody
touches `conn->in` during its waits, it adds what `SSL_read` has read behind what
was there, or nothing, whatever `sz`.  With collections in between, it stays inside
the buffer for all runs exactly when it asks `SSL_read` for 4096 bytes at most. -/
theorem ssl_recv_more_in_bounds_iff (sz : Nat) :
    (∀ b grown rounds r, ReadsUpTo sz rounds → (∀ q ∈ rounds, q.others = []) →
      bytestreamSslRecvMore b sz grown rounds = some r → Received b.data r) ∧
    ((∀ b grown rounds, ReadsUpTo sz rounds →
      bytestreamSslRecvMore b sz grown rounds ≠ some .overrun) ↔ CLib.toInt sz ≤ 4096) := by
  refine ⟨fun b grown rounds r hreads hothers => received_alone hreads hothers, fun h => ?_,
    fun hsz b grown rounds hreads => not_overrun hsz hreads⟩
  by_contra hlt
  obtain ⟨n, hn⟩ := Int.eq_ofNat_of_zero_le (show 0 ≤ CLib.toInt sz by omega)
  exact h .init true (readAfterGc n) (readAfterGc_reads (by omega) (Int.le_of_eq hn.symm))
    (overrun_after_gc sz (by omega))

end MnHttpc
