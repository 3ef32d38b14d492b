/-
# `MnApp.Client.Sockets` — every socket is opened, used and closed in turn

A connection opens a socket in `mnhttpc_connection_connect`, makes an SSL
object for it in `mnhttpc_connection_ssl_init`, and gives both back in
`mnhttpc_connection_close`, which the next call runs when it finds a worker
missing, and `mnhttpc_connection_fini` at the end.  In between anything can
fail: the connect, the handshake, a read, a write, a parse.

`events` says which of these four things an action does.  What a run does
with sockets is then one list, and the theorem is about all of it:

    life 0 ++ life 1 ++ ⋯ ++ life (n - 1) ++ what has begun

| | |
| :-- | :-- |
| `life false n` | `socket n`, `close n` |
| `life true n` | `socket n`, `SSL_new n`, `SSL_free n`, `close n` |

So no socket is lost when a handshake fails or a worker dies, none is closed
twice, an SSL object goes before its socket, and the next socket is opened
when the last one is closed.  With it come the two facts that make the
closing safe: workers run only while there is a socket, and when it is closed
both of them have ended.

**The end.**  `mnhttpc_connection_fini` destroys what is queued, waits for the
workers and closes.  Behind it all lives are over (`fini_closes_all`); what it
destroys are requests of calls that were interrupted.
-/
import MnApp.Client.Ownership

namespace MnHttpc

open MnHttp Run

/-! ## What is done with sockets -/

/-- The calls that open and close. -/
inductive SockEvent where
  | socket (n : Nat)
  | sslNew (n : Nat)
  | sslFree (n : Nat)
  | close (n : Nat)
deriving DecidableEq, Repr

/-- What `mnhttpc_connection_close` does, once the workers are gone. -/
def Conn.shut (c : Conn) : List SockEvent := c.ssl.toList.map .sslFree ++ c.fd.toList.map .close

/-- What has been done for the socket that is open. -/
def Conn.begun (c : Conn) : List SockEvent := c.fd.toList.map .socket ++ c.ssl.toList.map .sslNew

/-- The action gets to the end of `mnhttpc_connection_close`. -/
def Sys.closing (s : Sys) : Act → Bool
  | .acquire _ _ => !s.conn.sendThread && !s.conn.recvThread
  | .sendJoined _ => !s.conn.recvThread
  | .recvJoined _ => true
  | _ => false

/-- What the action does with sockets. -/
def Sys.events (s : Sys) : Act → List SockEvent
  | .connected _ => [.socket s.nsock]
  | .sslStart _ => if s.conn.sslctx then s.conn.fd.toList.map .sslNew else []
  | a => if s.closing a then s.conn.shut else []

/-- What a run does with sockets. -/
def sockTrace (S : Setting) : Sys → List Act → List SockEvent := collect (step S) Sys.events

/-- All that is ever done with one socket. -/
def life (tls : Bool) (n : Nat) : List SockEvent :=
  if tls then [.socket n, .sslNew n, .sslFree n, .close n] else [.socket n, .close n]

/-- All that is done with the first sockets, one after the other. -/
def lives (tls : Bool) (n : Nat) : List SockEvent := (List.range n).flatMap (life tls)

theorem lives_succ (tls : Bool) (n : Nat) : lives tls (n + 1) = lives tls n ++ life tls n := by
  rw [lives, List.range_succ, List.flatMap_append, List.flatMap_singleton]
  rfl

/-! ## The account -/

/-- Where a call is inside `mnhttpc_connection_connect`. -/
def ClientPc.linking : ClientPc → Bool
  | .connect | .joinSsl _ => true
  | _ => false

/-- The SSL object that belongs to the socket. -/
def Conn.sslOf (tls : Bool) (c : Conn) : Option Nat := if tls then c.fd else none

/-- How the connection stands with its sockets, `tr` being what was done with
them. -/
structure Accounts (tls : Bool) (s : Sys) (tr : List SockEvent) : Prop where
  sslctx : s.conn.sslctx = tls
  past : tr = lives tls (s.nsock - s.conn.fd.toList.length) ++ s.conn.begun
  last : ∀ n, s.conn.fd = some n → s.nsock = n + 1
  settled : (∀ k, s.client k ≠ .joinSsl false) → s.conn.ssl = s.conn.sslOf tls
  fresh : ∀ k, s.client k = .joinSsl false → s.conn.ssl = none
  connect : ∀ k, s.client k = .connect → s.conn.fd = none
  linked : ∀ k b, s.client k = .joinSsl b → s.conn.fd ≠ none
  running : s.send ≠ .none ∨ s.recv ≠ .none → s.conn.fd ≠ none

theorem accounts_init (scheme : Scheme) : Accounts (scheme = .https) (.init scheme) [] where
  sslctx := rfl
  past := rfl
  last _ := nofun
  settled _ := by cases decide (scheme = .https) <;> rfl
  fresh _ := nofun
  connect _ := nofun
  linked _ _ := nofun
  running h := by rcases h with h | h <;> exact absurd rfl h

section
variable {S : Setting} {s s' : Sys} {k : ReqId} {tls : Bool} {tr : List SockEvent}

/-- What the account is about, the calls and the workers apart. -/
structure SameSocket (s s' : Sys) : Prop where
  fd : s'.conn.fd = s.conn.fd
  ssl : s'.conn.ssl = s.conn.ssl
  sslctx : s'.conn.sslctx = s.conn.sslctx
  nsock : s'.nsock = s.nsock

/-- Nothing is done with sockets, no call comes to connect, and the one at
`sslinit` stays there. -/
theorem Accounts.same (h : Accounts tls s tr) (hc : SameSocket s s')
    (hlink : ∀ j, (s'.client j).linking = true → s'.client j = s.client j)
    (hfresh : ∀ j, s.client j = .joinSsl false → s'.client j = .joinSsl false)
    (hrun : s'.send ≠ .none ∨ s'.recv ≠ .none → s.send ≠ .none ∨ s.recv ≠ .none) :
    Accounts tls s' tr := by
  have back : ∀ {j : ReqId} {pc : ClientPc}, pc.linking = true → s'.client j = pc →
      s.client j = pc := fun hpc hj => (hlink _ (by rw [hj, hpc])).symm.trans hj
  have hbegun : s'.conn.begun = s.conn.begun := by unfold Conn.begun; rw [hc.fd, hc.ssl]
  have hof : s'.conn.sslOf tls = s.conn.sslOf tls := by unfold Conn.sslOf; rw [hc.fd]
  refine ⟨hc.sslctx.trans h.sslctx, ?_, ?_, fun hno => ?_, ?_, ?_, ?_, ?_⟩
  · rw [hc.fd, hc.nsock, hbegun]
    exact h.past
  · rw [hc.fd, hc.nsock]
    exact h.last
  · rw [hc.ssl, hof]
    exact h.settled fun j hj => hno j (hfresh j hj)
  · rw [hc.ssl]
    exact fun j hj => h.fresh j (back rfl hj)
  · rw [hc.fd]
    exact fun j hj => h.connect j (back rfl hj)
  · rw [hc.fd]
    exact fun j b hj => h.linked j b (back rfl hj)
  · rw [hc.fd]
    exact fun hr => h.running (hrun hr)

theorem Accounts.worker (h : Accounts tls s tr) (hclient : s'.client = s.client)
    (hc : SameSocket s s')
    (hrun : s'.send ≠ .none ∨ s'.recv ≠ .none → s.send ≠ .none ∨ s.recv ≠ .none) :
    Accounts tls s' tr :=
  h.same hc (fun j _ => by rw [hclient]) (fun j hj => by rw [hclient, hj]) hrun

theorem Accounts.move (h : Accounts tls s tr) {pc pc' : ClientPc} (hk : s.client k = pc)
    (hpc : pc ≠ .joinSsl false) (hclient : s'.client = Function.update s.client k pc')
    (hpc' : pc'.linking = false) (hc : SameSocket s s')
    (hrun : s'.send ≠ .none ∨ s'.recv ≠ .none → s.send ≠ .none ∨ s.recv ≠ .none) :
    Accounts tls s' tr := by
  refine h.same hc (fun j hj => ?_) (fun j hj => ?_) hrun
  · rw [hclient] at hj ⊢
    by_cases hjk : j = k
    · rw [hjk, Function.update_self, hpc'] at hj
      cases hj
    · rw [Function.update_of_ne hjk]
  · have hjk : j ≠ k := by
      rintro rfl
      exact hpc (hk.symm.trans hj)
    rw [hclient, Function.update_of_ne hjk]
    exact hj

theorem running_signalled (h : s.send.signalled ≠ .none ∨ s.recv ≠ .none) :
    s.send ≠ .none ∨ s.recv ≠ .none :=
  h.imp_left fun hs hn => hs (SendPc.signalled_eq_none.mpr hn)

theorem Accounts.starts {failed : Option Nat} {pc : ClientPc} (h : Accounts tls s tr)
    (hk : s.client k = pc) (hpc : pc ≠ .joinSsl false) (hst : Starts S s k failed s') :
    Accounts tls s' tr := by
  cases hst with
  | refused => exact h.move hk hpc rfl rfl ⟨rfl, rfl, rfl, rfl⟩ id
  | broken => exact h.move hk hpc rfl rfl ⟨rfl, rfl, rfl, rfl⟩ id
  | body => exact h.move hk hpc rfl rfl ⟨rfl, rfl, rfl, rfl⟩ id
  | plain => exact h.move hk hpc rfl rfl ⟨rfl, rfl, rfl, rfl⟩ running_signalled

theorem Accounts.signalRecv (h : Accounts tls s tr) (req : Option ReqId) :
    Accounts tls (s.signalRecv req) tr := by
  refine h.same ⟨rfl, rfl, rfl, rfl⟩ (fun j hj => ?_) (fun j hj => ?_) id
  · unfold Sys.signalRecv at hj ⊢
    dsimp only at hj ⊢
    split at hj
    · cases hj
    · rename_i hne
      rw [if_neg hne]
  · unfold Sys.signalRecv
    dsimp only
    rw [if_neg fun hc => nomatch hc.2.symm.trans hj]
    exact hj

/-! ## The end of a socket and the beginning -/

theorem Accounts.shut (h : Accounts tls s tr) (hno : ∀ j, s.client j ≠ .joinSsl false) :
    tr ++ s.conn.shut = lives tls s.nsock := by
  have hssl := h.settled hno
  rw [h.past, List.append_assoc]
  cases hfd : s.conn.fd with
  | none =>
      have hnone : s.conn.ssl = none := by
        rw [hssl, Conn.sslOf, hfd]
        exact ite_self _
      rw [Conn.begun, Conn.shut, hfd, hnone]
      exact List.append_nil _
  | some n =>
      rw [h.last n hfd, Option.toList_some, List.length_singleton, Nat.add_sub_cancel, lives_succ,
        Conn.begun, Conn.shut, hssl, Conn.sslOf, hfd]
      cases tls <;> rfl

/-- A call that holds the semaphore elsewhere has nobody at `sslinit` beside it. -/
theorem Holder.not_fresh (hh : Holder s) {pc : ClientPc} (hk : s.client k = pc)
    (hpc : pc.holds = true) (hne : pc ≠ .joinSsl false) (j : ReqId) :
    s.client j ≠ .joinSsl false := by
  intro hj
  obtain rfl := hh.other (by rw [hk, hpc]) (by rw [hj]; rfl)
  exact hne (hk.symm.trans hj)

theorem Accounts.closeFd (h : Accounts tls s tr) (hh : Holder (s.closeFd k))
    (hno : ∀ j, s.client j ≠ .joinSsl false) (hgone : s.send = .none ∧ s.recv = .none) :
    Accounts tls (s.closeFd k) (tr ++ s.conn.shut) := by
  have hk : (s.closeFd k).client k = .connect := Function.update_self ..
  have hnot : ∀ j b, (s.closeFd k).client j ≠ .joinSsl b := fun j b hj => by
    obtain rfl := hh.other (by rw [hk]; rfl) (by rw [hj]; rfl)
    exact nomatch hk.symm.trans hj
  refine ⟨h.sslctx, ?_, nofun, fun _ => ?_, fun j hj => absurd hj (hnot j _),
    fun _ _ => rfl, fun j b hj => absurd hj (hnot j b), fun hr => ?_⟩
  · rw [h.shut hno]
    exact (List.append_nil _).symm
  · cases tls <;> rfl
  · exact absurd hr (not_or.mpr ⟨not_not.mpr hgone.1, not_not.mpr hgone.2⟩)

theorem Accounts.connected (h : Accounts tls s tr) (hh : Holder s) (hh' : Holder (s.connected k))
    (hk : s.client k = .connect) :
    Accounts tls (s.connected k) (tr ++ [.socket s.nsock]) := by
  have hk' : (s.connected k).client k = .joinSsl false := Function.update_self ..
  have hfd := h.connect k hk
  have hssl : s.conn.ssl = none := by
    rw [h.settled (hh.not_fresh hk rfl nofun), Conn.sslOf, hfd]
    exact ite_self _
  refine ⟨h.sslctx, ?_, ?_, fun hn => absurd hk' (hn k), fun _ _ => hssl, fun j hj => ?_,
    fun _ _ _ => nofun, fun _ => nofun⟩
  · have hbegun : (s.connected k).conn.begun = [.socket s.nsock] := by
      show _ ++ s.conn.ssl.toList.map _ = _
      rw [hssl]
      rfl
    rw [hbegun, h.past, Conn.begun, hfd, hssl]
    show lives tls s.nsock ++ [] ++ [_] = lives tls (s.nsock + 1 - 1) ++ [_]
    rw [List.append_nil, Nat.add_sub_cancel]
  · rintro n ⟨⟩
    rfl
  · obtain rfl := hh'.other (by rw [hk']; rfl) (by rw [hj]; rfl)
    exact nomatch hk'.symm.trans hj

theorem Accounts.sslInit (h : Accounts tls s tr) (hh' : Holder (s.sslInit k))
    (hk : s.client k = .joinSsl false) :
    Accounts tls (s.sslInit k) (tr ++ s.events (.sslStart k)) := by
  have hk' : (s.sslInit k).client k = .joinSsl true := Function.update_self ..
  have hssl := h.fresh k hk
  obtain ⟨n, hfd⟩ := Option.ne_none_iff_exists'.mp (h.linked k false hk)
  have hnot : ∀ j, (s.sslInit k).client j ≠ .connect := fun j hj => by
    obtain rfl := hh'.other (by rw [hk']; rfl) (by rw [hj]; rfl)
    exact nomatch hk'.symm.trans hj
  -- the socket is the one it was, and the SSL object is made for it
  have hconn : s.conn.sslInit.fd = some n ∧ s.conn.sslInit.sslctx = tls ∧
      s.conn.sslInit.ssl = s.conn.sslInit.sslOf tls ∧
      s.conn.sslInit.begun = s.conn.begun ++ s.events (.sslStart k) := by
    have hctx := h.sslctx
    cases tls with
    | true =>
        rw [Conn.sslInit_tls hctx hfd]
        refine ⟨hfd, hctx, hfd.symm, ?_⟩
        rw [Conn.begun, Conn.begun, hssl, Sys.events, hctx, hfd]
        rfl
    | false =>
        rw [Conn.sslInit_plain hctx]
        refine ⟨hfd, hctx, hssl, ?_⟩
        rw [Sys.events, hctx]
        exact (List.append_nil _).symm
  obtain ⟨hfd', hctx', hssl', hbegun'⟩ := hconn
  have hopen : s.conn.sslInit.fd ≠ none := by
    rw [hfd']
    exact nofun
  refine ⟨hctx', ?_, ?_, fun _ => hssl',
    fun j hj => absurd hj (hh'.not_fresh hk' rfl nofun j), fun j hj => absurd hj (hnot j),
    fun _ _ _ => hopen, fun _ => hopen⟩
  · show _ = lives tls (s.nsock - s.conn.sslInit.fd.toList.length) ++ s.conn.sslInit.begun
    rw [hfd', hbegun', ← List.append_assoc, h.past, hfd]
  · show ∀ m, s.conn.sslInit.fd = some m → s.nsock = m + 1
    rw [hfd', ← hfd]
    exact h.last

theorem Accounts.spawn (h : Accounts tls s tr) (hk : s.client k = .joinSsl true) :
    Accounts tls s.spawn tr :=
  ⟨h.sslctx, h.past, h.last, h.settled, h.fresh, h.connect, h.linked,
    fun _ => h.linked k true hk⟩

/-! ## Every step -/

/-- When the action gets to the end of `mnhttpc_connection_close`, both workers
have ended. -/
theorem Workers.gone {a : Act} (hw : Workers (fun _ => True) s) (hs : Step S s a s')
    (hcl : s.closing a = true) : s.send = .none ∧ s.recv = .none := by
  cases hs with
  | acquire _ _ hsend _ _ =>
      rw [Sys.closing, hsend] at hcl
      cases hcl
  | reconnect =>
      obtain ⟨hsend, hrecv⟩ := Bool.and_eq_true_iff.mp hcl
      exact ⟨hw.sendNone (Bool.not_eq_true' _ |>.mp hsend),
        hw.recvNone (Bool.not_eq_true' _ |>.mp hrecv)⟩
  | sendJoined _ hsend _ => exact ⟨hsend, hw.recvNone (Bool.not_eq_true' _ |>.mp hcl)⟩
  | @recvJoined k hk hrecv => exact ⟨hw.noSend k trivial (by rw [hk]; rfl), hrecv⟩
  | _ => cases hcl

theorem Accounts.quiet {a : Act} (ha : s.events a = []) (h : Accounts tls s' tr) :
    Accounts tls s' (tr ++ s.events a) := by
  rw [ha, List.append_nil]
  exact h

/-- `mnhttpc_connection_close`, from `s₀` on, which is `s` with the semaphore
taken or a thread pointer cleared. -/
theorem Accounts.closes {a : Act} {s₀ : Sys} (h : Accounts tls s₀ tr) (hh : Holder s')
    (hw : Workers (· ≠ k) s₀) {pc : ClientPc} (hk : s₀.client k = pc)
    (hno : ∀ j, s₀.client j ≠ .joinSsl false) (hconn : s₀.conn.shut = s.conn.shut)
    (ha : s.events a = if s.closing a then s.conn.shut else [])
    (hclosing : s.closing a = (!s₀.conn.sendThread && !s₀.conn.recvThread))
    (hcl : Closes s₀ k s') : Accounts tls s' (tr ++ s.events a) := by
  have hpc : pc ≠ .joinSsl false := fun he => hno k (hk.trans he)
  cases hcl with
  | joinSend hs =>
      have hmove : Accounts tls (s₀.setClient k .joinSend) tr :=
        h.move hk hpc rfl rfl ⟨rfl, rfl, rfl, rfl⟩ id
      refine .quiet ?_ hmove
      rw [ha, hclosing, hs]
      rfl
  | joinRecv hs hr =>
      have hmove : Accounts tls (s₀.setClient k .joinRecv) tr :=
        h.move hk hpc rfl rfl ⟨rfl, rfl, rfl, rfl⟩ id
      refine .quiet ?_ hmove
      rw [ha, hclosing, hs, hr]
      rfl
  | connect hs hr =>
      rw [ha, hclosing, hs, hr, ← hconn]
      exact h.closeFd hh hno ⟨hw.sendNone hs, hw.recvNone hr⟩

theorem Accounts.step {a : Act} (h : Accounts tls s tr) (hh : Holder s)
    (hw : Workers (fun _ => True) s) (hh' : Holder s') (hs : Step S s a s') :
    Accounts tls s' (tr ++ s.events a) := by
  cases hs with
  | call hk => exact .quiet rfl (h.move hk nofun rfl rfl ⟨rfl, rfl, rfl, rfl⟩ id)
  | @acquire _ k _ hk _ hsend _ hst =>
      have hhold : Accounts tls (s.hold k) tr := h.worker rfl ⟨rfl, rfl, rfl, rfl⟩ id
      refine .quiet ?_ (hhold.starts hk nofun hst)
      simp [Sys.events, Sys.closing, hsend]
  | @reconnect _ k _ hk hsema hcl =>
      have hhold : Accounts tls (s.hold k) tr := h.worker rfl ⟨rfl, rfl, rfl, rfl⟩ id
      -- nobody holds the semaphore, so nobody is at `sslinit`
      have hno : ∀ j, s.client j ≠ .joinSsl false := fun j hj =>
        nomatch ((hh j).mp (by rw [hj]; rfl)).symm.trans hsema
      exact hhold.closes hh' (hw.but k).hold hk hno rfl rfl rfl hcl
  | acquireFails hk => exact .quiet rfl (h.move hk nofun rfl rfl ⟨rfl, rfl, rfl, rfl⟩ id)
  | @sendJoined _ k hk hsend hcl =>
      have hclear : Accounts tls s.clearSend tr := h.worker rfl ⟨rfl, rfl, rfl, rfl⟩ id
      have hwork : Workers (· ≠ k) s.clearSend :=
        ⟨⟨nofun, fun hne => absurd hsend hne⟩, hw.recv, fun j _ => hw.noSend j trivial,
          fun j _ => hw.noRecv j trivial⟩
      exact hclear.closes hh' hwork hk (hh.not_fresh hk rfl nofun) rfl rfl rfl hcl
  | @recvJoined k hk hrecv =>
      have hclear : Accounts tls s.clearRecv tr := h.worker rfl ⟨rfl, rfl, rfl, rfl⟩ id
      exact hclear.closeFd hh' (hh.not_fresh hk rfl nofun)
        ⟨hw.noSend k trivial (by rw [hk]; rfl), hrecv⟩
  | connected hk => exact h.connected hh hh' hk
  | connectFails hk => exact .quiet rfl (h.move hk nofun rfl rfl ⟨rfl, rfl, rfl, rfl⟩ id)
  | sslStart hk => exact h.sslInit hh' hk
  | sslDone hk hst => exact .quiet rfl ((h.spawn hk).starts hk nofun hst)
  | sslFails hk => exact .quiet rfl (h.move hk nofun rfl rfl ⟨rfl, rfl, rfl, rfl⟩ id)
  | body hk => exact .quiet rfl (h.move hk nofun rfl rfl ⟨rfl, rfl, rfl, rfl⟩ id)
  | bodyDone hk =>
      exact .quiet rfl (h.move hk nofun rfl rfl ⟨rfl, rfl, rfl, rfl⟩ running_signalled)
  | wake hk => exact .quiet rfl (h.move hk nofun rfl rfl ⟨rfl, rfl, rfl, rfl⟩ id)
  | interrupt hk => exact .quiet rfl (h.move hk nofun rfl rfl ⟨rfl, rfl, rfl, rfl⟩ id)
  | sendNothing hsend =>
      refine .quiet rfl (h.worker rfl ⟨rfl, rfl, rfl, rfl⟩ fun _ => .inl ?_)
      rcases hsend with hsend | hsend <;> rw [hsend] <;> exact nofun
  | sendStart hsend =>
      refine .quiet rfl (h.worker rfl ⟨rfl, rfl, rfl, rfl⟩ fun _ => .inl ?_)
      rcases hsend with hsend | hsend <;> rw [hsend] <;> exact nofun
  | sendSome hsend =>
      refine .quiet rfl (h.worker rfl ⟨rfl, rfl, rfl, rfl⟩ fun _ => .inl ?_)
      rw [hsend]
      exact nofun
  | sendLast hsend =>
      refine .quiet rfl (h.worker rfl ⟨rfl, rfl, rfl, rfl⟩ fun _ => .inl ?_)
      rw [hsend]
      exact nofun
  | sendExit =>
      exact .quiet rfl (h.worker rfl ⟨rfl, rfl, rfl, rfl⟩
        fun hr => .inr (hr.resolve_left fun hn => hn rfl))
  | recvNull hrecv =>
      refine .quiet rfl (h.worker rfl ⟨rfl, rfl, rfl, rfl⟩ fun _ => .inr ?_)
      rw [hrecv]
      exact nofun
  | recvFor hrecv =>
      refine .quiet rfl (h.worker rfl ⟨rfl, rfl, rfl, rfl⟩ fun _ => .inr ?_)
      rw [hrecv]
      exact nofun
  | recvOn hrecv =>
      refine .quiet rfl (h.worker rfl ⟨rfl, rfl, rfl, rfl⟩ fun _ => .inr ?_)
      rw [hrecv]
      exact nofun
  | recvOk hrecv =>
      exact .quiet rfl ((h.signalRecv _).worker rfl ⟨rfl, rfl, rfl, rfl⟩
        fun _ => .inr fun hn => nomatch hrecv.symm.trans hn)
  | recvBad =>
      exact .quiet rfl ((h.signalRecv _).worker rfl ⟨rfl, rfl, rfl, rfl⟩
        fun hr => .inl (hr.resolve_right fun hn => hn rfl))
  | recvExit =>
      exact .quiet rfl (h.worker rfl ⟨rfl, rfl, rfl, rfl⟩
        fun hr => .inl (hr.resolve_right fun hn => hn rfl))
  | recvDies => exact .quiet rfl (h.worker rfl ⟨rfl, rfl, rfl, rfl⟩ id)
  | recvCrash => exact .quiet rfl (h.worker rfl ⟨rfl, rfl, rfl, rfl⟩ id)
  | gc => exact .quiet rfl (h.worker rfl ⟨rfl, rfl, rfl, rfl⟩ id)

/-! ## Every run -/

/-- The account, with what each step of it needs. -/
structure Accounted (tls : Bool) (s : Sys) (tr : List SockEvent) : Prop where
  holder : Holder s
  workers : Workers (fun _ => True) s
  accounts : Accounts tls s tr

theorem Accounted.step {a : Act} (h : Accounted tls s tr) (hs : Step S s a s') :
    Accounted tls s' (tr ++ s.events a) :=
  have hh' := h.holder.step hs
  ⟨hh', h.workers.step h.holder hs, h.accounts.step h.holder h.workers hh' hs⟩

theorem accounted_run {scheme : Scheme} {as : List Act} {t : Sys}
    (h : exec (step S) (.init scheme) as = some t) :
    Accounted (scheme = .https) t (sockTrace S (.init scheme) as) :=
  exec_collect (I := Accounted (scheme = .https))
    (fun _ _ _ _ hacc hs => hacc.step (step_cases hs).2)
    ⟨(wf_init scheme).holder, (wf_init scheme).workers, accounts_init scheme⟩ h

theorem Accounts.begun_prefix (h : Accounts tls s tr) :
    s.conn.begun <+: life tls (s.nsock - s.conn.fd.toList.length) := by
  by_cases hno : ∀ k, s.client k ≠ .joinSsl false
  · have hssl := h.settled hno
    rw [Conn.begun, hssl, Conn.sslOf]
    cases hfd : s.conn.fd with
    | none =>
        rw [ite_self]
        exact List.nil_prefix
    | some n =>
        rw [h.last n hfd]
        cases tls
        · exact ⟨[.close n], rfl⟩
        · exact ⟨[.sslFree n, .close n], rfl⟩
  · obtain ⟨k, hk⟩ := not_forall_not.mp hno
    obtain ⟨n, hfd⟩ := Option.ne_none_iff_exists'.mp (h.linked k false hk)
    rw [Conn.begun, h.fresh k hk, hfd, h.last n hfd]
    cases tls
    · exact ⟨[.close n], rfl⟩
    · exact ⟨[.sslNew n, .sslFree n, .close n], rfl⟩

/-- **The sockets of a connection have their lives one after the other.**  In
every run, whatever fails and in whatever order the threads go on: what was done
with sockets are the whole lives of the first `n` and the beginning of one more,
if one is open; workers run only on an open socket; and both have ended whenever
it is closed. -/
theorem sockets_in_turn (S : Setting) (scheme : Scheme) (as : List Act) (t : Sys)
    (h : exec (step S) (.init scheme) as = some t) :
    (∃ n, t.nsock = n + t.conn.fd.toList.length ∧
      sockTrace S (.init scheme) as = lives (scheme = .https) n ++ t.conn.begun ∧
      t.conn.begun <+: life (scheme = .https) n) ∧
    (t.send ≠ .none ∨ t.recv ≠ .none → t.conn.fd ≠ none) ∧
    ∀ a t', step S t a = some t' → t.closing a = true → t.send = .none ∧ t.recv = .none := by
  have hacc := accounted_run h
  refine ⟨⟨t.nsock - t.conn.fd.toList.length, ?_, hacc.accounts.past, hacc.accounts.begun_prefix⟩,
    hacc.accounts.running, fun a t' hs => hacc.workers.gone (step_cases hs).2⟩
  cases hfd : t.conn.fd with
  | none => rfl
  | some n =>
      rw [hacc.accounts.last n hfd]
      rfl

/-! ## The end of a connection -/

/-- `mnhttpc_connection_fini`, up to `mnhttpc_connection_close`: what is queued is
destroyed. -/
def Sys.dropRequests (s : Sys) : Sys := { s with conn := { s.conn with requests := [] } }

/-- What the workers do. -/
def Act.ofWorker : Act → Bool
  | .sendRun | .sendWrite _ | .sendExit | .recvReady _ | .recv _ | .recvExit => true
  | _ => false

/-- `mnhttpc_connection_fini`, up to where `mnhttpc_connection_close` has joined
both workers: only they go on meanwhile. -/
structure Finishes (S : Setting) (t : Sys) (bs : List Act) (u : Sys) : Prop where
  workers : ∀ a ∈ bs, a.ofWorker = true
  run : exec (step S) t.dropRequests bs = some u
  joined : u.send = .none ∧ u.recv = .none

/-- The call is not going on. -/
def ClientPc.Returned (pc : ClientPc) : Prop := pc = .idle ∨ ∃ res, pc = .done res

/-- A worker brings no call to go on, and opens no socket. -/
theorem returned_step {a : Act} (ha : a.ofWorker = true) (hs : Step S s a s')
    (h : ∀ k, (s.client k).Returned) : (∀ k, (s'.client k).Returned) ∧ s'.nsock = s.nsock := by
  have told : ∀ req k, ((s.signalRecv req).client k).Returned := by
    intro req k
    unfold Sys.signalRecv
    dsimp only
    split
    · rename_i hk
      rcases h k with hidle | ⟨res, hdone⟩
      · exact nomatch hk.2.symm.trans hidle
      · exact nomatch hk.2.symm.trans hdone
    · exact h k
  cases hs with
  | sendNothing => exact ⟨h, rfl⟩
  | sendStart => exact ⟨h, rfl⟩
  | sendSome => exact ⟨h, rfl⟩
  | sendLast => exact ⟨h, rfl⟩
  | sendExit => exact ⟨h, rfl⟩
  | recvNull => exact ⟨h, rfl⟩
  | recvFor => exact ⟨h, rfl⟩
  | recvOn => exact ⟨h, rfl⟩
  | recvOk => exact ⟨told _, rfl⟩
  | recvBad => exact ⟨told _, rfl⟩
  | recvDies => exact ⟨h, rfl⟩
  | recvCrash => exact ⟨h, rfl⟩
  | recvExit => exact ⟨h, rfl⟩
  | _ => cases ha

theorem Finishes.returned {t u : Sys} {bs : List Act} (hf : Finishes S t bs u)
    (h : ∀ k, (t.client k).Returned) : (∀ k, (u.client k).Returned) ∧ u.nsock = t.nsock := by
  refine exec_invariant (C := fun _ a => a.ofWorker = true)
    (I := fun s => (∀ k, (s.client k).Returned) ∧ s.nsock = t.nsock) ?_ ⟨h, rfl⟩
    (meets_of_stateless (D := fun a => a.ofWorker = true) hf.workers fun _ _ ha => ha) hf.run
  rintro s a s' ⟨hs, hn⟩ ha hstep
  obtain ⟨hs', hn'⟩ := returned_step ha (step_cases hstep).2 hs
  exact ⟨hs', hn'.trans hn⟩

theorem Accounted.dropRequests (h : Accounted tls s tr) : Accounted tls s.dropRequests tr :=
  ⟨h.holder.keep (fun _ => rfl) rfl, h.workers.same rfl ⟨rfl, rfl⟩ ⟨rfl, rfl⟩,
    h.accounts.worker rfl ⟨rfl, rfl, rfl, rfl⟩ id⟩

theorem Wf.queued_interrupted (h : Wf s) (hret : ∀ k, (s.client k).Returned)
    (hk : k ∈ s.conn.requests) : s.client k = .done .interrupted := by
  rcases hret k with hidle | ⟨res, hdone⟩
  · have henq := (h.served.enqueued k).mp (List.mem_append_right _ hk)
    rw [hidle] at henq
    cases henq
  · by_contra hne
    refine (h.left_queue hdone fun hres => ?_).1 hk
    exact hne (hdone.trans (by rw [hres]))

/-- **Behind `mnhttpc_connection_fini` every socket has been closed, once.**  When
no call is going on, the connection ends with the whole life of every socket it
ever opened, and the requests it destroys are of calls that were interrupted. -/
theorem fini_closes_all (S : Setting) (scheme : Scheme) (as bs : List Act) (t u : Sys)
    (h : exec (step S) (.init scheme) as = some t) (hret : ∀ k, (t.client k).Returned)
    (hf : Finishes S t bs u) :
    sockTrace S (.init scheme) as ++ sockTrace S t.dropRequests bs ++ u.conn.shut =
      lives (scheme = .https) t.nsock ∧
    ∀ k ∈ t.conn.requests, t.client k = .done .interrupted := by
  have hend : Accounted (scheme = .https) u
      (sockTrace S (.init scheme) as ++ sockTrace S t.dropRequests bs) :=
    exec_collect (I := Accounted (scheme = .https))
      (fun _ _ _ _ hacc hs => hacc.step (step_cases hs).2) (accounted_run h).dropRequests hf.run
  obtain ⟨hret', hn⟩ := hf.returned hret
  have hno : ∀ j, u.client j ≠ .joinSsl false := fun j hj => by
    rcases hret' j with hidle | ⟨res, hdone⟩
    · exact nomatch hidle.symm.trans hj
    · exact nomatch hdone.symm.trans hj
  refine ⟨?_, fun k => (wf_run h).queued_interrupted hret⟩
  rw [hend.accounts.shut hno, hn]

end

/-- A handshake that fails, and a call that is interrupted on the next socket. -/
def failedHandshake : List Act :=
  [.call 0, .acquire 0 none, .connected 0, .sslStart 0, .sslFails 0,
    .call 1, .acquire 1 none, .connected 1, .sslStart 1, .sslDone 1 none, .interrupt 1]

theorem sockets_in_turn_handshake : ∃ t,
    exec (step .small) (.init .https) failedHandshake = some t ∧ t.nsock = 2 ∧
    ∃ n, t.nsock = n + t.conn.fd.toList.length ∧
      sockTrace .small (.init .https) failedHandshake = lives true n ++ t.conn.begun := by
  have hrun : (exec (step .small) (.init .https) failedHandshake).map Sys.nsock = some 2 := by
    decide
  obtain ⟨t, ht, hn⟩ := Option.map_eq_some_iff.mp hrun
  obtain ⟨⟨n, hlen, htrace, -⟩, -⟩ := sockets_in_turn .small .https _ t ht
  exact ⟨t, ht, hn, n, hlen, htrace⟩

theorem returned_of_handshake {t : Sys}
    (h : exec (step .small) (.init .https) failedHandshake = some t) (k : ReqId) :
    (t.client k).Returned := by
  have ht : t = (exec (step .small) (.init .https) failedHandshake).get (by decide) := by
    simp only [h, Option.get_some]
  subst ht
  rcases k with _ | _ | k
  · exact .inr ⟨_, rfl⟩
  · exact .inr ⟨_, rfl⟩
  · exact .inl rfl

/-- The workers end, with one byte left to send. -/
def bothEnd : List Act := [.sendRun, .sendWrite 1, .sendExit, .recvExit]

theorem fini_closes_all_handshake : ∃ t u,
    exec (step .small) (.init .https) failedHandshake = some t ∧
    Finishes .small t bothEnd u ∧ t.conn.requests = [1] ∧
    sockTrace .small (.init .https) failedHandshake ++ sockTrace .small t.dropRequests bothEnd ++
      u.conn.shut = lives true t.nsock ∧
    ∀ k ∈ t.conn.requests, t.client k = .done .interrupted := by
  have hrun : (exec (step .small) (.init .https) failedHandshake).map (fun t =>
      (t.conn.requests,
        (exec (step .small) t.dropRequests bothEnd).map fun u => (u.send, u.recv))) =
      some ([1], some (.none, .none)) := by decide
  obtain ⟨t, ht, hobs⟩ := Option.map_eq_some_iff.mp hrun
  obtain ⟨hqueue, hend⟩ := Prod.mk.inj hobs
  obtain ⟨u, hu, hgone⟩ := Option.map_eq_some_iff.mp hend
  have hf : Finishes .small t bothEnd u := ⟨by decide, hu, Prod.mk.inj hgone⟩
  exact ⟨t, u, ht, hf, hqueue,
    fini_closes_all .small .https _ _ t u ht (returned_of_handshake ht) hf⟩

end MnHttpc
