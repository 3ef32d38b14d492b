/-
# `MnApp.Client.Ownership` — who holds the semaphore, which workers run, where a request is

Three things hold in every state of every run, whatever fails and whoever is
interrupted:

    Holder     one call at most is between `mnthr_sema_acquire` and
               `mnthr_sema_release`, and it is the one the semaphore names
    Workers    `send_thread` and `recv_thread` say which workers run, and
               a call that connects has waited for both
    Served     a request that was queued is in exactly one place: in the
               queue, in the parse the receive worker is at, or among those
               that have been answered

The last one says what an interrupt of a waiting call does.  A call waits
only while its request is queued or being parsed into, so a call that is
interrupted always returns with the receive worker still holding its
request.  The queue belongs to its callers exactly in the runs without such
an interrupt (`queue_owned_iff`).
-/
import MnApp.Client.System

namespace MnHttpc

open MnHttp Run

/-! ## Who holds the semaphore -/

/-- The semaphore is held by the one call that has acquired it and has not
returned. -/
def Holder (s : Sys) : Prop :=
  ∀ k, (s.client k).holds = true ↔ s.conn.reqfinSema = some k

section
variable {S : Setting} {s s' : Sys} {k : ReqId} {failed : Option Nat}

theorem Holder.move (h : Holder s) {pc : ClientPc}
    (hsema : s.conn.reqfinSema = none ∨ s.conn.reqfinSema = some k)
    (hclient : s'.client = Function.update s.client k pc)
    (hsema' : s'.conn.reqfinSema = if pc.holds then some k else none) : Holder s' := by
  intro j
  rw [hclient, hsema']
  by_cases hj : j = k
  · subst hj
    rw [Function.update_self]
    cases pc.holds <;> simp
  · rw [Function.update_of_ne hj, h j]
    have hne : some k ≠ some j := fun he => hj (Option.some.inj he).symm
    cases pc.holds <;> rcases hsema with hs | hs <;> simp [hs, Ne.symm hj]

theorem Holder.keep (h : Holder s) (hclient : ∀ j, (s'.client j).holds = (s.client j).holds)
    (hsema : s'.conn.reqfinSema = s.conn.reqfinSema) : Holder s' := by
  intro j
  rw [hclient, hsema]
  exact h j

theorem Holder.other (h : Holder s) {j : ReqId} (hk : (s.client k).holds = true)
    (hj : (s.client j).holds = true) : j = k :=
  Option.some.inj (((h j).mp hj).symm.trans ((h k).mp hk))

theorem Holder.apart (h : Holder s) {pc : ClientPc} (hk : (s.client k).holds = false)
    (hpc : pc.holds = false) (hclient : s'.client = Function.update s.client k pc)
    (hsema : s'.conn.reqfinSema = s.conn.reqfinSema) : Holder s' := by
  refine h.keep (fun j => ?_) hsema
  rw [hclient]
  by_cases hj : j = k
  · subst hj
    rw [Function.update_self, hk, hpc]
  · rw [Function.update_of_ne hj]

theorem Starts.move (h : Starts S s k failed s') (hk : s.conn.reqfinSema = some k) :
    ∃ pc, s'.client = Function.update s.client k pc ∧
      s'.conn.reqfinSema = if pc.holds then some k else none := by
  cases h with
  | refused => exact ⟨_, rfl, rfl⟩
  | broken => exact ⟨_, rfl, rfl⟩
  | body => exact ⟨_, rfl, hk⟩
  | plain => exact ⟨_, rfl, hk⟩

theorem Closes.move (h : Closes s k s') (hk : s.conn.reqfinSema = some k) :
    ∃ pc, s'.client = Function.update s.client k pc ∧
      s'.conn.reqfinSema = if pc.holds then some k else none := by
  cases h with
  | joinSend => exact ⟨_, rfl, hk⟩
  | joinRecv => exact ⟨_, rfl, hk⟩
  | connect => exact ⟨_, rfl, hk⟩

theorem holds_signalRecv (s : Sys) (req : Option ReqId) (j : ReqId) :
    ((s.signalRecv req).client j).holds = (s.client j).holds := by
  unfold Sys.signalRecv
  dsimp only
  split
  · rename_i h
    rw [h.2]
    rfl
  · rfl

theorem Holder.step {a : Act} (h : Holder s) (hs : Step S s a s') : Holder s' := by
  have held : ∀ {k : ReqId} {pc : ClientPc}, s.client k = pc → pc.holds = true →
      s.conn.reqfinSema = some k := fun hk hpc => (h _).mp (by rw [hk, hpc])
  cases hs with
  | call hk => exact h.apart (by rw [hk]; rfl) rfl rfl rfl
  | acquire hk hsema _ _ hst =>
      obtain ⟨pc, hc, hsema'⟩ := hst.move rfl
      exact h.move (.inl hsema) hc hsema'
  | reconnect hk hsema hcl =>
      obtain ⟨pc, hc, hsema'⟩ := hcl.move rfl
      exact h.move (.inl hsema) hc hsema'
  | acquireFails hk => exact h.apart (by rw [hk]; rfl) rfl rfl rfl
  | sendJoined hk _ hcl =>
      obtain ⟨pc, hc, hsema'⟩ := hcl.move (held hk rfl)
      exact h.move (.inr (held hk rfl)) hc hsema'
  | recvJoined hk _ => exact h.move (.inr (held hk rfl)) rfl (held hk rfl)
  | connected hk => exact h.move (.inr (held hk rfl)) rfl (held hk rfl)
  | connectFails hk => exact h.move (.inr (held hk rfl)) rfl rfl
  | sslStart hk =>
      refine h.move (.inr (held hk rfl)) rfl ?_
      show s.conn.sslInit.reqfinSema = some _
      rw [Conn.sslInit_frame]
      exact held hk rfl
  | sslDone hk hst =>
      obtain ⟨pc, hc, hsema'⟩ := hst.move (held hk rfl)
      exact h.move (.inr (held hk rfl)) hc hsema'
  | sslFails hk => exact h.move (.inr (held hk rfl)) rfl rfl
  | body hk => exact h.move (.inr (held hk rfl)) rfl (held hk rfl)
  | bodyDone hk => exact h.move (.inr (held hk rfl)) rfl (held hk rfl)
  | wake hk => exact h.move (.inr (held hk rfl)) rfl rfl
  | interrupt hk => exact h.move (.inr (held hk rfl)) rfl rfl
  | recvOk => exact h.keep (holds_signalRecv _ _) rfl
  | recvBad => exact h.keep (holds_signalRecv _ _) rfl
  | _ => exact h

/-! ## Which workers run -/

/-- The call has seen the send worker end, and has not spawned another. -/
def ClientPc.noSend : ClientPc → Bool
  | .joinRecv | .connect | .joinSsl _ => true
  | _ => false

/-- The call has seen the receive worker end, and has not spawned another. -/
def ClientPc.noRecv : ClientPc → Bool
  | .connect | .joinSsl _ => true
  | _ => false

/-- The thread pointers of the connection say which workers run, and a call that
is connecting has none.  For the calls of `A`, which are all of them between two
steps and all others while one of them moves. -/
structure Workers (A : ReqId → Prop) (s : Sys) : Prop where
  send : s.conn.sendThread = true ↔ s.send ≠ .none
  recv : s.conn.recvThread = true ↔ s.recv ≠ .none
  noSend : ∀ j, A j → (s.client j).noSend = true → s.send = .none
  noRecv : ∀ j, A j → (s.client j).noRecv = true → s.recv = .none

theorem ClientPc.holds_of_noSend {pc : ClientPc} (h : pc.noSend = true) : pc.holds = true := by
  cases pc <;> first | rfl | cases h

theorem ClientPc.noSend_of_noRecv {pc : ClientPc} (h : pc.noRecv = true) : pc.noSend = true := by
  cases pc <;> first | rfl | cases h

theorem SendPc.signalled_eq_none {pc : SendPc} : pc.signalled = .none ↔ pc = .none := by
  cases pc <;> simp [SendPc.signalled]

theorem Workers.but (h : Workers (fun _ => True) s) (k : ReqId) : Workers (· ≠ k) s :=
  ⟨h.send, h.recv, fun j _ => h.noSend j trivial, fun j _ => h.noRecv j trivial⟩

theorem Workers.same {A : ReqId → Prop} (h : Workers A s) (hclient : s'.client = s.client)
    (hworkers : s'.send = s.send ∧ s'.recv = s.recv)
    (hthreads : s'.conn.sendThread = s.conn.sendThread ∧ s'.conn.recvThread = s.conn.recvThread) :
    Workers A s' := by
  obtain ⟨hs, hr⟩ := hworkers
  refine ⟨?_, ?_, ?_, ?_⟩
  · rw [hthreads.1, hs]; exact h.send
  · rw [hthreads.2, hr]; exact h.recv
  · rw [hclient, hs]; exact h.noSend
  · rw [hclient, hr]; exact h.noRecv

theorem Workers.hold {A : ReqId → Prop} (h : Workers A s) : Workers A (s.hold k) :=
  h.same rfl ⟨rfl, rfl⟩ ⟨rfl, rfl⟩

theorem Workers.move (h : Workers (· ≠ k) s) {pc : ClientPc}
    (hclient : s'.client = Function.update s.client k pc)
    (hpc : (pc.noSend = true → s.send = .none) ∧ (pc.noRecv = true → s.recv = .none))
    (hsend : s'.send = .none ↔ s.send = .none) (hrecv : s'.recv = s.recv)
    (hthreads : s'.conn.sendThread = s.conn.sendThread ∧ s'.conn.recvThread = s.conn.recvThread) :
    Workers (fun _ => True) s' where
  send := by rw [hthreads.1, h.send, ne_eq, ne_eq, hsend]
  recv := by rw [hthreads.2, h.recv, hrecv]
  noSend j _ := by
    rw [hclient, hsend]
    by_cases hj : j = k
    · rw [hj, Function.update_self]; exact hpc.1
    · rw [Function.update_of_ne hj]; exact h.noSend j hj
  noRecv j _ := by
    rw [hclient, hrecv]
    by_cases hj : j = k
    · rw [hj, Function.update_self]; exact hpc.2
    · rw [Function.update_of_ne hj]; exact h.noRecv j hj

theorem Workers.starts (h : Workers (· ≠ k) s) (hst : Starts S s k failed s') :
    Workers (fun _ => True) s' := by
  cases hst with
  | refused => exact h.move rfl ⟨nofun, nofun⟩ Iff.rfl rfl ⟨rfl, rfl⟩
  | broken => exact h.move rfl ⟨nofun, nofun⟩ Iff.rfl rfl ⟨rfl, rfl⟩
  | body => exact h.move rfl ⟨nofun, nofun⟩ Iff.rfl rfl ⟨rfl, rfl⟩
  | plain => exact h.move rfl ⟨nofun, nofun⟩ SendPc.signalled_eq_none rfl ⟨rfl, rfl⟩

theorem Workers.sendNone {A : ReqId → Prop} (h : Workers A s) (hs : s.conn.sendThread = false) :
    s.send = .none := by
  by_contra hne
  rw [h.send.mpr hne] at hs
  cases hs

theorem Workers.recvNone {A : ReqId → Prop} (h : Workers A s) (hs : s.conn.recvThread = false) :
    s.recv = .none := by
  by_contra hne
  rw [h.recv.mpr hne] at hs
  cases hs

theorem Workers.closes (h : Workers (· ≠ k) s) (hcl : Closes s k s') :
    Workers (fun _ => True) s' := by
  cases hcl with
  | joinSend => exact h.move rfl ⟨nofun, nofun⟩ Iff.rfl rfl ⟨rfl, rfl⟩
  | joinRecv hs _ => exact h.move rfl ⟨fun _ => h.sendNone hs, nofun⟩ Iff.rfl rfl ⟨rfl, rfl⟩
  | connect hs hr =>
      exact h.move rfl ⟨fun _ => h.sendNone hs, fun _ => h.recvNone hr⟩ Iff.rfl rfl ⟨rfl, rfl⟩

/-- Nobody else is connecting when the workers are spawned. -/
theorem Workers.spawn (hh : Holder s) (hk : s.client k = .joinSsl true) :
    Workers (· ≠ k) s.spawn := by
  have hnot : ∀ j, j ≠ k → (s.client j).noSend ≠ true := fun j hj hno =>
    hj (hh.other (by rw [hk]; rfl) (ClientPc.holds_of_noSend hno))
  exact ⟨⟨nofun, fun _ => rfl⟩, ⟨nofun, fun _ => rfl⟩, fun j hj hno => absurd hno (hnot j hj),
    fun j hj hno => absurd (ClientPc.noSend_of_noRecv hno) (hnot j hj)⟩

theorem Workers.signalRecv (h : Workers (fun _ => True) s) (req : Option ReqId) :
    Workers (fun _ => True) (s.signalRecv req) := by
  have hpc : ∀ j, (s.signalRecv req).client j = .woken ∨
      (s.signalRecv req).client j = s.client j := by
    intro j
    unfold Sys.signalRecv
    dsimp only
    split
    · exact .inl rfl
    · exact .inr rfl
  refine ⟨h.send, h.recv, fun j _ hj => ?_, fun j _ hj => ?_⟩
  · rcases hpc j with hw | hw
    · rw [hw] at hj; cases hj
    · rw [hw] at hj; exact h.noSend j trivial hj
  · rcases hpc j with hw | hw
    · rw [hw] at hj; cases hj
    · rw [hw] at hj; exact h.noRecv j trivial hj

theorem Workers.worker (h : Workers (fun _ => True) s) (hclient : s'.client = s.client)
    (hsend : s'.conn.sendThread = true ↔ s'.send ≠ .none)
    (hrecv : s'.conn.recvThread = true ↔ s'.recv ≠ .none)
    (hs : s.send = .none → s'.send = .none) (hr : s.recv = .none → s'.recv = .none) :
    Workers (fun _ => True) s' :=
  ⟨hsend, hrecv, fun j _ hj => hs (h.noSend j trivial (hclient ▸ hj)),
    fun j _ hj => hr (h.noRecv j trivial (hclient ▸ hj))⟩

theorem Workers.sender (h : Workers (fun _ => True) s) (hclient : s'.client = s.client)
    (hrun : s.send ≠ .none) (hrun' : s'.send ≠ .none) (hrecv : s'.recv = s.recv)
    (hthreads : s'.conn.sendThread = s.conn.sendThread ∧ s'.conn.recvThread = s.conn.recvThread) :
    Workers (fun _ => True) s' := by
  refine h.worker hclient ?_ ?_ (fun hn => absurd hn hrun) (fun hn => hrecv.trans hn)
  · rw [hthreads.1, h.send]
    exact ⟨fun _ => hrun', fun _ => hrun⟩
  · rw [hthreads.2, h.recv, hrecv]

theorem Workers.receiver (h : Workers (fun _ => True) s) (hclient : s'.client = s.client)
    (hrun : s.recv ≠ .none) (hrun' : s'.recv ≠ .none) (hsend : s'.send = s.send)
    (hthreads : s'.conn.sendThread = s.conn.sendThread ∧ s'.conn.recvThread = s.conn.recvThread) :
    Workers (fun _ => True) s' := by
  refine h.worker hclient ?_ ?_ (fun hn => hsend.trans hn) (fun hn => absurd hn hrun)
  · rw [hthreads.1, h.send, hsend]
  · rw [hthreads.2, h.recv]
    exact ⟨fun _ => hrun', fun _ => hrun⟩

theorem Workers.step {a : Act} (h : Workers (fun _ => True) s) (hh : Holder s)
    (hs : Step S s a s') : Workers (fun _ => True) s' := by
  cases hs with
  | call => exact (h.but _).move rfl ⟨nofun, nofun⟩ Iff.rfl rfl ⟨rfl, rfl⟩
  | acquire _ _ _ _ hst => exact (h.but _).hold.starts hst
  | reconnect _ _ hcl => exact (h.but _).hold.closes hcl
  | acquireFails => exact (h.but _).move rfl ⟨nofun, nofun⟩ Iff.rfl rfl ⟨rfl, rfl⟩
  | sendJoined _ hnone hcl =>
      exact Workers.closes (s := s.clearSend) ⟨⟨nofun, fun hne => absurd hnone hne⟩, h.recv,
        fun j _ => h.noSend j trivial, fun j _ => h.noRecv j trivial⟩ hcl
  | @recvJoined k hk hnone =>
      have hsend := h.noSend k trivial (by rw [hk]; rfl)
      have hbut : Workers (· ≠ k) s.clearRecv := ⟨h.send, ⟨nofun, fun hne => absurd hnone hne⟩,
        fun j _ => h.noSend j trivial, fun j _ => h.noRecv j trivial⟩
      exact hbut.move rfl ⟨fun _ => hsend, fun _ => hnone⟩ Iff.rfl rfl ⟨rfl, rfl⟩
  | connected hk =>
      exact (h.but _).move rfl ⟨fun _ => h.noSend _ trivial (by rw [hk]; rfl),
        fun _ => h.noRecv _ trivial (by rw [hk]; rfl)⟩ Iff.rfl rfl ⟨rfl, rfl⟩
  | connectFails => exact (h.but _).move rfl ⟨nofun, nofun⟩ Iff.rfl rfl ⟨rfl, rfl⟩
  | sslStart hk =>
      refine (h.but _).move rfl ⟨fun _ => h.noSend _ trivial (by rw [hk]; rfl),
        fun _ => h.noRecv _ trivial (by rw [hk]; rfl)⟩ Iff.rfl rfl ?_
      show s.conn.sslInit.sendThread = _ ∧ s.conn.sslInit.recvThread = _
      rw [Conn.sslInit_frame]
      exact ⟨rfl, rfl⟩
  | sslDone hk hst => exact (Workers.spawn hh hk).starts hst
  | sslFails => exact (h.but _).move rfl ⟨nofun, nofun⟩ Iff.rfl rfl ⟨rfl, rfl⟩
  | body => exact (h.but _).move rfl ⟨nofun, nofun⟩ Iff.rfl rfl ⟨rfl, rfl⟩
  | bodyDone => exact (h.but _).move rfl ⟨nofun, nofun⟩ SendPc.signalled_eq_none rfl ⟨rfl, rfl⟩
  | wake => exact (h.but _).move rfl ⟨nofun, nofun⟩ Iff.rfl rfl ⟨rfl, rfl⟩
  | interrupt => exact (h.but _).move rfl ⟨nofun, nofun⟩ Iff.rfl rfl ⟨rfl, rfl⟩
  | sendNothing hs _ =>
      exact h.sender rfl (by rcases hs with hs | hs <;> rw [hs] <;> nofun) nofun rfl ⟨rfl, rfl⟩
  | sendStart hs _ =>
      exact h.sender rfl (by rcases hs with hs | hs <;> rw [hs] <;> nofun) nofun rfl ⟨rfl, rfl⟩
  | sendSome hs => exact h.sender rfl (by rw [hs]; nofun) nofun rfl ⟨rfl, rfl⟩
  | sendLast hs => exact h.sender rfl (by rw [hs]; nofun) nofun rfl ⟨rfl, rfl⟩
  | sendExit =>
      exact h.worker rfl ⟨nofun, fun hne => absurd rfl hne⟩ h.recv (fun _ => rfl) fun hn => hn
  | recvNull hr => exact h.receiver rfl (by rw [hr]; nofun) nofun rfl ⟨rfl, rfl⟩
  | recvFor hr => exact h.receiver rfl (by rw [hr]; nofun) nofun rfl ⟨rfl, rfl⟩
  | recvOn hr => exact h.receiver rfl (by rw [hr]; nofun) nofun rfl ⟨rfl, rfl⟩
  | recvOk hr =>
      exact (h.signalRecv _).receiver rfl (fun hn => nomatch hr.symm.trans hn) nofun rfl ⟨rfl, rfl⟩
  | recvBad =>
      exact (h.signalRecv _).worker rfl h.send ⟨nofun, fun hne => absurd rfl hne⟩ (fun hn => hn)
        fun _ => rfl
  | recvDies => exact h.same rfl ⟨rfl, rfl⟩ ⟨rfl, rfl⟩
  | recvCrash => exact h.same rfl ⟨rfl, rfl⟩ ⟨rfl, rfl⟩
  | recvExit =>
      exact h.worker rfl h.send ⟨nofun, fun hne => absurd rfl hne⟩ (fun hn => hn) fun _ => rfl
  | gc => exact h.same rfl ⟨rfl, rfl⟩ ⟨rfl, rfl⟩

/-! ## Where a request is -/

/-- The requests the receive worker is at. -/
def RecvPc.reqs : RecvPc → List ReqId
  | .parsing p => p.req.toList
  | _ => []

/-- The receive worker is not inside `http_parse_response`. -/
def RecvPc.idle : RecvPc → Bool
  | .parsing _ => false
  | _ => true

/-- The requests that have been answered. -/
def Sys.answered (s : Sys) : List ReqId := s.log.parses.filterMap Parsed.req

/-- Each queued request is in one place, and its call has got as far as it. -/
structure Served (client : ReqId → ClientPc) (answered parsing queued : List ReqId) : Prop where
  nodup : (answered ++ parsing ++ queued).Nodup
  enqueued : ∀ k, k ∈ answered ++ parsing ++ queued ↔ (client k).enqueued = true
  waiting : ∀ k, client k = .subscribed → k ∈ parsing ++ queued
  answer : ∀ k, client k = .woken ∨ client k = .done .ok → k ∈ answered

namespace Served

variable {c : ReqId → ClientPc} {a p q : List ReqId}

theorem move (h : Served c a p q) {pc : ClientPc} (henq : pc.enqueued = (c k).enqueued)
    (hsub : pc ≠ .subscribed) (hans : pc = .woken ∨ pc = .done .ok → c k = .woken) :
    Served (Function.update c k pc) a p q where
  nodup := h.nodup
  enqueued := (Function.forall_update_iff c fun j pc' =>
    j ∈ a ++ p ++ q ↔ pc'.enqueued = true).mpr ⟨by rw [henq]; exact h.enqueued k,
      fun j _ => h.enqueued j⟩
  waiting := (Function.forall_update_iff c fun j pc' =>
    pc' = .subscribed → j ∈ p ++ q).mpr ⟨fun hs => absurd hs hsub, fun j _ => h.waiting j⟩
  answer := (Function.forall_update_iff c fun j pc' =>
    pc' = .woken ∨ pc' = .done .ok → j ∈ a).mpr ⟨fun hs => h.answer k (.inl (hans hs)),
      fun j _ => h.answer j⟩

theorem early (h : Served c a p q) {pc : ClientPc} (hpc : pc.enqueued = false)
    (hk : (c k).enqueued = false) : Served (Function.update c k pc) a p q := by
  refine h.move (hpc.trans hk.symm) ?_ ?_
  · rintro rfl
    cases hpc
  · rintro (rfl | rfl) <;> cases hpc

theorem enqueue (h : Served c a p q) (hk : (c k).enqueued = false) :
    Served (Function.update c k .subscribed) a p (q ++ [k]) := by
  have hnot : k ∉ a ++ p ++ q := fun hm => by
    rw [h.enqueued k, hk] at hm
    cases hm
  refine ⟨?_, ?_, ?_, ?_⟩
  · rw [← List.append_assoc]
    exact List.nodup_append.mpr ⟨h.nodup, List.pairwise_singleton _ _, fun x hx y hy hxy =>
      hnot (List.mem_singleton.mp hy ▸ hxy ▸ hx)⟩
  · refine (Function.forall_update_iff c fun j pc' =>
      j ∈ a ++ p ++ (q ++ [k]) ↔ pc'.enqueued = true).mpr ⟨by simp [ClientPc.enqueued],
        fun j hj => ?_⟩
    rw [← h.enqueued j, ← List.append_assoc, List.mem_append (s := a ++ p ++ q),
      List.mem_singleton]
    exact or_iff_left hj
  · refine (Function.forall_update_iff c fun j pc' =>
      pc' = .subscribed → j ∈ p ++ (q ++ [k])).mpr ⟨fun _ => by simp, fun j _ hj => ?_⟩
    rw [← List.append_assoc]
    exact List.mem_append_left _ (h.waiting j hj)
  · exact (Function.forall_update_iff c fun j pc' =>
      pc' = .woken ∨ pc' = .done .ok → j ∈ a).mpr ⟨(by rintro (hs | hs) <;> cases hs),
        fun j _ => h.answer j⟩

theorem take (h : Served c a [] (k :: q)) : Served c a [k] q := by
  have heq : a ++ [] ++ k :: q = a ++ [k] ++ q := by simp
  exact ⟨heq ▸ h.nodup, heq ▸ h.enqueued, h.waiting, h.answer⟩

theorem told {req : Option ReqId} (h : Served c a req.toList q) :
    Served (fun j => if req = some j ∧ c j = .subscribed then .woken else c j)
      (a ++ req.toList) [] q := by
  have hmem : ∀ j, j ∈ req.toList ↔ req = some j := fun j => Option.mem_toList
  refine ⟨by simpa using h.nodup, fun j => ?_, fun j => ?_, fun j => ?_⟩
  · rw [List.append_nil, h.enqueued j]
    split
    · rename_i hj
      rw [hj.2]
      exact ⟨fun _ => rfl, fun _ => rfl⟩
    · rfl
  · split
    · nofun
    · rename_i hj
      intro hs
      refine (List.mem_append.mp (h.waiting j hs)).resolve_left fun hp => ?_
      exact hj ⟨(hmem j).mp hp, hs⟩
  · split
    · rename_i hj
      exact fun _ => List.mem_append_right _ ((hmem j).mpr hj.1)
    · exact fun hs => List.mem_append_left _ (h.answer j hs)

end Served

def Sys.Served (s : Sys) : Prop :=
  MnHttpc.Served s.client s.answered s.recv.reqs s.conn.requests

theorem served_starts (h : s.Served) (hk : (s.client k).enqueued = false)
    (hst : Starts S s k failed s') : s'.Served := by
  cases hst with
  | refused => exact h.early rfl hk
  | broken => exact h.early rfl hk
  | body => exact h.early rfl hk
  | plain => exact h.enqueue hk

theorem served_closes (h : s.Served) (hk : (s.client k).enqueued = false)
    (hcl : Closes s k s') : s'.Served := by
  cases hcl with
  | joinSend => exact h.early rfl hk
  | joinRecv => exact h.early rfl hk
  | connect => exact h.early rfl hk

theorem served_parsed {p : Parse} {r : Res} {q : Parser} (h : s.Served)
    (hr : s.recv = .parsing p) (bs : List UInt8) :
    MnHttpc.Served ((s.noteRead p.req bs).parsed p r q).client
      ((s.noteRead p.req bs).parsed p r q).answered [] s.conn.requests := by
  have hserved : MnHttpc.Served s.client s.answered p.req.toList s.conn.requests := by
    rw [Sys.Served, hr] at h
    exact h
  have htold := hserved.told
  have hans : ((s.noteRead p.req bs).parsed p r q).answered = s.answered ++ p.req.toList := by
    show (s.log.parses ++ [Parsed.mk p.req r q.calls]).filterMap Parsed.req = _
    rw [List.filterMap_append]
    cases p.req <;> rfl
  rw [hans]
  exact htold

theorem served_step {a : Act} (h : s.Served) (hw : Workers (fun _ => True) s)
    (hs : Step S s a s') : s'.Served := by
  have early : ∀ {k : ReqId} {pc : ClientPc}, s.client k = pc → pc.enqueued = false →
      (s.client k).enqueued = false := fun hk hpc => by rw [hk, hpc]
  cases hs with
  | call hk => exact h.early rfl (early hk rfl)
  | acquire hk _ _ _ hst => exact served_starts (s := s.hold _) h (early hk rfl) hst
  | reconnect hk _ hcl => exact served_closes (s := s.hold _) h (early hk rfl) hcl
  | acquireFails hk => exact h.early rfl (early hk rfl)
  | sendJoined hk _ hcl => exact served_closes (s := s.clearSend) h (early hk rfl) hcl
  | recvJoined hk _ => exact h.early rfl (early hk rfl)
  | connected hk => exact h.early rfl (early hk rfl)
  | connectFails hk => exact h.early rfl (early hk rfl)
  | sslStart hk =>
      show MnHttpc.Served _ _ _ s.conn.sslInit.requests
      rw [Conn.sslInit_frame]
      exact h.early rfl (early hk rfl)
  | @sslDone _ k _ hk hst =>
      -- no parse is lost: the old receive worker has ended
      have hnone := hw.noRecv k trivial (by rw [hk]; rfl)
      have hspawn : s.spawn.Served := by
        rw [Sys.Served, hnone] at h
        exact h
      exact served_starts hspawn (early hk rfl) hst
  | sslFails hk => exact h.early rfl (early hk rfl)
  | body hk => exact h.early rfl (early hk rfl)
  | bodyDone hk => exact h.enqueue (early hk rfl)
  | wake hk => exact h.move (by rw [hk]; rfl) nofun fun _ => hk
  | interrupt hk => exact h.move (by rw [hk]; rfl) nofun (by rintro (h | h) <;> cases h)
  | recvNull hr =>
      rw [Sys.Served, hr] at h
      exact h
  | @recvFor _ k ks hr hq =>
      rw [Sys.Served, hr, hq] at h
      exact h.take
  | recvOn hr =>
      rw [Sys.Served, hr] at h
      exact h
  | recvOk hr => exact served_parsed h hr _
  | recvBad hr => exact served_parsed h hr _
  | recvExit hr =>
      rw [Sys.Served, hr] at h
      exact h
  | _ => exact h

/-! ## Every run -/

/-- What holds in every state. -/
structure Wf (s : Sys) : Prop where
  holder : Holder s
  workers : Workers (fun _ => True) s
  served : s.Served

theorem wf_init (scheme : Scheme) : Wf (.init scheme) where
  holder k := ⟨nofun, nofun⟩
  workers := ⟨⟨nofun, fun h => absurd rfl h⟩, ⟨nofun, fun h => absurd rfl h⟩, nofun, nofun⟩
  served := ⟨List.nodup_nil, fun _ => ⟨nofun, nofun⟩, fun _ => nofun, fun _ => by
    rintro (h | h) <;> cases h⟩

theorem Wf.step {a : Act} (h : Wf s) (hs : Step S s a s') : Wf s' :=
  ⟨h.holder.step hs, h.workers.step h.holder hs, served_step h.served h.workers hs⟩

theorem wf_run {scheme : Scheme} {as : List Act} {t : Sys}
    (h : exec (step S) (.init scheme) as = some t) : Wf t :=
  exec_always (fun _ _ _ hw hs => hw.step (step_cases hs).2) (wf_init scheme) h

/-! ## The queue and its callers -/

/-- A request whose call has returned is not in the queue, and no response is
being parsed into it. -/
def QueueOwned (s : Sys) : Prop :=
  ∀ k res, s.client k = .done res → k ∉ s.conn.requests ∧ k ∉ s.recv.reqs

theorem Wf.left_queue (h : Wf s) {res : FinRes} (hk : s.client k = .done res)
    (hres : res ≠ .interrupted) : k ∉ s.conn.requests ∧ k ∉ s.recv.reqs := by
  have hserved := h.served
  cases res with
  | ok =>
      have hans := hserved.answer k (.inr hk)
      have hnodup := hserved.nodup
      rw [List.append_assoc] at hnodup
      have hdisj := (List.nodup_append.mp hnodup).2.2 k hans
      exact ⟨fun hm => hdisj k (List.mem_append_right _ hm) rfl,
        fun hm => hdisj k (List.mem_append_left _ hm) rfl⟩
  | finalize n =>
      have hnot : k ∉ s.answered ++ s.recv.reqs ++ s.conn.requests := fun hm => by
        rw [hserved.enqueued k, hk] at hm
        cases hm
      exact ⟨fun hm => hnot (List.mem_append_right _ hm),
        fun hm => hnot (List.mem_append_left _ (List.mem_append_right _ hm))⟩
  | interrupted => exact absurd rfl hres

/-- A parse ends, and its request is told. -/
structure EndsParse (S : Setting) (s s' : Sys) (rd : Option Read) (p : Parse) (r : Res)
    (q : Parser) : Prop where
  recv : s.recv = .parsing p
  read : ReadOk rd
  ends : s.parseStep S p rd = .done (.returned r q [])
  returns : r ≠ .crash
  lives : headerDies p.req q.calls = false
  parses : s'.log.parses = s.log.parses ++ [Parsed.mk p.req r q.calls]
  client : s'.client = (s.signalRecv p.req).client

/-- What a step does to one call. -/
inductive Goes (S : Setting) (s s' : Sys) (k : ReqId) : Act → Prop
  | stays {a : Act} : s'.client k = s.client k → Goes S s s' k a
  | early {a : Act} : (s.client k).early = true →
      (s'.client k).enqueued = false ∨ s'.client k = .subscribed → Goes S s s' k a
  | wake : s.client k = .woken → s'.client k = .done .ok → Goes S s s' k (.wake k)
  | interrupt : s.client k = .subscribed → s'.client k = .done .interrupted →
      Goes S s s' k (.interrupt k)
  | told {rd : Option Read} {p : Parse} {r : Res} {q : Parser} : s.client k = .subscribed →
      s'.client k = .woken → p.req = some k → EndsParse S s s' rd p r q →
      Goes S s s' k (.recv rd)

theorem goes_update {a : Act} {j : ReqId} {pc : ClientPc}
    (hclient : s'.client = Function.update s.client j pc)
    (hj : s'.client j = pc → Goes S s s' j a) : Goes S s s' k a := by
  by_cases hkj : k = j
  · subst hkj
    exact hj (by rw [hclient, Function.update_self])
  · exact .stays (by rw [hclient, Function.update_of_ne hkj])

theorem goes_early {a : Act} {j : ReqId} {pc pc' : ClientPc} (hj : s.client j = pc)
    (hearly : pc.early = true) (hclient : s'.client = Function.update s.client j pc')
    (hpc : pc'.enqueued = false ∨ pc' = .subscribed) : Goes S s s' k a :=
  goes_update hclient fun hj' => .early (by rw [hj, hearly]) (by rw [hj']; exact hpc)

theorem Starts.client (h : Starts S s k failed s') : ∃ pc,
    s'.client = Function.update s.client k pc ∧ (pc.enqueued = false ∨ pc = .subscribed) := by
  cases h with
  | refused => exact ⟨_, rfl, .inl rfl⟩
  | broken => exact ⟨_, rfl, .inl rfl⟩
  | body => exact ⟨_, rfl, .inl rfl⟩
  | plain => exact ⟨_, rfl, .inr rfl⟩

theorem Closes.client (h : Closes s k s') : ∃ pc,
    s'.client = Function.update s.client k pc ∧ (pc.enqueued = false ∨ pc = .subscribed) := by
  cases h <;> exact ⟨_, rfl, .inl rfl⟩

theorem EndsParse.goes {rd : Option Read} {p : Parse} {r : Res} {q : Parser}
    (h : EndsParse S s s' rd p r q) : Goes S s s' k (.recv rd) := by
  by_cases hk : p.req = some k ∧ s.client k = .subscribed
  · refine .told hk.2 ?_ hk.1 h
    rw [h.client]
    exact if_pos hk
  · refine .stays ?_
    rw [h.client]
    exact if_neg hk

theorem Step.goes {a : Act} (hs : Step S s a s') (k : ReqId) : Goes S s s' k a := by
  cases hs with
  | call hk => exact goes_early hk rfl rfl (.inl rfl)
  | acquire hk _ _ _ hst =>
      obtain ⟨pc, hc, hpc⟩ := hst.client
      exact goes_early hk rfl hc hpc
  | reconnect hk _ hcl =>
      obtain ⟨pc, hc, hpc⟩ := hcl.client
      exact goes_early hk rfl hc hpc
  | acquireFails hk => exact goes_early hk rfl rfl (.inl rfl)
  | sendJoined hk _ hcl =>
      obtain ⟨pc, hc, hpc⟩ := hcl.client
      exact goes_early hk rfl hc hpc
  | recvJoined hk => exact goes_early hk rfl rfl (.inl rfl)
  | connected hk => exact goes_early hk rfl rfl (.inl rfl)
  | connectFails hk => exact goes_early hk rfl rfl (.inl rfl)
  | sslStart hk => exact goes_early hk rfl rfl (.inl rfl)
  | sslDone hk hst =>
      obtain ⟨pc, hc, hpc⟩ := hst.client
      exact goes_early hk rfl hc hpc
  | sslFails hk => exact goes_early hk rfl rfl (.inl rfl)
  | body hk => exact goes_early hk rfl rfl (.inl rfl)
  | bodyDone hk => exact goes_early hk rfl rfl (.inr rfl)
  | wake hk => exact goes_update rfl fun hj => .wake hk hj
  | interrupt hk => exact goes_update rfl fun hj => .interrupt hk hj
  | recvOk hr hrd hend hlives => exact EndsParse.goes ⟨hr, hrd, hend, nofun, hlives, rfl, rfl⟩
  | recvBad hr hrd hend _ hcrash hlives =>
      exact EndsParse.goes ⟨hr, hrd, hend, hcrash, hlives, rfl, rfl⟩
  | _ => exact .stays rfl

/-- What an interrupt leaves behind. -/
theorem Wf.interrupt (h : Wf s) (hs : Step S s (.interrupt k) s') : ¬ QueueOwned s' := by
  cases hs with
  | interrupt hk =>
      intro hown
      obtain ⟨hq, hr⟩ := hown k .interrupted (Function.update_self ..)
      rcases List.mem_append.mp (h.served.waiting k hk) with hm | hm
      · exact hr hm
      · exact hq hm

/-- **The queue belongs to its callers exactly in the runs in which no waiting
call is interrupted.** -/
theorem queue_owned_iff (S : Setting) (scheme : Scheme) (as : List Act) (t : Sys)
    (h : exec (step S) (.init scheme) as = some t) :
    Along (step S) QueueOwned (.init scheme) as ↔ ∀ k, .interrupt k ∉ as := by
  constructor
  · intro hown
    have hmeets : Meets (step S) (fun _ a => ∀ k, a ≠ .interrupt k) (.init scheme) as := by
      refine meets_of_along (I := Wf) (fun _ _ _ hw _ hs => hw.step (step_cases hs).2)
        (fun s a s' hw hs hown k ha => ?_) (wf_init scheme) h hown
      subst ha
      exact hw.interrupt (step_cases hs).2 hown
    exact fun k hk => hmeets.forall_of_exec h _ hk k rfl
  · intro hno
    refine along_of_meets (C := fun _ a => ∀ k, a ≠ .interrupt k)
      (I := fun s => Wf s ∧ ∀ k, s.client k ≠ .done .interrupted) ?_ ?_
      ⟨wf_init scheme, fun _ => nofun⟩ (meets_of_stateless (D := fun a => ∀ k, a ≠ .interrupt k)
        (fun a ha k hak => hno k (hak ▸ ha)) fun _ _ ha => ha)
    · rintro s a s' ⟨hw, hnot⟩ ha hs
      have hstep := (step_cases hs).2
      refine ⟨hw.step hstep, fun k hk => ?_⟩
      cases hstep.goes k with
      | stays heq => exact hnot k (heq ▸ hk)
      | early _ hpc => rw [hk] at hpc; rcases hpc with hpc | hpc <;> cases hpc
      | wake _ hpc => rw [hk] at hpc; cases hpc
      | interrupt => exact ha k rfl
      | told _ hpc => rw [hk] at hpc; cases hpc
    · rintro s ⟨hw, hnot⟩ k res hk
      exact hw.left_queue hk (by rintro rfl; exact hnot k hk)

end

/-- Requests of one byte, without a body. -/
def Setting.small : Setting where
  pf := ⟨.keep, -1, minus_one_neg⟩
  head k := [k.toUInt8]
  head_ne _ := nofun
  body _ := none
  inBodyCb _ := none

/-- The call of request 0, which finds no connection, up to where it waits. -/
def firstCall : List Act :=
  [.call 0, .acquire 0 none, .connected 0, .sslStart 0, .sslDone 0 none]

theorem queue_owned_iff_waiting : ∃ t, exec (step .small) (.init .http) firstCall = some t ∧
    Along (step .small) QueueOwned (.init .http) firstCall := by
  obtain ⟨t, ht⟩ := Option.isSome_iff_exists.mp
    (show (exec (step .small) (.init .http) firstCall).isSome = true by decide)
  exact ⟨t, ht, (queue_owned_iff _ _ _ _ ht).mpr fun k => by simp [firstCall]⟩

/-- **An interrupted call returns, and its request is still queued.** -/
theorem interrupted_still_queued : ∃ t,
    exec (step .small) (.init .http) (firstCall ++ [.interrupt 0]) = some t ∧
      t.client 0 = .done .interrupted ∧ 0 ∈ t.conn.requests ∧ ¬ QueueOwned t := by
  have hrun : (exec (step .small) (.init .http) (firstCall ++ [.interrupt 0])).map
      (fun t => (t.client 0, t.conn.requests)) = some (.done .interrupted, [0]) := by decide
  obtain ⟨t, ht, hobs⟩ := Option.map_eq_some_iff.mp hrun
  obtain ⟨hclient, hqueue⟩ := Prod.mk.inj hobs
  have hmem : 0 ∈ t.conn.requests := by rw [hqueue]; exact List.mem_singleton_self 0
  exact ⟨t, ht, hclient, hmem, fun hown => (hown 0 _ hclient).1 hmem⟩

end MnHttpc
