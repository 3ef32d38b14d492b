/-
# `MnApp.Client.Responses` — the responses on a shared connection

The server sends one response for each request, in order, and only when it has
the request in full (`Fed`).  The invariant `Inv` puts together what
`MnApp.Client.Replies` says of a response in the receive worker and what
`MnApp.Client.Turns` says of the requests.  It is kept by every step that is
`Provided` and `Spared`:

| `Spared` excludes                                        | because then          |
| -------------------------------------------------------- | --------------------- |
| `out_body_cb` appends while the send worker writes       | the rewind loses it   |
| the response comes before `out_body_cb` has returned     | no request is queued  |
| the last LF of a response comes when it was parsed       | no request is queued  |
| a read ends between CR and LF of the empty line          | the body is misread   |
| a header of the response has no value                    | the process dies      |

**The last LF.**  When the last LF of a response is missing, `http_parse_response`
may have returned 0.  If it comes before the next request is queued, it wakes the
receive worker, which calls the parser with NULL, and the parser takes the next
response for that call.
-/
import MnApp.Client.Replies
import MnApp.Client.Turns

namespace MnHttpc

open MnHttp Run Loop

/-! ## What is assumed -/

/-- The first `m` requests have been written in full. -/
def Sys.Asked (S : Setting) (s : Sys) (m : Nat) : Prop :=
  m ≤ s.log.acquired.length ∧
    (s.log.acquired.take m).flatMap S.textOf <+: s.log.wire.map Prod.snd

instance (S : Setting) (s : Sys) (m : Nat) : Decidable (s.Asked S m) :=
  inferInstanceAs (Decidable (_ ∧ _))

section
variable {S : Setting} (E : Exchange S)

/-- The server sends one response for each request, and only when it has the
request in full.  The socket is readable when there is something to read. -/
def Fed (s : Sys) : Act → Prop
  | .recvReady _ => ∃ m, m ≤ s.log.acquired.length ∧ s.Asked S m ∧
      s.log.received.length < (E.stream m).length
  | .recv (some (.bytes bs _)) => bs.length ≤ E.R ∧ ∃ m, m ≤ s.log.acquired.length ∧
      s.Asked S m ∧ s.log.received ++ bs <+: E.stream m
  | _ => True

/-- What is given: nothing fails, and the server keeps to the order. -/
def Provided (s : Sys) (a : Act) : Prop := a.Calm ∧ Fed E s a

/-- What must not happen besides: `out_body_cb` appends nothing while the send
worker is writing; the receive worker is not woken while `out_body_cb` has
appended everything and has not returned, nor, with no request queued, by the rest
of a response that was parsed already, nor for a response with a header that has no
value; no read ends inside the empty line of a response. -/
def Spared (s : Sys) : Act → Prop
  | .body k n => LeavesOut S s (.body k n)
  | .bodyDone k => LeavesOut S s (.bodyDone k)
  | .recvReady _ => (∀ k ∈ s.conn.reqfinSema, s.client k ≠ .body []) ∧
      (s.log.received = E.stream s.log.parses.length ∨ s.conn.requests ≠ []) ∧
      (E.reply s.log.parses.length).Valued
  | .recv (some (.bytes bs _)) => s.log.received.length + bs.length ≠
      (E.stream s.log.parses.length).length + (E.reply s.log.parses.length).head.length + 1
  | _ => True

/-! ## What is kept -/

/-- What holds in every state. -/
structure Inv (s : Sys) : Prop where
  wf : Wf s
  alive : s.crashed = false
  calm : ∀ k res, s.client k = .done res → res = .ok
  out : Outgoing s
  driven : Driven s
  bytes : s.outgoing ++ s.todo S = s.log.acquired.flatMap S.textOf
  queue : s.log.acquired.map some = s.log.parses.map Parsed.req ++ s.current.map some
  asked : ∀ n, (E.stream n).length < s.log.received.length → s.Asked S (n + 1)
  answers : ∀ n x, s.log.parses[n]? = some x → ∃ k, AnsweredBy E n x k
  input : Input E s.log.parses.length s.recv s.conn.inp s.log.received
  taken : ∀ p, s.recv = .parsing p → ∃ k, p.req = some k

end

/-! ## The queue -/

section
variable {S : Setting} {E : Exchange S} {s s' : Sys} {k : ReqId} {a : Act}

/-- A request that is queued or being answered belongs to the call that has the
semaphore, which waits for it. -/
theorem Inv.waits (h : Inv E s) (hk : k ∈ s.recv.reqs ++ s.conn.requests) :
    s.client k = .subscribed ∧ s.held = some (k, .subscribed) := by
  have hserved := h.wf.served
  have hnodup := hserved.nodup
  rw [List.append_assoc] at hnodup
  have hnot : k ∉ s.answered := fun hm => (List.nodup_append.mp hnodup).2.2 k hm k hk rfl
  have henq : (s.client k).enqueued = true := (hserved.enqueued k).mp (by
    rw [List.append_assoc]
    exact List.mem_append_right _ hk)
  have hsub : s.client k = .subscribed := by
    cases hpc : s.client k with
    | subscribed => rfl
    | woken => exact absurd (hserved.answer k (.inl hpc)) hnot
    | done res =>
        cases h.calm k res hpc
        exact absurd (hserved.answer k (.inr hpc)) hnot
    | idle | acquire | joinSend | joinRecv | connect | joinSsl | body =>
        rw [hpc] at henq
        cases henq
  exact ⟨hsub, Sys.held_eq ((h.wf.holder k).mp (by rw [hsub]; rfl)) hsub⟩

theorem Inv.single (h : Inv E s) : (s.recv.reqs ++ s.conn.requests).length ≤ 1 := by
  have hnodup := h.wf.served.nodup
  rw [List.append_assoc] at hnodup
  have hnodup := (List.nodup_append.mp hnodup).2.1
  have hsame : ∀ j ∈ s.recv.reqs ++ s.conn.requests, ∀ k ∈ s.recv.reqs ++ s.conn.requests,
      j = k := fun j hj k hk => by
    have heq := (h.waits hj).2.symm.trans (h.waits hk).2
    cases heq
    rfl
  match hl : s.recv.reqs ++ s.conn.requests with
  | [] => exact Nat.zero_le 1
  | [_] => exact Nat.le_refl 1
  | j :: k :: l =>
      rw [hl] at hnodup hsame
      have hjk := hsame j (by simp) k (by simp)
      subst hjk
      simp at hnodup

theorem Inv.count (h : Inv E s) :
    s.log.acquired.length = s.log.parses.length + s.current.length := by
  have hlen := congrArg List.length h.queue
  simpa using hlen

end

/-! ## What has been written -/

section
variable {S : Setting} {E : Exchange S} {s s' : Sys} {k : ReqId} {a : Act}

/-- All the responses that were parsed have come, but for the end of a line. -/
theorem Inv.received_le (h : Inv E s) :
    (E.stream s.log.parses.length).length ≤ s.log.received.length + 2 := by
  have hin := h.input
  unfold Input at hin
  split at hin
  · obtain ⟨_, _, before, late, rs, hr⟩ := hin
    have hlen := congrArg List.length hr.given.start.stream
    have hshort := hr.given.start.short
    rw [hr.given.received]
    simp only [List.length_append] at hlen ⊢
    omega
  · obtain ⟨late, hb⟩ := hin
    have hlen := congrArg List.length hb.stream
    have hshort := hb.short
    simp only [List.length_append] at hlen
    omega

theorem Inv.whole (h : Inv E s) : s.Asked S s.log.parses.length := by
  have hle := h.received_le
  cases hn : s.log.parses.length with
  | zero => exact ⟨Nat.zero_le _, List.nil_prefix⟩
  | succ n =>
      refine h.asked n ?_
      have htwo := (E.reply n).two_lt
      rw [hn, E.stream_succ, List.length_append] at hle
      omega

/-- When nobody has the semaphore, everything has been written. -/
theorem Inv.drained (h : Inv E s) (hfree : s.held = none) : s.conn.unsent = [] := by
  have hcurrent : s.current = [] := by unfold Sys.current; rw [hfree]
  have htodo : s.todo S = [] := by unfold Sys.todo; rw [hfree]
  have hcount := h.count
  rw [hcurrent, List.length_nil, Nat.add_zero] at hcount
  have hwire := h.whole.2
  rw [← hcount, List.take_length, ← h.bytes, htodo, List.append_nil] at hwire
  have hlen := hwire.length_le
  unfold Sys.outgoing at hlen
  rw [List.length_append] at hlen
  exact List.length_eq_zero_iff.mp (by omega)

theorem Inv.leavesOut (h : Inv E s) (hc : a.Calm) (hsp : Spared E s a) : LeavesOut S s a := by
  intro rest s' hwriting ha hs
  obtain ⟨hunsent, hne⟩ := h.out.rest rest hwriting
  cases (step_cases hs).2 with
  | acquire _ hsema _ _ _ =>
      rw [h.drained (Sys.held_none hsema)] at hunsent
      exact absurd hunsent.symm hne
  | reconnect _ _ hcl => exact hcl.sends.1
  | sendJoined _ _ hcl => exact hcl.sends.1
  | sslStart => exact s.conn.sslInit_out.1
  | sslDone hk _ =>
      have hnone := h.wf.workers.noSend _ trivial (by rw [hk]; rfl)
      cases hwriting.symm.trans hnone
  | body => exact hsp rest _ hwriting ha hs
  | bodyDone => exact hsp rest _ hwriting ha hs
  | sendNothing hpc =>
      rcases hpc with hpc | hpc <;> cases hwriting.symm.trans hpc
  | sendSome => cases ha
  | sendLast => cases ha
  | gc => exact hc.elim
  | _ => rfl

theorem Sys.Asked.mono {m : Nat} (h : s.Asked S m) (hacq : s.log.acquired <+: s'.log.acquired)
    (hwire : s.log.wire <+: s'.log.wire) : s'.Asked S m := by
  refine ⟨Nat.le_trans h.1 hacq.length_le, ?_⟩
  obtain ⟨more, hmore⟩ := hacq
  rw [← hmore, List.take_append_of_le_length h.1]
  exact h.2.trans (hwire.map _)

end

/-! ## Steps -/

section
variable {S : Setting} {E : Exchange S} {s s' : Sys} {k : ReqId} {a : Act}

theorem Sys.Asked.of_le {m m' : Nat} (h : s.Asked S m) (hle : m' ≤ m) : s.Asked S m' := by
  refine ⟨Nat.le_trans hle h.1, List.IsPrefix.trans ?_ h.2⟩
  obtain ⟨more, hmore⟩ := List.take_prefix_take_left hle (l := s.log.acquired)
  rw [← hmore, List.flatMap_append]
  exact List.prefix_append _ _

theorem Inv.given (h : Inv E s) {rd : Option Read} (hp : Provided E s (.recv rd))
    (hsp : Spared E s (.recv rd)) (hread : ReadOk rd) {inp₀ : Stream}
    {before late : List UInt8} {rs : List Read}
    (hg : Given E s.log.parses.length s.log.received inp₀ before late rs) :
    Given E s.log.parses.length (s.log.received ++ bytesOf rd) inp₀ before late
      (rs ++ rd.toList) := by
  match rd, hp, hsp, hread with
  | none, _, _, _ =>
      show Given E _ (s.log.received ++ []) inp₀ before late (rs ++ [])
      rw [List.append_nil, List.append_nil]
      exact hg
  | some (.fail _), hp, _, _ => exact hp.1.elim
  | some (.bytes bs slack), hp, hsp, hread =>
      obtain ⟨hR, m, hm, -, hpre⟩ := hp.2
      have hcount := h.count
      have hone := s.current_le
      exact hg.read hread hR (hpre.trans (E.stream_le (by omega))) hsp

theorem Inv.asked_read (h : Inv E s) {rd : Option Read} (hp : Provided E s (.recv rd)) (n : Nat)
    (hn : (E.stream n).length < (s.log.received ++ bytesOf rd).length) : s.Asked S (n + 1) := by
  match rd, hp with
  | none, _ => exact h.asked n (by rwa [show bytesOf none = [] from rfl, List.append_nil] at hn)
  | some (.fail _), hp => exact hp.1.elim
  | some (.bytes bs _), hp =>
      obtain ⟨-, m, -, hasked, hpre⟩ := hp.2
      exact hasked.of_le (E.stream_lt (Nat.lt_of_lt_of_le hn hpre.length_le))

theorem Inv.queued (h : Inv E s) {errno : Int} (hp : Provided E s (.recvReady errno))
    (hsp : Spared E s (.recvReady errno)) (hr : s.recv = .waitRead) : s.conn.requests ≠ [] := by
  obtain ⟨m, hm, hasked, hlt⟩ := hp.2
  obtain ⟨hbody, hsp, -⟩ := hsp
  refine hsp.elim (fun hreceived => ?_) id
  rw [hreceived] at hlt
  have hcount := h.count
  have hone := s.current_le
  have hlast : m = s.log.acquired.length := by
    have := E.stream_lt hlt
    omega
  -- all of the requests are written, so there is nothing left to append
  have hwire := hasked.2
  rw [hlast, List.take_length, ← h.bytes] at hwire
  have hlen := hwire.length_le
  unfold Sys.outgoing at hlen
  simp only [List.length_append, List.length_map] at hlen
  have htodo : s.todo S = [] := List.length_eq_zero_iff.mp (by omega)
  have hcurrent : s.current ≠ [] := fun hnil => by
    rw [hnil, List.length_nil] at hcount
    have := E.stream_lt hlt
    omega
  unfold Sys.current at hcurrent
  unfold Sys.todo at htodo
  cases hheld : s.held with
  | none => rw [hheld] at hcurrent; exact absurd rfl hcurrent
  | some x =>
      obtain ⟨k, pc⟩ := x
      rw [hheld] at hcurrent htodo
      obtain ⟨j, hsema, hj⟩ := Option.map_eq_some_iff.mp hheld
      cases hj
      have htext := S.textOf_ne k
      have hholds := (h.wf.holder k).mpr hsema
      cases hpc : s.client k with
      | subscribed =>
          have hk := h.wf.served.waiting k hpc
          rw [hr] at hk
          exact List.ne_nil_of_mem hk
      | woken =>
          rw [hpc] at hcurrent
          exact absurd (if_pos rfl) hcurrent
      | body rest =>
          rw [hpc] at htodo
          have hnil : rest = [] := htodo
          exact absurd (hpc.trans (by rw [hnil])) (hbody k hsema)
      | joinSend | joinRecv | connect | joinSsl =>
          rw [hpc] at htodo
          exact absurd htodo htext
      | idle | acquire | done =>
          rw [hpc] at hholds
          cases hholds

theorem Inv.reading (h : Inv E s) {p : Parse} (hr : s.recv = .parsing p) :
    ∃ k, p.req = some k ∧ ∃ errno inp₀ before late rs,
      Reading E s.log.parses.length p s.conn.inp s.log.received errno inp₀ before late rs := by
  obtain ⟨k, hk⟩ := h.taken p hr
  have hin := h.input
  rw [hr] at hin
  exact ⟨k, hk, hin⟩

/-- No parse of a response kills the process. -/
theorem Inv.survives (h : Inv E s) (hp : Provided E s a) (hsp : Spared E s a)
    (hs : Step S s a s') : s'.crashed = s.crashed := by
  refine hs.alive.resolve_right ?_
  rintro ⟨-, rd, p, rfl, hrecv, hread, hdead⟩
  obtain ⟨k, hk, errno, inp₀, before, late, rs, hr⟩ := h.reading hrecv
  have hg := h.given hp hsp hread hr.given
  rcases hdead with hdies | ⟨q, hcrash⟩
  · have hlives := headerDies_some (k := k) (hr.lives hg)
    rw [← hk] at hlives
    cases hlives.symm.trans hdies
  · cases (hr.done hg hcrash).1

theorem Inv.of_turn (h : Inv E s) (hwf : Wf s') (halive : s'.crashed = false)
    (hcalm : ∀ k res, s'.client k = .done res → res = .ok) (hout : Outgoing s')
    (hdriven : Driven s') (hturn : Turn S s s') (hparses : s'.log.parses = s.log.parses)
    (hasked : ∀ n, (E.stream n).length < s'.log.received.length → s'.Asked S (n + 1))
    (hin : Input E s.log.parses.length s'.recv s'.conn.inp s'.log.received)
    (htaken : ∀ p, s'.recv = .parsing p → ∃ k, p.req = some k) : Inv E s' where
  wf := hwf
  alive := halive
  calm := hcalm
  out := hout
  driven := hdriven
  bytes := hturn.bytes h.bytes
  queue := by
    rw [hparses]
    exact hturn.queue h.queue
  asked := hasked
  answers := by
    rw [hparses]
    exact h.answers
  input := by
    rw [hparses]
    exact hin
  taken := htaken

/-- **Every step keeps the invariant.** -/
theorem Inv.step (h : Inv E s) (hp : Provided E s a) (hsp : Spared E s a)
    (hs : step S s a = some s') : Inv E s' := by
  obtain ⟨halive, hstep⟩ := step_cases hs
  have hwf := h.wf.step hstep
  have hcalm := hstep.calm hp.1 h.calm
  have hout := h.out.step h.wf (h.leavesOut hp.1 hsp) hs
  have hdriven := h.driven.step h.wf hp.1 hstep
  have hwire := hstep.wire_grows h.wf
  have halive' : s'.crashed = false := (h.survives hp hsp hstep).trans halive
  cases hstep.beat h.wf h.out hp.1 halive' with
  | turn turn same =>
      have hrecv : s'.recv = .none → s.recv = .none := fun hnone =>
        same.recv.elim (fun heq => heq.symm.trans hnone) And.left
      refine h.of_turn hwf halive' hcalm hout (hdriven hrecv) turn same.parses ?_ ?_ ?_
      · rw [same.received]
        exact fun n hn => (h.asked n hn).mono turn.acquired_grows hwire
      · rw [same.inp, same.received]
        exact h.input.keep same.recv
      · intro p hparsing
        rcases same.recv with heq | ⟨-, heq⟩
        · exact h.taken p (heq.symm.trans hparsing)
        · cases heq.symm.trans hparsing
  | begins errno k ks wait queue recv inp received parses out =>
      refine h.of_turn hwf halive' hcalm hout (hdriven (by rw [recv]; nofun)) (.stays out) parses
        ?_ ?_ ?_
      · rw [received]
        exact fun n hn => (h.asked n hn).mono (Turn.stays (S := S) out).acquired_grows hwire
      · have hin := h.input
        rw [wait] at hin
        obtain ⟨late, hb⟩ := hin
        rw [inp, received, recv]
        exact ⟨errno, _, _, _, _, hb.begins hsp.2.2 (some k) errno⟩
      · rw [recv]
        rintro p ⟨⟩
        exact ⟨k, rfl⟩
  | orphaned errno wait queue => exact absurd queue (h.queued hp hsp wait)
  | parses rd p pc q pstep on recv parses client =>
      obtain ⟨k, hk, errno, inp₀, before, late, rs, hr⟩ := h.reading pstep.recv
      have hg := h.given hp hsp pstep.read hr.given
      have hheld : s'.held = s.held := by
        unfold Sys.held
        rw [pstep.sema, client]
      refine h.of_turn hwf halive' hcalm hout (hdriven (by rw [recv]; nofun))
        (.stays ⟨hheld, pstep.acquired, pstep.outgoing⟩) parses ?_ ?_ ?_
      · rw [pstep.received]
        exact fun n hn => (h.asked_read hp n hn).mono pstep.acquired_grows hwire
      · rw [pstep.inp, pstep.received, recv]
        exact ⟨errno, inp₀, before, late, _, hr.goes hg on⟩
      · rw [recv]
        rintro p' ⟨⟩
        exact ⟨k, hk⟩
  | ends rd p r q pstep ends recv parses client =>
      obtain ⟨k, hk, errno, inp₀, before, late, rs, hr⟩ := h.reading pstep.recv
      have hg := h.given hp hsp pstep.read hr.given
      obtain ⟨rfl, hheard, late', hb⟩ := hr.done hg ends
      have hanswer : AnsweredBy E s.log.parses.length ⟨p.req, .ok, q.calls⟩ k :=
        ⟨hk, rfl, by rw [hk] at hheard; exact hheard⟩
      have hmem : k ∈ s.recv.reqs ++ s.conn.requests := by
        rw [pstep.recv]
        exact List.mem_append_left _ (Option.mem_toList.mpr hk)
      obtain ⟨hsub, hheld⟩ := h.waits hmem
      -- the call is told, and what it waited for is answered
      have hheld' : s'.held = some (k, .woken) := by
        refine Sys.held_eq ?_ ?_
        · rw [pstep.sema]
          exact (h.wf.holder k).mp (by rw [hsub]; rfl)
        · rw [client]
          exact if_pos ⟨hk, hsub⟩
      have hbytes := h.bytes
      have hqueue := h.queue
      unfold Sys.todo at hbytes
      unfold Sys.current at hqueue
      rw [hheld] at hbytes hqueue
      refine ⟨hwf, halive', hcalm, hout, hdriven (by rw [recv rfl]; nofun), ?_, ?_, ?_, ?_, ?_, ?_⟩
      · unfold Sys.todo
        rw [hheld', pstep.outgoing, pstep.acquired]
        exact hbytes
      · unfold Sys.current
        rw [hheld', pstep.acquired, parses, hqueue, List.map_append]
        simp [hk]
      · rw [pstep.received]
        exact fun n hn => (h.asked_read hp n hn).mono pstep.acquired_grows hwire
      · rw [parses]
        exact answers_snoc h.answers ⟨k, hanswer⟩
      · rw [parses, pstep.inp, pstep.received, recv rfl, List.length_append]
        exact ⟨late', hb⟩
      · rw [recv rfl]
        rintro p' ⟨⟩

end

end MnHttpc
