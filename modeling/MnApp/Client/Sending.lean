/-
# `MnApp.Client.Sending` — what the send worker's rewind throws away

The send worker calls `bytestream_produce_data(&conn->out)` and then
`bytestream_rewind(&conn->out)`.  The first writes the bytes that were there
when it was called, and waits between its writes; the second forgets
everything that is there when it is called.  In between a request may have
been appended: the semaphore is held until the response has arrived, and a
server may answer before it has read the request to its end.

`Sends` says what a step does to `conn->out`, to the worker and to the wire.
From it:

* in a run in which nothing is appended while the worker is inside
  `bytestream_produce_data`, every rewind throws away written bytes only;
* an append at that time is lost by the rewind that follows, whatever else
  happens until then.

So the two conditions are the same (`rewind_lossless_iff`).
-/
import MnApp.Client.Outcome

namespace MnHttpc

open MnHttp Run

/-! ## What a step does to the outgoing stream -/

/-- The worker is where it was, has been signalled, or has been spawned. -/
def SendPc.Passive (pc pc' : SendPc) : Prop :=
  pc' = pc ∨ pc' = pc.signalled ∨ (pc = .none ∧ pc' = .spawned)

theorem SendPc.Passive.writing {pc : SendPc} {rest : List OutByte}
    (h : pc.Passive (.writing rest)) : pc = .writing rest := by
  rcases h with h | h | ⟨_, h⟩
  · exact h.symm
  · cases pc <;> first | exact h.symm | cases h
  · cases h

theorem SendPc.Passive.subscribed {pc : SendPc} (h : pc.Passive .subscribed) :
    pc = .subscribed := by
  rcases h with h | h | ⟨_, h⟩
  · exact h.symm
  · cases pc <;> cases h
  · cases h

theorem SendPc.Passive.of_writing {pc : SendPc} {rest : List OutByte}
    (h : SendPc.Passive (.writing rest) pc) : pc = .writing rest := by
  rcases h with h | h | ⟨h, _⟩
  · exact h
  · exact h
  · cases h

/-- Bytes written, with the socket they went to. -/
def onSocket (fd : Option Nat) (bs : List OutByte) : List (Option Nat × OutByte) :=
  bs.map fun b => (fd, b)

@[simp] theorem onSocket_length (fd : Option Nat) (bs : List OutByte) :
    (onSocket fd bs).length = bs.length := List.length_map ..

@[simp] theorem onSocket_snd (fd : Option Nat) (bs : List OutByte) :
    (onSocket fd bs).map Prod.snd = bs := by
  simp [onSocket, Function.comp_def]

/-- The send worker writes. -/
def Act.isWrite : Act → Bool
  | .sendWrite _ => true
  | _ => false

/-- What a step does to `conn->out`, to the send worker, and to the wire. -/
inductive Sends (s : Sys) (a : Act) (s' : Sys) : Prop
  | appends (bs : List OutByte) : a.isWrite = false → s'.conn.out = s.conn.out ++ bs →
      s'.conn.outPos = s.conn.outPos → s'.log.wire = s.log.wire →
      s.send.Passive s'.send → Sends s a s'
  | starts : s.conn.unsent ≠ [] → s'.conn.out = s.conn.out →
      s'.conn.outPos = s.conn.outPos → s'.log.wire = s.log.wire →
      s'.send = .writing s.conn.unsent → Sends s a s'
  | nothing : s.conn.unsent = [] → s'.conn.out = [] → s'.conn.outPos = 0 →
      s'.log.wire = s.log.wire → s'.send = .subscribed → Sends s a s'
  | some (bs rest : List OutByte) : a.isWrite = true → s.send = .writing (bs ++ rest) →
      rest ≠ [] → s'.conn.out = s.conn.out → s'.conn.outPos = s.conn.outPos + bs.length →
      s'.log.wire = s.log.wire ++ onSocket s.conn.fd bs → s'.send = .writing rest → Sends s a s'
  | last (bs : List OutByte) : a.isWrite = true → s.send = .writing bs → s'.conn.out = [] →
      s'.conn.outPos = 0 → s'.log.wire = s.log.wire ++ onSocket s.conn.fd bs →
      s'.send = .subscribed → Sends s a s'
  | exits : s'.conn.out = s.conn.out → s'.conn.outPos = s.conn.outPos →
      s'.log.wire = s.log.wire → s'.send = .none → Sends s a s'
  | collects : a.isWrite = false → s'.conn.out = [] → s'.conn.outPos = 0 →
      s'.log.wire = s.log.wire → s'.send = s.send → Sends s a s'

section
variable {S : Setting} {s s' : Sys} {k : ReqId} {a : Act}

theorem Sends.quiet (ha : a.isWrite = false) (hout : s'.conn.out = s.conn.out)
    (hpos : s'.conn.outPos = s.conn.outPos) (hwire : s'.log.wire = s.log.wire)
    (hsend : s'.send = s.send) : Sends s a s' :=
  .appends [] ha (by rw [hout, List.append_nil]) hpos hwire (.inl hsend)

theorem Starts.sends {failed : Option Nat} (h : Starts S s k failed s') : ∃ bs,
    s'.conn.out = s.conn.out ++ bs ∧ s'.conn.outPos = s.conn.outPos ∧
      s'.log.wire = s.log.wire ∧ (s'.send = s.send ∨ s'.send = s.send.signalled) := by
  cases h with
  | refused => exact ⟨[], (List.append_nil _).symm, rfl, rfl, .inl rfl⟩
  | broken => exact ⟨_, rfl, rfl, rfl, .inl rfl⟩
  | body => exact ⟨_, rfl, rfl, rfl, .inl rfl⟩
  | plain => exact ⟨_, rfl, rfl, rfl, .inr rfl⟩

theorem Closes.sends (h : Closes s k s') : s'.conn.out = s.conn.out ∧
    s'.conn.outPos = s.conn.outPos ∧ s'.log.wire = s.log.wire ∧ s'.send = s.send := by
  cases h <;> exact ⟨rfl, rfl, rfl, rfl⟩

theorem Conn.sslInit_out (c : Conn) : c.sslInit.out = c.out ∧ c.sslInit.outPos = c.outPos := by
  rw [Conn.sslInit_frame]
  exact ⟨rfl, rfl⟩

theorem Step.sends (hw : Wf s) (h : Step S s a s') : Sends s a s' := by
  cases h with
  | acquire _ _ _ _ hst =>
      obtain ⟨bs, hout, hpos, hwire, hsend⟩ := hst.sends
      exact .appends bs rfl hout hpos hwire (hsend.imp_right .inl)
  | reconnect _ _ hcl =>
      obtain ⟨hout, hpos, hwire, hsend⟩ := hcl.sends
      exact .quiet rfl hout hpos hwire hsend
  | sendJoined _ _ hcl =>
      obtain ⟨hout, hpos, hwire, hsend⟩ := hcl.sends
      exact .quiet rfl hout hpos hwire hsend
  | sslStart => exact .quiet rfl s.conn.sslInit_out.1 s.conn.sslInit_out.2 rfl rfl
  | sslDone hk hst =>
      -- The worker is spawned, so nobody is there to lose a signal.
      obtain ⟨bs, hout, hpos, hwire, hsend⟩ := hst.sends
      have hnone : s.send = .none := hw.workers.noSend _ trivial (by rw [hk]; rfl)
      have hspawned : s'.send = .spawned := by rcases hsend with h | h <;> exact h
      exact .appends bs rfl hout hpos hwire (.inr (.inr ⟨hnone, hspawned⟩))
  | body => exact .appends _ rfl rfl rfl rfl (.inl rfl)
  | bodyDone => exact .appends _ rfl rfl rfl rfl (.inr (.inl rfl))
  | sendNothing _ hnil => exact .nothing hnil rfl rfl rfl rfl
  | sendStart _ hne => exact .starts hne rfl rfl rfl rfl
  | @sendSome n rest hs hpos hlt =>
      refine .some (rest.take n) (rest.drop n) rfl ?_ ?_ rfl rfl rfl rfl
      · rw [List.take_append_drop, hs]
      · intro hnil
        have := List.drop_eq_nil_iff.mp hnil
        omega
  | sendLast hs => exact .last _ rfl hs rfl rfl rfl rfl
  | sendExit => exact .exits rfl rfl rfl rfl
  | gc => exact .collects rfl rfl rfl rfl rfl
  | _ => exact .quiet rfl rfl rfl rfl rfl

/-! ## Rewinds -/

/-- The worker has come back from `bytestream_produce_data`, and has called
`bytestream_rewind`. -/
def Rewinds (s s' : Sys) : Prop := s.send ≠ .subscribed ∧ s'.send = .subscribed

/-- Every byte the rewind forgets has been written: as many as there are since
the last one (`pos` counts them), and they are the last ones on the wire. -/
structure Lossless (s s' : Sys) : Prop where
  count : s.conn.outPos + (s'.log.wire.length - s.log.wire.length) = s.conn.out.length
  written : s.conn.out <:+ s'.log.wire.map Prod.snd

/-- Whatever happens next, a rewind loses nothing. -/
def RewindLossless (S : Setting) (s : Sys) : Prop :=
  ∀ a s', step S s a = some s' → Rewinds s s' → Lossless s s'

/-- While the worker is inside `bytestream_produce_data`, nobody else changes
`conn->out`. -/
def LeavesOut (S : Setting) (s : Sys) (a : Act) : Prop :=
  ∀ rest s', s.send = .writing rest → a.isWrite = false → step S s a = some s' →
    s'.conn.out = s.conn.out

instance (S : Setting) (s : Sys) (a : Act) : Decidable (LeavesOut S s a) :=
  match hs : s.send, ha : step S s a with
  | .writing rest, some s' =>
      decidable_of_iff (a.isWrite = false → s'.conn.out = s.conn.out)
        ⟨fun h _ u _ hw hu => by cases Option.some.inj (ha.symm.trans hu); exact h hw,
          fun h hw => h rest s' hs hw ha⟩
  | _, none => isTrue fun _ _ _ _ hu => by cases ha.symm.trans hu
  | .none, some _ | .spawned, some _ | .subscribed, some _ | .woken, some _ =>
      isTrue fun _ _ hw => by cases hs.symm.trans hw

/-- `conn->out` up to `pos` is on the wire, and the worker, if it is inside
`bytestream_produce_data`, writes all of the rest. -/
structure Outgoing (s : Sys) : Prop where
  bound : s.conn.outPos ≤ s.conn.out.length
  sent : s.conn.out.take s.conn.outPos <:+ s.log.wire.map Prod.snd
  rest : ∀ rest, s.send = .writing rest → s.conn.unsent = rest ∧ rest ≠ []

theorem Outgoing.empty (hout : s.conn.out = []) (hpos : s.conn.outPos = 0)
    (hsend : ∀ rest, s.send ≠ .writing rest) : Outgoing s where
  bound := by rw [hpos]; exact Nat.zero_le _
  sent := by rw [hout, List.take_nil]; exact List.nil_suffix
  rest rest hr := absurd hr (hsend rest)

theorem outgoing_init (scheme : Scheme) : Outgoing (.init scheme) :=
  .empty rfl rfl fun _ h => by cases h

theorem Outgoing.wrote (h : Outgoing s) {bs rest : List OutByte}
    (hs : s.send = .writing (bs ++ rest)) :
    s.conn.outPos + bs.length + rest.length = s.conn.out.length ∧
      s.conn.out.drop (s.conn.outPos + bs.length) = rest ∧
      s.conn.out.take (s.conn.outPos + bs.length) <:+ s.log.wire.map Prod.snd ++ bs := by
  have hunsent : s.conn.out.drop s.conn.outPos = bs ++ rest := (h.rest _ hs).1
  have hlen := congrArg List.length hunsent
  have hbound := h.bound
  rw [List.length_drop, List.length_append] at hlen
  refine ⟨by omega, ?_, ?_⟩
  · rw [← List.drop_drop, hunsent, List.drop_left]
  · obtain ⟨w, hw⟩ := h.sent
    refine ⟨w, ?_⟩
    rw [List.take_add, hunsent, List.take_left, ← List.append_assoc, hw]

theorem Outgoing.step (h : Outgoing s) (hw : Wf s) (hC : LeavesOut S s a)
    (hs : step S s a = some s') : Outgoing s' := by
  cases (step_cases hs).2.sends hw with
  | appends bs ha hout hpos hwire hsend =>
      refine ⟨?_, ?_, fun rest hr => ?_⟩
      · rw [hout, hpos, List.length_append]
        exact Nat.le_add_right_of_le h.bound
      · rw [hout, hpos, hwire, List.take_append_of_le_length h.bound]
        exact h.sent
      · rw [hr] at hsend
        have hold := hsend.writing
        obtain ⟨hunsent, hne⟩ := h.rest rest hold
        refine ⟨?_, hne⟩
        unfold Conn.unsent
        rw [hC rest s' hold ha hs, hpos]
        exact hunsent
  | starts hne hout hpos hwire hsend =>
      refine ⟨by rw [hout, hpos]; exact h.bound, by rw [hout, hpos, hwire]; exact h.sent, ?_⟩
      intro rest hr
      cases hsend.symm.trans hr
      exact ⟨by unfold Conn.unsent; rw [hout, hpos], hne⟩
  | nothing _ hout hpos _ hsend =>
      exact .empty hout hpos fun rest hr => by cases hsend.symm.trans hr
  | some bs rest _ hsend hne hout hpos hwire hsend' =>
      obtain ⟨hlen, hdrop, hsent⟩ := h.wrote hsend
      refine ⟨by rw [hout, hpos]; omega, ?_, fun rest' hr => ?_⟩
      · rw [hout, hpos, hwire, List.map_append, onSocket_snd]
        exact hsent
      · cases hsend'.symm.trans hr
        exact ⟨by unfold Conn.unsent; rw [hout, hpos]; exact hdrop, hne⟩
  | last _ _ _ hout hpos _ hsend =>
      exact .empty hout hpos fun rest hr => by cases hsend.symm.trans hr
  | exits hout hpos hwire hsend =>
      exact ⟨by rw [hout, hpos]; exact h.bound, by rw [hout, hpos, hwire]; exact h.sent,
        fun rest hr => by cases hsend.symm.trans hr⟩
  | collects ha hout hpos hwire hsend =>
      -- Not while the worker writes: it would change `conn->out`.
      refine .empty hout hpos fun rest hr => ?_
      have hold := hsend.symm.trans hr
      obtain ⟨hunsent, hne⟩ := h.rest rest hold
      have hsame : s.conn.out = [] := (hC rest s' hold ha hs).symm.trans hout
      rw [Conn.unsent, hsame, List.drop_nil] at hunsent
      exact hne hunsent.symm

theorem Outgoing.lossless (h : Outgoing s) (hw : Wf s) : RewindLossless S s := by
  rintro a s' hs ⟨hnot, hsub⟩
  cases (step_cases hs).2.sends hw with
  | appends _ _ _ _ _ hsend => exact absurd (hsub ▸ hsend).subscribed hnot
  | starts _ _ _ _ hsend => cases hsend.symm.trans hsub
  | nothing hnil _ _ hwire _ =>
      -- `produce_data` had nothing to do: `pos` is at the end.
      have hend : s.conn.outPos = s.conn.out.length :=
        Nat.le_antisymm h.bound (List.drop_eq_nil_iff.mp hnil)
      refine ⟨by rw [hwire]; omega, ?_⟩
      have hsent := h.sent
      rw [hend, List.take_length] at hsent
      rw [hwire]
      exact hsent
  | some _ _ _ _ _ _ _ _ hsend => cases hsend.symm.trans hsub
  | last bs _ hsend _ _ hwire _ =>
      have hall : s.send = .writing (bs ++ []) := by rw [List.append_nil]; exact hsend
      obtain ⟨hlen, _, hsent⟩ := h.wrote hall
      rw [List.length_nil, Nat.add_zero] at hlen
      rw [hlen, List.take_length] at hsent
      refine ⟨?_, ?_⟩
      · rw [hwire, List.length_append, onSocket_length]
        omega
      · rw [hwire, List.map_append, onSocket_snd]
        exact hsent
  | exits _ _ _ hsend => cases hsend.symm.trans hsub
  | collects _ _ _ _ hsend => exact absurd (hsend.symm.trans hsub) hnot

/-! ## Appends during a write -/

/-- The worker can write all it has at once, and then rewinds. -/
theorem step_sendWrite (halive : s.crashed = false) {rest : List OutByte}
    (hs : s.send = .writing rest) (hne : rest ≠ []) :
    step S s (.sendWrite rest.length) = some (s.wrote rest).produced := by
  have hlen : 0 < rest.length := List.length_pos_iff.mpr hne
  simp [step, halive, act, hs, guarded, hlen, Sys.produce]

theorem RewindLossless.ends (h : RewindLossless S s) (halive : s.crashed = false)
    {rest : List OutByte} (hs : s.send = .writing rest) (hne : rest ≠ []) :
    s.conn.outPos + rest.length = s.conn.out.length := by
  have hloss := h _ _ (step_sendWrite halive hs hne) ⟨by rw [hs]; exact nofun, rfl⟩
  have hcount := hloss.count
  have hwire : (s.wrote rest).produced.log.wire = s.log.wire ++ onSocket s.conn.fd rest := rfl
  rw [hwire, List.length_append, onSocket_length] at hcount
  omega

/-- A step does not kill the process, but for two in the parser, which leave `out`. -/
theorem Step.alive (h : Step S s a s') : s'.crashed = s.crashed ∨
    s'.conn.out = s.conn.out ∧ ∃ rd p, a = .recv rd ∧ s.recv = .parsing p ∧ ReadOk rd ∧
      (headerDies p.req (stepCalls (s.parseStep S p rd)) = true ∨
        ∃ q, s.parseStep S p rd = .done (.returned .crash q [])) := by
  cases h with
  | acquire _ _ _ _ hst => cases hst <;> exact .inl rfl
  | reconnect _ _ hcl => cases hcl <;> exact .inl rfl
  | sendJoined _ _ hcl => cases hcl <;> exact .inl rfl
  | sslDone _ hst => cases hst <;> exact .inl rfl
  | recvDies hr hrd hdies => exact .inr ⟨rfl, _, _, rfl, hr, hrd, .inl hdies⟩
  | recvCrash hr hrd hcrash => exact .inr ⟨rfl, _, _, rfl, hr, hrd, .inr ⟨_, hcrash⟩⟩
  | _ => exact .inl rfl

/-- What is appended to a stream that is being written is lost. -/
theorem Outgoing.leaves (h : Outgoing s) (hw : Wf s) (hs : MnHttpc.step S s a = some s')
    (hloss : RewindLossless S s') : LeavesOut S s a := by
  intro rest u hwriting ha hu
  cases Option.some.inj (hs.symm.trans hu)
  obtain ⟨halive, hstep⟩ := step_cases hs
  obtain ⟨hunsent, hne⟩ := h.rest rest hwriting
  have hlen := congrArg List.length hunsent
  rw [Conn.unsent, List.length_drop] at hlen
  have hpos : 0 < rest.length := List.length_pos_iff.mpr hne
  rcases hstep.alive with hcrash | ⟨hout, -⟩
  · have halive' : s'.crashed = false := hcrash.trans halive
    cases hstep.sends hw with
    | appends bs _ hout hp _ hsend =>
        have hend := hloss.ends halive' ((hwriting ▸ hsend).of_writing) hne
        rw [hp, hout, List.length_append] at hend
        obtain rfl : bs = [] := List.length_eq_zero_iff.mp (by omega)
        rw [hout, List.append_nil]
    | starts _ hout => exact hout
    | nothing hnil =>
        rw [hunsent] at hnil
        exact absurd hnil hne
    | some _ _ hw => rw [ha] at hw; cases hw
    | last _ hw => rw [ha] at hw; cases hw
    | exits hout => exact hout
    | collects _ hout hp _ hsend =>
        have hend := hloss.ends halive' (hsend.trans hwriting) hne
        rw [hp, hout, List.length_nil] at hend
        omega
  · exact hout

/-- **At every moment of a run a rewind that comes next loses nothing, exactly when
nobody appends to `conn->out` while the send worker is writing it.**  So an
append counts before the rewind that throws it away has come. -/
theorem rewind_lossless_iff (S : Setting) (scheme : Scheme) (as : List Act) (t : Sys)
    (h : exec (step S) (.init scheme) as = some t) :
    Along (step S) (RewindLossless S) (.init scheme) as ↔
      Meets (step S) (LeavesOut S) (.init scheme) as := by
  have keep : ∀ s a s', (Wf s ∧ Outgoing s) → LeavesOut S s a → step S s a = some s' →
      Wf s' ∧ Outgoing s' := fun s a s' ⟨hw, ho⟩ hC hs =>
    ⟨hw.step (step_cases hs).2, ho.step hw hC hs⟩
  have hinit : Wf (.init scheme) ∧ Outgoing (.init scheme) :=
    ⟨wf_init scheme, outgoing_init scheme⟩
  constructor
  · exact meets_of_along keep (fun _ _ _ hI hs hloss => hI.2.leaves hI.1 hs hloss) hinit h
  · exact along_of_meets keep (fun _ hI => hI.2.lossless hI.1) hinit

end

theorem rewind_lossless_iff_exchange : ∃ t,
    exec (step .small) (.init .http) firstExchange = some t ∧ t.log.wire = [(some 0, ⟨0, 0, 0⟩)] ∧
      Along (step .small) (RewindLossless .small) (.init .http) firstExchange := by
  have hrun : (exec (step .small) (.init .http) firstExchange).map (fun t => t.log.wire) =
      some [(some 0, ⟨0, 0, 0⟩)] := by decide +kernel
  obtain ⟨t, ht, hwire⟩ := Option.map_eq_some_iff.mp hrun
  exact ⟨t, ht, hwire, (rewind_lossless_iff _ _ _ _ ht).mpr (by decide +kernel)⟩

/-- The response to request 0 arrives while the request is being written, and
request 1 is appended before the write is done. -/
def earlyResponse : List Act :=
  firstCall ++ [.sendRun] ++
    reading (.bytes (CLib.ascii "HTTP/1.1 200 OK\r\nContent-Length: 0\r\n\r\n") []) 11 ++
    [.wake 0, .call 1, .acquire 1 none]

/-- **Request 1 is queued, and its one byte is thrown away unwritten.** -/
theorem early_response_loses : ∃ s t,
    exec (step .small) (.init .http) earlyResponse = some s ∧ s.client 0 = .done .ok ∧
      s.conn.out = [⟨0, 0, 0⟩, ⟨1, 1, 0⟩] ∧
      step .small s (.sendWrite 1) = some t ∧ t.conn.requests = [1] ∧ t.conn.out = [] ∧
      t.log.wire = [(some 0, ⟨0, 0, 0⟩)] ∧ ¬ RewindLossless .small s := by
  have hrun : (exec (step .small) (.init .http) earlyResponse).map
      (fun s => (s.client 0, s.conn.out, s.send, s.crashed)) =
      some (.done .ok, [⟨0, 0, 0⟩, ⟨1, 1, 0⟩], .writing [⟨0, 0, 0⟩], false) := by decide +kernel
  have hlog : (exec (step .small) (.init .http) earlyResponse).map
      (fun s => (s.conn.requests, s.log.wire, s.conn.fd)) = some ([1], [], some 0) := by
    decide +kernel
  obtain ⟨s, hs, hobs⟩ := Option.map_eq_some_iff.mp hrun
  rw [hs] at hlog
  simp only [Prod.mk.injEq, Option.map_some, Option.some.injEq] at hobs hlog
  obtain ⟨hclient, hout, hsend, halive⟩ := hobs
  obtain ⟨hq, hwire, hfd⟩ := hlog
  have hnext : step .small s (.sendWrite 1) = _ := step_sendWrite halive hsend nofun
  have hwire' : (s.wrote [⟨0, 0, 0⟩]).produced.log.wire = [(some 0, ⟨0, 0, 0⟩)] := by
    simp [Sys.produced, Sys.wrote, hwire, hfd]
  refine ⟨s, _, hs, hclient, hout, hnext, hq, rfl, hwire', fun hloss => ?_⟩
  have hwritten := (hloss _ _ hnext ⟨by rw [hsend]; exact nofun, rfl⟩).written
  rw [hout, hwire'] at hwritten
  exact absurd hwritten.length_le (by decide)

end MnHttpc
