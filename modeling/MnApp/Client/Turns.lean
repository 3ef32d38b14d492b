/-
# `MnApp.Client.Turns` — the call that has the semaphore, step by step

`mnhttpc_request_finalize` appends its request to `conn->out`, waits for the
response and returns, all with `reqfin_sema` held.  This module says what one
step does as seen from the semaphore, in a run in which nothing fails
(`Act.Calm`):

    Turn      a call takes the semaphore, goes on with it, or gives it back;
              what it appends to `conn->out` and what it still has to append
              are its request
    Beat      or the receive worker starts a parse, makes a step of one, or
              ends it, and the stream `outgoing` stays as it is

The stream `outgoing` is what is on the wire and behind it what stands in
`conn->out`.  With the bytes its holder still has to append it is always the
requests in the order of the semaphore (`Turn.bytes`), and that order is the
order of the parses (`Turn.queue`).

**Both workers are there for the call that needs them**, and what stands in
`conn->out` is not forgotten (`Driven`): a send worker that waits for a signal
has written everything, unless `out_body_cb` is at work, behind which the signal
comes.
-/
import MnApp.Client.Sending

namespace MnHttpc

open MnHttp Run Loop

/-! ## The call that has the semaphore -/

/-- All the bytes of a request. -/
def Setting.textOf (S : Setting) (k : ReqId) : List OutByte := S.headOf k ++ S.bodyOf k

theorem Setting.textOf_ne (S : Setting) (k : ReqId) : S.textOf k ≠ [] :=
  List.append_ne_nil_of_left_ne_nil (S.headOf_ne k) _

/-- The call that has the semaphore, and where it is. -/
def Sys.held (s : Sys) : Option (ReqId × ClientPc) := s.conn.reqfinSema.map fun k => (k, s.client k)

/-- What a call that has the semaphore has not appended to `conn->out` yet. -/
def ClientPc.todo (S : Setting) (k : ReqId) : ClientPc → List OutByte
  | .joinSend | .joinRecv | .connect | .joinSsl _ => S.textOf k
  | .body rest => rest
  | _ => []

def Sys.todo (S : Setting) (s : Sys) : List OutByte :=
  match s.held with
  | some (k, pc) => pc.todo S k
  | none => []

/-- The request that was not answered yet, if its call has the semaphore. -/
def Sys.current (s : Sys) : List ReqId :=
  match s.held with
  | some (k, pc) => if pc = .woken then [] else [k]
  | none => []

/-- What has been written and what stands in `conn->out` behind it. -/
def Sys.outgoing (s : Sys) : List OutByte := s.log.wire.map Prod.snd ++ s.conn.unsent

/-! ## What a step does -/

/-- Nothing fails, nobody is interrupted, and the connection is not lost. -/
def Act.Calm : Act → Prop
  | .acquire _ failed | .sslDone _ failed => failed = none
  | .recv (some (.fail _)) => False
  | .acquireFails _ | .connectFails _ | .sslFails _ | .interrupt _ | .sendExit | .recvExit
  | .gc => False
  | _ => True

/-- The receive worker and what it has read are where they were; or it was
spawned. -/
structure SameIn (s s' : Sys) : Prop where
  recv : s'.recv = s.recv ∨ (s.recv = .none ∧ s'.recv = .waitRead)
  inp : s'.conn.inp = s.conn.inp
  received : s'.log.received = s.log.received
  parses : s'.log.parses = s.log.parses

/-- The bytes of the requests are where they were, or have moved from `conn->out`
to the wire. -/
structure SameOut (s s' : Sys) : Prop where
  held : s'.held = s.held
  acquired : s'.log.acquired = s.log.acquired
  outgoing : s'.outgoing = s.outgoing

/-- What a step does to the call that has the semaphore; `bs` is appended. -/
inductive Turn (S : Setting) (s s' : Sys) : Prop
  | stays (out : SameOut s s')
  | takes (k : ReqId) (pc : ClientPc) (bs : List OutByte) (free : s.held = none)
      (held : s'.held = some (k, pc)) (acquired : s'.log.acquired = s.log.acquired ++ [k])
      (outgoing : s'.outgoing = s.outgoing ++ bs) (bytes : bs ++ pc.todo S k = S.textOf k)
      (unanswered : pc ≠ .woken)
  | moves (k : ReqId) (pc pc' : ClientPc) (bs : List OutByte) (held : s.held = some (k, pc))
      (held' : s'.held = some (k, pc')) (acquired : s'.log.acquired = s.log.acquired)
      (outgoing : s'.outgoing = s.outgoing ++ bs) (bytes : bs ++ pc'.todo S k = pc.todo S k)
      (unanswered : pc ≠ .woken ∧ pc' ≠ .woken)
  | leaves (k : ReqId) (held : s.held = some (k, .woken)) (free : s'.held = none)
      (acquired : s'.log.acquired = s.log.acquired) (outgoing : s'.outgoing = s.outgoing)

/-- The parser has made a step, with what a read brought. -/
structure ParserStep (s s' : Sys) (rd : Option Read) (p : Parse) (q : Parser) : Prop where
  recv : s.recv = .parsing p
  read : ReadOk rd
  inp : s'.conn.inp = q.inp
  received : s'.log.received = s.log.received ++ bytesOf rd
  acquired : s'.log.acquired = s.log.acquired
  outgoing : s'.outgoing = s.outgoing
  sema : s'.conn.reqfinSema = s.conn.reqfinSema

theorem ParserStep.acquired_grows {s s' : Sys} {rd : Option Read} {p : Parse} {q : Parser}
    (h : ParserStep s s' rd p q) : s.log.acquired <+: s'.log.acquired :=
  ⟨[], (List.append_nil _).trans h.acquired.symm⟩

/-- What a calm step does, if the process lives. -/
inductive Beat (S : Setting) (s s' : Sys) : Act → Prop
  | turn {a : Act} (turn : Turn S s s') (same : SameIn s s') : Beat S s s' a
  | begins (errno : Int) (k : ReqId) (ks : List ReqId) (wait : s.recv = .waitRead)
      (queue : s.conn.requests = k :: ks) (recv : s'.recv = .parsing (.start (some k) errno))
      (inp : s'.conn.inp = s.conn.inp) (received : s'.log.received = s.log.received)
      (parses : s'.log.parses = s.log.parses) (out : SameOut s s') :
      Beat S s s' (.recvReady errno)
  | orphaned (errno : Int) (wait : s.recv = .waitRead) (queue : s.conn.requests = []) :
      Beat S s s' (.recvReady errno)
  | parses (rd : Option Read) (p : Parse) (pc : Pc) (q : Parser)
      (step : ParserStep s s' rd p q) (on : s.parseStep S p rd = .again ⟨pc, q, []⟩)
      (recv : s'.recv = .parsing (p.next pc q)) (parses : s'.log.parses = s.log.parses)
      (client : s'.client = s.client) : Beat S s s' (.recv rd)
  | ends (rd : Option Read) (p : Parse) (r : Res) (q : Parser)
      (step : ParserStep s s' rd p q) (ends : s.parseStep S p rd = .done (.returned r q []))
      (recv : r = .ok → s'.recv = .waitRead)
      (parses : s'.log.parses = s.log.parses ++ [Parsed.mk p.req r q.calls])
      (client : s'.client = (s.signalRecv p.req).client) : Beat S s s' (.recv rd)

section
variable {S : Setting} {s s' : Sys} {k : ReqId} {a : Act}

theorem Sys.held_eq {pc : ClientPc} (hsema : s.conn.reqfinSema = some k) (hk : s.client k = pc) :
    s.held = some (k, pc) := by
  unfold Sys.held
  rw [hsema, ← hk]
  rfl

theorem Sys.held_none (hsema : s.conn.reqfinSema = none) : s.held = none := by
  unfold Sys.held
  rw [hsema]
  rfl

theorem Holder.held_apart (h : Holder s) {pc : ClientPc} (hk : (s.client k).holds = false)
    (hclient : s'.client = Function.update s.client k pc)
    (hsema : s'.conn.reqfinSema = s.conn.reqfinSema) : s'.held = s.held := by
  unfold Sys.held
  rw [hsema, hclient]
  cases hs : s.conn.reqfinSema with
  | none => rfl
  | some j =>
      have hj : j ≠ k := by
        rintro rfl
        rw [(h j).mpr hs] at hk
        cases hk
      simp [Function.update_of_ne hj]

theorem Outgoing.append (h : Outgoing s) {bs : List OutByte}
    (hout : s'.conn.out = s.conn.out ++ bs) (hpos : s'.conn.outPos = s.conn.outPos)
    (hwire : s'.log.wire = s.log.wire) : s'.outgoing = s.outgoing ++ bs := by
  unfold Sys.outgoing Conn.unsent
  rw [hout, hpos, hwire, List.drop_append_of_le_length h.bound, List.append_assoc]

theorem Starts.turn (h : Starts S s k none s') (hsema : s.conn.reqfinSema = some k) :
    ∃ pc bs, s'.held = some (k, pc) ∧ s'.conn.out = s.conn.out ++ bs ∧
      bs ++ pc.todo S k = S.textOf k ∧ pc ≠ .woken := by
  cases h with
  | body =>
      exact ⟨_, _, Sys.held_eq hsema (Function.update_self ..), rfl, rfl, nofun⟩
  | plain hnone =>
      refine ⟨_, _, Sys.held_eq hsema (Function.update_self ..), rfl, ?_, nofun⟩
      have hbody : S.body k = none :=
        Option.isNone_iff_eq_none.mp (Option.isSome_eq_false_iff.mp hnone)
      show S.headOf k ++ [] = S.headOf k ++ tag k _ ((S.body k).getD [])
      rw [hbody]
      rfl

theorem Starts.sameIn {failed : Option Nat} (h : Starts S s k failed s') :
    s'.recv = s.recv ∧ s'.conn.inp = s.conn.inp ∧ s'.log.received = s.log.received ∧
      s'.log.parses = s.log.parses ∧ s'.log.acquired = s.log.acquired := by
  cases h <;> exact ⟨rfl, rfl, rfl, rfl, rfl⟩

theorem Closes.sameIn (h : Closes s k s') : SameIn s s' ∧ s'.log.acquired = s.log.acquired := by
  cases h <;> exact ⟨⟨.inl rfl, rfl, rfl, rfl⟩, rfl⟩

theorem Closes.turn (h : Closes s k s') (hsema : s.conn.reqfinSema = some k) :
    ∃ pc, s'.held = some (k, pc) ∧ pc.todo S k = S.textOf k ∧ pc ≠ .woken := by
  cases h with
  | joinSend => exact ⟨_, Sys.held_eq hsema (Function.update_self ..), rfl, nofun⟩
  | joinRecv => exact ⟨_, Sys.held_eq hsema (Function.update_self ..), rfl, nofun⟩
  | connect => exact ⟨_, Sys.held_eq hsema (Function.update_self ..), rfl, nofun⟩

theorem Outgoing.written (h : Outgoing s) {bs rest : List OutByte}
    (hs : s.send = .writing (bs ++ rest)) :
    (s.wrote bs).log.wire.map Prod.snd ++ rest = s.outgoing := by
  have hunsent : s.conn.unsent = bs ++ rest := (h.rest _ hs).1
  show (s.log.wire ++ onSocket s.conn.fd bs).map Prod.snd ++ rest = _
  unfold Sys.outgoing
  rw [List.map_append, onSocket_snd, hunsent, List.append_assoc]

/-- **What a calm step does**, if the process lives. -/
theorem Step.beat (hw : Wf s) (ho : Outgoing s) (hc : a.Calm) (h : Step S s a s')
    (halive : s'.crashed = false) : Beat S s s' a := by
  have held : ∀ {k : ReqId} {pc : ClientPc}, s.client k = pc → pc.holds = true →
      s.conn.reqfinSema = some k := fun hk hpc => (hw.holder _).mp (by rw [hk, hpc])
  have quiet : ∀ {s' : Sys}, s'.log.wire = s.log.wire → s'.conn.out = s.conn.out →
      s'.conn.outPos = s.conn.outPos → s'.outgoing = s.outgoing ++ [] := fun hwire hout hpos =>
    ho.append (by rw [hout, List.append_nil]) hpos hwire
  -- a call that goes on without appending anything
  have move : ∀ {s' : Sys} {k : ReqId} {pc pc' : ClientPc}, s.client k = pc → pc.holds = true →
      s'.held = some (k, pc') → pc'.todo S k = pc.todo S k → pc ≠ .woken ∧ pc' ≠ .woken →
      s'.log.acquired = s.log.acquired → s'.log.wire = s.log.wire →
      s'.conn.out = s.conn.out → s'.conn.outPos = s.conn.outPos → Turn S s s' :=
    fun hk hpc hheld htodo hne hacq hwire hout hpos =>
      .moves _ _ _ [] (Sys.held_eq (held hk hpc) hk) hheld hacq (quiet hwire hout hpos) htodo hne
  cases h with
  | call hk =>
      exact .turn (.stays ⟨hw.holder.held_apart (by rw [hk]; rfl) rfl rfl, rfl, rfl⟩)
        ⟨.inl rfl, rfl, rfl, rfl⟩
  | @acquire _ k failed hk hsema _ _ hst =>
      obtain rfl : failed = none := hc
      obtain ⟨pc, bs, hheld, hout, hbytes, hne⟩ := hst.turn rfl
      obtain ⟨hrecv, hinp, hreceived, hparses, hacq⟩ := hst.sameIn
      obtain ⟨_, _, hpos, hwire, _⟩ := hst.sends
      exact .turn (.takes k pc bs (Sys.held_none hsema) hheld hacq (ho.append hout hpos hwire)
        hbytes hne) ⟨.inl hrecv, hinp, hreceived, hparses⟩
  | @reconnect _ k _ hk hsema hcl =>
      obtain ⟨pc, hheld, hbytes, hne⟩ := hcl.turn (S := S) rfl
      obtain ⟨hin, hacq⟩ := hcl.sameIn
      obtain ⟨hout, hpos, hwire, _⟩ := hcl.sends
      exact .turn (.takes k pc [] (Sys.held_none hsema) hheld hacq (quiet hwire hout hpos) hbytes
        hne) ⟨hin.recv, hin.inp, hin.received, hin.parses⟩
  | @sendJoined _ k hk _ hcl =>
      obtain ⟨pc, hheld, hbytes, hne⟩ := hcl.turn (S := S) (held hk rfl)
      obtain ⟨hin, hacq⟩ := hcl.sameIn
      obtain ⟨hout, hpos, hwire, _⟩ := hcl.sends
      exact .turn (move hk rfl hheld hbytes ⟨nofun, hne⟩ hacq hwire hout hpos)
        ⟨hin.recv, hin.inp, hin.received, hin.parses⟩
  | @recvJoined k hk _ =>
      exact .turn (move hk rfl (Sys.held_eq (held hk rfl) (Function.update_self ..)) rfl
        ⟨nofun, nofun⟩ rfl rfl rfl rfl) ⟨.inl rfl, rfl, rfl, rfl⟩
  | @connected k hk =>
      exact .turn (move hk rfl (Sys.held_eq (held hk rfl) (Function.update_self ..)) rfl
        ⟨nofun, nofun⟩ rfl rfl rfl rfl) ⟨.inl rfl, rfl, rfl, rfl⟩
  | @sslStart k hk =>
      have hsema : (s.sslInit k).conn.reqfinSema = some k := by
        show s.conn.sslInit.reqfinSema = some k
        rw [Conn.sslInit_frame]
        exact held hk rfl
      have hinp : s.conn.sslInit.inp = s.conn.inp := by rw [Conn.sslInit_frame]
      exact .turn (move hk rfl (Sys.held_eq hsema (Function.update_self ..)) rfl ⟨nofun, nofun⟩
        rfl rfl s.conn.sslInit_out.1 s.conn.sslInit_out.2) ⟨.inl rfl, hinp, rfl, rfl⟩
  | @sslDone _ k failed hk hst =>
      obtain rfl : failed = none := hc
      obtain ⟨pc, bs, hheld, hout, hbytes, hne⟩ := hst.turn (held hk rfl)
      obtain ⟨hrecv, hinp, hreceived, hparses, hacq⟩ := hst.sameIn
      obtain ⟨_, _, hpos, hwire, _⟩ := hst.sends
      have hnone : s.recv = .none := hw.workers.noRecv k trivial (by rw [hk]; rfl)
      exact .turn (.moves k _ pc bs (Sys.held_eq (held hk rfl) hk) hheld hacq
        (ho.append hout hpos hwire) hbytes ⟨nofun, hne⟩)
        ⟨.inr ⟨hnone, hrecv⟩, hinp, hreceived, hparses⟩
  | @body k n rest hk =>
      exact .turn (.moves k _ _ (rest.take n) (Sys.held_eq (held hk rfl) hk)
        (Sys.held_eq (held hk rfl) (Function.update_self ..)) rfl (ho.append rfl rfl rfl)
        (List.take_append_drop n rest) ⟨nofun, nofun⟩) ⟨.inl rfl, rfl, rfl, rfl⟩
  | @bodyDone k rest hk =>
      exact .turn (.moves k _ _ rest (Sys.held_eq (held hk rfl) hk)
        (Sys.held_eq (held hk rfl) (Function.update_self ..)) rfl (ho.append rfl rfl rfl)
        (List.append_nil rest) ⟨nofun, nofun⟩) ⟨.inl rfl, rfl, rfl, rfl⟩
  | @wake k hk =>
      exact .turn (.leaves k (Sys.held_eq (held hk rfl) hk) (Sys.held_none rfl) rfl rfl)
        ⟨.inl rfl, rfl, rfl, rfl⟩
  | sendNothing _ hnil =>
      refine .turn (.stays ⟨rfl, rfl, ?_⟩) ⟨.inl rfl, rfl, rfl, rfl⟩
      unfold Sys.outgoing
      rw [hnil]
      rfl
  | sendStart => exact .turn (.stays ⟨rfl, rfl, rfl⟩) ⟨.inl rfl, rfl, rfl, rfl⟩
  | @sendSome n rest hs =>
      rw [← List.take_append_drop n rest] at hs
      refine .turn (.stays ⟨rfl, rfl, ?_⟩) ⟨.inl rfl, rfl, rfl, rfl⟩
      rw [← ho.written hs]
      exact congrArg ((s.wrote (rest.take n)).log.wire.map Prod.snd ++ ·) (ho.wrote hs).2.1
  | @sendLast rest hs =>
      have hall : s.send = .writing (rest ++ []) := by rw [List.append_nil]; exact hs
      exact .turn (.stays ⟨rfl, rfl, ho.written hall⟩) ⟨.inl rfl, rfl, rfl, rfl⟩
  | recvNull hr hq => exact .orphaned _ hr hq
  | recvFor hr hq => exact .begins _ _ _ hr hq rfl rfl rfl rfl ⟨rfl, rfl, rfl⟩
  | recvOn hr hrd hon => exact .parses _ _ _ _ ⟨hr, hrd, rfl, rfl, rfl, rfl, rfl⟩ hon rfl rfl rfl
  | recvOk hr hrd hend =>
      exact .ends _ _ _ _ ⟨hr, hrd, rfl, rfl, rfl, rfl, rfl⟩ hend (fun _ => rfl) rfl rfl
  | recvBad hr hrd hend hne =>
      exact .ends _ _ _ _ ⟨hr, hrd, rfl, rfl, rfl, rfl, rfl⟩ hend (fun h => absurd h hne) rfl rfl
  | recvDies => cases halive
  | recvCrash => cases halive
  | acquireFails => exact hc.elim
  | connectFails => exact hc.elim
  | sslFails => exact hc.elim
  | interrupt => exact hc.elim
  | sendExit => exact hc.elim
  | recvExit => exact hc.elim
  | gc => exact hc.elim

theorem Sys.current_le (s : Sys) : s.current.length ≤ 1 := by
  unfold Sys.current
  split
  · split
    · exact Nat.zero_le 1
    · exact Nat.le_refl 1
  · exact Nat.zero_le 1

theorem Turn.acquired_grows (h : Turn S s s') : s.log.acquired <+: s'.log.acquired := by
  cases h with
  | stays out => exact ⟨[], (List.append_nil _).trans out.acquired.symm⟩
  | takes k _ _ _ _ acquired => exact ⟨[k], acquired.symm⟩
  | moves _ _ _ _ _ _ acquired | leaves _ _ _ acquired =>
      exact ⟨[], (List.append_nil _).trans acquired.symm⟩

theorem Turn.bytes (h : Turn S s s')
    (hbytes : s.outgoing ++ s.todo S = s.log.acquired.flatMap S.textOf) :
    s'.outgoing ++ s'.todo S = s'.log.acquired.flatMap S.textOf := by
  unfold Sys.todo at hbytes ⊢
  cases h with
  | stays out =>
      rw [out.outgoing, out.held, out.acquired]
      exact hbytes
  | takes k pc bs free held acquired outgoing bytes =>
      rw [free, List.append_nil] at hbytes
      rw [outgoing, held, acquired, List.flatMap_append, List.flatMap_singleton, ← hbytes,
        List.append_assoc, bytes]
  | moves k pc pc' bs held held' acquired outgoing bytes =>
      rw [held] at hbytes
      rw [outgoing, held', acquired, ← hbytes, List.append_assoc, bytes]
  | leaves k held free acquired outgoing =>
      rw [held] at hbytes
      rw [outgoing, free, acquired]
      exact hbytes

theorem Turn.queue (h : Turn S s s') {answers : List (Option ReqId)}
    (hqueue : s.log.acquired.map some = answers ++ s.current.map some) :
    s'.log.acquired.map some = answers ++ s'.current.map some := by
  unfold Sys.current at hqueue ⊢
  cases h with
  | stays out =>
      rw [out.held, out.acquired]
      exact hqueue
  | takes k pc bs free held acquired _ _ unanswered =>
      rw [free] at hqueue
      simp only [held, acquired, List.map_append, hqueue, if_neg unanswered, List.map_nil,
        List.append_nil]
  | moves k pc pc' bs held held' acquired _ _ unanswered =>
      simp only [held, if_neg unanswered.1] at hqueue
      simp only [held', acquired, if_neg unanswered.2]
      exact hqueue
  | leaves k held free acquired =>
      rw [held] at hqueue
      rw [free, acquired]
      exact hqueue

theorem Step.wire_grows (hw : Wf s) (h : Step S s a s') : s.log.wire <+: s'.log.wire := by
  cases h.sends hw with
  | appends _ _ _ _ hwire | starts _ _ _ hwire | nothing _ _ _ hwire | exits _ _ hwire
  | collects _ _ _ hwire => exact ⟨[], (List.append_nil _).trans hwire.symm⟩
  | some _ _ _ _ _ _ _ hwire | last _ _ _ _ _ hwire =>
      rw [hwire]
      exact List.prefix_append _ _

/-! ## Calls that go on -/

theorem calm_update {pc : ClientPc} (hcalm : ∀ k res, s.client k = .done res → res = .ok)
    (hclient : s'.client = Function.update s.client k pc)
    (hpc : ∀ res, pc = .done res → res = .ok) : ∀ j res, s'.client j = .done res → res = .ok := by
  rw [hclient]
  exact (Function.forall_update_iff s.client fun _ pc' => ∀ res, pc' = .done res → res = .ok).mpr
    ⟨hpc, fun j _ => hcalm j⟩

theorem calm_signal {req : Option ReqId}
    (hcalm : ∀ k res, s.client k = .done res → res = .ok)
    (hclient : s'.client = (s.signalRecv req).client) :
    ∀ j res, s'.client j = .done res → res = .ok := by
  intro j res hj
  rw [hclient] at hj
  unfold Sys.signalRecv at hj
  dsimp only at hj
  split at hj
  · cases hj
  · exact hcalm j res hj

theorem Step.calm (h : Step S s a s') (hc : a.Calm)
    (hcalm : ∀ k res, s.client k = .done res → res = .ok) :
    ∀ k res, s'.client k = .done res → res = .ok := by
  cases h with
  | call => exact calm_update hcalm rfl nofun
  | @acquire _ _ failed _ _ _ _ hst =>
      obtain rfl : failed = none := hc
      cases hst <;> exact calm_update hcalm rfl nofun
  | reconnect _ _ hcl => cases hcl <;> exact calm_update hcalm rfl nofun
  | sendJoined _ _ hcl => cases hcl <;> exact calm_update hcalm rfl nofun
  | recvJoined => exact calm_update hcalm rfl nofun
  | connected => exact calm_update hcalm rfl nofun
  | sslStart => exact calm_update hcalm rfl nofun
  | @sslDone _ _ failed _ hst =>
      obtain rfl : failed = none := hc
      cases hst <;> exact calm_update hcalm rfl nofun
  | body => exact calm_update hcalm rfl nofun
  | bodyDone => exact calm_update hcalm rfl nofun
  | wake => exact calm_update hcalm rfl fun res hres => (ClientPc.done.inj hres).symm
  | recvOk => exact calm_signal hcalm rfl
  | recvBad => exact calm_signal hcalm rfl
  | acquireFails => exact hc.elim
  | connectFails => exact hc.elim
  | sslFails => exact hc.elim
  | interrupt => exact hc.elim
  | _ => exact hcalm

end

/-! ## The workers of a call -/

/-- The call has written to `conn->out`, and its response has not come. -/
def ClientPc.asks : ClientPc → Bool
  | .body _ | .subscribed => true
  | _ => false

/-- Both workers are there for the call that needs them, and the send worker has
been told of what stands in `conn->out`, or will be. -/
structure Driven (s : Sys) : Prop where
  worker : s.send = .none ∨ s.recv = .none → s.conn.unsent = [] ∧ ∀ k, (s.client k).asks = false
  told : s.send = .subscribed → s.conn.unsent = [] ∨ ∃ k rest, s.client k = .body rest

section
variable {S : Setting} {s s' : Sys} {k : ReqId} {a : Act}

theorem Driven.keep (h : Driven s) (hsend : s'.send = s.send)
    (hrecv : s'.recv = .none → s.recv = .none) (hunsent : s'.conn.unsent = s.conn.unsent)
    (hasks : ∀ k, (s.client k).asks = false → (s'.client k).asks = false)
    (hbody : ∀ k rest, s.client k = .body rest → s'.client k = .body rest) : Driven s' where
  worker hnone := by
    rw [hsend] at hnone
    obtain ⟨hnil, hclient⟩ := h.worker (hnone.imp_right hrecv)
    exact ⟨hunsent.trans hnil, fun k => hasks k (hclient k)⟩
  told hsub := by
    rw [hunsent]
    exact (h.told (hsend.symm.trans hsub)).imp_right fun ⟨k, rest, hk⟩ => ⟨k, rest, hbody k rest hk⟩

theorem Driven.update (h : Driven s) {pc : ClientPc} (hk : (s.client k).asks = false)
    (hpc : pc.asks = false) (hclient : s'.client = Function.update s.client k pc)
    (hsend : s'.send = s.send) (hrecv : s'.recv = .none → s.recv = .none)
    (hunsent : s'.conn.unsent = s.conn.unsent) : Driven s' := by
  refine h.keep hsend hrecv hunsent ?_ ?_
  · rw [hclient]
    exact (Function.forall_update_iff s.client fun j pc' =>
      (s.client j).asks = false → pc'.asks = false).mpr ⟨fun _ => hpc, fun _ _ hj => hj⟩
  · intro j rest hj
    have hne : j ≠ k := by
      rintro rfl
      rw [hj] at hk
      cases hk
    rw [hclient, Function.update_of_ne hne]
    exact hj

theorem Driven.writes (h : Driven s) (hrecv : s'.recv = s.recv) (hclient : s'.client = s.client)
    (hsend : s'.send ≠ .none) (hnil : s.conn.unsent = [] → s'.conn.unsent = [])
    (htold : s'.send = .subscribed → s'.conn.unsent = []) : Driven s' where
  worker hnone := by
    have hnone := hnone.resolve_left hsend
    rw [hrecv] at hnone
    obtain ⟨hunsent, hasks⟩ := h.worker (.inr hnone)
    rw [hclient]
    exact ⟨hnil hunsent, hasks⟩
  told hsub := .inl (htold hsub)

theorem Driven.signal (h : Driven s) {req : Option ReqId}
    (hclient : s'.client = (s.signalRecv req).client) (hsend : s'.send = s.send)
    (hrecv : s'.recv = .none → s.recv = .none) (hunsent : s'.conn.unsent = s.conn.unsent) :
    Driven s' := by
  refine h.keep hsend hrecv hunsent (fun k hk => ?_) fun k rest hk => ?_
  · rw [hclient]
    unfold Sys.signalRecv
    dsimp only
    split
    · rfl
    · exact hk
  · rw [hclient]
    refine (if_neg ?_).trans hk
    rintro ⟨_, hsub⟩
    cases hk.symm.trans hsub

/-- The workers are there, and the send worker is not waiting; or it waits, and
a call is in `out_body_cb`. -/
theorem Driven.of_workers (hsend : s'.send ≠ .none) (hrecv : s'.recv ≠ .none)
    (htold : s'.send ≠ .subscribed ∨ ∃ k rest, s'.client k = .body rest) : Driven s' where
  worker hnone := absurd hnone (not_or.mpr ⟨hsend, hrecv⟩)
  told hsub := .inr (htold.resolve_left (absurd hsub))

theorem SendPc.signalled_ne (pc : SendPc) : pc.signalled ≠ .subscribed := by
  cases pc <;> exact nofun

theorem Starts.driven (h : Starts S s k none s') (hsend : s.send ≠ .none) (hrecv : s.recv ≠ .none) :
    Driven s' := by
  cases h with
  | body =>
      exact .of_workers hsend hrecv (.inr ⟨k, _, Function.update_self ..⟩)
  | plain =>
      exact .of_workers (mt SendPc.signalled_eq_none.mp hsend) hrecv (.inl s.send.signalled_ne)

theorem Closes.driven (h : Closes s k s') (hd : Driven s) (hk : (s.client k).asks = false) :
    Driven s' := by
  cases h with
  | joinSend => exact hd.update hk rfl rfl rfl id rfl
  | joinRecv => exact hd.update hk rfl rfl rfl id rfl
  | connect => exact hd.update hk rfl rfl rfl id rfl

theorem Driven.step (h : Driven s) (hw : Wf s) (hc : a.Calm) (hs : Step S s a s')
    (hrecv : s'.recv = .none → s.recv = .none) : Driven s' := by
  -- a call that has appended something has both workers
  have there : ∀ {k : ReqId} {rest : List OutByte}, s.client k = .body rest →
      s.send ≠ .none ∧ s.recv ≠ .none := fun {k rest} hk => by
    refine not_or.mp fun hnone => ?_
    have := (h.worker hnone).2 k
    rw [hk] at this
    cases this
  cases hs with
  | call hk => exact h.update (by rw [hk]; rfl) rfl rfl rfl id rfl
  | @acquire _ k failed hk _ hsend hrecv hst =>
      obtain rfl : failed = none := hc
      exact hst.driven (hw.workers.send.mp hsend) (hw.workers.recv.mp hrecv)
  | @reconnect _ k _ hk _ hcl =>
      have hd : Driven (s.hold k) := h.keep rfl id rfl (fun _ => id) fun _ _ => id
      exact hcl.driven hd (show (s.client k).asks = false by rw [hk]; rfl)
  | @sendJoined _ k hk hsend hcl =>
      have hd : Driven s.clearSend := h.keep rfl id rfl (fun _ => id) fun _ _ => id
      exact hcl.driven hd (show (s.client k).asks = false by rw [hk]; rfl)
  | recvJoined hk => exact h.update (by rw [hk]; rfl) rfl rfl rfl id rfl
  | connected hk => exact h.update (by rw [hk]; rfl) rfl rfl rfl id rfl
  | @sslStart k hk =>
      refine h.update (by rw [hk]; rfl) rfl rfl rfl id ?_
      show s.conn.sslInit.unsent = s.conn.unsent
      unfold Conn.unsent
      rw [s.conn.sslInit_out.1, s.conn.sslInit_out.2]
  | @sslDone _ k failed _ hst =>
      obtain rfl : failed = none := hc
      exact hst.driven nofun nofun
  | @body k n rest hk =>
      exact .of_workers (there hk).1 (there hk).2 (.inr ⟨k, _, Function.update_self ..⟩)
  | bodyDone hk =>
      exact .of_workers (mt SendPc.signalled_eq_none.mp (there hk).1) (there hk).2
        (.inl s.send.signalled_ne)
  | wake hk => exact h.update (by rw [hk]; rfl) rfl rfl rfl id rfl
  | sendNothing => exact h.writes rfl rfl nofun (fun _ => rfl) fun _ => rfl
  | sendStart => exact h.writes rfl rfl nofun id nofun
  | @sendSome n rest =>
      refine h.writes rfl rfl nofun (fun hnil => ?_) nofun
      have hend : s.conn.out.length ≤ s.conn.outPos := List.drop_eq_nil_iff.mp hnil
      exact List.drop_eq_nil_iff.mpr (Nat.le_add_right_of_le hend)
  | sendLast => exact h.writes rfl rfl nofun (fun _ => rfl) fun _ => rfl
  | recvOk => exact h.signal rfl rfl hrecv rfl
  | recvBad => exact h.signal rfl rfl hrecv rfl
  | acquireFails => exact hc.elim
  | connectFails => exact hc.elim
  | sslFails => exact hc.elim
  | interrupt => exact hc.elim
  | sendExit => exact hc.elim
  | recvExit => exact hc.elim
  | gc => exact hc.elim
  | _ => exact h.keep rfl hrecv rfl (fun _ => id) fun _ _ => id

end

end MnHttpc
