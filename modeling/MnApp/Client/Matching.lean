/-
# `MnApp.Client.Matching` — requests and responses match

What `MnApp.Client.Responses` keeps, read off in every state of a run
(`Matched`):

* at most one request is queued or being answered;
* what is written are whole requests, in the order of the semaphore;
* the `n`-th response was parsed into the `n`-th request of that order, and its
  call returns 0;
* nothing is stuck: what stands in `conn->out` is going to be written, and a
  parse whose response has come ends.

It holds in every run in which nothing fails, the server keeps to the order, and
no step is one of the five that `Spared` excludes (`responses_matched`).  Without
that condition it does not (`responses_mismatched`): there is a run for each of
the five.
-/
import MnApp.Client.Responses

namespace MnHttpc

open MnHttp Run Loop

/-! ## The workers go on -/

section
variable {S : Setting} {s s' : Sys} {k : ReqId} {p : Parse} {rd : Option Read}

/-- Whatever the next read brings, the receive worker takes it. -/
def TakesReads (S : Setting) (s : Sys) : Prop :=
  ∀ bs slack : List UInt8, bs ≠ [] → (step S s (.recv (some (.bytes bs slack)))).isSome = true

theorem readOk_none : ReadOk none := trivial

theorem step_recv_again (halive : s.crashed = false) (hr : s.recv = .parsing p)
    (hrd : ReadOk rd) {pc : Pc} {q : Parser} (h : s.parseStep S p rd = .again ⟨pc, q, []⟩)
    (hlives : headerDies p.req q.calls = false) :
    step S s (.recv rd) = some ((s.noteRead p.req (bytesOf rd)).parseOn p pc q) := by
  simp [step, halive, act, Sys.stepRecv, hr, hrd, h, hlives]

theorem step_recv_ok (halive : s.crashed = false) (hr : s.recv = .parsing p)
    (hrd : ReadOk rd) {q : Parser} (h : s.parseStep S p rd = .done (.returned .ok q []))
    (hlives : headerDies p.req q.calls = false) :
    step S s (.recv rd) = some ((s.noteRead p.req (bytesOf rd)).parsed p .ok q).waitRead := by
  simp [step, halive, act, Sys.stepRecv, hr, hrd, h, hlives]

theorem recv_alone {t : LoopState} {out : Outcome}
    (hret : Returns (loopStep S.pf parseStatusLine (S.callbacks (some k))) t out)
    (hvalued : ∀ c ∈ out.par.calls, c.kind = .header → 0 ≤ c.ctx.currentHeaderValue.start)
    (hok : ∀ r q reads, out = .returned r q reads → r = .ok) :
    ∀ (s : Sys) (p : Parse), s.crashed = false → s.recv = .parsing p → p.req = some k →
      p.loop s.conn.inp [] = t → ∃ m u, exec (step S) s (List.replicate m (.recv none)) = some u ∧
        (u.log.parses.length = s.log.parses.length + 1 ∨
          (∃ q, out = .blocked q) ∧ TakesReads S u) := by
  have hlives : ∀ calls, calls <+: out.par.calls → headerDies (some k) calls = false :=
    fun _ hcalls => headerDies_some (inHeaders_valued fun c hc => hvalued c (hcalls.subset hc))
  refine Returns.rec_run (P := fun t => ∀ (s : Sys) (p : Parse), s.crashed = false →
    s.recv = .parsing p → p.req = some k → p.loop s.conn.inp [] = t →
    ∃ m u, exec (step S) s (List.replicate m (.recv none)) = some u ∧
      (u.log.parses.length = s.log.parses.length + 1 ∨
        (∃ q, out = .blocked q) ∧ TakesReads S u)) ?_ ?_ hret
  · rintro t hdone s p halive hr hk rfl
    have hstep : s.parseStep S p none = .done out := by
      rw [← hdone, Sys.parseStep, hk]
      rfl
    obtain ⟨req, pc, ctx, errno, calls⟩ := p
    cases (hk : req = some k)
    cases loopStep_done_iff.mp hdone with
    | blocked more =>
        refine ⟨0, s, rfl, .inr ⟨⟨_, rfl⟩, fun bs slack hbs => ?_⟩⟩
        have hread : s.parseStep S ⟨some k, .top, ctx, errno, calls⟩ (some (.bytes bs slack)) =
            .again ⟨.dispatch, ⟨ctx, s.conn.inp.consume bs slack, errno, calls⟩, []⟩ :=
          loopStep_again_iff.mpr (.read more)
        have hrd : ReadOk (some (.bytes bs slack)) := hbs
        rw [step_recv_again halive hr hrd hread (hlives _ (List.prefix_refl _))]
        rfl
    | ret ret =>
        cases hok _ _ _ rfl
        refine ⟨1, _, Option.bind_eq_some_iff.mpr
          ⟨_, step_recv_ok halive hr readOk_none hstep (hlives _ (List.prefix_refl _)), rfl⟩,
          .inl ?_⟩
        exact List.length_append
  · rintro t t' hagain hret' ih s p halive hr hk rfl
    have hcalls := returns_calls (l := .status .ok) hret'
    have hstep : s.parseStep S p none = .again t' := by
      rw [← hagain, Sys.parseStep, hk]
      rfl
    obtain ⟨pc, q, reads⟩ := t'
    obtain rfl : reads = [] := by
      obtain ⟨req, pc, ctx, errno, calls⟩ := p
      cases loopStep_again_iff.mp hagain with
      | look lt => rfl
      | pass again => rfl
    have hs := step_recv_again halive hr readOk_none hstep (by rw [hk]; exact hlives _ hcalls)
    obtain ⟨m, u, hexec, hu⟩ :=
      ih ((s.noteRead p.req []).parseOn p pc q) (p.next pc q) halive rfl hk rfl
    exact ⟨m + 1, u, Option.bind_eq_some_iff.mpr ⟨_, hs, hexec⟩, hu⟩

end

/-! ## Every run -/

section
variable {S : Setting} (E : Exchange S)

/-- The call for `k` has returned 0, or does so when it runs. -/
def ReturnsOk (S : Setting) (s : Sys) (k : ReqId) : Prop :=
  s.client k = .done .ok ∨ ∃ t, step S s (.wake k) = some t ∧ t.client k = .done .ok

/-- What stands in `conn->out` is going to be written: by the send worker, now,
or when `out_body_cb` has returned. -/
def Writes (S : Setting) (s : Sys) : Prop :=
  (step S s .sendRun).isSome = true ∨ (step S s (.sendWrite s.conn.unsent.length)).isSome = true ∨
    ∃ k, (step S s (.bodyDone k)).isSome = true

/-- The receive worker is there for the request: it waits for the response, or it
parses it.  By itself it comes to the end of the parse, if the response has come,
or to wait for the next read. -/
def Receives (s : Sys) (k : ReqId) : Prop :=
  (s.recv = .waitRead ∧ s.conn.requests = [k]) ∨
    ∃ m t, exec (step S) s (List.replicate m (.recv none)) = some t ∧
      (t.log.parses.length = s.log.parses.length + 1 ∨
        s.log.received ≠ E.stream (s.log.parses.length + 1) ∧ TakesReads S t)

/-- Requests and responses match: at most one request is queued or being
answered; what is written are whole requests in the order of the semaphore; the
`n`-th response was parsed into the `n`-th request of that order, and its call
returns 0.  And nothing is stuck. -/
structure Matched (s : Sys) : Prop where
  alive : s.crashed = false
  single : (s.recv.reqs ++ s.conn.requests).length ≤ 1
  order : s.outgoing ++ s.todo S = s.log.acquired.flatMap S.textOf
  whole : s.Asked S s.log.parses.length
  answers : ∀ n x, s.log.parses[n]? = some x → ∃ k, s.log.acquired[n]? = some k ∧
    AnsweredBy E n x k ∧ ReturnsOk S s k
  returned : ∀ k res, s.client k = .done res → res = .ok
  writes : s.conn.unsent ≠ [] → Writes S s
  receives : ∀ k, s.client k = .subscribed → Receives E s k

variable {E} {s : Sys} {k : ReqId}

theorem inv_init (scheme : Scheme) : Inv E (.init scheme) where
  wf := wf_init scheme
  alive := rfl
  calm _ _ h := by cases h
  out := outgoing_init scheme
  driven := ⟨fun _ => ⟨rfl, fun _ => rfl⟩, nofun⟩
  bytes := rfl
  queue := rfl
  asked n hn := absurd hn (Nat.not_lt_zero _)
  answers n x hx := by cases hx
  input := ⟨[], rfl, Nat.zero_le 2, rfl⟩
  taken _ h := by cases h

theorem Inv.returnsOk (h : Inv E s) (hk : k ∈ s.answered) : ReturnsOk S s k := by
  have hserved := h.wf.served
  have henq : (s.client k).enqueued = true := (hserved.enqueued k).mp
    (List.mem_append_left _ (List.mem_append_left _ hk))
  cases hpc : s.client k with
  | subscribed =>
      have hnodup := hserved.nodup
      rw [List.append_assoc] at hnodup
      exact absurd rfl ((List.nodup_append.mp hnodup).2.2 k hk k (hserved.waiting k hpc))
  | woken =>
      exact .inr ⟨_, woken_returns h.alive hpc, Function.update_self ..⟩
  | done res =>
      cases h.calm k res hpc
      exact .inl hpc
  | idle | acquire | joinSend | joinRecv | connect | joinSsl | body =>
      rw [hpc] at henq
      cases henq

theorem Inv.writes (h : Inv E s) (hne : s.conn.unsent ≠ []) : Writes S s := by
  have halive := h.alive
  cases hsend : s.send with
  | none => exact absurd (h.driven.worker (.inl hsend)).1 hne
  | spawned => exact .inl (by simp [MnHttpc.step, halive, act, guarded, hsend])
  | woken => exact .inl (by simp [MnHttpc.step, halive, act, guarded, hsend])
  | writing rest =>
      obtain ⟨hunsent, hrest⟩ := h.out.rest rest hsend
      rw [Writes, hunsent, step_sendWrite halive hsend hrest]
      exact .inr (.inl rfl)
  | subscribed =>
      obtain ⟨k, rest, hk⟩ := (h.driven.told hsend).resolve_left hne
      exact .inr (.inr ⟨k, by simp [MnHttpc.step, halive, act, hk]⟩)

theorem Inv.receives (h : Inv E s) (hk : s.client k = .subscribed) : Receives E s k := by
  have hmem := h.wf.served.waiting k hk
  cases hrecv : s.recv with
  | none =>
      have hasks := (h.driven.worker (.inr hrecv)).2 k
      rw [hk] at hasks
      cases hasks
  | waitRead =>
      have hsingle := h.single
      rw [hrecv] at hmem hsingle
      obtain ⟨j, hj⟩ : ∃ j, s.conn.requests = [j] :=
        List.length_eq_one_iff.mp (Nat.le_antisymm hsingle (List.length_pos_of_mem hmem))
      have hkj : k ∈ [j] := hj ▸ hmem
      rw [← List.mem_singleton.mp hkj] at hj
      exact .inl ⟨hrecv, hj⟩
  | parsing p =>
      obtain ⟨j, hj, errno, inp₀, before, late, rs, hr⟩ := h.reading hrecv
      obtain ⟨out, hret, hvalued, hok, hall⟩ := hr.settles
      rw [hj] at hret
      obtain ⟨m, t, hexec, hend | ⟨⟨q, rfl⟩, htakes⟩⟩ :=
        recv_alone hret hvalued hok s p h.alive hrecv hj rfl
      · exact .inr ⟨m, t, hexec, .inl hend⟩
      · refine .inr ⟨m, t, hexec, .inr ⟨fun hwhole => ?_, htakes⟩⟩
        obtain ⟨_, _, hreturned⟩ := hall hwhole
        cases hreturned

/-- **What the invariant says.** -/
theorem Inv.matched (h : Inv E s) : Matched E s where
  alive := h.alive
  single := h.single
  order := h.bytes
  whole := h.whole
  answers n x hx := by
    obtain ⟨k, hk⟩ := h.answers n x hx
    have hmem : k ∈ s.answered := mem_answered.mpr ⟨x, List.mem_of_getElem? hx, hk.req⟩
    refine ⟨k, ?_, hk, h.returnsOk hmem⟩
    have hget : (s.log.acquired.map some)[n]? = some (some k) := by
      rw [h.queue, List.getElem?_append_left (by
        rw [List.length_map]
        exact (List.getElem?_eq_some_iff.mp hx).1), List.getElem?_map, hx, Option.map_some, hk.req]
    simpa using hget
  returned := h.calm
  writes := h.writes
  receives _ := h.receives

end

/-- **Requests and responses match**, in every run in which nothing fails, the
server keeps to the order, and no step is one of the five kinds that `Spared`
excludes. -/
theorem responses_matched (S : Setting) (E : Exchange S) (scheme : Scheme) (as : List Act)
    (h : Meets (step S) (fun s a => Provided E s a ∧ Spared E s a) (.init scheme) as) :
    Along (step S) (Matched E) (.init scheme) as :=
  along_of_meets (fun _ _ _ hinv hC hs => hinv.step hC.1 hC.2 hs) (fun _ => Inv.matched)
    (inv_init scheme) h

/-! ## Runs -/

instance decidableCalm : (a : Act) → Decidable a.Calm
  | .acquire _ failed | .sslDone _ failed => inferInstanceAs (Decidable (failed = none))
  | .recv none | .recv (some (.bytes _ _)) => isTrue trivial
  | .recv (some (.fail _)) => isFalse id
  | .acquireFails _ | .connectFails _ | .sslFails _ | .interrupt _ | .sendExit | .recvExit
  | .gc => isFalse id
  | .call _ | .sendJoined _ | .recvJoined _ | .connected _ | .sslStart _ | .body _ _ | .bodyDone _
  | .wake _ | .sendRun | .sendWrite _ | .recvReady _ => isTrue trivial

section
variable {S : Setting} (E : Exchange S) (s : Sys)

instance decidableFed : (a : Act) → Decidable (Fed E s a)
  | .recvReady _ => inferInstanceAs (Decidable (∃ m, m ≤ s.log.acquired.length ∧ s.Asked S m ∧
      s.log.received.length < (E.stream m).length))
  | .recv (some (.bytes bs _)) => inferInstanceAs (Decidable (bs.length ≤ E.R ∧
      ∃ m, m ≤ s.log.acquired.length ∧ s.Asked S m ∧ s.log.received ++ bs <+: E.stream m))
  | .recv none | .recv (some (.fail _)) | .call _ | .acquire _ _ | .acquireFails _ | .sendJoined _
  | .recvJoined _ | .connected _ | .connectFails _ | .sslStart _ | .sslDone _ _ | .sslFails _
  | .body _ _ | .bodyDone _ | .wake _ | .interrupt _ | .sendRun | .sendWrite _ | .sendExit
  | .recvExit | .gc => isTrue trivial

instance decidableProvided (a : Act) : Decidable (Provided E s a) :=
  inferInstanceAs (Decidable (_ ∧ _))

instance decidableSpared : (a : Act) → Decidable (Spared E s a)
  | .body k n => inferInstanceAs (Decidable (LeavesOut S s (.body k n)))
  | .bodyDone k => inferInstanceAs (Decidable (LeavesOut S s (.bodyDone k)))
  | .recvReady _ => inferInstanceAs (Decidable ((∀ k ∈ s.conn.reqfinSema, s.client k ≠ .body []) ∧
      (s.log.received = E.stream s.log.parses.length ∨ s.conn.requests ≠ []) ∧
      (E.reply s.log.parses.length).Valued))
  | .recv (some (.bytes bs _)) => inferInstanceAs (Decidable (s.log.received.length + bs.length ≠
      (E.stream s.log.parses.length).length + (E.reply s.log.parses.length).head.length + 1))
  | .recv none | .recv (some (.fail _)) | .call _ | .acquire _ _ | .acquireFails _ | .sendJoined _
  | .recvJoined _ | .connected _ | .connectFails _ | .sslStart _ | .sslDone _ _ | .sslFails _
  | .wake _ | .interrupt _ | .sendRun | .sendWrite _ | .sendExit | .recvExit | .gc => isTrue trivial

end

/-- Nobody asks for the bodies. -/
def Setting.Unheard (S : Setting) : Prop := ∀ k, S.inBodyCb k = none

theorem Setting.Unheard.accepts {S : Setting} (h : S.Unheard) (k : ReqId) (f : Callback)
    (hf : S.inBodyCb k = some f) (cs : List Call) (c : Ctx) (s : Stream) : f cs c s = 0 := by
  rw [h k] at hf
  cases hf

theorem small_unheard : Setting.small.Unheard := fun _ => rfl

/-- Two calls, one after the other. -/
def twoExchanges : List Act :=
  firstCall ++ [.sendRun, .sendWrite 1] ++ reading (.bytes xyzBytes []) 19 ++
    [.wake 0, .call 1, .acquire 1 none, .sendRun, .sendWrite 1] ++
    reading (.bytes xyzBytes []) 19 ++ [.wake 1]

theorem responses_matched_twice : ∃ t, exec (step .small) (.init .http) twoExchanges = some t ∧
    t.client 1 = .done .ok ∧
    Along (step .small) (Matched (.xyz .small small_unheard.accepts)) (.init .http)
      twoExchanges := by
  have hrun : (exec (step .small) (.init .http) twoExchanges).map (fun t => t.client 1) =
      some (.done .ok) := by decide +kernel
  obtain ⟨t, ht, hclient⟩ := Option.map_eq_some_iff.mp hrun
  exact ⟨t, ht, hclient, responses_matched _ _ _ _ (by decide +kernel)⟩

/-- Nothing fails in the run and the server keeps to the order, and yet requests
and responses do not match. -/
def Mismatched {S : Setting} (E : Exchange S) (as : List Act) : Prop :=
  Meets (step S) (Provided E) (.init .http) as ∧ ¬ Along (step S) (Matched E) (.init .http) as

/-- Requests of one byte, with a body of one byte. -/
def Setting.posting : Setting := { Setting.small with body := fun _ => some [CLib.NUL] }

theorem posting_unheard : Setting.posting.Unheard := fun _ => rfl

/-- The last LF of response 0 comes when its call has returned, and before the
next call. -/
def lateEnd : List Act :=
  firstCall ++ [.sendRun, .sendWrite 1] ++ reading (.bytes xyzBytes.dropLast []) 19 ++ [.wake 0] ++
    reading (.bytes [CLib.LF] []) 1 ++
    [.call 1, .acquire 1 none, .sendRun, .sendWrite 1, .recv (some (.bytes xyzBytes []))] ++
    List.replicate 5 (.recv none)

/-- A read ends inside the empty line of response 0. -/
def cutBlank : List Act :=
  firstCall ++ [.sendRun, .sendWrite 1] ++ reading (.bytes (xyzBytes.take 46) []) 11 ++
    [.recv (some (.bytes (xyzBytes.drop 46) []))] ++ List.replicate 3 (.recv none) ++
    [.wake 0, .call 1, .acquire 1 none, .sendRun, .sendWrite 1, .recvReady 0] ++
    List.replicate 4 (.recv none)

/-- `out_body_cb` appends while the send worker writes the head. -/
def lostBody : List Act := firstCall ++ [.sendRun, .body 0 1, .sendWrite 1]

/-- The send worker has written everything, and the response comes, before
`out_body_cb` returns. -/
def earlyAnswer : List Act :=
  firstCall ++ [.body 0 1, .sendRun, .sendWrite 2] ++ reading (.bytes xyzBytes []) 7

/-- Every response has a header without a value. -/
def Exchange.valueless (S : Setting)
    (accepts : ∀ k f, S.inBodyCb k = some f → ∀ cs c s, f cs c s = 0) : Exchange S where
  R := 48
  reply _ := ⟨.ok, [.bare (CLib.ascii "X") [], .header .lengthOne], .length (CLib.ascii "A")⟩
  two_le := by decide
  sent _ :=
    { head := ⟨by decide, by decide⟩
      framed := hasLength_lengthOne
      total := fun _ h => by cases h }
  accepts := accepts

def noValue : List Act :=
  firstCall ++ [.sendRun, .sendWrite 1] ++
    reading (.bytes (CLib.ascii "HTTP/1.1 200 OK\r\nX:\r\nContent-Length: 1\r\n\r\nA") []) 7

theorem mismatched_of {S : Setting} {E : Exchange S} {as : List Act} {β : Type} (f : Sys → β)
    {b : β} (hmeets : Meets (step S) (Provided E) (.init .http) as)
    (hrun : (exec (step S) (.init .http) as).map f = some b)
    (hbad : ∀ t, f t = b → ¬ Matched E t) : Mismatched E as := by
  obtain ⟨t, ht, hobs⟩ := Option.map_eq_some_iff.mp hrun
  exact ⟨hmeets, fun halong => hbad t hobs (halong.last ht)⟩

/-- **The process dies on response 1; response 1 is refused; half of a request is
never written; the process dies on response 0, with NULL for its request or for a
value.** -/
theorem responses_mismatched :
    Mismatched (.xyz .small small_unheard.accepts) lateEnd ∧
      Mismatched (.xyz .small small_unheard.accepts) cutBlank ∧
      Mismatched (.xyz .posting posting_unheard.accepts) lostBody ∧
      Mismatched (.xyz .posting posting_unheard.accepts) earlyAnswer ∧
      Mismatched (.valueless .small small_unheard.accepts) noValue := by
  refine ⟨?_, ?_, ?_, ?_, ?_⟩
  · refine mismatched_of Sys.crashed (b := true) (by decide +kernel) (by decide +kernel) ?_
    exact fun t ht h => by cases ht.symm.trans h.alive
  · refine mismatched_of (fun t => t.log.parses.map Parsed.res)
      (b := [.ok, .diag .httpParseMessage 2]) (by decide +kernel) (by decide +kernel) ?_
    intro t ht h
    have hget := congrArg (fun rs => rs[1]?) ht
    simp only [List.getElem?_map] at hget
    obtain ⟨x, hx, hres⟩ := Option.map_eq_some_iff.mp hget
    obtain ⟨k, -, hk, -⟩ := h.answers 1 x hx
    cases hres.symm.trans hk.res
  · refine mismatched_of (fun t => (t.outgoing ++ t.todo .posting, t.log.acquired))
      (b := (Setting.posting.headOf 0, [0])) (by decide +kernel) (by decide +kernel) ?_
    intro t ht h
    obtain ⟨hout, hacq⟩ := Prod.mk.inj ht
    have horder := h.order
    rw [hout, hacq] at horder
    exact absurd horder (by decide)
  · refine mismatched_of Sys.crashed (b := true) (by decide +kernel) (by decide +kernel) ?_
    exact fun t ht h => by cases ht.symm.trans h.alive
  · refine mismatched_of Sys.crashed (b := true) (by decide +kernel) (by decide +kernel) ?_
    exact fun t ht h => by cases ht.symm.trans h.alive

end MnHttpc
