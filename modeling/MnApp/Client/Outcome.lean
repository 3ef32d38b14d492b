/-
# `MnApp.Client.Outcome` — what it means that `mnhttpc_request_finalize` returns 0

The return value of `mnhttpc_request_finalize` is that of
`mnthr_signal_subscribe(&req->recv_signal)`: 0 when the receive worker has
signalled.  The receive worker signals whatever `http_parse_response`
returned, and keeps that result to itself.

So a call that returns 0 says no more than that some parse for its request has
ended.  It says that the whole response was delivered (`Truthful`) in the runs in
which the peer, the caller of `mnhttpc_connection_gc` and `in_body_cb` leave the
parser no other way to end (`Regular`, and `Exchange.accepts`):

| what is asked                                            | because otherwise      |
| -------------------------------------------------------- | ---------------------- |
| no read fails inside a response, or while a call waits   | the parse fails        |
| what is read are responses that announce their body      | the parse fails        |
| no read ends between CR and LF of the empty line         | the body is misread    |
| `in_body_cb` accepts what it is given                    | the parse fails        |
| every header has a value                                 | the process dies       |
| the stream is not reset inside a response                | the rest is misread    |

Whatever else happens, to the threads or to the connection, is allowed
(`finalize_truthful`).  The first, third and fourth line are not idle
(`finalize_not_truthful`).
-/
import MnApp.Client.Ownership
import MnApp.Client.Replies

namespace MnHttpc

open MnHttp Run

/-- The parses that returned 0. -/
def Sys.whole (s : Sys) : List Parsed := s.log.parses.filter fun x => x.res = .ok

section
variable {S : Setting} (E : Exchange S)

/-- A call has returned 0 only if `http_parse_response` has for its request, and
delivered a response of the server: the `n`-th, if that was its `n`-th success. -/
def Truthful (s : Sys) : Prop := ∀ k, s.client k = .done .ok →
  (∃ n x, s.whole[n]? = some x ∧ AnsweredBy E n x k) ∧
    ∀ x ∈ s.log.parses, x.req = some k → x.res = .ok

/-- The peer sends the responses of `E`, on one connection after the other, in reads
of which none ends inside an empty line.  It closes and fails between two of them
only, and not on a call that waits.  The stream is reset between two of them
only. -/
def Regular (s : Sys) : Act → Prop
  | .recvReady _ => (E.reply s.whole.length).Valued
  | .recv (some (.bytes bs _)) => bs.length ≤ E.R ∧
      s.log.received ++ bs <+: E.stream (s.whole.length + 1) ∧
      s.log.received.length + bs.length ≠
        (E.stream s.whole.length).length + (E.reply s.whole.length).head.length + 1
  | .recv (some (.fail _)) => s.log.received = E.stream s.whole.length ∧
      ∀ k ∈ s.recv.reqs, s.client k ≠ .subscribed
  | .gc => s.log.received = E.stream s.whole.length ∧ s.recv.idle = true
  | _ => True

end

section
variable {S : Setting} {s s' : Sys} {k : ReqId}

/-! ## Steps -/

theorem Starts.parses {failed : Option Nat} (h : Starts S s k failed s') :
    s'.log.parses = s.log.parses := by
  cases h <;> rfl

theorem Closes.parses (h : Closes s k s') : s'.log.parses = s.log.parses := by
  cases h <;> rfl

theorem Step.parses {a : Act} (hs : Step S s a s') :
    s'.log.parses = s.log.parses ∨ ∃ rd p r q, a = .recv rd ∧ EndsParse S s s' rd p r q := by
  cases hs with
  | acquire _ _ _ _ hst => exact .inl (Starts.parses (s := s.hold _) hst)
  | reconnect _ _ hcl => exact .inl (Closes.parses (s := s.hold _) hcl)
  | sendJoined _ _ hcl => exact .inl (Closes.parses (s := s.clearSend) hcl)
  | sslDone _ hst => exact .inl (Starts.parses (s := s.spawn) hst)
  | recvOk hr hrd hend hlives =>
      exact .inr ⟨_, _, _, _, rfl, hr, hrd, hend, nofun, hlives, rfl, rfl⟩
  | recvBad hr hrd hend _ hcrash hlives =>
      exact .inr ⟨_, _, _, _, rfl, hr, hrd, hend, hcrash, hlives, rfl, rfl⟩
  | _ => exact .inl rfl

theorem mem_answered : k ∈ s.answered ↔ ∃ x ∈ s.log.parses, x.req = some k :=
  List.mem_filterMap

theorem Wf.parsing_new (h : Wf s) {p : Parse} (hr : s.recv = .parsing p) (hk : p.req = some k) :
    k ∉ s.answered := by
  have hnodup := h.served.nodup
  rw [hr, List.append_assoc] at hnodup
  intro hm
  exact (List.nodup_append.mp hnodup).2.2 k hm k
    (List.mem_append_left _ (Option.mem_toList.mpr hk)) rfl

/-- A call that was woken returns 0 when it runs. -/
theorem woken_returns (hc : s.crashed = false) (h : s.client k = .woken) :
    step S s (.wake k) = some (s.release k .ok) := by
  unfold step
  rw [if_neg (by rw [hc]; nofun)]
  exact if_pos h

/-! ## The end of a parse -/

section
variable {E : Exchange S} {n : Nat} {p : Parse} {inp inp₀ : Stream} {received : List UInt8}
variable {errno : Int} {before late : List UInt8} {rs : List Read} {q : Parser} {r : Res}

theorem parseStep_fails {lres : Int} (h : s.parseStep S p (some (.fail lres)) =
    .done (.returned r q [])) : r ≠ .ok ∧ q.inp = s.conn.inp := by
  obtain ⟨req, pc, ctx, errno, calls⟩ := p
  cases loopStep_done_iff.mp h
  exact ⟨by split <;> nofun, rfl⟩

theorem parseStep_stops {lres : Int} {pc : Pc}
    (h : s.parseStep S p (some (.fail lres)) = .again ⟨pc, q, []⟩) : False := by
  obtain ⟨req, pc, ctx, errno, calls⟩ := p
  cases loopStep_again_iff.mp h

theorem answeredBy_of_heard {req : Option ReqId}
    (h : Heard (S.callbacks req).body (.status (E.reply n).line) (E.reply n).headers
      (E.reply n).payload q.calls) (hlives : headerDies req q.calls = false) :
    ∃ k, AnsweredBy E n ⟨req, .ok, q.calls⟩ k := by
  cases req with
  | some k => exact ⟨k, rfl, rfl, h⟩
  | none =>
      obtain ⟨c, hc, hkind⟩ := h.header (E.headers_ne n)
      have hnull : nullHeader none q.calls = true :=
        List.any_eq_true.mpr ⟨c, hc, beq_iff_eq.mpr hkind⟩
      rw [headerDies, hnull] at hlives
      cases hlives

end

/-! ## What is kept -/

section
variable {E : Exchange S} {a : Act}

/-- What holds in every state. -/
structure Sound (E : Exchange S) (s : Sys) : Prop where
  wf : Wf s
  input : Input E s.whole.length s.recv s.conn.inp s.log.received
  answers : ∀ n x, s.whole[n]? = some x → ∃ k, AnsweredBy E n x k
  told : ∀ k, s.client k = .woken ∨ s.client k = .done .ok →
    ∀ x ∈ s.log.parses, x.req = some k → x.res = .ok

theorem Sound.reading (h : Sound E s) {p : Parse} (hr : s.recv = .parsing p) :
    ∃ errno inp₀ before late rs, Reading E s.whole.length p s.conn.inp s.log.received errno inp₀
      before late rs := by
  have hin := h.input
  rw [hr] at hin
  exact hin

theorem Sound.between (h : Sound E s) (hr : s.recv.idle = true) :
    ∃ late, Between E s.whole.length s.conn.inp s.log.received late := by
  have hin := h.input
  cases hrecv : s.recv with
  | parsing p => rw [hrecv] at hr; cases hr
  | none => rw [hrecv] at hin; exact hin
  | waitRead => rw [hrecv] at hin; exact hin

theorem Regular.given {rd : Option Read} (hc : Regular E s (.recv rd)) (hread : ReadOk rd)
    (hrd : ∀ lres, rd ≠ some (.fail lres)) {inp₀ : Stream} {before late : List UInt8}
    {rs : List Read} (hg : Given E s.whole.length s.log.received inp₀ before late rs) :
    Given E s.whole.length (s.log.received ++ bytesOf rd) inp₀ before late (rs ++ rd.toList) := by
  match rd, hc, hread, hrd with
  | none, _, _, _ =>
      show Given E _ (s.log.received ++ []) inp₀ before late (rs ++ [])
      rw [List.append_nil, List.append_nil]
      exact hg
  | some (.fail lres), _, _, hrd => exact absurd rfl (hrd lres)
  | some (.bytes bs slack), ⟨hR, hpre, hcut⟩, hread, _ => exact hg.read hread hR hpre hcut

/-- **A parse that ends with an error was ended by a read.** -/
theorem Sound.ends (h : Sound E s) {rd : Option Read} {p : Parse} {r : Res} {q : Parser}
    (hc : Regular E s (.recv rd)) (hread : ReadOk rd) (hr : s.recv = .parsing p)
    (hend : s.parseStep S p rd = .done (.returned r q [])) :
    (r ≠ .ok ∧ q.inp = s.conn.inp ∧ ∃ lres, rd = some (.fail lres)) ∨
    (r = .ok ∧ Heard (S.callbacks p.req).body (.status (E.reply s.whole.length).line)
        (E.reply s.whole.length).headers (E.reply s.whole.length).payload q.calls ∧
      ∃ late, Between E (s.whole.length + 1) q.inp (s.log.received ++ bytesOf rd) late) := by
  by_cases hfail : ∃ lres, rd = some (.fail lres)
  · obtain ⟨lres, rfl⟩ := hfail
    obtain ⟨hne, hinp⟩ := parseStep_fails hend
    exact .inl ⟨hne, hinp, lres, rfl⟩
  · obtain ⟨errno, inp₀, before, late, rs, hR⟩ := h.reading hr
    have hg := hc.given hread (fun lres heq => hfail ⟨lres, heq⟩) hR.given
    exact .inr (hR.done hg hend)

theorem whole_snoc {s s' : Sys} {x : Parsed} (h : s'.log.parses = s.log.parses ++ [x]) :
    s'.whole = if x.res = .ok then s.whole ++ [x] else s.whole := by
  unfold Sys.whole
  rw [h, List.filter_append]
  split
  · rename_i hok
    rw [List.filter_cons_of_pos (by rw [decide_eq_true hok])]
    rfl
  · rename_i hne
    rw [List.filter_cons_of_neg (by rw [decide_eq_false hne]; nofun), List.filter_nil,
      List.append_nil]

theorem Sound.input_step (h : Sound E s) (hc : Regular E s a) (hs : Step S s a s') :
    Input E s'.whole.length s'.recv s'.conn.inp s'.log.received := by
  have hin := h.input
  cases hs with
  | acquire _ _ _ _ hst => cases hst <;> exact hin
  | reconnect _ _ hcl => cases hcl <;> exact hin
  | sendJoined _ _ hcl => cases hcl <;> exact hin
  | sslStart =>
      show Input E _ s.recv s.conn.sslInit.inp s.log.received
      rw [Conn.sslInit_frame]
      exact hin
  | sslDone hk hst =>
      rw [h.wf.workers.noRecv _ trivial (by rw [hk]; rfl)] at hin
      cases hst <;> exact hin
  | recvNull hr _ =>
      obtain ⟨late, hb⟩ := h.between (by rw [hr]; rfl)
      exact ⟨_, _, _, _, _, hb.begins hc none _⟩
  | recvFor hr _ =>
      obtain ⟨late, hb⟩ := h.between (by rw [hr]; rfl)
      exact ⟨_, _, _, _, _, hb.begins hc _ _⟩
  | recvOn hr hrd hon _ =>
      obtain ⟨errno, inp₀, before, late, rs, hR⟩ := h.reading hr
      have hg := hc.given hrd (fun lres heq => parseStep_stops (heq ▸ hon)) hR.given
      exact ⟨errno, inp₀, before, late, _, hR.goes hg hon⟩
  | @recvOk rd p q hr hrd hend _ =>
      obtain ⟨hne, -⟩ | ⟨-, -, hb⟩ := h.ends hc hrd hr hend
      · exact absurd rfl hne
      · have hlen : ((s.noteRead p.req (bytesOf rd)).parsed p .ok q).waitRead.whole.length =
            s.whole.length + 1 := by
          rw [whole_snoc (s := s) rfl, if_pos rfl, List.length_append]
          rfl
        rw [hlen]
        exact hb
  | @recvBad rd p r q hr hrd hend hne _ _ =>
      obtain ⟨-, hinp, lres, rfl⟩ | ⟨hok, -⟩ := h.ends hc hrd hr hend
      · -- the read fails where the response begins
        obtain ⟨errno, inp₀, before, late, rs, hR⟩ := h.reading hr
        have hb := hR.idle hc.1
        have hlen : ((s.noteRead p.req
            (bytesOf (some (.fail lres)))).parsed p r q).recvExit.whole.length =
              s.whole.length := by
          rw [whole_snoc (s := s) rfl, if_neg hne]
        rw [hlen]
        refine ⟨[], ?_⟩
        show Between E _ q.inp (s.log.received ++ []) []
        rw [hinp, List.append_nil]
        exact hb
      · exact absurd hok hne
  | recvExit hr => exact h.between (by rw [hr]; rfl)
  | gc =>
      have hb : Between E s.whole.length bytestreamInit s.log.received [] :=
        ⟨by rw [List.append_nil, hc.1], Nat.zero_le 2, rfl⟩
      have hidle : s.recv.idle = true := hc.2
      show Input E _ s.recv bytestreamInit s.log.received
      cases hrecv : s.recv with
      | parsing p => rw [hrecv] at hidle; cases hidle
      | none => exact ⟨[], hb⟩
      | waitRead => exact ⟨[], hb⟩
  | _ => exact hin

theorem answers_snoc {xs : List Parsed} {x : Parsed}
    (h : ∀ n x, xs[n]? = some x → ∃ k, AnsweredBy E n x k)
    (hx : ∃ k, AnsweredBy E xs.length x k) :
    ∀ n y, (xs ++ [x])[n]? = some y → ∃ k, AnsweredBy E n y k := by
  intro n y hy
  rcases Nat.lt_trichotomy n xs.length with hlt | rfl | hgt
  · rw [List.getElem?_append_left hlt] at hy
    exact h n y hy
  · rw [List.getElem?_concat_length] at hy
    cases hy
    exact hx
  · rw [List.getElem?_eq_none (by simp; omega)] at hy
    cases hy

theorem Sound.answers_step (h : Sound E s) (hc : Regular E s a) (hs : Step S s a s') :
    ∀ n x, s'.whole[n]? = some x → ∃ k, AnsweredBy E n x k := by
  obtain heq | ⟨rd, p, r, q, rfl, hend⟩ := hs.parses
  · unfold Sys.whole
    rw [heq]
    exact h.answers
  · rw [whole_snoc hend.parses]
    split
    · rename_i hok
      obtain rfl : r = .ok := hok
      obtain ⟨hne, -⟩ | ⟨-, hheard, -⟩ := h.ends hc hend.read hend.recv hend.ends
      · exact absurd rfl hne
      · exact answers_snoc h.answers (answeredBy_of_heard hheard hend.lives)
    · exact h.answers

theorem Sound.told_step (h : Sound E s) (hc : Regular E s a) (hs : Step S s a s') :
    ∀ k, s'.client k = .woken ∨ s'.client k = .done .ok →
      ∀ x ∈ s'.log.parses, x.req = some k → x.res = .ok := by
  intro k hk x hx hxk
  -- what was answered before the step
  have hbefore : k ∈ s.answered → s.client k = .woken ∨ s.client k = .done .ok := fun hans => by
    cases hs.goes k with
    | stays heq => exact heq ▸ hk
    | early _ hpc =>
        rcases hk with hk | hk <;> rw [hk] at hpc <;> rcases hpc with hpc | hpc <;> cases hpc
    | wake hpc => exact .inl hpc
    | interrupt _ hpc => rcases hk with hk | hk <;> rw [hk] at hpc <;> cases hpc
    | told hsub _ hreq hend => exact absurd hans (h.wf.parsing_new hend.recv hreq)
  obtain heq | ⟨rd, p, r, q, rfl, hend⟩ := hs.parses
  · rw [heq] at hx
    exact h.told k (hbefore (mem_answered.mpr ⟨x, hx, hxk⟩)) x hx hxk
  · rw [hend.parses] at hx
    rcases List.mem_append.mp hx with hx | hx
    · exact h.told k (hbefore (mem_answered.mpr ⟨x, hx, hxk⟩)) x hx hxk
    · cases List.mem_singleton.mp hx
      have hnew := h.wf.parsing_new hend.recv hxk
      have hsub : s.client k = .subscribed := by
        by_contra hne
        rw [hend.client] at hk
        have hsame : (s.signalRecv p.req).client k = s.client k := if_neg fun hsub => hne hsub.2
        rw [hsame] at hk
        exact hnew (h.wf.served.answer k hk)
      obtain ⟨-, -, lres, rfl⟩ | ⟨hok, -⟩ := h.ends hc hend.read hend.recv hend.ends
      · have hmem : k ∈ s.recv.reqs := by
          rw [hend.recv]
          exact Option.mem_toList.mpr hxk
        exact absurd hsub (hc.2 k hmem)
      · exact hok

theorem Sound.step (h : Sound E s) (hc : Regular E s a) (hs : Step S s a s') : Sound E s' :=
  ⟨h.wf.step hs, h.input_step hc hs, h.answers_step hc hs, h.told_step hc hs⟩

end

end

/-- The receive worker gets one read, and works on it. -/
def reading (rd : Read) (n : Nat) : List Act :=
  [.recvReady 0, .recv (some rd)] ++ List.replicate n (.recv none)

/-- A whole exchange: the request is written, and the response is read. -/
def firstExchange : List Act :=
  firstCall ++ [.sendRun, .sendWrite 1] ++
    reading (.bytes (CLib.ascii "HTTP/1.1 200 OK\r\nContent-Length: 0\r\n\r\n") []) 11 ++ [.wake 0]

instance decidableRegular {S : Setting} (E : Exchange S) (s : Sys) :
    (a : Act) → Decidable (Regular E s a)
  | .recvReady _ => inferInstanceAs (Decidable (Reply.Valued _))
  | .recv (some (.bytes _ _)) => inferInstanceAs (Decidable (_ ∧ _ ∧ _))
  | .recv (some (.fail _)) => inferInstanceAs (Decidable (_ ∧ ∀ _ ∈ _, _))
  | .gc => inferInstanceAs (Decidable (_ ∧ _))
  | .recv none | .call _ | .acquire _ _ | .acquireFails _ | .sendJoined _ | .recvJoined _
  | .connected _ | .connectFails _ | .sslStart _ | .sslDone _ _ | .sslFails _ | .body _ _
  | .bodyDone _ | .wake _ | .interrupt _ | .sendRun | .sendWrite _ | .sendExit | .recvExit =>
      isTrue trivial

/-- Requests of one byte; `in_body_cb` returns `res`. -/
def Setting.listening (res : Int) : Setting :=
  { Setting.small with inBodyCb := fun _ => some fun _ _ _ => res }

/-- The kinds of the calls of each parse. -/
def Sys.dialogues (s : Sys) : List (Option ReqId × Res × List CallKind) :=
  s.log.parses.map fun x => (x.req, x.res, x.calls.map Call.kind)

theorem Truthful.seen {S : Setting} {E : Exchange S} {s : Sys} {k : ReqId} (h : Truthful E s)
    (hk : s.client k = .done .ok) : ∃ n x, AnsweredBy E n x k ∧
      (x.req, x.res, x.calls.map Call.kind) ∈ s.dialogues := by
  obtain ⟨⟨n, x, hx, hans⟩, -⟩ := h k hk
  obtain ⟨hmem, -⟩ := List.mem_filter.mp (List.mem_of_getElem? hx)
  exact ⟨n, x, hans, List.mem_map_of_mem hmem⟩

end MnHttpc
