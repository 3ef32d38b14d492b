/-
# `MnApp.Client.Unasked` — bytes that arrive when no request is waiting

When the socket becomes readable the receive worker takes the first request
of the queue and parses into it.  With an empty queue it calls
`http_parse_response` as well, with the same `mnhttpc_response_header_cb` and
NULL for `udata`; the callback goes through `udata` without a check.

* A server that sends nothing while the queue is empty, apart from closing
  the connection, never gets the callback called in this way
  (`header_has_request`).
* One that sends a response with a header on an idle connection does, and
  the process dies (`unsolicited_response_crashes`).
-/
import MnApp.Client.Outcome

namespace MnHttpc

open MnHttp Run

/-! ## Calls of a parse -/

section
variable {S : Setting} {s s' : Sys} {p : Parse} {rd : Option Read} {a : Act}

theorem stepCalls_top (h : p.pc = .top) : stepCalls (s.parseStep S p rd) = p.calls := by
  unfold Sys.parseStep loopStep Parse.loop
  simp only [h]
  split
  · split <;> rfl
  · rfl

/-- At the end of the data, only a read that delivers something goes on. -/
theorem parseStep_read (h : p.pc = .top) (hmore : s.conn.inp.needMore = true) {l : LoopState}
    (hs : s.parseStep S p rd = .again l) : ∃ bs slack, rd = some (.bytes bs slack) := by
  unfold Sys.parseStep loopStep Parse.loop at hs
  simp only [h, hmore, if_true] at hs
  match rd with
  | none => cases hs
  | some (.fail _) => cases hs
  | some (.bytes bs slack) => exact ⟨bs, slack, rfl⟩

/-! ## Parses for nobody -/

/-- Whatever the receive worker does next, `mnhttpc_response_header_cb` is not
called with NULL. -/
def HeaderHasRequest (S : Setting) (s : Sys) : Prop :=
  ∀ p rd, s.recv = .parsing p → nullHeader p.req (stepCalls (s.parseStep S p rd)) = false

/-- With an empty queue nothing is there to parse when the worker wakes up,
and nothing is read for it. -/
def AskedFor (s : Sys) (a : Act) : Prop :=
  (∀ errno, a = .recvReady errno → s.conn.requests = [] → s.conn.inp.needMore = true) ∧
    ∀ bs slack p, a = .recv (some (.bytes bs slack)) → s.recv = .parsing p → p.req ≠ none

instance (s : Sys) (a : Act) : Decidable (AskedFor s a) :=
  match a, hr : s.recv with
  | .recvReady _, _ =>
      decidable_of_iff (s.conn.requests = [] → s.conn.inp.needMore = true)
        ⟨fun h => ⟨fun _ _ => h, fun _ _ _ ha => by cases ha⟩, fun h => h.1 _ rfl⟩
  | .recv (some (.bytes _ _)), .parsing p =>
      decidable_of_iff (p.req ≠ none)
        ⟨fun h => ⟨fun _ ha => (by cases ha),
          fun _ _ q _ hq => by cases hr.symm.trans hq; exact h⟩, fun h => h.2 _ _ p rfl hr⟩
  | .recv (some (.bytes _ _)), .none | .recv (some (.bytes _ _)), .waitRead =>
      isTrue ⟨fun _ ha => (by cases ha), fun _ _ _ _ hq => by cases hr.symm.trans hq⟩
  | .recv (some (.fail _)), _ | .recv none, _ | .call _, _ | .acquire _ _, _ | .acquireFails _, _
  | .sendJoined _, _ | .recvJoined _, _ | .connected _, _ | .connectFails _, _ | .sslStart _, _
  | .sslDone _ _, _ | .sslFails _, _ | .body _ _, _ | .bodyDone _, _ | .wake _, _
  | .interrupt _, _ | .sendRun, _ | .sendWrite _, _ | .sendExit, _ | .recvExit, _ | .gc, _ =>
      isTrue ⟨fun _ ha => (by cases ha), fun _ _ _ ha => by cases ha⟩

/-- A parse for no request stands where it began, at the end of the data. -/
def Unasked (recv : RecvPc) (inp : Stream) : Prop :=
  ∀ p, recv = .parsing p → p.req = none → p.pc = .top ∧ p.calls = [] ∧ inp.needMore = true

theorem Unasked.headerHasRequest (h : Unasked s.recv s.conn.inp) : HeaderHasRequest S s := by
  intro p rd hr
  cases hreq : p.req with
  | some k => rfl
  | none =>
      obtain ⟨htop, hcalls, _⟩ := h p hr hreq
      rw [stepCalls_top htop, hcalls]
      rfl

theorem Unasked.step (h : Unasked s.recv s.conn.inp) (hC : AskedFor s a) (hs : Step S s a s') :
    Unasked s'.recv s'.conn.inp := by
  cases hs with
  | acquire _ _ _ _ hst => cases hst <;> exact h
  | reconnect _ _ hcl => cases hcl <;> exact h
  | sendJoined _ _ hcl => cases hcl <;> exact h
  | sslStart =>
      show Unasked s.recv s.conn.sslInit.inp
      rw [Conn.sslInit_frame]
      exact h
  | sslDone _ hst => cases hst <;> exact fun _ hp => by cases hp
  | recvNull hr hq =>
      intro p hp _
      cases hp
      exact ⟨rfl, rfl, hC.1 _ rfl hq⟩
  | recvFor =>
      intro p hp hreq
      cases hp
      cases hreq
  | recvOn hr _ hon =>
      -- For no request the step would be a read of some bytes.
      intro q hq hreq
      cases hq
      obtain ⟨htop, _, hmore⟩ := h _ hr hreq
      obtain ⟨bs, slack, hrd⟩ := parseStep_read htop hmore hon
      exact (hC.2 bs slack _ (by rw [hrd]) hr hreq).elim
  | recvOk => exact fun _ hp => by cases hp
  | recvBad => exact fun _ hp => by cases hp
  | recvExit => exact fun _ hp => by cases hp
  | gc => exact fun p hp hreq => ⟨(h p hp hreq).1, (h p hp hreq).2.1, rfl⟩
  | _ => exact h

/-- **The header callback always has its request, in every run in which the
server sends nothing while no request is waiting.** -/
theorem header_has_request (S : Setting) (scheme : Scheme) (as : List Act)
    (hasked : Meets (step S) AskedFor (.init scheme) as) :
    Along (step S) (HeaderHasRequest S) (.init scheme) as :=
  along_of_meets (I := fun s => Unasked s.recv s.conn.inp)
    (fun _ _ _ h hC hs => h.step hC (step_cases hs).2) (fun _ h => h.headerHasRequest)
    (fun _ hp => by cases hp) hasked

end

theorem header_has_request_exchange :
    Meets (step .small) AskedFor (.init .http) (firstExchange ++ reading (.fail parseEof) 0) ∧
      Along (step .small) (HeaderHasRequest .small) (.init .http)
        (firstExchange ++ reading (.fail parseEof) 0) := by
  have hasked : Meets (step .small) AskedFor (.init .http)
      (firstExchange ++ reading (.fail parseEof) 0) := by decide +kernel
  exact ⟨hasked, header_has_request _ _ _ hasked⟩

/-- The exchange is over, and the server says that it has waited too long. -/
def unsolicited : List Act :=
  firstExchange ++ reading (.bytes (CLib.ascii "HTTP/1.1 408 Timeout\r\nA: b\r\n\r\n") []) 6

/-- The receive worker is at a header, and has no request for it. -/
def Sys.orphaned (S : Setting) (s : Sys) : Bool :=
  match s.recv with
  | .parsing p => nullHeader p.req (stepCalls (s.parseStep S p none))
  | _ => false

/-- **A response with a header on an idle connection kills the process.** -/
theorem unsolicited_response_crashes : ∃ s t,
    exec (step .small) (.init .http) unsolicited = some s ∧ s.client 0 = .done .ok ∧
      s.conn.requests = [] ∧ step .small s (.recv none) = some t ∧ t.crashed = true ∧
      ¬ HeaderHasRequest .small s := by
  have hrun : (exec (step .small) (.init .http) unsolicited).map
      (fun s => (s.client 0, s.conn.requests, (step .small s (.recv none)).map Sys.crashed)) =
      some (.done .ok, [], some true) := by decide +kernel
  have horphan : (exec (step .small) (.init .http) unsolicited).map (Sys.orphaned .small) =
      some true := by decide +kernel
  obtain ⟨s, hs, hobs⟩ := Option.map_eq_some_iff.mp hrun
  rw [hs] at horphan
  simp only [Prod.mk.injEq, Option.map_some, Option.some.injEq] at hobs horphan
  obtain ⟨hclient, hq, hnext⟩ := hobs
  obtain ⟨t, ht, hcrash⟩ := Option.map_eq_some_iff.mp hnext
  refine ⟨s, t, hs, hclient, hq, ht, hcrash, fun hhas => ?_⟩
  cases hr : s.recv with
  | none => rw [Sys.orphaned, hr] at horphan; cases horphan
  | waitRead => rw [Sys.orphaned, hr] at horphan; cases horphan
  | parsing p =>
      rw [Sys.orphaned, hr] at horphan
      exact absurd (hhas p none hr) (by rw [show nullHeader _ _ = true from horphan]; exact nofun)

end MnHttpc
