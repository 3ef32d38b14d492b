/-
# `MnApp.Server.Lifecycle` — what a stop of the server is worth

`mnapp_tcp_server_stop` and `mnapp_tcp_server_fini` set `shutting_down`, interrupt
the thread and join it.  `MnApp.Server.TcpServer` has the system; here are two
questions about its runs.

**What does the join wait for?**  From the moment `shutting_down` is set a worker
accepts at most one more batch, and goes on at most once for each socket it has or
still gets, and once more (`stop_winds_up`), whatever the callback and
`mnthr_accept_all2` return and whatever the other threads do.  That each of these
waits ends is not said: a callback that never returns holds up the join.

    ready, accepting     1
    calling rest         |rest| + 1          `Worker.left`
    returned             0

**What is left behind it?**  `mnapp_tcp_server_start` does not look at `srv->thread`:
a second start drops a thread that is still running, and then no stop joins it.  In
runs that do not do this (`Alone`) every worker but the server's thread has returned
(`Joined`), and the end of a stop finds them all returned.

**The stop is final** (`stop_is_final`).  Nothing resets `shutting_down`, so whatever
is done afterwards, the old workers stay as they are, and the worker of a later start,
even of one that returns 0 and has a socket that listens, returns 0 at once without
having accepted anything.
-/
import MnApp.Server.TcpServer

namespace MnTcps

open CLib MnHttp Run

variable {Sock : Type}

/-! ## The way to the end -/

/-- How often a worker still goes on when the server is shutting down and nothing
more is accepted. -/
def Worker.left (w : Worker Sock) : Nat :=
  match w.pc with
  | .ready | .accepting => 1
  | .calling rest => rest.length + 1
  | .returned _ => 0

/-- How many batches a worker still accepts when the server is shutting down. -/
def Worker.toAccept (w : Worker Sock) : Nat :=
  match w.pc with
  | .accepting => 1
  | _ => 0

def Event.isBatch : Event Sock → Bool
  | .accepted _ _ => true
  | _ => false

/-- How many batches were accepted. -/
def batches (log : List (Event Sock)) : Nat := log.countP Event.isBatch

/-- The action is one of worker `i`. -/
def Action.isOf (i : Nat) : Action Sock → Bool
  | .worker j _ => j == i
  | _ => false

/-- How often worker `i` goes on in a run. -/
def turns (i : Nat) (as : List (Action Sock)) : Nat := as.countP (Action.isOf i)

/-- What `n` turns make of `w` when the server is shutting down. -/
structure Wound (n : Nat) (w w' : Worker Sock) : Prop where
  turns : n + w'.left + (accepted w.log).length ≤ w.left + (accepted w'.log).length
  batches : batches w'.log + w'.toAccept ≤ batches w.log + w.toAccept

@[simp] theorem batches_concat (log : List (Event Sock)) (e : Event Sock) :
    batches (log ++ [e]) = batches log + if e.isBatch then 1 else 0 := by
  unfold batches
  rw [List.countP_append, List.countP_singleton]

theorem Wound.refl (w : Worker Sock) : Wound 0 w w :=
  ⟨by omega, Nat.le_refl _⟩

theorem Wound.trans {m n : Nat} {w w' w'' : Worker Sock} (h : Wound m w w')
    (h' : Wound n w' w'') : Wound (m + n) w w'' := by
  have hfirst := h.turns
  have hsecond := h'.turns
  exact ⟨by omega, h'.batches.trans h.batches⟩

/-- Behind an accept or a result with 0, there is one turn for each socket of the batch. -/
theorem inner_wound (log : List (Event Sock)) (rest : List Sock) :
    (Worker.inner true log rest).left = rest.length ∧
      (Worker.inner true log rest).toAccept = 0 ∧
      accepted (Worker.inner true log rest).log = accepted log ∧
      batches (Worker.inner true log rest).log = batches log := by
  cases rest <;>
    simp [Worker.inner, Worker.outer, Worker.left, Worker.toAccept, Event.sockets, Event.isBatch]

theorem worker_wound {w w' : Worker Sock} {a : WorkerAction Sock}
    (hs : mnappTcpServerWorker true w a = some w') : Wound 1 w w' := by
  rcases worker_cases hs with ⟨rfl, hpc, rfl⟩ | ⟨res, sockets, rfl, hpc, hw⟩ |
      ⟨res, rest, rfl, hpc, hw⟩
  · constructor <;> simp [Worker.outer, Worker.left, Worker.toAccept, hpc]
  · rcases hw with ⟨-, rfl⟩ | ⟨-, rfl⟩
    · constructor <;>
        simp [Worker.left, Worker.toAccept, Event.sockets, Event.isBatch, hpc]
    · obtain ⟨hleft, hto, hlog, hbatches⟩ := inner_wound (w.log ++ [.accepted res sockets]) sockets
      constructor
      · rw [hleft, hlog]
        simp [Worker.left, Event.sockets, hpc]
        omega
      · rw [hto, hbatches]
        simp [Worker.toAccept, Event.isBatch, hpc]
  · rcases hw with ⟨-, rfl⟩ | ⟨-, rfl⟩
    · constructor <;>
        simp [Worker.outer, Worker.left, Worker.toAccept, Event.sockets, Event.isBatch, hpc]
    · obtain ⟨hleft, hto, hlog, hbatches⟩ := inner_wound (w.log ++ [.result res]) rest
      constructor
      · rw [hleft, hlog]
        simp [Worker.left, Event.sockets, hpc]
        omega
      · rw [hto, hbatches]
        simp [Event.isBatch]

section
variable {size : Nat} {s s' t : State Sock}

theorem step_wound {a : Action Sock} {i : Nat} {w : Worker Sock} (hs : step size s a = some s')
    (hdown : s.srv.shuttingDown = true) (hw : s.workers[i]? = some w) :
    ∃ w', s'.workers[i]? = some w' ∧ Wound (turns i [a]) w w' := by
  have hlt : i < s.workers.length := (List.getElem?_eq_some_iff.mp hw).1
  rcases step_workers hs with ⟨j, wa, x, x', rfl, hx, hstep, -, hworkers⟩ | ⟨hother, hworkers⟩
  · rw [hworkers, List.getElem?_set]
    by_cases hij : j = i
    · subst hij
      cases hx.symm.trans hw
      rw [hdown] at hstep
      refine ⟨x', by simp [hlt], ?_⟩
      simpa [turns, Action.isOf] using worker_wound hstep
    · refine ⟨w, by rw [if_neg hij, hw], ?_⟩
      simpa [turns, Action.isOf, hij] using Wound.refl w
  · have hturns : turns i [a] = 0 := by
      cases a with
      | worker j wa => exact absurd rfl (hother j wa)
      | _ => rfl
    rw [hturns]
    refine ⟨w, ?_, .refl w⟩
    rcases hworkers with hworkers | hworkers
    · rw [hworkers, hw]
    · rw [hworkers, List.getElem?_append_left hlt, hw]

theorem run_wound {as : List (Action Sock)} {i : Nat} {w : Worker Sock}
    (h : exec (step size) s as = some t) (hdown : s.srv.shuttingDown = true)
    (hw : s.workers[i]? = some w) : ∃ w', t.workers[i]? = some w' ∧ Wound (turns i as) w w' := by
  induction as generalizing s w with
  | nil =>
      cases h
      exact ⟨w, hw, .refl w⟩
  | cons a as ih =>
      obtain ⟨s', hs, h⟩ := exec_cons h
      obtain ⟨x, hx, hone⟩ := step_wound hs hdown hw
      obtain ⟨w', hw', hrest⟩ := ih h (step_shuttingDown hs hdown) hx
      refine ⟨w', hw', ?_⟩
      have hsplit : turns i ([a] ++ as) = turns i [a] + turns i as := List.countP_append
      rw [List.singleton_append] at hsplit
      rw [hsplit]
      exact hone.trans hrest

/-- **When the server is shutting down, a worker accepts one more batch at most, and only
if it is accepting, and has a turn for each socket it has or gets and one more, in every
run.** -/
theorem stop_winds_up {as : List (Action Sock)} {i : Nat} {w : Worker Sock}
    (h : exec (step size) s as = some t) (hdown : s.srv.shuttingDown = true)
    (hw : s.workers[i]? = some w) :
    ∃ w', t.workers[i]? = some w' ∧
      turns i as + w'.left + (accepted w.log).length ≤ w.left + (accepted w'.log).length ∧
      batches w'.log ≤ batches w.log + w.toAccept := by
  obtain ⟨w', hw', hwound⟩ := run_wound h hdown hw
  exact ⟨w', hw', hwound.turns, (Nat.le_add_right _ _).trans hwound.batches⟩

end

/-- A worker that is accepting when the server is stopped. -/
def acceptingDown : State Nat :=
  ⟨⟨some 0, some (ascii "localhost"), some (ascii "80"), 1, .pfInet, 7, true⟩,
    [⟨.accepting, []⟩]⟩

/-- Two sockets come in with the stop: three turns, and the worker has returned. -/
theorem stop_winds_up_two : ∃ w', (State.workers ⟨acceptingDown.srv,
      [⟨.returned 0, [.accepted 0 [8, 9], .called 8, .result 0, .called 9, .result 0]⟩]⟩)[0]? =
        some w' ∧
      3 + w'.left + 0 ≤ 1 + (accepted w'.log).length ∧ batches w'.log ≤ 0 + 1 := by
  have hrun : exec (step 108) acceptingDown [.worker 0 (.accept 0 [8, 9]),
      .worker 0 (.result 0), .worker 0 (.result 0)] = some ⟨acceptingDown.srv,
      [⟨.returned 0, [.accepted 0 [8, 9], .called 8, .result 0, .called 9, .result 0]⟩]⟩ := rfl
  have hw : acceptingDown.workers[0]? = some ⟨.accepting, []⟩ := rfl
  exact stop_winds_up hrun rfl hw

/-! ## The threads that are left -/

def Worker.Returned (w : Worker Sock) : Prop := ∃ res, w.pc = .returned res

/-- A server that has a thread is not started again. -/
def Alone (s : State Sock) : Action Sock → Prop
  | .start _ => s.srv.thread = none
  | _ => True

instance decidableAlone (s : State Sock) : (a : Action Sock) → Decidable (Alone s a)
  | .start _ => inferInstanceAs (Decidable (s.srv.thread = none))
  | .worker _ _ | .stop | .stopped | .finished => isTrue trivial

/-- Every worker but the server's thread has returned. -/
def Joined (s : State Sock) : Prop :=
  ∀ i w, s.workers[i]? = some w → w.Returned ∨ s.srv.thread = some i

/-- The action is the end of `mnapp_tcp_server_stop` or of `mnapp_tcp_server_fini`. -/
def Action.ends : Action Sock → Bool
  | .stopped | .finished => true
  | _ => false

/-- A worker that was started by a server that is shutting down. -/
def Worker.Late (w : Worker Sock) : Prop := w = ⟨.ready, []⟩ ∨ w = ⟨.returned 0, []⟩

theorem returned_stays {sd : Bool} {w w' : Worker Sock} {a : WorkerAction Sock}
    (h : w.Returned) : mnappTcpServerWorker sd w a ≠ some w' := by
  obtain ⟨res, hret⟩ := h
  intro hs
  rcases worker_cases hs with ⟨-, hpc, -⟩ | ⟨_, _, -, hpc, -⟩ | ⟨_, _, -, hpc, -⟩ <;>
    exact absurd (hret.symm.trans hpc) (by simp)

theorem Worker.Late.step {w w' : Worker Sock} {a : WorkerAction Sock} (h : w.Late)
    (hs : mnappTcpServerWorker true w a = some w') : w'.Late := by
  rcases h with rfl | rfl
  · cases a with
    | run =>
        cases hs
        exact .inr rfl
    | accept res sockets | result res => cases hs
  · exact absurd hs (returned_stays ⟨0, rfl⟩)

section
variable {size : Nat} {s s' t : State Sock}

theorem joined_returned {res : Int} (h : s.joined = some res) :
    ∃ i w, s.srv.thread = some i ∧ s.workers[i]? = some w ∧ w.Returned := by
  obtain ⟨i, hi, h⟩ := Option.bind_eq_some_iff.mp h
  obtain ⟨w, hw, h⟩ := Option.bind_eq_some_iff.mp h
  refine ⟨i, w, hi, hw, ?_⟩
  cases hpc : w.pc with
  | returned r => exact ⟨r, hpc⟩
  | _ => simp [hpc] at h

theorem ends_spec {a : Action Sock} (hs : step size s a = some s') (ha : a.ends = true) :
    s.srv.shuttingDown = true ∧ (s.srv.thread = none ∨ s.joined.isSome) ∧
      s'.workers = s.workers ∧ s'.srv.thread = none ∧ s'.srv.shuttingDown = true := by
  cases a with
  | stopped | finished =>
      simp only [step] at hs
      split at hs
      · rename_i hcond
        cases hs
        exact ⟨hcond.1, hcond.2, rfl, rfl, hcond.1⟩
      · cases hs
  | _ => cases ha

/-- When a stop ends, nothing is left of the workers. -/
theorem Joined.ends {a : Action Sock} (h : Joined s) (hs : step size s a = some s')
    (ha : a.ends = true) : ∀ w ∈ s'.workers, w.Returned := by
  obtain ⟨-, hjoin, hworkers, -⟩ := ends_spec hs ha
  intro w hw
  rw [hworkers] at hw
  obtain ⟨i, hi⟩ := List.getElem?_of_mem hw
  rcases h i w hi with hret | hthread
  · exact hret
  · rcases hjoin with hnone | hsome
    · rw [hnone] at hthread
      cases hthread
    · obtain ⟨res, hres⟩ := Option.isSome_iff_exists.mp hsome
      obtain ⟨j, x, hj, hx, hret⟩ := joined_returned hres
      cases hj.symm.trans hthread
      cases hx.symm.trans hi
      exact hret

theorem Joined.step {a : Action Sock} (h : Joined s) (hone : Alone s a)
    (hs : step size s a = some s') : Joined s' := by
  cases a with
  | start sys =>
      obtain ⟨st, hst, rfl⟩ := Option.map_eq_some_iff.mp hs
      have hnone : s.srv.thread = none := hone
      have hall : ∀ i (w : Worker Sock), s.workers[i]? = some w → w.Returned := fun i w hw =>
        (h i w hw).resolve_right fun hthread => by
          rw [hnone] at hthread
          cases hthread
      intro i w hw
      rcases (start_spec hst).outcome with ⟨hok, -, hthread⟩ | ⟨n, hfail, -⟩
      · rw [if_pos hok] at hw
        by_cases hlt : i < s.workers.length
        · rw [List.getElem?_append_left hlt] at hw
          exact .inl (hall i w hw)
        · have hi : i = s.workers.length := by
            have hbound := (List.getElem?_eq_some_iff.mp hw).1
            rw [List.length_append, List.length_singleton] at hbound
            omega
          subst hi
          exact .inr hthread
      · rw [if_neg (by rw [hfail]; exact nofun)] at hw
        exact .inl (hall i w hw)
  | worker j wa =>
      obtain ⟨x, hx, hs⟩ := Option.bind_eq_some_iff.mp hs
      obtain ⟨x', hstep, hs⟩ := Option.bind_eq_some_iff.mp hs
      cases hs
      intro i w hw
      simp only [List.getElem?_set] at hw
      by_cases hij : j = i
      · subst hij
        -- a worker that goes on has not returned, so it is the server's thread
        exact .inr ((h j x hx).resolve_left fun hret => returned_stays hret hstep)
      · rw [if_neg hij] at hw
        exact h i w hw
  | stop =>
      cases hs
      exact h
  | stopped | finished =>
      have hall := h.ends hs rfl
      exact fun i w hw => .inl (hall w (List.mem_of_getElem? hw))

/-- Workers that have returned, and behind them late ones. -/
structure Over (before : List (Worker Sock)) (s : State Sock) : Prop where
  down : s.srv.shuttingDown = true
  workers : ∃ late, s.workers = before ++ late ∧ ∀ w ∈ late, w.Late

theorem Over.step {before : List (Worker Sock)} (hret : ∀ w ∈ before, w.Returned)
    {a : Action Sock} (h : Over before s) (hs : step size s a = some s') : Over before s' := by
  obtain ⟨late, hworkers, hlate⟩ := h.workers
  refine ⟨step_shuttingDown hs h.down, ?_⟩
  rcases step_workers hs with ⟨i, wa, w, w', rfl, hw, hstep, -, hset⟩ | ⟨-, hsame | hnew⟩
  · rw [h.down] at hstep
    rw [hworkers] at hw hset
    have hbehind : before.length ≤ i := by
      by_contra hlt
      rw [List.getElem?_append_left (by omega)] at hw
      exact returned_stays (hret w (List.mem_of_getElem? hw)) hstep
    rw [List.getElem?_append_right hbehind] at hw
    rw [List.set_append_right _ _ hbehind] at hset
    refine ⟨_, hset, fun x hx => ?_⟩
    rcases List.mem_or_eq_of_mem_set hx with hx | rfl
    · exact hlate x hx
    · exact (hlate w (List.mem_of_getElem? hw)).step hstep
  · exact ⟨late, hsame.trans hworkers, hlate⟩
  · refine ⟨late ++ [⟨.ready, []⟩], by rw [hnew, hworkers, List.append_assoc], fun x hx => ?_⟩
    rcases List.mem_append.mp hx with hx | hx
    · exact hlate x hx
    · exact .inl (List.mem_singleton.mp hx)

end

/-- **When a stop has come to its end every worker has returned, and whatever is done
afterwards nothing is accepted any more: the workers stay as they are, and those of later
starts return 0 with nothing done.** -/
theorem stop_is_final (size : Nat) (listenBacklog : Int) (addr : List UInt8)
    (as bs : List (Action Sock)) (a : Action Sock) (s t : State Sock) (ha : a.ends = true)
    (halone : Meets (step size) Alone (State.init listenBacklog addr) as)
    (hs : exec (step size) (State.init listenBacklog addr) (as ++ [a]) = some s)
    (ht : exec (step size) s bs = some t) :
    (∀ w ∈ s.workers, w.Returned) ∧
      ∃ late, t.workers = s.workers ++ late ∧ ∀ w ∈ late, w.Late := by
  rw [exec_append] at hs
  obtain ⟨r, hr, hs⟩ := Option.bind_eq_some_iff.mp hs
  obtain ⟨s', hend, hs⟩ := exec_cons hs
  cases hs
  have hjoined : Joined r :=
    exec_invariant (fun _ _ _ h hone hs => h.step hone hs)
      (fun i w hw => by cases hw) halone hr
  have hret := hjoined.ends hend ha
  obtain ⟨-, -, -, -, hdown⟩ := ends_spec hend ha
  have hover : Over s.workers t :=
    exec_always (fun _ _ _ h hs => h.step hret hs)
      ⟨hdown, [], (List.append_nil _).symm, fun w hw => by cases hw⟩ ht
  exact ⟨hret, hover.workers⟩

/-- The server of `stoppedRun` is started again, and its worker runs. -/
theorem stop_is_final_restarted :
    (∀ w ∈ ([⟨.returned 1, [.accepted 0 [8, 9], .called 8, .result 0, .called 9, .result 1]⟩] :
      List (Worker Nat)), w.Returned) ∧
    ∃ late : List (Worker Nat),
      [⟨.returned 1, [.accepted 0 [8, 9], .called 8, .result 0, .called 9, .result 1]⟩,
        ⟨.returned 0, []⟩] =
        [⟨.returned 1, [.accepted 0 [8, 9], .called 8, .result 0, .called 9, .result 1]⟩] ++ late ∧
      ∀ w ∈ late, w.Late :=
  stop_is_final 108 1 (ascii "localhost:80") stoppedRun.dropLast [.start .fine, .worker 1 .run]
    .stopped
    ⟨⟨none, some (ascii "localhost"), some (ascii "80"), 1, .pfInet, 7, true⟩,
      [⟨.returned 1, [.accepted 0 [8, 9], .called 8, .result 0, .called 9, .result 1]⟩]⟩
    ⟨⟨some 1, some (ascii "localhost"), some (ascii "80"), 1, .pfInet, 7, true⟩,
      [⟨.returned 1, [.accepted 0 [8, 9], .called 8, .result 0, .called 9, .result 1]⟩,
        ⟨.returned 0, []⟩]⟩
    rfl (by decide) rfl rfl

end MnTcps
