/-
# `MnApp.Client.Reconnect` — what a new socket is given of the old one

`conn->in`, `conn->out` and `conn->requests` outlive the socket.  Neither
`mnhttpc_connection_close` nor `mnhttpc_connection_connect` touches them: a
connection that is lost while a request is half written, or with bytes that
no parse has taken, hands both on to the next one.

`NoStale` says what there should be instead, and it holds in every run in
which nothing is left over when the workers of a connection are spawned
(`no_stale_bytes`).  The state of a run is cut in two:

    Addressed   the outgoing half: what is unsent belongs to the socket, and
                what is sent first on it is the head of its first request
    Sourced     the incoming half: `conn->in` is from the socket, from some
                offset on, and the receive worker is behind that offset

The second rests on `Forward`: a parse does not go back in the stream.  It
does for a response of unstated length, and in a stream of more than
`INT_MAX` bytes, so these are ruled out as well; and
`mnhttpc_connection_gc` must not empty the streams under a worker.
-/
import MnApp.Http.Forward
import MnApp.Client.Sending

namespace MnHttpc

open MnHttp Run CLib

/-! ## The property -/

/-- The first byte on each socket is the first byte of the request that was begun
on it first; every request is written to the socket it was begun on, and its
response is parsed from bytes of that socket. -/
structure NoStale (S : Setting) (s : Sys) : Prop where
  first : ∀ n e, s.log.wire.find? (fun e => e.1 == some n) = some e →
    ∃ k, s.log.opener (some n) = some k ∧ (S.headOf k).head? = some e.2
  sent : ∀ e ∈ s.log.wire, s.log.sock e.2.req = e.1
  fed : ∀ k, ∀ o ∈ s.log.fed k, o = s.log.sock k

/-- A response that the receive worker is done with had a length, and not a
negative one. -/
def Sys.framed (S : Setting) (s : Sys) (rd : Option Read) : Bool :=
  match s.recv with
  | .parsing p =>
      match s.parseStep S p rd with
      | .done (.returned .ok q _) => q.ctx.flagChunked || decide (0 ≤ q.ctx.bodysz)
      | _ => true
  | _ => true

/-- The receive worker is at a parse. -/
def RecvPc.parses : RecvPc → Bool
  | .parsing _ => true
  | _ => false

/-- Nothing is behind the position.  It may be two bytes further than the data, when the
end of a chunked body was skipped before it came. -/
def ReadUp (s : Stream) : Prop := s.eod ≤ s.pos ∧ s.pos ≤ s.eod + 2

/-- Nothing is left over: in the streams and in the queue when the workers are
spawned, unsent or half parsed when the streams are emptied, in front of the
position when a response ends. -/
def LeavesNothing (S : Setting) (s : Sys) : Act → Prop
  | .sslDone _ _ =>
      s.conn.unsent = [] ∧ ReadUp s.conn.inp ∧ s.conn.requests = []
  | .gc => s.conn.unsent = [] ∧ s.recv.parses = false
  | .recv rd => s.conn.inp.eod + (bytesOf rd).length ≤ intMax ∧ s.framed S rd = true
  | _ => True

instance (S : Setting) (s : Sys) : (a : Act) → Decidable (LeavesNothing S s a)
  | .sslDone _ _ => inferInstanceAs (Decidable (_ ∧ (_ ∧ _) ∧ _))
  | .gc => inferInstanceAs (Decidable (_ ∧ _))
  | .recv _ => inferInstanceAs (Decidable (_ ∧ _))
  | .call _ | .acquire _ _ | .acquireFails _ | .sendJoined _ | .recvJoined _ | .connected _
  | .connectFails _ | .sslStart _ | .sslFails _ | .body _ _ | .bodyDone _ | .wake _
  | .interrupt _ | .sendRun | .sendWrite _ | .sendExit | .recvReady _ | .recvExit =>
      isTrue trivial

/-! ## Calls -/

/-- The call may have written something, or never will. -/
def ClientPc.begun : ClientPc → Bool
  | .body _ | .subscribed | .woken | .done _ => true
  | _ => false

theorem ClientPc.begun_of_enqueued {pc : ClientPc} (h : pc.enqueued = true) :
    pc.begun = true := by
  cases pc <;> first | rfl | cases h

theorem begun_update {c : ReqId → ClientPc} {k : ReqId} {pc : ClientPc}
    (h : (c k).begun = true → pc.begun = true) :
    ∀ j, (c j).begun = true → (Function.update c k pc j).begun = true :=
  (Function.forall_update_iff c fun j pc' => (c j).begun = true → pc'.begun = true).mpr
    ⟨h, fun _ _ => id⟩

theorem begun_early {c : ReqId → ClientPc} {k : ReqId} {pc pc' : ClientPc} (hk : c k = pc)
    (hpc : pc.begun = false) :
    ∀ j, (c j).begun = true → (Function.update c k pc' j).begun = true :=
  begun_update fun h => by
    rw [hk, hpc] at h
    cases h

/-- The calls go on, and none of them begins to write or to connect. -/
structure Follows (c c' : ReqId → ClientPc) : Prop where
  begun : ∀ j, (c j).begun = true → (c' j).begun = true
  body : ∀ j rest, c' j = .body rest → c j = .body rest
  ssl : ∀ j b, c' j = .joinSsl b → ∃ b', c j = .joinSsl b'

theorem Follows.refl (c : ReqId → ClientPc) : Follows c c :=
  ⟨fun _ => id, fun _ _ => id, fun _ b hb => ⟨b, hb⟩⟩

theorem follows_update {c : ReqId → ClientPc} {k : ReqId} {pc : ClientPc}
    (hbegun : (c k).begun = true → pc.begun = true) (hbody : ∀ rest, pc ≠ .body rest)
    (hssl : ∀ b, pc = .joinSsl b → ∃ b', c k = .joinSsl b') :
    Follows c (Function.update c k pc) where
  begun := begun_update hbegun
  body := (Function.forall_update_iff c fun j pc' =>
    ∀ rest, pc' = .body rest → c j = .body rest).mpr
      ⟨fun rest hr => absurd hr (hbody rest), fun _ _ _ => id⟩
  ssl := (Function.forall_update_iff c fun j pc' =>
    ∀ b, pc' = .joinSsl b → ∃ b', c j = .joinSsl b').mpr ⟨hssl, fun _ _ b hb => ⟨b, hb⟩⟩

theorem follows_early {c : ReqId → ClientPc} {k : ReqId} {pc pc' : ClientPc} (hk : c k = pc)
    (hpc : pc.begun = false) (hbody : ∀ rest, pc' ≠ .body rest) (hssl : ∀ b, pc' ≠ .joinSsl b) :
    Follows c (Function.update c k pc') :=
  follows_update (fun h => by rw [hk, hpc] at h; cases h) hbody fun b hb => absurd hb (hssl b)

theorem follows_signalRecv (s : Sys) (req : Option ReqId) :
    Follows s.client (s.signalRecv req).client := by
  have hcases : ∀ j, (s.signalRecv req).client j = .woken ∨
      (s.signalRecv req).client j = s.client j := by
    intro j
    unfold Sys.signalRecv
    dsimp only
    split
    · exact .inl rfl
    · exact .inr rfl
  refine ⟨fun j hj => ?_, fun j rest hj => ?_, fun j b hj => ?_⟩ <;> rcases hcases j with h | h
  · rw [h]; rfl
  · rw [h]; exact hj
  · rw [h] at hj; cases hj
  · exact h ▸ hj
  · rw [h] at hj; cases hj
  · exact ⟨b, h ▸ hj⟩

/-- Nobody else holds the semaphore. -/
def Alone (c : ReqId → ClientPc) (k : ReqId) : Prop := ∀ j, j ≠ k → (c j).holds = false

section
variable {S : Setting} {s s' : Sys} {k : ReqId}

theorem Holder.alone (h : Holder s) (hk : (s.client k).holds = true) : Alone s.client k :=
  fun _ hj => Bool.eq_false_iff.mpr fun hh => hj (h.other hk hh)

theorem Holder.free (h : Holder s) (hsema : s.conn.reqfinSema = none) : Alone s.client k := by
  refine fun j _ => Bool.eq_false_iff.mpr fun hh => ?_
  cases hsema.symm.trans ((h j).mp hh)

end

theorem Alone.not_body {c : ReqId → ClientPc} {k j : ReqId} {rest : List OutByte} (h : Alone c k)
    (hj : c j = .body rest) : j = k := by
  by_contra hne
  have := h j hne
  rw [hj] at this
  cases this

theorem Alone.update_not_body {c : ReqId → ClientPc} {k : ReqId} {pc : ClientPc} (h : Alone c k)
    (hpc : ∀ rest, pc ≠ .body rest) : ∀ j rest, Function.update c k pc j ≠ .body rest := by
  refine (Function.forall_update_iff c fun _ pc' => ∀ rest, pc' ≠ .body rest).mpr
    ⟨hpc, fun j hj rest hr => hj (h.not_body hr)⟩

theorem Alone.not_joinSsl {c : ReqId → ClientPc} {k j : ReqId} {b : Bool} (h : Alone c k)
    (hj : c j = .joinSsl b) : j = k := by
  by_contra hne
  have := h j hne
  rw [hj] at this
  cases this

/-! ## The outgoing half -/

/-- What the outgoing half is about. -/
structure Flow where
  fd : Option Nat
  nsock : Nat
  out : List OutByte
  outPos : Nat
  wire : List (Option Nat × OutByte)
  sock : ReqId → Option Nat
  opener : Option Nat → Option ReqId

def Sys.flow (s : Sys) : Flow :=
  ⟨s.conn.fd, s.nsock, s.conn.out, s.conn.outPos, s.log.wire, s.log.sock, s.log.opener⟩

def Flow.unsent (f : Flow) : List OutByte := f.out.drop f.outPos

/-- Bytes are appended. -/
def Flow.append (f : Flow) (bs : List OutByte) : Flow := { f with out := f.out ++ bs }

/-- A request is begun. -/
def Flow.begin (f : Flow) (k : ReqId) (bs : List OutByte) : Flow :=
  { f.append bs with
    sock := Function.update f.sock k f.fd
    opener := Function.update f.opener f.fd (some ((f.opener f.fd).getD k)) }

/-- Bytes are written. -/
def Flow.wrote (f : Flow) (bs : List OutByte) : Flow :=
  { f with outPos := f.outPos + bs.length, wire := f.wire ++ onSocket f.fd bs }

/-- The stream is rewound. -/
def Flow.rewound (f : Flow) : Flow := { f with out := [], outPos := 0 }

/-- What is unsent, and what was sent, belongs to its socket, and what comes first
on a socket is the head of the request that was begun on it first. -/
structure Addressed (S : Setting) (f : Flow) (send : SendPc) (client : ReqId → ClientPc) :
    Prop where
  bound : f.outPos ≤ f.out.length
  rest : ∀ rest, send = .writing rest → rest ≠ [] ∧ rest <+: f.unsent
  unsent : send ≠ .none → ∀ b ∈ f.unsent, f.sock b.req = f.fd
  begun : ∀ b ∈ f.unsent, (client b.req).begun = true
  sent : ∀ e ∈ f.wire, (client e.2.req).begun = true ∧ f.sock e.2.req = e.1
  body : ∀ k rest, client k = .body rest →
    (∀ b ∈ rest, b.req = k) ∧ f.sock k = f.fd ∧ f.opener f.fd ≠ none
  first : ∀ n e, f.wire.find? (fun e => e.1 == some n) = some e →
    ∃ k, f.opener (some n) = some k ∧ (S.headOf k).head? = some e.2
  /-- something was written already, nothing was begun yet, or a head comes next -/
  next : send ≠ .none → (∃ e ∈ f.wire, e.1 = f.fd) ∨ (f.opener f.fd = none ∧ f.unsent = []) ∨
    ∃ b bs k, f.unsent = b :: bs ∧ f.opener f.fd = some k ∧ (S.headOf k).head? = some b
  fresh : ∀ k b, client k = .joinSsl b → f.opener f.fd = none ∧ ∀ e ∈ f.wire, e.1 ≠ f.fd
  socket : ∀ n, f.fd = some n → n < f.nsock
  later : ∀ n, f.nsock ≤ n → f.opener (some n) = none ∧ ∀ e ∈ f.wire, e.1 ≠ some n

section
variable {S : Setting} {f : Flow} {send send' : SendPc} {c c' : ReqId → ClientPc} {k : ReqId}

theorem Flow.unsent_append (f : Flow) (bs : List OutByte) (h : f.outPos ≤ f.out.length) :
    (f.append bs).unsent = f.unsent ++ bs := List.drop_append_of_le_length h

theorem Addressed.init : Addressed S ⟨none, 0, [], 0, [], fun _ => none, fun _ => none⟩ .none
    (fun _ => .idle) where
  bound := Nat.le_refl _
  rest _ h := by cases h
  unsent h := absurd rfl h
  begun _ h := by cases h
  sent _ h := by cases h
  body _ _ h := by cases h
  first _ _ h := by cases h
  next h := absurd rfl h
  fresh _ _ h := by cases h
  socket _ h := by cases h
  later _ _ := ⟨rfl, fun _ h => by cases h⟩

theorem Addressed.same (h : Addressed S f send c) (hc : Follows c c')
    (hwriting : ∀ rest, send' = .writing rest → send = .writing rest)
    (hrun : send' ≠ .none → send ≠ .none) : Addressed S f send' c' where
  bound := h.bound
  rest rest hr := h.rest rest (hwriting rest hr)
  unsent hs := h.unsent (hrun hs)
  begun b hb := hc.begun _ (h.begun b hb)
  sent e he := ⟨hc.begun _ (h.sent e he).1, (h.sent e he).2⟩
  body k rest hk := h.body k rest (hc.body k rest hk)
  first := h.first
  next hs := h.next (hrun hs)
  fresh k b hk := by
    obtain ⟨b', hb'⟩ := hc.ssl k b hk
    exact h.fresh k b' hb'
  socket := h.socket
  later := h.later

theorem Addressed.calls (h : Addressed S f send c) (hc : Follows c c') : Addressed S f send c' :=
  h.same hc (fun _ => id) id

theorem Addressed.signalled (h : Addressed S f send c) : Addressed S f send.signalled c := by
  refine h.same (.refl c) (fun rest hr => ?_) fun hs hn => hs (SendPc.signalled_eq_none.mpr hn)
  cases send <;> first | exact hr | cases hr

theorem Addressed.move (h : Addressed S f .none c) {fd : Option Nat} {nsock : Nat}
    (hbody : ∀ j rest, c' j ≠ .body rest)
    (hbegun : ∀ j, (c j).begun = true → (c' j).begun = true)
    (hfresh : ∀ j b, c' j = .joinSsl b → fd = some f.nsock)
    (hsock : ∀ n, fd = some n → n < nsock) (hle : f.nsock ≤ nsock) :
    Addressed S { f with fd := fd, nsock := nsock } .none c' where
  bound := h.bound
  rest _ hr := by cases hr
  unsent hs := absurd rfl hs
  begun b hb := hbegun _ (h.begun b hb)
  sent e he := ⟨hbegun _ (h.sent e he).1, (h.sent e he).2⟩
  body k rest hk := absurd hk (hbody k rest)
  first := h.first
  next hs := absurd rfl hs
  fresh k b hk := by
    obtain rfl := hfresh k b hk
    exact h.later f.nsock (Nat.le_refl _)
  socket := hsock
  later n hn := h.later n (Nat.le_trans hle hn)

theorem Addressed.spawn {b : Bool} (h : Addressed S f .none c) (hk : c k = .joinSsl b)
    (hnil : f.unsent = []) : Addressed S f .spawned c where
  bound := h.bound
  rest _ hr := by cases hr
  unsent _ b hb := by rw [hnil] at hb; cases hb
  begun := h.begun
  sent := h.sent
  body := h.body
  first := h.first
  next _ := .inr (.inl ⟨(h.fresh k b hk).1, hnil⟩)
  fresh := h.fresh
  socket := h.socket
  later := h.later

theorem Flow.begin_opener {bs : List OutByte} {n : Option Nat} {j : ReqId}
    (h : f.opener n = some j) : (f.begin k bs).opener n = some j := by
  show Function.update f.opener f.fd _ n = some j
  by_cases hn : n = f.fd
  · subst hn
    rw [Function.update_self, h]
    rfl
  · rw [Function.update_of_ne hn, h]

theorem Flow.begin_opener_ne {bs : List OutByte} : (f.begin k bs).opener f.fd ≠ none := by
  show Function.update f.opener f.fd _ f.fd ≠ none
  rw [Function.update_self]
  exact nofun

theorem Addressed.begin (h : Addressed S f send c) (hrun : send ≠ .none) (halone : Alone c k)
    (hk : (c k).begun = false) {bs : List OutByte} (hne : bs ≠ []) (hbs : bs <+: S.headOf k)
    (hreq : ∀ b ∈ bs, b.req = k) {pc : ClientPc} (hpc : pc.begun = true)
    (hbody : ∀ rest, pc = .body rest → ∀ b ∈ rest, b.req = k) :
    Addressed S (f.begin k bs) send (Function.update c k pc) := by
  have hunsent : (f.begin k bs).unsent = f.unsent ++ bs := f.unsent_append bs h.bound
  have hother : ∀ {j : ReqId}, (c j).begun = true → j ≠ k := fun hj hjk => by
    rw [hjk, hk] at hj
    cases hj
  have hclient : ∀ {j : ReqId}, (c j).begun = true →
      (Function.update c k pc j).begun = true := fun hj => by
    rw [Function.update_of_ne (hother hj)]
    exact hj
  have hsock : ∀ {j : ReqId}, (c j).begun = true → (f.begin k bs).sock j = f.sock j :=
    fun hj => Function.update_of_ne (hother hj) _ _
  have hself : (f.begin k bs).sock k = f.fd := Function.update_self ..
  have hhead : (S.headOf k).head? = bs.head? := by
    obtain ⟨t, ht⟩ := hbs
    rw [← ht, List.head?_append]
    cases bs with
    | nil => exact absurd rfl hne
    | cons b bs => rfl
  refine ⟨?_, fun rest hr => ?_, fun _ b hb => ?_, fun b hb => ?_, fun e he => ?_,
    fun j rest hj => ?_, fun n e he => ?_, fun _ => ?_, fun j b hj => ?_, h.socket, fun n hn => ?_⟩
  · exact Nat.le_trans h.bound (by simp [Flow.begin, Flow.append])
  · obtain ⟨hrest, hpre⟩ := h.rest rest hr
    exact ⟨hrest, by rw [hunsent]; exact hpre.trans (List.prefix_append ..)⟩
  · rw [hunsent] at hb
    rcases List.mem_append.mp hb with hb | hb
    · rw [hsock (h.begun b hb)]
      exact h.unsent hrun b hb
    · rw [hreq b hb]
      exact hself
  · rw [hunsent] at hb
    rcases List.mem_append.mp hb with hb | hb
    · exact hclient (h.begun b hb)
    · rw [hreq b hb, Function.update_self]
      exact hpc
  · obtain ⟨hb, hs⟩ := h.sent e he
    exact ⟨hclient hb, by rw [hsock hb]; exact hs⟩
  · by_cases hjk : j = k
    · subst hjk
      rw [Function.update_self] at hj
      exact ⟨hbody rest hj, hself, Flow.begin_opener_ne⟩
    · rw [Function.update_of_ne hjk] at hj
      exact absurd (halone.not_body hj) hjk
  · obtain ⟨j, hj, hhd⟩ := h.first n e he
    exact ⟨j, Flow.begin_opener hj, hhd⟩
  · rcases h.next hrun with hsome | ⟨hnone, hnil⟩ | ⟨b, rest, j, hrest, hj, hhd⟩
    · exact .inl hsome
    · -- the first request on this socket
      right; right
      obtain ⟨b, rest, rfl⟩ := List.exists_cons_of_ne_nil hne
      refine ⟨b, rest, k, by rw [hunsent, hnil]; rfl, ?_, hhead⟩
      show Function.update f.opener f.fd _ f.fd = some k
      rw [Function.update_self, hnone]
      rfl
    · right; right
      exact ⟨b, rest ++ bs, j, by rw [hunsent, hrest]; rfl, Flow.begin_opener hj, hhd⟩
  · by_cases hjk : j = k
    · rw [hjk, Function.update_self] at hj
      rw [hj] at hpc
      cases hpc
    · rw [Function.update_of_ne hjk] at hj
      exact absurd (halone.not_joinSsl hj) hjk
  · have hn : f.nsock ≤ n := hn
    refine ⟨?_, (h.later n hn).2⟩
    have hne : some n ≠ f.fd := fun hfd => by
      have := h.socket n hfd.symm
      omega
    show Function.update f.opener f.fd _ (some n) = none
    rw [Function.update_of_ne hne]
    exact (h.later n hn).1

theorem Addressed.append {rest bs : List OutByte} (h : Addressed S f send c)
    (hk : c k = .body rest) (hbs : bs ⊆ rest) {pc : ClientPc} (hpc : pc.begun = true)
    (hbody : ∀ rest', pc = .body rest' → rest' ⊆ rest) :
    Addressed S (f.append bs) send (Function.update c k pc) := by
  obtain ⟨hreq, hsock, hopen⟩ := h.body k rest hk
  have hunsent := f.unsent_append bs h.bound
  have hclient : ∀ j, (c j).begun = true → (Function.update c k pc j).begun = true :=
    begun_update fun _ => hpc
  refine ⟨?_, fun rest' hr => ?_, fun hs b hb => ?_, fun b hb => ?_,
    fun e he => ⟨hclient _ (h.sent e he).1, (h.sent e he).2⟩, fun j rest' hj => ?_, h.first,
    fun hs => ?_, fun j b hj => ?_, h.socket, h.later⟩
  · exact Nat.le_trans h.bound (by simp [Flow.append])
  · obtain ⟨hne, hpre⟩ := h.rest rest' hr
    exact ⟨hne, by rw [hunsent]; exact hpre.trans (List.prefix_append ..)⟩
  · rw [hunsent] at hb
    rcases List.mem_append.mp hb with hb | hb
    · exact h.unsent hs b hb
    · rw [hreq b (hbs hb)]
      exact hsock
  · rw [hunsent] at hb
    rcases List.mem_append.mp hb with hb | hb
    · exact hclient _ (h.begun b hb)
    · rw [hreq b (hbs hb), Function.update_self]
      exact hpc
  · by_cases hjk : j = k
    · subst hjk
      rw [Function.update_self] at hj
      exact ⟨fun b hb => hreq b (hbody rest' hj hb), hsock, hopen⟩
    · rw [Function.update_of_ne hjk] at hj
      exact h.body j rest' hj
  · rcases h.next hs with hsome | ⟨hnone, _⟩ | ⟨b, bs', j, hrest, hj⟩
    · exact .inl hsome
    · exact absurd hnone hopen
    · exact .inr (.inr ⟨b, bs' ++ bs, j, by rw [hunsent, hrest]; rfl, hj⟩)
  · by_cases hjk : j = k
    · rw [hjk, Function.update_self] at hj
      rw [hj] at hpc
      cases hpc
    · rw [Function.update_of_ne hjk] at hj
      exact h.fresh j b hj

theorem Addressed.starts (h : Addressed S f send c) (hrun : send ≠ .none) (hne : f.unsent ≠ []) :
    Addressed S f (.writing f.unsent) c where
  bound := h.bound
  rest rest hr := by
    cases hr
    exact ⟨hne, List.prefix_refl _⟩
  unsent _ := h.unsent hrun
  begun := h.begun
  sent := h.sent
  body := h.body
  first := h.first
  next _ := h.next hrun
  fresh := h.fresh
  socket := h.socket
  later := h.later

theorem Addressed.rewound (h : Addressed S f send c) (hrun : send' ≠ .none → send ≠ .none)
    (hsent : f.unsent = [] ∨ ∃ e ∈ f.wire, e.1 = f.fd) (hsend : ∀ rest, send' ≠ .writing rest) :
    Addressed S f.rewound send' c := by
  have hunsent : f.rewound.unsent = [] := rfl
  refine ⟨Nat.le_refl _, fun rest hr => absurd hr (hsend rest), fun _ b hb => ?_, fun b hb => ?_,
    h.sent, h.body, h.first, fun hs => ?_, h.fresh, h.socket, h.later⟩
  · rw [hunsent] at hb; cases hb
  · rw [hunsent] at hb; cases hb
  · rcases hsent with hnil | hsome
    · rcases h.next (hrun hs) with hsome | ⟨hnone, _⟩ | ⟨b, bs, k, hrest, _⟩
      · exact .inl hsome
      · exact .inr (.inl ⟨hnone, hunsent⟩)
      · rw [hnil] at hrest
        cases hrest
    · exact .inl hsome

theorem Flow.unsent_wrote {bs rest : List OutByte} (h : f.unsent = bs ++ rest) :
    (f.wrote bs).unsent = rest := by
  show f.out.drop (f.outPos + bs.length) = rest
  rw [← List.drop_drop]
  exact (congrArg (List.drop bs.length) h).trans List.drop_left

theorem Flow.mem_wire_wrote {bs : List OutByte} {e : Option Nat × OutByte}
    (h : e ∈ (f.wrote bs).wire) : e ∈ f.wire ∨ e.1 = f.fd ∧ e.2 ∈ bs := by
  rcases List.mem_append.mp h with h | h
  · exact .inl h
  · obtain ⟨b, hb, rfl⟩ := List.mem_map.mp h
    exact .inr ⟨rfl, hb⟩

/-- The byte that is next, on a socket that nothing was written to, begins a head. -/
theorem Addressed.next_byte (h : Addressed S f send c) (hrun : send ≠ .none) {b : OutByte}
    {bs : List OutByte} (hunsent : f.unsent = b :: bs) : (∃ e ∈ f.wire, e.1 = f.fd) ∨
      ∃ k, f.opener f.fd = some k ∧ (S.headOf k).head? = some b := by
  rcases h.next hrun with hsome | ⟨-, hnil⟩ | ⟨b', bs', k, hrest, hk, hhd⟩
  · exact .inl hsome
  · cases hunsent.symm.trans hnil
  · cases hunsent.symm.trans hrest
    exact .inr ⟨k, hk, hhd⟩

/-- The first byte on a socket: it was there, or it is the first of those that are
written. -/
theorem Addressed.first_wrote (h : Addressed S f send c) (hrun : send ≠ .none) {b : OutByte}
    {bs rest : List OutByte} (hunsent : f.unsent = b :: (bs ++ rest)) {n : Nat}
    {e : Option Nat × OutByte}
    (he : (f.wrote (b :: bs)).wire.find? (fun e => e.1 == some n) = some e) :
    ∃ k, f.opener (some n) = some k ∧ (S.headOf k).head? = some e.2 := by
  have he : (f.wire ++ onSocket f.fd (b :: bs)).find? (fun e => e.1 == some n) = some e := he
  rw [List.find?_append] at he
  cases hold : f.wire.find? (fun e => e.1 == some n) with
  | some e' =>
      rw [hold, Option.some_or] at he
      obtain rfl := Option.some.inj he
      exact h.first n _ hold
  | none =>
      rw [hold, Option.none_or] at he
      have hfd : f.fd = some n := by
        obtain ⟨b', -, hb'⟩ := List.mem_map.mp (List.mem_of_find?_eq_some he)
        have hn := List.find?_some he
        rw [← hb'] at hn
        exact beq_iff_eq.mp hn
      have hfirst : e = (f.fd, b) := by
        rw [onSocket, List.map_cons, List.find?_cons_of_pos (by simp [hfd])] at he
        exact (Option.some.inj he).symm
      rcases h.next_byte hrun hunsent with ⟨e', he', hfd'⟩ | ⟨k, hk, hhd⟩
      · exact absurd (beq_iff_eq.mpr (hfd'.trans hfd)) (List.find?_eq_none.mp hold e' he')
      · rw [hfirst, ← hfd]
        exact ⟨k, hk, hhd⟩

theorem Addressed.wrote {bs rest : List OutByte} (h : Addressed S f (.writing (bs ++ rest)) c)
    (hne : bs ≠ []) (hsend : ∀ r, send' = .writing r → r = rest ∧ rest ≠ []) :
    Addressed S (f.wrote bs) send' c := by
  have hrun : SendPc.writing (bs ++ rest) ≠ .none := nofun
  obtain ⟨-, more, hmore⟩ := h.rest _ rfl
  obtain ⟨b₀, bs', rfl⟩ := List.exists_cons_of_ne_nil hne
  have hsplit : f.unsent = b₀ :: bs' ++ (rest ++ more) := by rw [← hmore, List.append_assoc]
  have hunsent := Flow.unsent_wrote hsplit
  have hmem : ∀ b ∈ (f.wrote (b₀ :: bs')).unsent, b ∈ f.unsent := fun b hb => by
    rw [hsplit]
    exact List.mem_append_right _ (hunsent ▸ hb)
  have hbs : ∀ b ∈ b₀ :: bs', b ∈ f.unsent := fun b hb => by
    rw [hsplit]
    exact List.mem_append_left _ hb
  constructor
  case bound =>
    have hlen := congrArg List.length hsplit
    have hbound := h.bound
    rw [Flow.unsent, List.length_drop, List.length_append] at hlen
    show f.outPos + (b₀ :: bs').length ≤ f.out.length
    omega
  case rest =>
    intro r hr
    obtain ⟨rfl, hrne⟩ := hsend r hr
    exact ⟨hrne, by rw [hunsent]; exact List.prefix_append ..⟩
  case unsent => exact fun _ b hb => h.unsent hrun b (hmem b hb)
  case begun => exact fun b hb => h.begun b (hmem b hb)
  case sent =>
    intro e he
    rcases Flow.mem_wire_wrote he with he | ⟨hfd, hb⟩
    · exact h.sent e he
    · exact ⟨h.begun _ (hbs _ hb), (h.unsent hrun _ (hbs _ hb)).trans hfd.symm⟩
  case body => exact h.body
  case first => exact fun n e he => h.first_wrote hrun hsplit he
  case next =>
    exact fun _ => .inl ⟨(f.fd, b₀), List.mem_append_right _ List.mem_cons_self, rfl⟩
  case fresh =>
    -- nothing is written before the first request of a connection is begun
    intro j b hj
    obtain ⟨hopen, hnone⟩ := h.fresh j b hj
    rcases h.next_byte hrun hsplit with ⟨e', he', hfd'⟩ | ⟨k, hk, -⟩
    · exact absurd hfd' (hnone e' he')
    · cases hopen.symm.trans hk
  case socket => exact h.socket
  case later =>
    intro n (hn : f.nsock ≤ n)
    refine ⟨(h.later n hn).1, fun e he => ?_⟩
    rcases Flow.mem_wire_wrote he with he | ⟨hfd, -⟩
    · exact (h.later n hn).2 e he
    · intro hn'
      have hsock := h.socket n (hfd.symm.trans hn')
      omega

end

def Sys.Addressed (S : Setting) (s : Sys) : Prop :=
  MnHttpc.Addressed S s.flow s.send s.client

section
variable {S : Setting} {s s' : Sys} {k : ReqId} {a : Act}

theorem headOf_req (S : Setting) (k : ReqId) : ∀ b ∈ S.headOf k, b.req = k := by
  intro b hb
  obtain ⟨e, -, rfl⟩ := List.mem_map.mp hb
  rfl

theorem bodyOf_req (S : Setting) (k : ReqId) : ∀ b ∈ S.bodyOf k, b.req = k := by
  intro b hb
  obtain ⟨e, -, rfl⟩ := List.mem_map.mp hb
  rfl

theorem addressed_starts {failed : Option Nat} (h : s.Addressed S) (hrun : s.send ≠ .none)
    (halone : Alone s.client k) (hk : (s.client k).begun = false)
    (hst : Starts S s k failed s') : s'.Addressed S := by
  cases hst with
  | refused => exact h.calls (follows_early rfl hk (fun _ => nofun) fun _ => nofun)
  | broken =>
      refine h.begin hrun halone hk ?_ (List.take_prefix ..)
        (fun b hb => headOf_req S k b (List.mem_of_mem_take hb)) rfl fun _ => nofun
      rw [ne_eq, List.take_eq_nil_iff]
      exact fun hnil => hnil.elim (fun h0 => by cases h0) (S.headOf_ne k)
  | body =>
      refine h.begin hrun halone hk (S.headOf_ne k) (List.prefix_refl _) (headOf_req S k) rfl ?_
      rintro rest ⟨⟩
      exact bodyOf_req S k
  | plain =>
      have hbegun : MnHttpc.Addressed S (s.flow.begin k (S.headOf k)) s.send
          (Function.update s.client k .subscribed) :=
        h.begin hrun halone hk (S.headOf_ne k) (List.prefix_refl _) (headOf_req S k) rfl
          fun _ => nofun
      exact hbegun.signalled

theorem Addressed.reopen {f : Flow} {c : ReqId → ClientPc} {pc : ClientPc} {fd : Option Nat}
    {nsock : Nat} (h : Addressed S f .none c) (halone : Alone c k) (hk : (c k).begun = false)
    (hbody : ∀ rest, pc ≠ .body rest) (hpc : ∀ b, pc = .joinSsl b → fd = some f.nsock)
    (hsock : ∀ n, fd = some n → n < nsock) (hle : f.nsock ≤ nsock) :
    Addressed S { f with fd := fd, nsock := nsock } .none (Function.update c k pc) := by
  refine h.move (halone.update_not_body hbody) (begun_early rfl hk) ?_ hsock hle
  exact (Function.forall_update_iff c fun _ pc' => ∀ b, pc' = .joinSsl b → fd = some f.nsock).mpr
    ⟨hpc, fun j hj b hb => absurd (halone.not_joinSsl hb) hj⟩

theorem addressed_closeFd (h : s.Addressed S) (hsend : s.send = .none)
    (halone : Alone s.client k) (hk : (s.client k).begun = false) :
    (s.closeFd k).Addressed S := by
  unfold Sys.Addressed at h ⊢
  rw [hsend] at h
  show MnHttpc.Addressed S { s.flow with fd := none, nsock := s.nsock } s.send _
  rw [hsend]
  exact h.reopen halone hk (fun _ => nofun) (fun _ => nofun) (fun _ => nofun) (Nat.le_refl _)

theorem addressed_closes (h : s.Addressed S) (hsend : s.conn.sendThread = false → s.send = .none)
    (halone : Alone s.client k) (hk : (s.client k).begun = false) (hcl : Closes s k s') :
    s'.Addressed S := by
  cases hcl with
  | joinSend => exact h.calls (follows_early rfl hk (fun _ => nofun) fun _ => nofun)
  | joinRecv => exact h.calls (follows_early rfl hk (fun _ => nofun) fun _ => nofun)
  | connect hs _ => exact addressed_closeFd h (hsend hs) halone hk

theorem addressed_step (h : s.Addressed S) (hw : Wf s) (hC : LeavesNothing S s a)
    (hs : Step S s a s') : s'.Addressed S := by
  have held : ∀ {k : ReqId} {pc : ClientPc}, s.client k = pc → pc.holds = true →
      Alone s.client k := fun hk hpc => hw.holder.alone (by rw [hk, hpc])
  have new : ∀ {k : ReqId} {pc : ClientPc}, s.client k = pc → pc.begun = false →
      (s.client k).begun = false := fun hk hpc => by rw [hk, hpc]
  have ended : s.conn.sendThread = false → s.send = .none := hw.workers.sendNone
  cases hs with
  | call hk => exact h.calls (follows_early hk rfl (fun _ => nofun) fun _ => nofun)
  | acquire hk hsema hsend _ hst =>
      exact addressed_starts (s := s.hold _) h (hw.workers.send.mp hsend) (hw.holder.free hsema)
        (new hk rfl) hst
  | reconnect hk hsema hcl =>
      exact addressed_closes (s := s.hold _) h ended (hw.holder.free hsema) (new hk rfl) hcl
  | acquireFails hk => exact h.calls (follows_early hk rfl (fun _ => nofun) fun _ => nofun)
  | sendJoined hk hnone hcl =>
      exact addressed_closes (s := s.clearSend) h (fun _ => hnone) (held hk rfl) (new hk rfl) hcl
  | @recvJoined k hk _ =>
      exact addressed_closeFd (s := s.clearRecv) h (hw.workers.noSend k trivial (by rw [hk]; rfl))
        (held hk rfl) (new hk rfl)
  | @connected k hk =>
      have hnone := hw.workers.noSend k trivial (by rw [hk]; rfl)
      unfold Sys.Addressed at h ⊢
      rw [hnone] at h
      show MnHttpc.Addressed S { s.flow with fd := some s.nsock, nsock := s.nsock + 1 } s.send _
      rw [hnone]
      refine h.reopen (held hk rfl) (new hk rfl) (fun _ => nofun) (fun _ _ => rfl) ?_
        (Nat.le_succ _)
      rintro n ⟨⟩
      exact Nat.lt_succ_self _
  | connectFails hk => exact h.calls (follows_early hk rfl (fun _ => nofun) fun _ => nofun)
  | @sslStart k hk =>
      have hflow : (s.sslInit k).flow = s.flow := by
        unfold Sys.flow Sys.sslInit
        dsimp only [Sys.setClient]
        rw [Conn.sslInit_frame]
      unfold Sys.Addressed
      rw [hflow]
      exact h.calls (follows_update (fun hb => by rw [hk] at hb; cases hb) (fun _ => nofun)
        fun _ _ => ⟨_, hk⟩)
  | @sslDone _ k _ hk hst =>
      have hnone := hw.workers.noSend k trivial (by rw [hk]; rfl)
      unfold Sys.Addressed at h
      rw [hnone] at h
      exact addressed_starts (s := s.spawn) (h.spawn hk hC.1) nofun (held hk rfl) (new hk rfl) hst
  | sslFails hk => exact h.calls (follows_early hk rfl (fun _ => nofun) fun _ => nofun)
  | @body k n rest hk =>
      refine Addressed.append h hk (List.take_subset ..) rfl ?_
      rintro _ ⟨⟩
      exact List.drop_subset ..
  | @bodyDone k rest hk =>
      have hall : MnHttpc.Addressed S (s.flow.append rest) s.send
          (Function.update s.client k .subscribed) :=
        Addressed.append h hk (List.Subset.refl _) rfl fun _ => nofun
      exact hall.signalled
  | wake hk => exact h.calls (follows_update (fun _ => rfl) (fun _ => nofun) fun _ => nofun)
  | interrupt hk => exact h.calls (follows_update (fun _ => rfl) (fun _ => nofun) fun _ => nofun)
  | sendNothing hrun hnil =>
      exact h.rewound (fun _ => by rcases hrun with hr | hr <;> rw [hr] <;> exact nofun) (.inl hnil)
        fun _ => nofun
  | sendStart hrun hne =>
      exact h.starts (by rcases hrun with hr | hr <;> rw [hr] <;> exact nofun) hne
  | @sendSome n rest hsend hpos hlt =>
      unfold Sys.Addressed at h
      rw [hsend, ← List.take_append_drop n rest] at h
      have hdrop : rest.drop n ≠ [] := fun hnil => by
        have := List.drop_eq_nil_iff.mp hnil
        omega
      refine h.wrote ?_ ?_
      · rw [ne_eq, List.take_eq_nil_iff]
        rintro (rfl | rfl)
        · omega
        · cases hlt
      · rintro r ⟨⟩
        exact ⟨rfl, hdrop⟩
  | @sendLast rest hsend hne =>
      unfold Sys.Addressed at h
      rw [hsend, ← List.append_nil rest] at h
      have hwrote : MnHttpc.Addressed S (s.flow.wrote rest) .subscribed s.client :=
        h.wrote hne fun _ => nofun
      obtain ⟨b, bs, rfl⟩ := List.exists_cons_of_ne_nil hne
      exact hwrote.rewound (fun _ => nofun)
        (.inr ⟨(s.conn.fd, b), List.mem_append_right _ List.mem_cons_self, rfl⟩) fun _ => nofun
  | sendExit => exact h.same (.refl _) (fun _ => nofun) fun hn => absurd rfl hn
  | recvOk => exact h.calls (follows_signalRecv _ _)
  | recvBad => exact h.calls (follows_signalRecv _ _)
  | gc =>
      have hwriting : ∀ rest, s.send ≠ .writing rest := fun rest hr => by
        obtain ⟨hne, hpre⟩ := h.rest rest hr
        rw [show s.flow.unsent = [] from hC.1] at hpre
        exact hne (List.prefix_nil.mp hpre)
      exact h.rewound id (.inl hC.1) hwriting
  | _ => exact h

/-! ## The incoming half -/

end

/-- What the incoming half is about. -/
structure Inflow where
  fd : Option Nat
  inp : Stream
  requests : List ReqId
  origins : List (Option Nat)
  sock : ReqId → Option Nat
  fed : ReqId → List (Option Nat)

def Sys.inflow (s : Sys) : Inflow :=
  ⟨s.conn.fd, s.conn.inp, s.conn.requests, s.log.origins, s.log.sock, s.log.fed⟩

/-- The receive worker takes nothing in front of `b`. -/
def RecvPc.From (b : Nat) (inp : Stream) : RecvPc → Prop
  | .none => True
  | .waitRead => (b : Int) ≤ inp.pos ∧ inp.pos ≤ inp.eod + 2
  | .parsing p => Forward b (p.loop inp []).par

/-- The bytes of `conn->in` that are still to be parsed are from the socket, and
the requests they are for were begun on it. -/
structure Sourced (g : Inflow) (recv : RecvPc) (client : ReqId → ClientPc) : Prop where
  length : g.origins.length = g.inp.data.length
  queued : recv ≠ .none → ∀ k ∈ g.requests, g.sock k = g.fd
  parsing : ∀ k ∈ recv.reqs, g.sock k = g.fd
  fed : ∀ k, ∀ o ∈ g.fed k, o = g.sock k
  unfed : ∀ k, (client k).begun = false → g.fed k = []
  place : recv ≠ .none → ∃ b, (∀ o ∈ g.origins.drop b, o = g.fd) ∧ recv.From b g.inp

section
variable {g : Inflow} {recv : RecvPc} {c c' : ReqId → ClientPc} {k : ReqId}

theorem Sourced.init : Sourced ⟨none, bytestreamInit, [], [], fun _ => none, fun _ => []⟩ .none
    (fun _ => .idle) where
  length := rfl
  queued h := absurd rfl h
  parsing _ h := by cases h
  fed _ _ h := by cases h
  unfed _ _ := rfl
  place h := absurd rfl h

theorem Sourced.calls (h : Sourced g recv c) (hc : ∀ j, (c j).begun = true → (c' j).begun = true) :
    Sourced g recv c' :=
  ⟨h.length, h.queued, h.parsing, h.fed, fun k hk => h.unfed k (Bool.eq_false_iff.mpr fun hb => by
    rw [hc k hb] at hk
    cases hk), h.place⟩

theorem Sourced.ends (h : Sourced g recv c) {fd : Option Nat} :
    Sourced { g with fd := fd } .none c :=
  ⟨h.length, fun hn => absurd rfl hn, fun _ hk => (by cases hk), h.fed, h.unfed,
    fun hn => absurd rfl hn⟩

theorem Sourced.spawn (h : Sourced g .none c) (hpos : ReadUp g.inp)
    (hnil : g.requests = []) : Sourced g .waitRead c := by
  refine ⟨h.length, fun _ k hk => ?_, fun _ hk => (by cases hk), h.fed, h.unfed, fun _ => ?_⟩
  · rw [hnil] at hk
    cases hk
  · refine ⟨g.inp.data.length, fun o ho => ?_, hpos⟩
    rw [List.drop_eq_nil_of_le (Nat.le_of_eq h.length)] at ho
    cases ho

theorem Sourced.begin (h : Sourced g recv c) (hk : (c k).begun = false) (hqueue : k ∉ g.requests)
    (hparse : k ∉ recv.reqs) {pc : ClientPc} :
    Sourced { g with sock := Function.update g.sock k g.fd } recv (Function.update c k pc) := by
  have hother : ∀ {j : ReqId}, j ≠ k → Function.update g.sock k g.fd j = g.sock j :=
    fun hj => Function.update_of_ne hj _ _
  refine ⟨h.length, fun hr j hj => ?_, fun j hj => ?_, fun j o ho => ?_, fun j hj => ?_, h.place⟩
  · exact (hother fun hjk => hqueue (hjk ▸ hj)).trans (h.queued hr j hj)
  · exact (hother fun hjk => hparse (hjk ▸ hj)).trans (h.parsing j hj)
  · have hjk : j ≠ k := fun hjk => by
      subst hjk
      have hnil : g.fed j = [] := h.unfed j hk
      simp only [hnil] at ho
      cases ho
    exact (h.fed j o ho).trans (hother hjk).symm
  · by_cases hjk : j = k
    · rw [hjk]
      exact h.unfed k hk
    · rw [Function.update_of_ne hjk] at hj
      exact h.unfed j hj

theorem Sourced.enqueue (h : Sourced g recv c) (hk : g.sock k = g.fd) :
    Sourced { g with requests := g.requests ++ [k] } recv c := by
  refine ⟨h.length, fun hr j hj => ?_, h.parsing, h.fed, h.unfed, h.place⟩
  rcases List.mem_append.mp hj with hj | hj
  · exact h.queued hr j hj
  · rw [List.mem_singleton.mp hj]
    exact hk

theorem Sourced.parseNull (h : Sourced g .waitRead c) (errno : Int) :
    Sourced g (.parsing (.start none errno)) c := by
  refine ⟨h.length, fun _ => h.queued nofun, fun _ hk => (by cases hk), h.fed, h.unfed,
    fun _ => ?_⟩
  obtain ⟨b, horigin, hb, hle⟩ := h.place nofun
  exact ⟨b, horigin, forward_init errno hb hle⟩

theorem Sourced.parseFor {ks : List ReqId} (h : Sourced g .waitRead c)
    (hqueue : g.requests = k :: ks) (hk : (c k).begun = true) (errno : Int) :
    Sourced { g with
      requests := ks
      fed := Function.update g.fed k (g.origins.drop g.inp.pos.toNat) }
      (.parsing (.start (some k) errno)) c := by
  obtain ⟨b, horigin, hb, hle⟩ := h.place nofun
  have hqueued := h.queued nofun
  rw [hqueue] at hqueued
  have hsock : g.sock k = g.fd := hqueued k List.mem_cons_self
  refine ⟨h.length, fun _ j hj => hqueued j (List.mem_cons_of_mem _ hj), fun j hj => ?_, ?_,
    fun j hj => ?_, fun _ => ⟨b, horigin, forward_init errno hb hle⟩⟩
  · rw [List.mem_singleton.mp hj]
    exact hsock
  · refine (Function.forall_update_iff g.fed fun j fed => ∀ o ∈ fed, o = g.sock j).mpr
      ⟨fun o ho => ?_, fun j _ => h.fed j⟩
    -- what is unparsed lies behind `b`
    rw [hsock]
    refine horigin o ((List.drop_sublist_drop_left g.origins ?_).mem ho)
    omega
  · have hjk : j ≠ k := fun hjk => by
      rw [hjk, hk] at hj
      cases hj
    show Function.update g.fed k _ j = []
    rw [Function.update_of_ne hjk]
    exact h.unfed j hj

/-- What a step of the parser does: bytes are read for a request, and `inp` is
left. -/
def Inflow.received (g : Inflow) (req : Option ReqId) (bs : List UInt8) (inp : Stream) : Inflow :=
  let origins := g.origins ++ List.replicate bs.length g.fd
  { g with
    inp := inp
    origins := origins.drop (origins.length - inp.data.length)
    fed := fun k =>
      if req = some k then g.fed k ++ List.replicate bs.length g.fd else g.fed k }

theorem Sourced.received {p : Parse} {bs : List UInt8} {inp : Stream} {r : Nat} {recv' : RecvPc}
    (h : Sourced g (.parsing p) c) (hlen : inp.data.length + r = g.inp.data.length + bs.length)
    (hreqs : ∀ k ∈ recv'.reqs, p.req = some k) (hbegun : ∀ k, p.req = some k → (c k).begun = true)
    (hfrom : recv' ≠ .none → ∀ b, Forward b (p.loop g.inp []).par → recv'.From (b - r) inp) :
    Sourced (g.received p.req bs inp) recv' c := by
  have hsock : ∀ k, p.req = some k → g.sock k = g.fd := fun k hk =>
    h.parsing k (Option.mem_toList.mpr hk)
  have hlength : (g.origins ++ List.replicate bs.length g.fd).length = inp.data.length + r := by
    rw [List.length_append, List.length_replicate, h.length, hlen]
  have horigins : (g.received p.req bs inp).origins =
      (g.origins ++ List.replicate bs.length g.fd).drop r := by
    show List.drop (_ - _) _ = _
    rw [hlength, Nat.add_sub_cancel_left]
  refine ⟨?_, fun _ => h.queued nofun, fun k hk => hsock k (hreqs k hk), fun k o ho => ?_,
    fun k hk => ?_, fun hrun => ?_⟩
  · rw [horigins, List.length_drop, hlength, Nat.add_sub_cancel]
    rfl
  · have ho : o ∈ (if p.req = some k then g.fed k ++ List.replicate bs.length g.fd
        else g.fed k) := ho
    split at ho
    · rename_i hk
      rcases List.mem_append.mp ho with ho | ho
      · exact h.fed k o ho
      · exact (List.eq_of_mem_replicate ho).trans (hsock k hk).symm
    · exact h.fed k o ho
  · show (if p.req = some k then _ else g.fed k) = []
    rw [if_neg fun hreq => by rw [hbegun k hreq] at hk; cases hk]
    exact h.unfed k hk
  · obtain ⟨b, horigin, hforward⟩ := h.place nofun
    refine ⟨b - r, fun o ho => ?_, hfrom hrun b hforward⟩
    rw [horigins, List.drop_drop] at ho
    have ho := (List.drop_sublist_drop_left _ (show b ≤ r + (b - r) by omega)).mem ho
    rw [List.drop_append] at ho
    rcases List.mem_append.mp ho with ho | ho
    · exact horigin o ho
    · exact List.eq_of_mem_replicate (List.mem_of_mem_drop ho)

end

/-! ### The parser in the receive worker -/

section
variable {S : Setting} {s s' : Sys} {k : ReqId} {a : Act} {p : Parse} {rd : Option Read}
  {q : Parser} {b : Nat}

theorem natCast_split {x y r : Nat} (h : (x : Int) = y - r) (_ : (r : Int) ≤ y) :
    x + r = y + 0 := by
  omega

theorem parseStep_again {pc : Pc} (h : s.parseStep S p rd = .again ⟨pc, q, []⟩)
    (hf : Forward b (p.loop s.conn.inp []).par)
    (hmax : s.conn.inp.eod + (bytesOf rd).length ≤ intMax) :
    ∃ r, q.inp.data.length + r = s.conn.inp.data.length + (bytesOf rd).length ∧
      Forward (b - r) q := by
  unfold Sys.parseStep at h
  generalize s.conn.inp = inp at *
  obtain ⟨req, pc', ctx, errno, calls⟩ := p
  match rd with
  | none =>
      cases loopStep_again_iff.mp h with
      | look => exact ⟨0, rfl, hf⟩
      | pass again =>
          have hmax : inp.eod ≤ intMax := by simpa [bytesOf] using hmax
          obtain ⟨r, heod, hr, hf'⟩ := hf.again (l := .status .ok) hmax again
          exact ⟨r, natCast_split heod hr, hf'⟩
  | some (.fail _) => cases loopStep_again_iff.mp h
  | some (.bytes bs slack) =>
      cases loopStep_again_iff.mp h with
      | read => exact ⟨0, by simp [bytesOf], hf.consume⟩

theorem parseStep_done {res : Res} (h : s.parseStep S p rd = .done (.returned res q [])) :
    ∃ r, q.inp.data.length + r = s.conn.inp.data.length + (bytesOf rd).length := by
  unfold Sys.parseStep at h
  generalize s.conn.inp = inp at *
  obtain ⟨req, pc', ctx, errno, calls⟩ := p
  match rd with
  | none =>
      cases loopStep_done_iff.mp h with
      | ret ret =>
          have hle : q.inp.eod ≤ inp.eod := dispatch_ret_eod_le (l := .status .ok) ret
          exact ⟨inp.data.length - q.inp.data.length, by
            unfold Stream.eod at hle
            simp only [bytesOf, List.length_nil]
            omega⟩
  | some (.fail _) =>
      cases loopStep_done_iff.mp h with
      | fail => exact ⟨0, rfl⟩
  | some (.bytes bs slack) => cases loopStep_done_iff.mp h

theorem parseStep_ok (h : s.parseStep S p rd = .done (.returned .ok q []))
    (hf : Forward b (p.loop s.conn.inp []).par)
    (hlen : q.ctx.flagChunked = true ∨ 0 ≤ q.ctx.bodysz) :
    ∃ r, q.inp.data.length + r = s.conn.inp.data.length + (bytesOf rd).length ∧
      ((b - r : Nat) : Int) ≤ q.inp.pos ∧ q.inp.pos ≤ q.inp.eod + 2 := by
  unfold Sys.parseStep at h
  generalize s.conn.inp = inp at *
  obtain ⟨req, pc', ctx, errno, calls⟩ := p
  match rd with
  | none =>
      cases loopStep_done_iff.mp h with
      | ret ret =>
          obtain ⟨r, heod, hr, hpos⟩ := hf.ok (l := .status .ok) ret hlen
          exact ⟨r, natCast_split heod hr, hpos⟩
  | some (.fail lres) =>
      have hdone := loopStep_done_iff.mp h
      generalize hres : Res.ok = res at hdone
      cases hdone with
      | fail => split at hres <;> cases hres
  | some (.bytes bs slack) => cases loopStep_done_iff.mp h

def Sys.Sourced (s : Sys) : Prop := MnHttpc.Sourced s.inflow s.recv s.client

theorem framed_ok (hr : s.recv = .parsing p) (h : s.parseStep S p rd = .done (.returned .ok q []))
    (hf : s.framed S rd = true) : q.ctx.flagChunked = true ∨ 0 ≤ q.ctx.bodysz := by
  simp only [Sys.framed, hr, h] at hf
  rcases Bool.or_eq_true_iff.mp hf with hf | hf
  · exact .inl hf
  · exact .inr (of_decide_eq_true hf)

/-- A request that was not begun is neither queued nor being parsed into. -/
theorem Wf.unqueued (h : Wf s) (hk : (s.client k).begun = false) :
    k ∉ s.conn.requests ∧ k ∉ s.recv.reqs := by
  have hnot : k ∉ s.answered ++ s.recv.reqs ++ s.conn.requests := fun hm => by
    rw [ClientPc.begun_of_enqueued ((h.served.enqueued k).mp hm)] at hk
    cases hk
  exact ⟨fun hm => hnot (List.mem_append_right _ hm),
    fun hm => hnot (List.mem_append_left _ (List.mem_append_right _ hm))⟩

theorem sourced_starts {failed : Option Nat} (h : s.Sourced) (hk : (s.client k).begun = false)
    (hqueue : k ∉ s.conn.requests) (hparse : k ∉ s.recv.reqs) (hst : Starts S s k failed s') :
    s'.Sourced := by
  cases hst with
  | refused => exact h.calls (begun_early rfl hk)
  | broken => exact h.begin hk hqueue hparse
  | body => exact h.begin hk hqueue hparse
  | plain => exact (h.begin hk hqueue hparse).enqueue (Function.update_self ..)

theorem sourced_closeFd (h : s.Sourced) (hrecv : s.recv = .none)
    (hk : (s.client k).begun = false) : (s.closeFd k).Sourced := by
  have hends : MnHttpc.Sourced { s.inflow with fd := none } .none s.client := h.ends
  rw [← hrecv] at hends
  exact hends.calls (begun_early rfl hk)

theorem sourced_closes (h : s.Sourced) (hrecv : s.conn.recvThread = false → s.recv = .none)
    (hk : (s.client k).begun = false) (hcl : Closes s k s') : s'.Sourced := by
  cases hcl with
  | joinSend => exact h.calls (begun_early rfl hk)
  | joinRecv => exact h.calls (begun_early rfl hk)
  | connect _ hr => exact sourced_closeFd h (hrecv hr) hk

theorem sourced_step (h : s.Sourced) (haddr : s.Addressed S) (hw : Wf s)
    (hC : LeavesNothing S s a) (hs : Step S s a s') : s'.Sourced := by
  have new : ∀ {k : ReqId} {pc : ClientPc}, s.client k = pc → pc.begun = false →
      (s.client k).begun = false := fun hk hpc => by rw [hk, hpc]
  have ended : s.conn.recvThread = false → s.recv = .none := hw.workers.recvNone
  have begun : ∀ k, k ∈ s.recv.reqs ++ s.conn.requests → (s.client k).begun = true :=
    fun k hk => ClientPc.begun_of_enqueued ((hw.served.enqueued k).mp (by
      rw [List.append_assoc]
      exact List.mem_append_right _ hk))
  have parsing : ∀ {p : Parse}, s.recv = .parsing p →
      MnHttpc.Sourced s.inflow (.parsing p) s.client ∧
      ∀ k, p.req = some k → (s.client k).begun = true := fun hr => by
    refine ⟨hr ▸ h, fun k hk => begun k (List.mem_append_left _ ?_)⟩
    rw [hr]
    exact Option.mem_toList.mpr hk
  cases hs with
  | call hk => exact h.calls (begun_early hk rfl)
  | acquire hk _ _ _ hst =>
      exact sourced_starts (s := s.hold _) h (new hk rfl) (hw.unqueued (new hk rfl)).1
        (hw.unqueued (new hk rfl)).2 hst
  | reconnect hk _ hcl => exact sourced_closes (s := s.hold _) h ended (new hk rfl) hcl
  | acquireFails hk => exact h.calls (begun_early hk rfl)
  | sendJoined hk _ hcl => exact sourced_closes (s := s.clearSend) h ended (new hk rfl) hcl
  | recvJoined hk hnone => exact sourced_closeFd (s := s.clearRecv) h hnone (new hk rfl)
  | @connected k hk =>
      have hnone := hw.workers.noRecv k trivial (by rw [hk]; rfl)
      have hends : MnHttpc.Sourced { s.inflow with fd := some s.nsock } .none s.client := h.ends
      rw [← hnone] at hends
      exact hends.calls (begun_early hk rfl)
  | connectFails hk => exact h.calls (begun_early hk rfl)
  | @sslStart k hk =>
      have hflow : (s.sslInit k).inflow = s.inflow := by
        unfold Sys.inflow Sys.sslInit
        dsimp only [Sys.setClient]
        rw [Conn.sslInit_frame]
      unfold Sys.Sourced
      rw [hflow]
      exact h.calls (begun_early hk rfl)
  | @sslDone _ k _ hk hst =>
      have hnone := hw.workers.noRecv k trivial (by rw [hk]; rfl)
      unfold Sys.Sourced at h
      rw [hnone] at h
      exact sourced_starts (s := s.spawn) (h.spawn hC.2.1 hC.2.2) (new hk rfl)
        (hw.unqueued (new hk rfl)).1 (fun hm => by cases hm) hst
  | sslFails hk => exact h.calls (begun_early hk rfl)
  | body => exact h.calls (begun_update fun _ => rfl)
  | bodyDone hk =>
      exact (h.enqueue (haddr.body _ _ hk).2.1).calls
        (begun_update fun _ => rfl)
  | wake => exact h.calls (begun_update fun _ => rfl)
  | interrupt => exact h.calls (begun_update fun _ => rfl)
  | recvNull hr _ =>
      unfold Sys.Sourced at h
      rw [hr] at h
      exact h.parseNull _
  | @recvFor _ k ks hr hq =>
      have hk := begun k (List.mem_append_right _ (by rw [hq]; exact List.mem_cons_self))
      unfold Sys.Sourced at h
      rw [hr] at h
      exact h.parseFor hq hk _
  | @recvOn rd p pc q hr _ hon _ =>
      obtain ⟨hp, hbegun⟩ := parsing hr
      obtain ⟨b, -, hf⟩ := hp.place nofun
      obtain ⟨r, hlen, -⟩ := parseStep_again hon hf hC.1
      refine hp.received hlen (fun k hk => Option.mem_toList.mp hk) hbegun fun _ b' hf' => ?_
      obtain ⟨r', hlen', hf''⟩ := parseStep_again hon hf' hC.1
      obtain rfl : r' = r := by omega
      exact hf''
  | @recvOk rd p q hr _ hok _ =>
      obtain ⟨hp, hbegun⟩ := parsing hr
      obtain ⟨r, hlen⟩ := parseStep_done hok
      have hreceived : MnHttpc.Sourced (s.inflow.received p.req (bytesOf rd) q.inp) .waitRead
          s.client := by
        refine hp.received hlen (fun _ hk => by cases hk) hbegun fun _ b' hf' => ?_
        obtain ⟨r', hlen', hpos⟩ := parseStep_ok hok hf' (framed_ok hr hok hC.2)
        obtain rfl : r' = r := by omega
        exact hpos
      exact hreceived.calls (follows_signalRecv s p.req).begun
  | @recvBad rd p r q hr _ hbad _ _ _ =>
      obtain ⟨hp, hbegun⟩ := parsing hr
      obtain ⟨r, hlen⟩ := parseStep_done hbad
      have hreceived : MnHttpc.Sourced (s.inflow.received p.req (bytesOf rd) q.inp) .none
          s.client :=
        hp.received hlen (fun _ hk => by cases hk) hbegun fun hn => absurd rfl hn
      exact hreceived.calls (follows_signalRecv s p.req).begun
  | recvExit => exact h.ends
  | gc =>
      refine ⟨rfl, h.queued, h.parsing, h.fed, h.unfed, fun hrun => ?_⟩
      refine ⟨0, fun o ho => (by cases ho), ?_⟩
      show s.recv.From 0 bytestreamInit
      cases hr : s.recv with
      | none => exact absurd hr hrun
      | waitRead => exact ⟨Int.le_refl 0, by decide⟩
      | parsing p =>
          have := hC.2
          rw [hr] at this
          cases this
  | _ => exact h

/-! ## Every run -/

/-- **No stale bytes, in every run in which nothing is left over when a
connection is made.** -/
theorem no_stale_bytes (S : Setting) (scheme : Scheme) (as : List Act)
    (h : Meets (step S) (LeavesNothing S) (.init scheme) as) :
    Along (step S) (NoStale S) (.init scheme) as := by
  refine along_of_meets (I := fun s => Wf s ∧ s.Addressed S ∧ s.Sourced) ?_ ?_
    ⟨wf_init scheme, Addressed.init, Sourced.init⟩ h
  · rintro s a s' ⟨hw, haddr, hsrc⟩ hC hs
    have hstep := (step_cases hs).2
    exact ⟨hw.step hstep, addressed_step haddr hw hC hstep, sourced_step hsrc haddr hw hC hstep⟩
  · rintro s ⟨_, haddr, hsrc⟩
    exact ⟨haddr.first, fun e he => (haddr.sent e he).2, hsrc.fed⟩

end

/-- The call of request 1, which finds the connection lost. -/
def secondCall : List Act :=
  [.call 1, .acquire 1 none, .connected 1, .sslStart 1, .sslDone 1 none, .sendRun]

/-- The connection is lost between two exchanges. -/
def lostIdle : List Act :=
  firstExchange ++ [.sendExit, .recvExit] ++ secondCall ++ [.sendWrite 1] ++
    reading (.bytes (ascii "HTTP/1.1 200 OK\r\nContent-Length: 0\r\n\r\n") []) 11 ++ [.wake 1]

theorem no_stale_bytes_idle : ∃ t,
    exec (step .small) (.init .http) lostIdle = some t ∧ t.client 1 = .done .ok ∧
      t.log.wire = [(some 0, ⟨0, 0, 0⟩), (some 1, ⟨1, 1, 0⟩)] ∧
      Along (step .small) (NoStale .small) (.init .http) lostIdle := by
  have hrun : (exec (step .small) (.init .http) lostIdle).map
      (fun t => (t.client 1, t.log.wire)) =
      some (.done .ok, [(some 0, ⟨0, 0, 0⟩), (some 1, ⟨1, 1, 0⟩)]) := by decide +kernel
  obtain ⟨t, ht, hobs⟩ := Option.map_eq_some_iff.mp hrun
  obtain ⟨hclient, hwire⟩ := Prod.mk.inj hobs
  exact ⟨t, ht, hclient, hwire, no_stale_bytes _ _ _ (by decide +kernel)⟩

/-- The connection is lost while request 0 is being written, after a response to
it that the parser refuses. -/
def lostBusy : List Act :=
  firstCall ++ [.sendRun] ++ reading (.bytes (ascii "HTTP/1.1 200 OK\r\nX\r\n") []) 7 ++
    [.wake 0, .sendExit] ++ secondCall ++ [.sendWrite 2, .recvReady 0]

/-- **The new socket is sent the byte of request 0 first, and request 1 is parsed
for from the bytes of the old one.** -/
theorem stale_after_reconnect : ∃ t,
    exec (step .small) (.init .http) lostBusy = some t ∧
      t.log.wire = [(some 1, ⟨0, 0, 0⟩), (some 1, ⟨1, 1, 0⟩)] ∧ t.log.opener (some 1) = some 1 ∧
      t.log.sock 1 = some 1 ∧ t.log.fed 1 = [some 0, some 0, some 0] ∧ ¬ NoStale .small t := by
  have hrun : (exec (step .small) (.init .http) lostBusy).map
      (fun t => (t.log.wire, t.log.opener (some 1), t.log.sock 1, t.log.fed 1)) =
      some ([(some 1, ⟨0, 0, 0⟩), (some 1, ⟨1, 1, 0⟩)], some 1, some 1,
        [some 0, some 0, some 0]) := by decide +kernel
  obtain ⟨t, ht, hobs⟩ := Option.map_eq_some_iff.mp hrun
  simp only [Prod.mk.injEq] at hobs
  obtain ⟨hwire, hopen, hsock, hfed⟩ := hobs
  refine ⟨t, ht, hwire, hopen, hsock, hfed, fun hstale => ?_⟩
  have hbad := hstale.fed 1 (some 0) (by rw [hfed]; exact List.mem_cons_self)
  cases hbad.trans hsock

end MnHttpc
