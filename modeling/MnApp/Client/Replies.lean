/-
# `MnApp.Client.Replies` — one response in the receive worker

The server sends responses one behind the other (`Exchange`).  Between two
parses the stream stands behind the last of them (`Between`), and inside one the
parser is where it would be on that response alone (`Reading`, from
`MnApp.Http.Piecewise`).  A parse has a request, or NULL.

    Between.begins   a parse starts
    Reading.goes     the parser goes on, with a read or without
    Reading.done     it returns: it has read the response
    Reading.lives    no header of the response was without a value
    Reading.idle     nothing of the response has come, and a read fails
    Reading.settles  by itself it comes to its end, or to wait for a read

**Headers without a value.**  `mnhttpc_response_header_cb` dies on them, so a
response may have them (`HeaderField.bare`), and all that is said of its parse is said
of a response that has none (`Reply.Valued`).

**The last LF.**  When the CR of the line end behind the last chunk has come,
`http_parse_response` returns 0 with `pos` one byte ahead of the data.  What is
missing then of the response is `late`.
-/
import MnApp.Client.System
import MnApp.Http.CallOrder
import MnApp.Http.Piecewise

namespace MnHttpc

open MnHttp Loop

/-! ## Responses -/

/-- A header line of a response.  Its value may be missing. -/
inductive HeaderField where
  | header (h : Header)
  | bare (name blanks : List UInt8)

def HeaderField.bytes : HeaderField → List UInt8
  | .header h => h.bytes
  | .bare name blanks => name ++ CLib.COLON :: blanks

def HeaderField.header? : HeaderField → Option Header
  | .header h => some h
  | .bare _ _ => none

structure Reply where
  line : StatusLine
  fields : List HeaderField
  payload : Payload

namespace Reply

/-- The headers that have a value. -/
def headers (r : Reply) : List Header := r.fields.filterMap HeaderField.header?

/-- Every header has a value. -/
def Valued (r : Reply) : Prop := ∀ f ∈ r.fields, f.header?.isSome = true

instance (r : Reply) : Decidable r.Valued := inferInstanceAs (Decidable (∀ _ ∈ _, _))

/-- The status line and the header lines, without the empty line. -/
def head (r : Reply) : List UInt8 :=
  (FirstLine.status r.line).bytes ++ crlf ++ r.fields.flatMap fun f => f.bytes ++ crlf

def bytes (r : Reply) : List UInt8 := r.head ++ CLib.CR :: CLib.LF :: r.payload.bytes

variable {r : Reply}

theorem Valued.head_eq (h : r.Valued) : r.head = headBytes (.status r.line) r.headers := by
  suffices hfields : ∀ fs : List HeaderField, (∀ f ∈ fs, f.header?.isSome = true) →
      fs.flatMap (fun f => f.bytes ++ crlf) = headerBytes (fs.filterMap HeaderField.header?) by
    unfold head headBytes headers
    rw [hfields r.fields h]
  intro fs hfs
  induction fs with
  | nil => rfl
  | cons f fs ih =>
      have hrest := ih fun g hg => hfs g (List.mem_cons_of_mem _ hg)
      cases f with
      | header a =>
          rw [List.flatMap_cons, hrest]
          rfl
      | bare name blanks => cases hfs _ List.mem_cons_self

theorem Valued.bytes_eq (h : r.Valued) :
    r.bytes = messageBytes (.status r.line) r.headers r.payload := by
  unfold bytes
  rw [h.head_eq]
  rfl

theorem two_lt (r : Reply) : 2 < r.bytes.length := by
  unfold bytes head
  simp only [List.length_append, crlf, List.length_cons, List.length_nil]
  omega

end Reply

/-- What the server sends, response by response, in reads of at most `R` bytes;
and `in_body_cb` accepts it. -/
structure Exchange (S : Setting) where
  R : Nat
  reply : Nat → Reply
  two_le : 2 ≤ R
  sent : ∀ n, WellSent R (.status (reply n).line) (reply n).headers (reply n).payload
  accepts : ∀ k f, S.inBodyCb k = some f → ∀ cs c s, f cs c s = 0

section
variable {S : Setting} (E : Exchange S)

/-- The first `n` responses. -/
def Exchange.stream (n : Nat) : List UInt8 := (List.range n).flatMap fun i => (E.reply i).bytes

theorem Exchange.stream_succ (n : Nat) : E.stream (n + 1) = E.stream n ++ (E.reply n).bytes := by
  unfold Exchange.stream
  rw [List.range_succ, List.flatMap_append, List.flatMap_singleton]

theorem Exchange.stream_le {m n : Nat} (h : m ≤ n) : E.stream m <+: E.stream n := by
  induction h with
  | refl => exact List.prefix_refl _
  | step _ ih =>
      rw [E.stream_succ]
      exact ih.trans (List.prefix_append _ _)

theorem Exchange.stream_lt {m n : Nat} (h : (E.stream m).length < (E.stream n).length) : m < n := by
  by_contra hle
  have := (E.stream_le (Nat.not_lt.mp hle)).length_le
  omega

theorem Exchange.headers_ne (n : Nat) : (E.reply n).headers ≠ [] := by
  have hframed := (E.sent n).framed
  cases hp : (E.reply n).payload with
  | length body =>
      rw [hp] at hframed
      obtain ⟨pre, h, post, heq, -⟩ := HasLength.one hframed
      rw [heq]
      exact List.append_ne_nil_of_right_ne_nil _ (List.cons_ne_nil _ _)
  | chunks cs =>
      rw [hp] at hframed
      obtain ⟨h, hmem, -⟩ := hframed.1.some
      exact List.ne_nil_of_mem hmem

/-! ## Where the receive worker is -/

/-- Between two parses: what is missing of the last response is not more than a
line end, and `pos` is ahead of the data by that much. -/
structure Between (n : Nat) (inp : Stream) (received late : List UInt8) : Prop where
  stream : received ++ late = E.stream n
  short : late.length ≤ 2
  pos : inp.pos = inp.eod + late.length

/-- A parse of response `n`, that started with `inp₀`, has been given the reads
`rs`. -/
structure Given (n : Nat) (received : List UInt8) (inp₀ : Stream) (before late : List UInt8)
    (rs : List Read) : Prop where
  start : Between E n inp₀ before late
  valued : (E.reply n).Valued
  received : received = before ++ pending rs
  bounded : before ++ pending rs <+: E.stream (n + 1)
  delivers : Delivers E.R rs
  uncut : ¬ Cuts inp₀.eod rs (inp₀.pos + (E.reply n).head.length + 1)

/-- And it has come to where `p` and `inp` are. -/
structure Reading (n : Nat) (p : Parse) (inp : Stream) (received : List UInt8)
    (errno : Int) (inp₀ : Stream) (before late : List UInt8) (rs : List Read) : Prop where
  given : Given E n received inp₀ before late rs
  reaches : ∀ more, Reaches (loopStep S.pf parseStatusLine (S.callbacks p.req))
    ⟨.top, .init inp₀ errno, rs ++ more⟩ (p.loop inp more)

/-- Where the receive worker is with the responses. -/
def Input (n : Nat) (recv : RecvPc) (inp : Stream) (received : List UInt8) : Prop :=
  match recv with
  | .parsing p => ∃ errno inp₀ before late rs, Reading E n p inp received errno inp₀ before late rs
  | _ => ∃ late, Between E n inp received late

/-- Parse `n` was for request `k`, and delivered response `n`. -/
structure AnsweredBy (n : Nat) (x : Parsed) (k : ReqId) : Prop where
  req : x.req = some k
  res : x.res = .ok
  heard : Heard (S.inBodyCb k) (.status (E.reply n).line) (E.reply n).headers
    (E.reply n).payload x.calls

end

/-! ## One response -/

section
variable {S : Setting} {E : Exchange S} {n : Nat} {received : List UInt8} {inp₀ : Stream}
variable {before late : List UInt8} {rs : List Read}

theorem Input.keep {recv recv' : RecvPc} {inp : Stream} (h : Input E n recv inp received)
    (hrecv : recv' = recv ∨ (recv = .none ∧ recv' = .waitRead)) : Input E n recv' inp received := by
  rcases hrecv with rfl | ⟨rfl, rfl⟩
  · exact h
  · exact h

/-- A read, of what the server may have sent, that does not end inside the empty
line. -/
theorem Given.read (h : Given E n received inp₀ before late rs) {bs slack : List UInt8}
    (hne : bs ≠ []) (hR : bs.length ≤ E.R) (hbound : received ++ bs <+: E.stream (n + 1))
    (hcut : received.length + bs.length ≠ (E.stream n).length + (E.reply n).head.length + 1) :
    Given E n (received ++ bs) inp₀ before late (rs ++ [.bytes bs slack]) := by
  have hpend : pending (rs ++ [.bytes bs slack]) = pending rs ++ bs := by
    rw [pending_append, pending_cons, pending_nil, List.append_nil]
    rfl
  have hreceived : received ++ bs = before ++ pending (rs ++ [.bytes bs slack]) := by
    rw [hpend, h.received, List.append_assoc]
  refine ⟨h.start, h.valued, hreceived, hreceived ▸ hbound,
    h.delivers.append (.cons hne hR (.nil _)), ?_⟩
  rw [cuts_append, not_or]
  refine ⟨h.uncut, ?_⟩
  rintro (hcut' | hcut')
  · exact h.uncut (hcut' ▸ Cuts.last rs inp₀.eod)
  · have hlen := congrArg List.length h.start.stream
    have hpos := h.start.pos
    have hgot := congrArg List.length h.received
    change inp₀.eod + (pending rs).length + bs.length = _ at hcut'
    simp only [List.length_append] at hlen hgot
    omega

theorem Callbacks.willing (E : Exchange S) : ∀ req, (S.callbacks req).Willing
  | some k => ⟨⟨_, rfl, fun _ _ _ => rfl⟩, ⟨_, rfl, fun _ _ _ => rfl⟩, fun f hf => E.accepts k f hf⟩
  | none => ⟨⟨_, rfl, fun _ _ _ => rfl⟩, ⟨_, rfl, fun _ _ _ => rfl⟩, fun _ hf => by cases hf⟩

theorem Between.begins {inp : Stream} (h : Between E n inp received late)
    (hv : (E.reply n).Valued) (req : Option ReqId) (errno : Int) :
    Reading E n (.start req errno) inp received errno inp received late [] where
  given :=
    { start := h
      valued := hv
      received := (List.append_nil _).symm
      bounded := by
        rw [pending_nil, List.append_nil, E.stream_succ, ← h.stream, List.append_assoc]
        exact List.prefix_append _ _
      delivers := .nil _
      uncut := by
        intro hcut
        have heq : inp.eod = inp.pos + (E.reply n).head.length + 1 := hcut
        have hpos := h.pos
        omega }
  reaches _ := .refl _

variable {p : Parse} {inp : Stream} {errno : Int} {rd : Option Read} {received' : List UInt8}

theorem Reading.goes (h : Reading E n p inp received errno inp₀ before late rs) {pc : Pc}
    {q : Parser} (hg : Given E n received' inp₀ before late (rs ++ rd.toList))
    (hon : loopStep S.pf parseStatusLine (S.callbacks p.req) (p.loop inp rd.toList) =
      .again ⟨pc, q, []⟩) :
    Reading E n (p.next pc q) q.inp received' errno inp₀ before late (rs ++ rd.toList) where
  given := hg
  reaches more := by
    have hstep := again_more more hon
    rw [List.append_assoc]
    exact (h.reaches (rd.toList ++ more)).trans (.single hstep)

theorem Given.partly (h : Given E n received inp₀ before late rs) : ∃ missing,
    Partly E.R (E.reply n).line (E.reply n).headers (E.reply n).payload inp₀ late rs missing ∧
      received ++ missing = E.stream (n + 1) := by
  obtain ⟨missing, hmissing⟩ := h.bounded
  have hstream := E.stream_succ n
  rw [← h.start.stream, List.append_assoc] at hstream
  have htext : pending rs ++ missing = late ++ (E.reply n).bytes := by
    rw [hstream, List.append_assoc] at hmissing
    exact List.append_cancel_left hmissing
  rw [h.valued.bytes_eq] at htext
  have huncut := h.uncut
  rw [h.valued.head_eq] at huncut
  refine ⟨missing, ⟨h.start.pos, h.start.short, h.delivers, htext, huncut⟩, ?_⟩
  rw [h.received, hmissing]

/-- **The parser returns: it has read the response.** -/
theorem Reading.done (h : Reading E n p inp received errno inp₀ before late rs) {r : Res}
    {q : Parser}
    (hg : Given E n received' inp₀ before late (rs ++ rd.toList))
    (hend : loopStep S.pf parseStatusLine (S.callbacks p.req) (p.loop inp rd.toList) =
      .done (.returned r q [])) :
    r = .ok ∧ Heard (S.callbacks p.req).body (.status (E.reply n).line) (E.reply n).headers
        (E.reply n).payload q.calls ∧
      ∃ late', Between E (n + 1) q.inp received' late' := by
  have hret := (h.reaches rd.toList).returns (.of_done hend)
  obtain ⟨missing, hpartly, hstream⟩ := hg.partly
  obtain ⟨hok, hheard, hpos, hshort⟩ :=
    hpartly.done S.pf errno (Callbacks.willing E p.req) (E.sent n) E.two_le hret
  exact ⟨hok, hheard, missing, hstream, hshort, hpos⟩

/-- **No call has a header without a value**: the calls so far are those at the
end of the response. -/
theorem Reading.lives (h : Reading E n p inp received errno inp₀ before late rs)
    (hg : Given E n received' inp₀ before late (rs ++ rd.toList)) :
    (inHeaders (stepCalls (loopStep S.pf parseStatusLine (S.callbacks p.req)
      (p.loop inp rd.toList)))).isNone = false := by
  obtain ⟨missing, hpartly, -⟩ := hg.partly
  obtain ⟨more, q, reads', -, hret, hheard, -⟩ :=
    hpartly.completes S.pf errno (Callbacks.willing E p.req) (E.sent n) E.two_le
  rw [List.append_assoc] at hret
  have hrest := (h.reaches (rd.toList ++ more)).returns_iff.mp hret
  refine inHeaders_valued fun c hc => hheard.valued c (List.IsPrefix.subset ?_ hc)
  cases hs : loopStep S.pf parseStatusLine (S.callbacks p.req) (p.loop inp rd.toList) with
  | again t =>
      have hcalls := returns_calls (l := .status (E.reply n).line)
        ((Reaches.single (again_more more hs)).returns_iff.mp hrest)
      exact hcalls
  | done out =>
      have hcalls := returns_calls_more (l := .status (E.reply n).line) more (.of_done hs) hrest
      cases out <;> exact hcalls

/-- **Nothing of the response has come, and a read fails**: the stream stands where
the response begins. -/
theorem Reading.idle (h : Reading E n p inp received errno inp₀ before late rs)
    (hnone : received = E.stream n) : Between E n inp received [] := by
  have hpend : pending rs = late := by
    have heq := h.given.received.symm.trans (hnone.trans h.given.start.stream.symm)
    exact List.append_cancel_left heq
  have hreach := h.reaches []
  rw [List.append_nil] at hreach
  have hwaits := waits_reaches h.given.start.pos h.given.start.short h.given.delivers
    (Nat.le_of_eq (congrArg List.length hpend)) hreach
  have hpos : inp.pos = inp₀.pos := hwaits.pos
  have hcome : inp.eod + ((pending []).length : Int) = inp₀.eod + (pending rs).length :=
    hwaits.come
  have hstart := h.given.start.pos
  rw [hpend] at hcome
  refine ⟨by rw [List.append_nil, hnone], Nat.zero_le 2, ?_⟩
  simp only [pending_nil, List.length_nil] at hcome ⊢
  omega

/-- **By itself the parser comes to its end, or to wait for a read**; to its end
if the response has come. -/
theorem Reading.settles (h : Reading E n p inp received errno inp₀ before late rs) :
    ∃ out, Returns (loopStep S.pf parseStatusLine (S.callbacks p.req)) (p.loop inp []) out ∧
      (∀ c ∈ out.par.calls, c.kind = .header → 0 ≤ c.ctx.currentHeaderValue.start) ∧
      (∀ r q reads, out = .returned r q reads → r = .ok) ∧
      (received = E.stream (n + 1) → ∃ q reads, out = .returned .ok q reads) := by
  obtain ⟨missing, hpartly, hstream⟩ := h.given.partly
  obtain ⟨out, hret, hwhole⟩ :=
    hpartly.settles S.pf errno (Callbacks.willing E p.req) (E.sent n) E.two_le
  have hreach := h.reaches []
  rw [List.append_nil] at hreach
  have hrest := hreach.returns_iff.mp hret
  refine ⟨out, hrest, ?_, ?_, fun hall => hwhole ?_⟩
  · obtain ⟨more, q, reads', -, hcomplete, hheard, -⟩ :=
      hpartly.completes S.pf errno (Callbacks.willing E p.req) (E.sent n) E.two_le
    have hcalls := returns_calls_more (l := .status (E.reply n).line) more hret hcomplete
    exact fun c hc => hheard.valued c (hcalls.subset hc)
  · rintro r q reads rfl
    obtain rfl : reads = [] := List.suffix_nil.mp (returns_suffix hrest)
    exact (hpartly.done S.pf errno (Callbacks.willing E p.req) (E.sent n) E.two_le hret).1
  · rw [hall] at hstream
    exact List.append_right_eq_self.mp hstream

end

/-- Every response is one chunk of three bytes. -/
def Exchange.xyz (S : Setting)
    (accepts : ∀ k f, S.inBodyCb k = some f → ∀ cs c s, f cs c s = 0) : Exchange S where
  R := 64
  reply _ := ⟨.ok, [.header .chunkedEncoding], .chunks [.xyz]⟩
  two_le := by decide
  sent _ :=
    { head := ⟨by decide, by decide⟩
      framed := ⟨hasChunked_chunkedEncoding, ⟨by decide, by decide⟩, by decide⟩
      total := fun _ h => by cases h; decide }
  accepts := accepts

def xyzBytes : List UInt8 := messageBytes (.status .ok) [.chunkedEncoding] (.chunks [.xyz])

end MnHttpc
