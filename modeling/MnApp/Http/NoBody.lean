/-
# `MnApp.Http.NoBody` — a request without a body is never read exactly

`http_ctx_init` sets `bodysz` to -1, and nothing changes that when neither
`Content-Length` nor `chunked` is among the headers.  The -1 then goes
through the arithmetic of `process_body` like a length: the body ends one
byte before it starts, and so does `pos`.

    `bodyIter_unset`       every call of `body_cb` has a body of length -1
    `no_body_never_exact`  so the call never sees an empty body

This needs no assumption on the sizes of lines and reads.
-/
import MnApp.Http.Framing
import MnApp.Http.RawHead

namespace MnHttp

open CLib Loop

/-! ## Headers that say nothing about a body -/

/-- The lines of a well-formed head. -/
def rawHead (l : FirstLine) (hs : List Header) : RawHead where
  first := l.bytes
  lines := hs.map Header.bytes
  first_ok := l.noCrlf
  lines_ok := by
    intro ln hln
    obtain ⟨h, -, rfl⟩ := List.mem_map.mp hln
    exact ⟨h.noCrlf, by simp [Header.bytes]⟩

theorem rawHead_bytes (l : FirstLine) (hs : List Header) :
    (rawHead l hs).bytes = headBytes l hs := by
  simp [RawHead.bytes, rawHead, headBytes, rawLines, headerBytes, List.flatMap_map]

/-- `process_header` compares the name, and does not go on to the value. -/
theorem processHeader_of_other {p : Parser} {st : Nat} {name behind : List UInt8}
    (hn : p.ctx.currentHeaderName.start = st)
    (hdata : p.inp.data.drop st = name ++ NUL :: behind) (hnul : ∀ x ∈ name, x ≠ NUL)
    (hcl : name.map tolower ≠ contentLength.map tolower)
    (hte : name.map tolower ≠ transferEncoding.map tolower) :
    processHeader p = (.needMore, p) := by
  have hmem := mem_eq_of_drop hdata (by simp)
  have hcmp : ∀ t : List UInt8, cstr t = t → name.map tolower ≠ t.map tolower →
      strcasecmpEq (p.inp.mem st) t = false := by
    intro t ht hne
    unfold strcasecmpEq
    rw [hmem, List.append_assoc, List.cons_append, cstr_stop hnul, ht]
    simpa using hne
  have h1 : strcasecmpEq (p.inp.mem st) (ascii "content-length") = false :=
    hcmp _ (by decide) hcl
  have h2 : strcasecmpEq (p.inp.mem st) (ascii "transfer-encoding") = false :=
    hcmp _ (by decide) hte
  unfold processHeader
  simp only [hn, h1, h2, Bool.false_eq_true, if_false]

theorem keepsFraming_unset {hs : List Header}
    (hplain : ∀ h ∈ hs, ¬ h.Named contentLength ∧ ¬ h.Named transferEncoding) :
    KeepsFraming (· = .unset) (hs.map Header.bytes) := by
  intro ln hln nullOff p q st c behind hst hdata hcolon hF hproc
  obtain ⟨h, hmem, rfl⟩ := List.mem_map.mp hln
  obtain ⟨hcl, hte⟩ := hplain h hmem
  have hc : c = h.name.length := by
    have : h.bytes.findIdx? (· == COLON) = some h.name.length := by
      have := findIdx?_stop (p := (· == COLON)) (b := COLON) (h.blanks ++ h.value)
        (fun x hx => by simpa using (h.name_ok x hx).1) (by decide)
        (k := h.bytes.length) (by rw [h.bytes_length]; omega)
      have htake : (h.name ++ COLON :: (h.blanks ++ h.value)).take h.bytes.length = h.bytes :=
        List.take_length
      rwa [htake] at this
    exact Option.some.inj (hcolon.symm.trans this)
  subst hc
  have hsame : processHeader (headerLine nullOff ((st : Int) + h.bytes.length)
        ((st : Int) + h.name.length) p) =
      (.needMore, headerLine nullOff ((st : Int) + h.bytes.length)
        ((st : Int) + h.name.length) p) :=
    processHeader_of_other hst (h.zero_twice hdata)
      (fun x hx => (h.name_ok x hx).2.2.2) hcl hte
  rw [hsame] at hproc
  cases hproc
  exact hF

/-! ## The body that is not there -/

/-- Outside the chunked encoding with `bodysz` still -1; whatever body was
delivered had that length. -/
structure Unset (p : Parser) : Prop where
  framing : p.ctx.framing = .unset
  calls : ∀ c ∈ p.calls, c.kind = .body → c.ctx.body.stop - c.ctx.body.start = -1

theorem bodyIter_unset (rc : Recycler) (cb : Option Callback) (k : Nat) {p : Parser}
    (h : Unset p) :
    (∀ q, bodyIter rc cb k p = .again q → Unset q) ∧
      ∀ r q, bodyIter rc cb k p = .ret r q → Unset q := by
  have hfr := h.framing
  simp only [Ctx.framing, Framing.unset, Framing.mk.injEq] at hfr
  obtain ⟨hsz, hch, hcs⟩ := hfr
  have hle : min (p.inp.eod - p.inp.pos) (-1 - (p.ctx.body.stop - p.ctx.body.start)) ≤
      -1 - (p.ctx.body.stop - p.ctx.body.start) := Int.min_le_right _ _
  generalize hincr : min (p.inp.eod - p.inp.pos)
    (-1 - (p.ctx.body.stop - p.ctx.body.start)) = incr at hle
  unfold bodyIter processBody processPlainBody
  simp only [hch, hsz, hincr, Bool.false_eq_true, if_false]
  by_cases hlt : p.ctx.body.stop + incr - p.ctx.body.start < -1
  · simp only [if_pos hlt]
    refine ⟨?_, fun _ _ h => (by cases h)⟩
    rintro q hq
    cases hq
    exact ⟨by simp [Ctx.framing, Framing.unset, hcs], h.calls⟩
  · simp only [if_neg hlt]
    -- the body is complete, and it is -1 long
    have hlen : p.ctx.body.stop + incr - p.ctx.body.start = -1 := by omega
    generalize hp : Parser.mk _ _ _ _ = p₁
    have hp₁ : Unset p₁ := by
      rw [← hp]
      exact ⟨by simp [Ctx.framing, Framing.unset, hcs], h.calls⟩
    have hbody : p₁.ctx.body.stop - p₁.ctx.body.start = -1 := by rw [← hp]; exact hlen
    obtain ⟨hc₁, -⟩ := callback_frame (p := p₁) .body cb
    have hcalls : ∀ c ∈ (p₁.callback .body cb).2.calls, c.kind = .body →
        c.ctx.body.stop - c.ctx.body.start = -1 := by
      intro c hc hk
      rcases mem_callback hc with hc | rfl
      · exact hp₁.calls c hc hk
      · exact hbody
    by_cases hr : (p₁.callback .body cb).1 = 0
    · simp only [hr, ne_eq, not_true, if_false]
      refine ⟨fun _ h => (by cases h), ?_⟩
      rintro r q hq
      cases hq
      refine ⟨?_, hcalls⟩
      show (p₁.callback _ _).2.ctx.framing = _
      rw [hc₁]; exact hp₁.framing
    · simp only [ne_eq, hr, not_false_iff, if_true]
      refine ⟨fun _ h => (by cases h), ?_⟩
      rintro r q hq
      cases hq
      exact ⟨by rw [hc₁]; exact hp₁.framing, hcalls⟩

theorem unset_run {pf : Platform} {parseLine : Parser → Res × Parser} {cbs : Callbacks}
    {t : LoopState} {r : Res} {q : Parser} {reads : List Read} (h : Unset t.par)
    (hs : t.par.ctx.parserState = .body)
    (hret : Returns (loopStep pf parseLine cbs) t (.returned r q reads)) : Unset q :=
  body_invariant (fun _ _ _ h => ⟨h.framing, h.calls⟩)
    (fun _ q h => (bodyIter_unset pf.recycler cbs.body 13 h).1 q)
    (fun _ r q h => (bodyIter_unset pf.recycler cbs.body 13 h).2 r q) h hs hret

/-- **A message without a body is never read exactly**: not for any message,
way of cutting it into reads, or memory around it. -/
theorem no_body_never_exact (pf : Platform) (cbs : Callbacks) (errno : Int) (l : FirstLine)
    (hs : List Header) (rest : List UInt8) (s : Stream) (reads : List Read)
    (hplain : ∀ h ∈ hs, ¬ h.Named contentLength ∧ ¬ h.Named transferEncoding)
    (hpos : 0 ≤ s.pos) (hle : s.pos ≤ s.eod)
    (hstream : (s.data ++ pending reads).drop s.pos.toNat =
      headBytes l hs ++ CR :: LF :: rest) :
    ¬ ∃ q reads', Parses l pf cbs errno s reads (.returned .ok q reads') ∧
      ReadExactly l hs [] rest q reads' := by
  rintro ⟨q, reads', hparse, hexact⟩
  have hmark : Mark (rawHead l hs).bytes rest (s.pos.toNat + (headBytes l hs).length) s.pos.toNat
      s reads :=
    ⟨by rw [rawHead_bytes]; exact hstream, by rw [rawHead_bytes]⟩
  -- nothing has to be known of where the empty line leaves `pos`
  have hinv : HeadInv (rawHead l hs) rest (s.pos.toNat + (headBytes l hs).length) 0 (· = .unset)
      False False ⟨.top, .init s errno, reads⟩ :=
    ⟨.start s.pos.toNat rfl (by show s.pos = _; omega) (by show _ ≤ s.eod + 2; omega) hmark
        False.elim,
      rfl, fun c hc => absurd hc List.not_mem_nil, False.elim, False.elim⟩
  obtain ⟨p, reads₁, hblank, hret⟩ :=
    head_passes pf l cbs (keepsFraming_unset hplain) False.elim hinv (parses_iff.mp hparse)
  have hunset : Unset (blankLine p) :=
    ⟨hblank.framing, fun c hc hk => absurd hk (hblank.calls c hc)⟩
  obtain ⟨hagain, hdone⟩ := bodyIter_unset pf.recycler cbs.body 12 hunset
  have hdisp : dispatch pf l.parse cbs p = bodyIter pf.recycler cbs.body 12 (blankLine p) :=
    dispatch_blank hblank.state hblank.start hblank.found
  have hq : Unset q := by
    cases hit : bodyIter pf.recycler cbs.body 12 (blankLine p) with
    | again p' =>
        have hstep : loopStep pf l.parse cbs ⟨.dispatch, p, reads₁⟩ = .again ⟨.top, p', reads₁⟩ :=
          loopStep_again (hdisp.trans hit)
        exact unset_run (hagain p' hit) (bodyIter_state hit)
          ((Reaches.single hstep).returns_iff.mp hret)
    | ret r p' =>
        have hstep : loopStep pf l.parse cbs ⟨.dispatch, p, reads₁⟩ =
            .done (.returned r p' reads₁) :=
          loopStep_ret (hdisp.trans hit)
        have heq := Returns.unique hret (.of_done hstep)
        cases heq
        exact hdone _ _ hit
  obtain ⟨c, ⟨c₀, cs, hcalls, -, -⟩, hcall⟩ := hexact.calls
  have hlen := hq.calls c (by rw [hcalls]; simp) hcall.kind
  have hzero := hcall.range.length
  simp only [List.length_nil] at hzero
  omega

/-- `Host: localhost`. -/
def Header.host : Header where
  name := ascii "Host"
  blanks := [SP]
  value := ascii "localhost"
  name_ne := by decide
  name_ok := by decide
  blanks_ok := isspace_blank
  value_ne := by decide
  value_ok := by decide
  value_head := by decide

theorem no_body_never_exact_getRoot :
    ¬ ∃ q reads', Parses (.request .getRoot) .keeping .accepting 0 ⟨[], [], 0⟩
        [.bytes (ascii "GET / HTTP/1.1\r\nHost: localhost\r\n\r\nX") []] (.returned .ok q reads') ∧
      ReadExactly (.request .getRoot) [.host] [] (ascii "X") q reads' :=
  no_body_never_exact .keeping .accepting 0 (.request .getRoot) [.host] (ascii "X") ⟨[], [], 0⟩ _
    (by decide) (by decide) (by decide) (by decide)

/-- Two requests in one read: the first call leaves the stream at the LF that
ends the first of them. -/
theorem no_body_pipelined :
    ¬ ∃ q reads', Parses (.request .getRoot) .keeping .accepting 0 ⟨[], [], 0⟩
        [.bytes (ascii "GET / HTTP/1.1\r\n\r\nGET / HTTP/1.1\r\n\r\n") []]
        (.returned .ok q reads') ∧
      ReadExactly (.request .getRoot) [] [] (ascii "GET / HTTP/1.1\r\n\r\n") q reads' := by
  rintro ⟨q, reads', hparse, hexact⟩
  have hend := hparse.ahead_eq 20 (r := ascii "\nGET / HTTP/1.1\r\n\r\n") (by decide +kernel)
    hexact.stands
  exact absurd hend (by decide)

end MnHttp
