/-
# `MnApp.Http.ContentLength` — what a `Content-Length` line makes of the body

`process_header` gives the value to `strtol`, stores the `long` in an `int`,
and looks neither at where the number ended nor at `errno`.  So every value
is taken for some number: `12abc` for 12, `abc` for 0, `-5` for -5, and
2^32 + 3 for 3.  No value makes the parse return an error.

The header lines are read here one after the other, as they stand in the
stream.  `lineFraming` is what a line does to the framing; a call that comes
to the end of the head has read every line in this way (`HeadAt`), and the
body is then as long as the framing says, negative lengths included
(`plain_length`).  So a `Content-Length` line is kept exactly when it states
a length at all, the last such line states the same one, and no line asks
for chunks (`content_length_iff`).
-/
import MnApp.Http.ChunkSound
import MnApp.Http.Lines

namespace MnHttp

open CLib Loop

/-! ## Header lines -/

/-- `strcasecmp(name, "content-length") == 0`. -/
def isLengthLine (line : List UInt8) : Bool := strcasecmpEq (nameOf line) contentLength

/-- `strcasecmp(name, "transfer-encoding") == 0`, where it is asked. -/
def isEncodingLine (line : List UInt8) : Bool :=
  !isLengthLine line && strcasecmpEq (nameOf line) transferEncoding

/-- What `strtol` and the narrowing to `int` make of the value. -/
def lengthOf (line : List UInt8) : Int := toInt (strtol (headerValue line ++ [NUL]) 10).val

/-- `Transfer-Encoding: chunked`. -/
def asksChunked (line : List UInt8) : Bool :=
  isEncodingLine line && strcmpEq (headerValue line) chunkedCoding

/-- The value is looked at. -/
def readsValue (line : List UInt8) : Bool := isLengthLine line || isEncodingLine line

/-- What `process_header` does to the framing. -/
def lineFraming (f : Framing) (line : List UInt8) : Framing :=
  if isLengthLine line then { f with bodysz := lengthOf line }
  else if asksChunked line then .chunks else f

section
variable {p q : Parser} {st : Nat} {line behind : List UInt8} {c : Nat} {r : Res}

/-- **`process_header` on any header line.**  It changes the framing by
`lineFraming`, or reads a value that is not there. -/
theorem processHeader_line {nullOff : Int} (hnull : nullOff < 0)
    (hst : p.ctx.currentHeaderName.start = st)
    (hdata : p.inp.data.drop st = line ++ CR :: LF :: behind)
    (hcolon : line.findIdx? (· == COLON) = some c) (hmax : (line.length : Int) ≤ intMax)
    (h : processHeader (headerLine nullOff ((st : Int) + line.length)
      ((st : Int) + (nameOf line).length) p) = (r, q)) :
    (r = .needMore ∧ q.ctx.framing = lineFraming p.ctx.framing line ∧
        (readsValue line = true → headerValue line ≠ [])) ∨
      (r = .crash ∧ readsValue line = true ∧ headerValue line = []) := by
  obtain ⟨⟨m₁, hname⟩, hvalue, hnone⟩ := headerLine_mem nullOff hst hdata hcolon hmax
  generalize hr : headerLine nullOff _ _ p = x at h hname hvalue hnone
  have hframing : x.ctx.framing = p.ctx.framing := by rw [← hr]; rfl
  have hcase : ∀ t, strcasecmpEq (x.inp.mem x.ctx.currentHeaderName.start) t =
      strcasecmpEq (nameOf line) t := fun t => by
    unfold strcasecmpEq
    rw [hname, cstr_nul]
  have hcl : strcasecmpEq (nameOf line) (ascii "content-length") = isLengthLine line := rfl
  unfold processHeader at h
  simp only [hcase, hcl] at h
  cases hlen : isLengthLine line with
  | true =>
      rw [hlen, if_pos rfl] at h
      have hreads : readsValue line = true := by unfold readsValue; rw [hlen]; rfl
      by_cases hval : headerValue line = []
      · rw [if_pos (by rw [hnone hval]; exact hnull)] at h
        cases h
        exact .inr ⟨rfl, hreads, hval⟩
      · obtain ⟨h0, m₂, hmem⟩ := hvalue hval
        rw [if_neg (Int.not_lt.mpr h0)] at h
        cases h
        refine .inl ⟨rfl, ?_, fun _ => hval⟩
        unfold lineFraming
        rw [if_pos hlen, ← hframing, hmem, strtol_nul (headerValue line) [] m₂]
        rfl
  | false =>
      rw [hlen, if_neg nofun] at h
      have henc : isEncodingLine line = strcasecmpEq (nameOf line) (ascii "transfer-encoding") := by
        unfold isEncodingLine
        rw [hlen]
        rfl
      have hreads : readsValue line = isEncodingLine line := by
        unfold readsValue
        rw [hlen, Bool.false_or]
      rw [← henc] at h
      unfold lineFraming asksChunked
      rw [hreads, if_neg (by rw [hlen]; nofun)]
      cases he : isEncodingLine line with
      | false =>
          rw [he, if_neg nofun] at h
          cases h
          exact .inl ⟨rfl, hframing, nofun⟩
      | true =>
          rw [he, if_pos rfl] at h
          by_cases hval : headerValue line = []
          · rw [if_pos (by rw [hnone hval]; exact hnull)] at h
            cases h
            exact .inr ⟨rfl, rfl, hval⟩
          · obtain ⟨h0, m₂, hmem⟩ := hvalue hval
            have hcmp : strcmpEq (x.inp.mem x.ctx.currentHeaderValue.start) (ascii "chunked") =
                strcmpEq (headerValue line) chunkedCoding := by
              unfold strcmpEq
              rw [hmem, cstr_nul]
              rfl
            rw [if_neg (Int.not_lt.mpr h0), hcmp] at h
            simp only [Bool.true_and]
            split at h
            · rename_i hc
              cases h
              rw [if_pos hc]
              exact .inl ⟨rfl, rfl, fun _ => hval⟩
            · rename_i hc
              cases h
              rw [if_neg hc]
              exact .inl ⟨rfl, hframing, fun _ => hval⟩

end

/-! ## The lines of the head -/

/-- What the lines that have been read have made of the framing. -/
def FramingAt (p : Parser) : Option (List (List UInt8)) → Prop
  | none => p.ctx.framing = .unset
  | some seen => p.ctx.framing = seen.foldl lineFraming .unset ∧
      ∀ l ∈ seen, readsValue l = true → headerValue l ≠ []

/-- Somewhere in the head, with the framing that the lines so far have made. -/
def HeadAt (H : RawHead) (Z : List UInt8) (p : Parser) (reads : List Read) : Prop :=
  ∃ b k, LinesAt H Z b p reads k ∧ FramingAt p k

/-- The head is read: the empty line is complete. -/
structure HeadRead (H : RawHead) (Z : List UInt8) (p : Parser) : Prop where
  state : p.ctx.parserState = .headerFieldOut
  found : p.inp.scan p.ctx.currentHeaderName.start = some 0
  blank : ∃ Y, Z = CR :: LF :: Y
  lines : FramingAt p (some H.lines)

section
variable {pf : Platform} {l : FirstLine} {cbs : Callbacks} {H : RawHead} {Z : List UInt8}
variable {p q : Parser} {reads : List Read} {r : Res}

theorem HeadRead.framing (h : HeadRead H Z p) :
    p.ctx.framing = H.lines.foldl lineFraming .unset := h.lines.1

theorem HeadAt.init {s : Stream} {errno : Int} (h0 : 0 ≤ s.pos) (hle : s.pos ≤ s.eod + 2)
    (hstream : (s.data ++ pending reads).drop s.pos.toNat = H.bytes ++ Z) :
    HeadAt H Z (.init s errno) reads :=
  ⟨_, none, .first s.pos.toNat (.inl ⟨rfl, by show s.pos = _; omega⟩)
    (by show _ ≤ s.eod + 2; omega) hstream rfl, rfl⟩

theorem HeadAt.consume {bs slack : List UInt8} (h : HeadAt H Z p (.bytes bs slack :: reads)) :
    HeadAt H Z { p with inp := p.inp.consume bs slack } reads := by
  obtain ⟨b, k, hat, hf⟩ := h
  exact ⟨b, k, hat.consume, by cases k <;> exact hf⟩

theorem FramingAt.step {k k' : Option (List (List UInt8))} (h : FramingAt p k)
    (hs : LinesStep pf l cbs p q k k') : FramingAt q k' := by
  cases hs with
  | same _ _ framing =>
      unfold FramingAt at *
      rw [framing]
      exact h
  | line r parsed eq =>
      have hframe := l.parse_frame p
      rw [parsed] at hframe
      have hr : r.ctx.framing = p.ctx.framing := hframe.framing
      refine ⟨?_, fun l hl => absurd hl List.not_mem_nil⟩
      rw [eq, (callback_frame .line cbs.line).1, hr]
      exact h
  | header seen st line behind y now processed _ framing =>
      obtain ⟨hf, hvalues⟩ := h
      obtain ⟨c, hcolon⟩ := now.colon
      obtain ⟨-, hy, hvalue⟩ | ⟨hcrash, -⟩ :=
        processHeader_line pf.nullOff_neg now.start now.data hcolon now.fits processed
      · refine ⟨by rw [framing, hy, hf, List.foldl_append]; rfl, fun l hl => ?_⟩
        rcases List.mem_append.mp hl with hl | hl
        · exact hvalues l hl
        · rw [List.mem_singleton.mp hl]
          exact hvalue
      · cases hcrash

variable (pf l cbs) in
/-- One iteration in the head: the loop stays in it, or it is at the end, or it
does not return 0. -/
theorem HeadAt.iteration (h : HeadAt H Z p reads) (hend : HeadEnd Z) :
    HeadRead H Z p ∨
      (∀ q, dispatch pf l.parse cbs p = .again q → HeadAt H Z q reads) ∧
      ∀ r q, dispatch pf l.parse cbs p = .ret r q → r ≠ .ok ∧
        (r = .crash → ∃ l ∈ H.lines, readsValue l = true ∧ headerValue l = []) := by
  obtain ⟨b, k, hat, hf⟩ := h
  rcases hat.iteration pf l cbs hend with ⟨rfl, hblank⟩ | ⟨hagain, hret⟩
  · exact .inl ⟨hblank.state, by rw [hblank.start]; exact hblank.found, hblank.blank, hf⟩
  · refine .inr ⟨fun q hq => ?_, fun r q hq => ⟨(hret r q hq).not_ok, fun hc => ?_⟩⟩
    · obtain ⟨k', hat', hs⟩ := hagain q hq
      exact ⟨b, k', hat', hf.step hs⟩
    · obtain ⟨st, line, behind, hmem, now, hcrash⟩ := (hret r q hq).crash hc
      obtain ⟨c, hcolon⟩ := now.colon
      obtain ⟨hmore, -⟩ | ⟨-, hreads, hvalue⟩ :=
        processHeader_line pf.nullOff_neg now.start now.data hcolon now.fits
          (Prod.ext hcrash rfl : processHeader (atHeader pf.nullOff st line p) = (.crash, _))
      · cases hmore
      · exact ⟨line, hmem, hreads, hvalue⟩

theorem HeadAt.state_ne (h : HeadAt H Z p reads) : p.ctx.parserState ≠ .body := by
  obtain ⟨b, k, hat, -⟩ := h
  cases hat with
  | first _ state | field _ _ _ _ state =>
      rcases state with ⟨state, -⟩ | ⟨state, -⟩ <;> (rw [state]; nofun)

theorem dispatch_calls (hd : dispatch pf l.parse cbs p = .again q)
    (hq : q.ctx.parserState ≠ .body) (h : ∀ c ∈ p.calls, c.kind ≠ .body) :
    ∀ c ∈ q.calls, c.kind ≠ .body := by
  cases hin : bodyInput p with
  | some x =>
      obtain ⟨k, hdisp⟩ := dispatch_bodyInput pf l.parse cbs hin
      exact absurd (bodyIter_state (hdisp.symm.trans hd)) hq
  | none =>
      obtain ⟨more, hmore, hkind⟩ := dispatch_head_calls pf l cbs hin
      rw [hd] at hmore
      have hcalls : q.calls = p.calls ++ more := hmore
      intro c hc
      rw [hcalls] at hc
      rcases List.mem_append.mp hc with hc | hc
      · exact h c hc
      · exact hkind c hc

end

/-! ## The body -/

/-- The call returned one of the error codes. -/
def Res.isError : Res → Bool
  | .ok | .crash => false
  | _ => true

section
variable {pf : Platform} {l : FirstLine} {cbs : Callbacks} {H : RawHead} {Z : List UInt8}
variable {p q : Parser} {reads reads' : List Read} {r : Res}

/-- **A call that does not return an error has read the head, or has died on a
header line that has no value.** -/
theorem head_run {t : LoopState} (hend : HeadEnd Z) (hat : HeadAt H Z t.par t.reads)
    (hcalls : ∀ c ∈ t.par.calls, c.kind ≠ .body)
    (hret : Returns (loopStep pf l.parse cbs) t (.returned r q reads')) (hr : r.isError = false) :
    (r = .crash ∧ ∃ l ∈ H.lines, readsValue l = true ∧ headerValue l = []) ∨
      ∃ p reads, HeadRead H Z p ∧ (∀ c ∈ p.calls, c.kind ≠ .body) ∧
        Returns (loopStep pf l.parse cbs) ⟨.dispatch, p, reads⟩ (.returned r q reads') := by
  have hkeep : ∀ t t' : LoopState,
      (HeadAt H Z t.par t.reads ∧ ∀ c ∈ t.par.calls, c.kind ≠ .body) →
      ¬ (t.pc = .dispatch ∧ HeadRead H Z t.par) → loopStep pf l.parse cbs t = .again t' →
      HeadAt H Z t'.par t'.reads ∧ ∀ c ∈ t'.par.calls, c.kind ≠ .body := by
    rintro t t' ⟨hat, hcalls⟩ hnot hs
    cases loopStep_again_iff.mp hs with
    | read => exact ⟨hat.consume, hcalls⟩
    | look => exact ⟨hat, hcalls⟩
    | pass hd =>
        rcases hat.iteration pf l cbs hend with hread | ⟨hagain, -⟩
        · exact absurd ⟨rfl, hread⟩ hnot
        · have hnext := hagain _ hd
          exact ⟨hnext, dispatch_calls hd hnext.state_ne hcalls⟩
  rcases hret.until hkeep ⟨hat, hcalls⟩ with ⟨⟨pc, p, reads⟩, ⟨-, hc⟩, ⟨rfl, hread⟩, hrun⟩ |
    ⟨t, ⟨hat, -⟩, hnot, hdone⟩
  · exact .inr ⟨p, reads, hread, hc, hrun⟩
  left
  cases loopStep_done_iff.mp hdone with
  | fail =>
      split at hr <;> cases hr
  | ret hd =>
      rcases hat.iteration pf l cbs hend with hread | ⟨-, hno⟩
      · exact absurd ⟨rfl, hread⟩ hnot
      · obtain ⟨hok, hcrash⟩ := hno _ _ hd
        have : r = .crash := by
          cases r <;> first | rfl | exact absurd rfl hok | cases hr
        exact ⟨this, hcrash this⟩

theorem body_last {I : Parser → List Read → Prop}
    (hread : ∀ p bs slack reads, I p (.bytes bs slack :: reads) →
      I { p with inp := p.inp.consume bs slack } reads)
    (hagain : ∀ k p q reads, I p reads → bodyIter pf.recycler cbs.body k p = .again q → I q reads)
    (hstate : p.ctx.parserState = .headerFieldOut)
    (hblank : p.inp.scan p.ctx.currentHeaderName.start = some 0) (h₀ : I (blankLine p) reads)
    (hret : Returns (loopStep pf l.parse cbs) ⟨.dispatch, p, reads⟩ (.returned r q reads'))
    (hr : r.isError = false) :
    ∃ k p', I p' reads' ∧ bodyIter pf.recycler cbs.body k p' = .ret r q := by
  have hdisp : dispatch pf l.parse cbs p = bodyIter pf.recycler cbs.body 12 (blankLine p) := by
    unfold Stream.scan at hblank
    unfold dispatch headerFieldOut
    simp only [hstate, hblank]
  have hkeep : ∀ t t' : LoopState, (I t.par t.reads ∧ t.par.ctx.parserState = .body) →
      loopStep pf l.parse cbs t = .again t' →
      I t'.par t'.reads ∧ t'.par.ctx.parserState = .body := by
    rintro t t' ⟨hi, hst⟩ hs
    cases loopStep_again_iff.mp hs with
    | read => exact ⟨hread _ _ _ _ hi, hst⟩
    | look => exact ⟨hi, hst⟩
    | pass hd =>
        rw [dispatch_body hst] at hd
        exact ⟨hagain _ _ _ _ hi hd, bodyIter_state hd⟩
  cases hit : bodyIter pf.recycler cbs.body 12 (blankLine p) with
  | ret r' q' =>
      cases hret.unique (.of_done (loopStep_ret (hdisp.trans hit)))
      exact ⟨12, _, h₀, hit⟩
  | again q' =>
      have hstep : loopStep pf l.parse cbs ⟨.dispatch, p, reads⟩ = .again ⟨.top, q', reads⟩ :=
        loopStep_again (hdisp.trans hit)
      have hrun := (Reaches.single hstep).returns_iff.mp hret
      obtain ⟨t, ⟨hi, hst⟩, hdone⟩ :=
        hrun.invariant hkeep ⟨hagain _ _ _ _ h₀ hit, bodyIter_state hit⟩
      cases loopStep_done_iff.mp hdone with
      | fail => split at hr <;> cases hr
      | ret hd =>
          rw [dispatch_body hst] at hd
          exact ⟨13, _, hi, hd⟩

/-- Reading a body of `z` bytes, wherever it starts. -/
structure PlainAny (z : Int) (p : Parser) : Prop where
  plain : p.ctx.flagChunked = false
  bodysz : p.ctx.bodysz = z
  stop : p.ctx.body.stop = p.inp.pos
  calls : ∀ c ∈ p.calls, c.kind ≠ .body

/-- The range given to `body_cb` is `n` bytes long, and the position has moved
over it. -/
structure BodyOf (n : Int) (c : Call) : Prop where
  length : c.ctx.body.stop - c.ctx.body.start = n
  pos : c.inp.pos = c.ctx.body.stop

def bodyCalls (p : Parser) : List Call := p.calls.filter fun c => c.kind = .body

/-- The message had a body of `n` bytes, and `body_cb` was given that much. -/
structure LengthBody (cb : Option Callback) (n : Int) (q : Parser) : Prop where
  plain : q.ctx.flagChunked = false
  bodysz : q.ctx.bodysz = n
  given : cb.isSome = true → ∃ c, bodyCalls q = [c] ∧ BodyOf n c

/-- The bytes of the body that are there have been taken. -/
def plainTaken (p : Parser) : Parser :=
  let incr := min (p.inp.eod - p.inp.pos) (p.ctx.bodysz - (p.ctx.body.stop - p.ctx.body.start))
  { p with
    ctx := { p.ctx with
      body := ⟨p.ctx.body.start, p.ctx.body.stop + incr⟩
      currentChunk := ⟨p.ctx.currentChunk.start, p.ctx.body.stop + incr⟩ }
    inp := p.inp.advance incr }

theorem processPlainBody_eq (rc : Recycler) (cb : Option Callback) (p : Parser) :
    processPlainBody rc cb p =
      if (plainTaken p).ctx.body.stop - p.ctx.body.start < p.ctx.bodysz then
        (.needMore, plainTaken p)
      else
        let (r, p) := (plainTaken p).callback .body cb
        if r ≠ 0 then (.diag .processBody 3, p) else (.ok, recycleStreamBuffer rc p) := rfl

theorem PlainAny.taken {z : Int} (h : PlainAny z p) : PlainAny z (plainTaken p) :=
  ⟨h.plain, h.bodysz, congrArg (· + _) h.stop, h.calls⟩

theorem PlainAny.again {z : Int} {rc : Recycler} {cb : Option Callback} {k : Nat}
    (h : PlainAny z p) (hit : bodyIter rc cb k p = .again q) :
    PlainAny z q ∧ q.ctx.body.start = p.ctx.body.start ∧ q.inp.data = p.inp.data := by
  have htaken := h.taken
  unfold bodyIter processBody at hit
  rw [h.plain, if_neg nofun, processPlainBody_eq] at hit
  simp only at hit
  split at hit
  · rename_i heq
    cases hit
    split at heq
    · cases heq
      exact ⟨⟨htaken.plain, htaken.bodysz, htaken.stop, htaken.calls⟩, rfl, rfl⟩
    · split at heq <;> cases heq
  · cases hit
  · cases hit

theorem bodyCalls_callback (h : ∀ c ∈ p.calls, c.kind ≠ .body) {cb : Option Callback}
    (hcb : cb.isSome = true) (hq : q.calls = (p.callback .body cb).2.calls) :
    bodyCalls q = [⟨.body, p.ctx, p.inp⟩] := by
  have hnone : p.calls.filter (fun c => decide (c.kind = .body)) = [] :=
    List.filter_eq_nil_iff.mpr fun c hc => by simpa using h c hc
  obtain ⟨f, rfl⟩ := Option.isSome_iff_exists.mp hcb
  unfold bodyCalls
  rw [hq]
  simp only [Parser.callback, List.filter_append, hnone]
  rfl

theorem PlainAny.ret {z : Int} {rc : Recycler} {cb : Option Callback} {k : Nat}
    (h : PlainAny z p) (hit : bodyIter rc cb k p = .ret r q) (hr : r.isError = false) :
    r = .ok ∧ LengthBody cb z q ∧ ∀ reads, q.inp.left reads =
      (p.inp.data ++ pending reads).length - (p.ctx.body.start + z) := by
  have htaken := h.taken
  obtain ⟨hctx, hinp⟩ := callback_frame (p := plainTaken p) .body cb
  unfold bodyIter processBody at hit
  rw [h.plain, if_neg nofun, processPlainBody_eq] at hit
  simp only at hit
  split at hit
  · cases hit
  · rename_i heq
    cases hit
    split at heq
    · cases heq
    · rename_i hfull
      split at heq
      · cases heq
      · cases heq
        -- the accumulated length has come to `bodysz` and never passes it
        have hlen : (plainTaken p).ctx.body.stop - p.ctx.body.start = z := by
          have hz := h.bodysz
          simp only [plainTaken] at hfull ⊢
          omega
        refine ⟨rfl, ⟨?_, ?_, fun hcb => ⟨_, bodyCalls_callback htaken.calls hcb rfl, hlen,
          htaken.stop.symm⟩⟩, fun reads => ?_⟩
        · simp only [recycleStreamBuffer, hctx]
          exact htaken.plain
        · simp only [recycleStreamBuffer, hctx]
          exact htaken.bodysz
        · simp only [recycleStreamBuffer, hinp, Recycler.left_apply]
          have hstop := htaken.stop
          have hdata : (plainTaken p).inp.data = p.inp.data := rfl
          unfold Stream.left
          rw [hdata]
          omega
  · cases hit
    cases hr

/-- **A body that is not chunked is as long as `bodysz` says**, and the stream is left
behind it. -/
theorem plain_length (hread : HeadRead H Z p) (hplain : p.ctx.flagChunked = false)
    (hcalls : ∀ c ∈ p.calls, c.kind ≠ .body)
    (hret : Returns (loopStep pf l.parse cbs) ⟨.dispatch, p, reads⟩ (.returned r q reads'))
    (hr : r.isError = false) : r = .ok ∧ LengthBody cbs.body p.ctx.bodysz q ∧
      q.inp.left reads' =
        (p.inp.data ++ pending reads).length - (p.inp.pos + 2 + p.ctx.bodysz) := by
  obtain ⟨k, p', ⟨hp', hstart, hstream⟩, hit⟩ := body_last
    (I := fun x rs => PlainAny p.ctx.bodysz x ∧ x.ctx.body.start = p.inp.pos + 2 ∧
      x.inp.data ++ pending rs = p.inp.data ++ pending reads)
    (fun _ _ _ _ ⟨h, hstart, hstream⟩ => ⟨⟨h.plain, h.bodysz, h.stop, h.calls⟩, hstart, by
      rw [← hstream]
      simp [Read.payload]⟩)
    (fun _ _ _ _ ⟨h, hstart, hstream⟩ hit => by
      obtain ⟨hq, hsame, hdata⟩ := h.again hit
      exact ⟨hq, hsame.trans hstart, by rw [hdata, hstream]⟩)
    hread.state hread.found ⟨⟨hplain, rfl, rfl, hcalls⟩, rfl, rfl⟩ hret hr
  obtain ⟨hok, hbody, hleft⟩ := hp'.ret hit hr
  exact ⟨hok, hbody, by rw [hleft, hstart, hstream]⟩

theorem chunked_flag (hread : HeadRead H Z p) (hchunked : p.ctx.flagChunked = true)
    (hret : Returns (loopStep pf l.parse cbs) ⟨.dispatch, p, reads⟩ (.returned r q reads'))
    (hr : r.isError = false) : q.ctx.flagChunked = true := by
  obtain ⟨k, p', hp', hit⟩ := body_last (I := fun p _ => p.ctx.flagChunked = true)
    (fun _ _ _ _ h => h) (fun _ _ _ _ h hit => (bodyIter_flag.1 _ hit).trans h)
    hread.state hread.found hchunked hret hr
  exact (bodyIter_flag.2 _ _ hit).trans hp'

end

/-! ## Lengths -/

/-- The text is a decimal number `n` that fits in an `int`, with blanks around
it. -/
def GoodLength (v : List UInt8) (n : Nat) : Prop :=
  ∃ before ds behind, v = before ++ ds ++ behind ∧ (∀ b ∈ before, ISSPACE b = true) ∧
    (∀ b ∈ behind, ISSPACE b = true) ∧ ds ≠ [] ∧ (∀ d ∈ ds, isDigit 10 d = true) ∧
    ofDigits 10 ds = n ∧ (n : Int) ≤ intMax

theorem isDigit_of_isspace {b : UInt8} (h : ISSPACE b = true) :
    isDigit 10 b = false ∧ tolower b ≠ 120 := by
  unfold ISSPACE at h
  rcases (Bool.or_eq_true _ _).mp h with h | h
  · rw [eq_of_beq h]
    decide
  · rw [eq_of_beq h]
    decide

theorem GoodLength.lengthOf {line : List UInt8} {n : Nat} (h : GoodLength (behindColon line) n) :
    lengthOf line = n := by
  obtain ⟨before, ds, behind, hv, hbefore, hbehind, hne, hds, hn, hmax⟩ := h
  have hvalue : headerValue line = ds ++ behind := by
    unfold headerValue
    rw [hv, List.append_assoc, List.dropWhile_append_of_pos hbefore]
    match ds, hne with
    | d :: ds, _ =>
        refine List.dropWhile_cons_of_neg fun hsp => ?_
        have := (isDigit_of_isspace hsp).1
        rw [hds d List.mem_cons_self] at this
        cases this
  have hlong : (ofDigits 10 ds : Int) ≤ longMax := by
    unfold intMax at hmax
    unfold longMax
    omega
  have hread : (strtol (headerValue line ++ [NUL]) 10).val = (n : Int) := by
    rw [hvalue, ← hn]
    cases behind with
    | nil =>
        rw [List.append_nil]
        rw [strtol_digits [] hne hds (by decide) (by decide) hlong]
    | cons b behind =>
        obtain ⟨hb, hx⟩ := isDigit_of_isspace (hbehind b List.mem_cons_self)
        rw [List.append_assoc, List.cons_append, strtol_digits _ hne hds hb hx hlong]
  unfold MnHttp.lengthOf
  rw [hread]
  exact toInt_of_le (by omega) hmax

/-- Without chunks the last `Content-Length` line has the last word. -/
theorem foldl_lineFraming {ls : List (List UInt8)} (h : ∀ l ∈ ls, asksChunked l = false)
    (f : Framing) : ls.foldl lineFraming f =
      { f with bodysz := ((ls.filter isLengthLine).getLast?.map lengthOf).getD f.bodysz } := by
  induction ls generalizing f with
  | nil => rfl
  | cons l ls ih =>
      rw [List.foldl_cons, ih fun l hl => h l (List.mem_cons_of_mem _ hl), List.filter_cons]
      unfold lineFraming
      cases hl : isLengthLine l with
      | true =>
          rw [if_pos rfl, if_pos rfl, List.getLast?_cons]
          cases (ls.filter isLengthLine).getLast? <;> rfl
      | false => rw [if_neg nofun, h l List.mem_cons_self, if_neg nofun, if_neg nofun]

theorem foldl_chunked {ls : List (List UInt8)} {f : Framing}
    (h : f.chunked = true ∨ ∃ l ∈ ls, asksChunked l = true) :
    (ls.foldl lineFraming f).chunked = true := by
  induction ls generalizing f with
  | nil =>
      rcases h with h | ⟨l, hl, -⟩
      · exact h
      · cases hl
  | cons l ls ih =>
      refine ih ?_
      unfold lineFraming
      rcases h with h | ⟨l', hl, hask⟩
      · left
        split
        · exact h
        · split
          · rfl
          · exact h
      · rcases List.mem_cons.mp hl with rfl | hl
        · left
          have hlen : isLengthLine l' = false := by
            unfold asksChunked isEncodingLine at hask
            cases hl' : isLengthLine l' with
            | false => rfl
            | true => rw [hl'] at hask; cases hask
          rw [hlen, if_neg nofun, if_pos hask]
          rfl
        · exact .inr ⟨l', hl, hask⟩

/-- What the line says is what the body is: the line states the length `n`, the
last line of its name reads as the same, no line asks for chunks, and no
value that is read is missing. -/
structure StatesLength (H : RawHead) (line : List UInt8) (n : Nat) : Prop where
  good : GoodLength (behindColon line) n
  last : (H.lines.filter isLengthLine).getLast?.map lengthOf = some (n : Int)
  plain : ∀ l ∈ H.lines, asksChunked l = false
  values : ∀ l ∈ H.lines, readsValue l = true → headerValue l ≠ []

/-- The length is decoded exactly, or the parse returns an error. -/
def DecodedOrRejected (cb : Option Callback) (line : List UInt8) (r : Res) (q : Parser) : Prop :=
  r.isError = true ∨ r = .ok ∧ ∃ n : Nat, GoodLength (behindColon line) n ∧ LengthBody cb n q

/-- **Of a `Content-Length` line of any head: if the parse does not return an
error, the length was decoded exactly if and only if the line states one, the
last such line reads as the same, no line asks for chunks and no value that
is read is missing.**  On any stream, cut in any way. -/
theorem content_length_iff (pf : Platform) (l : FirstLine) (cbs : Callbacks) (errno : Int)
    (s : Stream) (reads reads' : List Read) (H : RawHead) (Z line : List UInt8) (r : Res)
    (q : Parser) (h0 : 0 ≤ s.pos) (hle : s.pos ≤ s.eod + 2)
    (hstream : (s.data ++ pending reads).drop s.pos.toNat = H.bytes ++ Z) (hend : HeadEnd Z)
    (hline : line ∈ H.lines) (hname : isLengthLine line = true)
    (hret : Parses l pf cbs errno s reads (.returned r q reads')) (hr : r.isError = false) :
    DecodedOrRejected cbs.body line r q ↔ ∃ n, StatesLength H line n := by
  have hat : HeadAt H Z (.init s errno) reads := .init h0 hle hstream
  have hdec : DecodedOrRejected cbs.body line r q ↔
      r = .ok ∧ ∃ n : Nat, GoodLength (behindColon line) n ∧ LengthBody cbs.body n q := by
    unfold DecodedOrRejected
    rw [hr]
    simp
  rw [hdec]
  obtain ⟨rfl, l', hl', hreads, hvalue⟩ | ⟨p, reads₁, hread, hcalls, hrun⟩ :=
    head_run (t := ⟨.top, .init s errno, reads⟩) hend hat
      (fun c hc => absurd hc List.not_mem_nil) (parses_iff.mp hret) hr
  · -- it died
    constructor
    · rintro ⟨hok, -⟩
      cases hok
    · rintro ⟨n, hstates⟩
      exact absurd hvalue (hstates.values l' hl' hreads)
  by_cases hask : ∃ l ∈ H.lines, asksChunked l = true
  · have hchunked : p.ctx.framing.chunked = true := by
      rw [hread.framing]
      exact foldl_chunked (.inr hask)
    have hflag := chunked_flag hread hchunked hrun hr
    constructor
    · rintro ⟨-, n, -, hbody⟩
      cases hflag.symm.trans hbody.plain
    · rintro ⟨n, hstates⟩
      obtain ⟨l', hl', htrue⟩ := hask
      cases htrue.symm.trans (hstates.plain l' hl')
  · have hplain : ∀ l ∈ H.lines, asksChunked l = false := fun l hl =>
      Bool.eq_false_iff.mpr fun h => hask ⟨l, hl, h⟩
    have hframing := hread.framing
    rw [foldl_lineFraming hplain] at hframing
    obtain ⟨last, hlast⟩ : ∃ last, (H.lines.filter isLengthLine).getLast? = some last :=
      Option.ne_none_iff_exists'.mp fun hnone => by
        have hmem : line ∈ H.lines.filter isLengthLine := List.mem_filter.mpr ⟨hline, hname⟩
        rw [List.getLast?_eq_none_iff.mp hnone] at hmem
        cases hmem
    have hbodysz : p.ctx.bodysz = lengthOf last := by
      rw [hlast] at hframing
      exact congrArg Framing.bodysz hframing
    obtain ⟨rfl, hbody, -⟩ := plain_length hread (congrArg Framing.chunked hframing) hcalls hrun hr
    have hlast' : (H.lines.filter isLengthLine).getLast?.map lengthOf = some p.ctx.bodysz := by
      rw [hlast, hbodysz]
      rfl
    constructor
    · rintro ⟨-, n, hgood, hn⟩
      refine ⟨n, hgood, ?_, hplain, hread.lines.2⟩
      rw [hlast', ← hn.bodysz, hbody.bodysz]
    · rintro ⟨n, hstates⟩
      refine ⟨rfl, n, hstates.good, ?_⟩
      rw [← Option.some.inj (hlast'.symm.trans hstates.last)]
      exact hbody

/-! ### A length, and a negative one -/

/-- A head with one header line. -/
def oneLine (line : List UInt8) (ok : NoCrlf line ∧ line ≠ []) : RawHead where
  first := ascii "GET / HTTP/1.1"
  lines := [line]
  first_ok := by decide
  lines_ok := fun l hl => by rw [List.mem_singleton.mp hl]; exact ok

theorem content_length_iff_three : ∃ q rest,
    Parses (.request .getRoot) .keeping .accepting 0 ⟨[], [], 0⟩
      [.bytes (ascii "GET / HTTP/1.1\r\nContent-Length: 3\r\n\r\nabc") []]
      (.returned .ok q rest) ∧
    DecodedOrRejected Callbacks.accepting.body (ascii "Content-Length: 3") .ok q := by
  obtain ⟨q, rest, hparse, -⟩ := parses_bodysz 20 (r := .ok) (z := 3)
    [.bytes (ascii "GET / HTTP/1.1\r\nContent-Length: 3\r\n\r\nabc") []]
    (by decide +kernel)
  refine ⟨q, rest, hparse, ?_⟩
  refine (content_length_iff .keeping (.request .getRoot) .accepting 0 ⟨[], [], 0⟩ _ rest
    (oneLine (ascii "Content-Length: 3") (by decide)) (ascii "\r\nabc") _ .ok q (by decide)
    (by decide) (by decide) (.blank (ascii "abc") rfl) List.mem_cons_self (by decide) hparse
    rfl).mpr ?_
  refine ⟨3, ⟨ascii " ", ascii "3", [], by decide, by decide, by decide, by decide, by decide,
    by decide, by decide⟩, by decide, by decide, by decide⟩

/-- **A length of -5 is accepted**: the parse returns 0, and the body ends five
bytes before it starts. -/
theorem negative_length_accepted : ∃ q rest,
    Parses (.request .getRoot) .keeping .accepting 0 ⟨[], [], 0⟩
      [.bytes (ascii "GET / HTTP/1.1\r\nContent-Length: -5\r\n\r\n") []]
      (.returned .ok q rest) ∧ q.ctx.bodysz = -5 ∧
    ¬ DecodedOrRejected Callbacks.accepting.body (ascii "Content-Length: -5") .ok q := by
  obtain ⟨q, rest, hparse, hz⟩ := parses_bodysz 20 (r := .ok) (z := -5)
    [.bytes (ascii "GET / HTTP/1.1\r\nContent-Length: -5\r\n\r\n") []]
    (by decide +kernel)
  refine ⟨q, rest, hparse, hz, ?_⟩
  rintro (herr | ⟨-, n, -, hbody⟩)
  · cases herr
  · have hn := hbody.bodysz
    omega

end MnHttp
