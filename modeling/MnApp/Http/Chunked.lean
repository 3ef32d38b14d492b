/-
# `MnApp.Http.Chunked` — reading a chunked body, chunk by chunk

The inner state machine of `process_body`.  Between chunks it is in
`PS_CHUNK_SIZE` and waits for a line; inside one it is in `PS_CHUNK_DATA`
and collects bytes.  Two things make it more than two loops in a row: the
two bytes behind the data are skipped before they have come, so `pos` may
stand up to two bytes past the end of the data, and every chunk ends with a
recycling that shifts all offsets.

    state                         from there
    `SizeTop`   before a size     `size_reaches`    the size line is complete
    `SizeHere`  a complete line   `size_accept`     it is a number: to the data
                                  `size_reject`     it is not: an error
    `DataTop`   before the data   `chunk_data`      one call of `body_cb`, and
                                                    again before a size
                                  `last_data`       the empty chunk: return 0

What a size line means is what `strtol` makes of it, and nothing is said
about the two bytes that are skipped.
-/
import MnApp.Http.PlainBody

namespace MnHttp

open CLib Loop

/-! ## Size lines -/

/-- In `PS_CHUNK_SIZE`, with the line starting at `st` and `z` bytes so far. -/
structure SizeAt (st : Nat) (z : Int) (p : Parser) : Prop where
  chunked : p.ctx.flagChunked = true
  state : p.ctx.chunkParserState = .size
  start : p.ctx.currentChunk.start = st
  bodysz : p.ctx.bodysz = z

/-- In `PS_CHUNK_DATA`: a chunk of `v` bytes that starts at `b`, taken up to
`pos`. -/
structure DataAt (b v : Nat) (z : Int) (p : Parser) : Prop where
  chunked : p.ctx.flagChunked = true
  state : p.ctx.chunkParserState = .data
  size : p.ctx.currentChunkSize = v
  start : p.ctx.currentChunk.start = b
  stop : p.ctx.currentChunk.stop = p.inp.pos
  le_pos : (b : Int) ≤ p.inp.pos
  pos_le : p.inp.pos ≤ b + v
  bodysz : p.ctx.bodysz = z

section
variable (rc : Recycler) (cb : Option Callback) {p : Parser} {st n v : Nat} {z : Int}

theorem bodyIter_size_wait (h : SizeAt st z p) (k : Nat)
    (hnone : findcrlf (p.inp.mem st) (toInt (p.inp.eod - st)) = none) :
    bodyIter rc cb k p =
      .again { p.toEod with ctx := { p.ctx with parserState := .body } } := by
  unfold bodyIter processBody processChunkSize
  simp only [h.chunked, h.state, h.start, hnone, if_true]
  rfl

theorem bodyIter_size_accept (h : SizeAt st z p) (k : Nat)
    (hfound : findcrlf (p.inp.mem st) (toInt (p.inp.eod - st)) = some n)
    (hlen : (strtol (p.inp.mem st) 16).len = n)
    (hval : toInt (strtol (p.inp.mem st) 16).val = v) :
    ∃ q, bodyIter rc cb k p = .again q ∧ DataAt (st + n + 2) v (toInt (z + v)) q ∧
      q.ctx.parserState = .body ∧ q.inp = p.inp.advance ((st : Int) + n - p.inp.pos + 2) ∧
      q.calls = p.calls := by
  obtain ⟨hcalls, hinp⟩ := noteErrno_same p (strtol (p.inp.mem st) 16)
  have hok : ¬ ((strtol (p.inp.mem st) 16).len ≠ n ∨ (v : Int) < 0) := by
    rintro (h | h)
    · exact h hlen
    · omega
  have hpos : p.inp.pos + ((st : Int) + n - p.inp.pos + 2) = ((st + n + 2 : Nat) : Int) := by
    push_cast; omega
  unfold bodyIter processBody processChunkSize
  simp only [h.chunked, h.state, h.start, hfound, hval, hok, if_true, if_false, h.bodysz, hinp,
    Stream.pos_advance, hpos]
  exact ⟨_, rfl, ⟨rfl, rfl, rfl, rfl, hpos.symm, Int.le_of_eq (by rw [Stream.pos_advance, hpos]),
    by rw [Stream.pos_advance, hpos]; omega, rfl⟩, rfl, rfl, hcalls⟩

theorem bodyIter_size_reject (h : SizeAt st z p) (k : Nat)
    (hfound : findcrlf (p.inp.mem st) (toInt (p.inp.eod - st)) = some n)
    (hbad : (strtol (p.inp.mem st) 16).len ≠ n ∨ toInt (strtol (p.inp.mem st) 16).val < 0) :
    ∃ q, bodyIter rc cb k p = .ret (.diag .httpParseMessage k) q := by
  unfold bodyIter processBody processChunkSize
  simp only [h.chunked, h.state, h.start, hfound, hbad, if_true]
  exact ⟨_, rfl⟩

/-! ## Data -/

theorem bodyIter_data_more {b : Nat} (h : DataAt b v z p) (k : Nat) (hlt : p.inp.pos < b + v)
    (hv : (v : Int) ≤ intMax) (hpe : p.inp.pos ≤ p.inp.eod)
    (hmax : p.inp.eod - p.inp.pos ≤ intMax) :
    ∃ q, bodyIter rc cb k p = .again q ∧ DataAt b v z q ∧ q.ctx.parserState = .body ∧
      q.inp = p.inp.advance (min ((b : Int) + v) p.inp.eod - p.inp.pos) ∧ q.calls = p.calls := by
  have hle := h.le_pos
  have hneed : toInt ((v : Int) - (p.inp.pos - b)) = v - (p.inp.pos - b) :=
    toInt_of_le (by omega) (by omega)
  have havail : toInt (p.inp.eod - p.inp.pos) = p.inp.eod - p.inp.pos :=
    toInt_of_le (by omega) hmax
  have hgt : (v : Int) - (p.inp.pos - b) > 0 := by omega
  have hincr : min ((v : Int) - (p.inp.pos - b)) (p.inp.eod - p.inp.pos) =
      min ((b : Int) + v) p.inp.eod - p.inp.pos := by omega
  unfold bodyIter processBody processChunkData
  simp only [h.chunked, h.state, h.size, h.start, h.stop, hneed, havail, hgt, hincr, if_true]
  refine ⟨_, rfl, ⟨rfl, rfl, rfl, rfl, rfl, ?_, ?_, h.bodysz⟩, rfl, rfl, rfl⟩
  · show (b : Int) ≤ p.inp.pos + _
    omega
  · show p.inp.pos + _ ≤ _
    omega

/-- After a chunk: before a size line at `st`, with the stream as it was two
bytes behind the data. -/
structure Skipped (b v : Nat) (z : Int) (p : Parser) (st : Nat) (q : Parser) : Prop where
  size : SizeAt st z q
  state : q.ctx.parserState = .body
  pos : q.inp.pos = st
  eod : q.inp.eod - st = p.inp.eod - (b + v + 2)
  stream : ∀ more, (q.inp.data ++ more).drop st = (p.inp.data ++ more).drop (b + v + 2)

/-- All the data is taken: `body_cb`, two bytes skipped, and the recycling. -/
theorem bodyIter_data_end {b : Nat} (h : DataAt b v z p) (k : Nat) (hpos : p.inp.pos = b + v) :
    ((p.callback .body cb).1 ≠ 0 →
      ∃ q, bodyIter rc cb k p = .ret (.diag .httpParseMessage k) q) ∧
    ((p.callback .body cb).1 = 0 →
      ∃ q st, bodyIter rc cb k p = (if 0 < v then .again q else .ret .ok q) ∧
        Skipped b v z p st q ∧ q.calls = (p.callback .body cb).2.calls) := by
  have hneed : ¬ toInt ((v : Int) - (p.inp.pos - b)) > 0 := by
    have h0 : (v : Int) - (p.inp.pos - b) = 0 := by omega
    rw [h0]
    decide
  have hctx : (p.callback .body cb).2.ctx = p.ctx ∧ (p.callback .body cb).2.inp = p.inp := by
    cases cb <;> exact ⟨rfl, rfl⟩
  have hk₁ := rc.amount_le_eod (p.inp.advance 2) 512 (p.inp.pos + 2)
  have hk₂ := rc.amount_le_until (p.inp.advance 2) 512 (p.inp.pos + 2) (by omega)
  generalize hk : rc.amount (p.inp.advance 2) 512 (p.inp.pos + 2) = d at hk₁ hk₂
  rw [Stream.data_advance] at hk₁
  have hskip : ∀ q : Parser, q.inp = rc.apply (p.inp.advance 2) 512 (p.inp.pos + 2) →
      q.ctx.flagChunked = true → q.ctx.chunkParserState = .size →
      q.ctx.currentChunk.start = p.inp.pos + 2 - d → q.ctx.bodysz = z →
      q.ctx.parserState = .body → Skipped b v z p (b + v + 2 - d) q := by
    intro q h1 h2 h3 h4 h5 h6
    have hqpos : q.inp.pos = p.inp.pos + 2 - d := by rw [h1, ← hk]; rfl
    have hqdata : q.inp.data = p.inp.data.drop d := by rw [h1, ← hk]; rfl
    refine ⟨⟨h2, h3, by omega, h5⟩, h6, by omega, ?_, fun more => ?_⟩
    · unfold Stream.eod
      rw [hqdata, List.length_drop]
      omega
    · rw [hqdata, ← List.drop_append_of_le_length hk₁, List.drop_drop]
      congr 1
      omega
  unfold bodyIter processBody processChunkData
  simp only [h.chunked, h.state, h.size, h.start, h.stop, hneed, if_true, if_false,
    recycleStreamBuffer, hctx, Stream.pos_advance, hk]
  constructor
  · intro hr
    simp only [ne_eq, hr, not_false_iff, if_true]
    exact ⟨_, rfl⟩
  · intro hr
    simp only [ne_eq, hr, not_true, if_false]
    by_cases hv : 0 < v
    · have hv' : (v : Int) > 0 := by omega
      simp only [hv', hv, if_true]
      exact ⟨_, _, rfl, hskip _ rfl rfl rfl rfl h.bodysz rfl, rfl⟩
    · have hv' : ¬ (v : Int) > 0 := by omega
      simp only [hv', hv, if_false]
      exact ⟨_, _, rfl, hskip _ rfl rfl rfl rfl h.bodysz rfl, rfl⟩

end

section
variable (pf : Platform) (parseLine : Parser → Res × Parser) (cbs : Callbacks)

/-- At the top of an iteration, before a size line. -/
structure SizeTop (R st : Nat) (z : Int) (rest : List UInt8) (p : Parser) (reads : List Read) :
    Prop where
  size : SizeAt st z p
  state : p.ctx.parserState = .body
  pos : p.inp.pos = st
  le : (st : Int) ≤ p.inp.eod + 2
  stream : (p.inp.data ++ pending reads).drop st = rest
  delivers : Delivers R reads
  bounded : p.inp.eod - st ≤ R

/-- At the top of an iteration, before the data of a chunk. -/
structure DataTop (R b v : Nat) (z : Int) (rest : List UInt8) (p : Parser) (reads : List Read) :
    Prop where
  data : DataAt b v z p
  state : p.ctx.parserState = .body
  pos : p.inp.pos = b
  le : (b : Int) ≤ p.inp.eod
  stream : (p.inp.data ++ pending reads).drop b = rest
  delivers : Delivers R reads
  bounded : p.inp.eod - b ≤ R

/-- The dispatch has a complete size line before it. -/
structure SizeHere (R st : Nat) (z : Int) (line rest : List UInt8) (s₀ : Stream)
    (reads₀ : List Read) (calls : List Call) (D : Parser) (reads : List Read) : Prop where
  ex : ∃ k P, dispatch pf parseLine cbs D = bodyIter pf.recycler cbs.body k P ∧ SizeAt st z P ∧
    P.calls = calls ∧ LineHere R st line rest s₀ reads₀ P.inp reads ∧
    findcrlf (P.inp.mem st) (toInt (P.inp.eod - st)) = some line.length

theorem waitsAt_size {p : Parser} {st : Nat} {z : Int} (h : SizeAt st z p)
    (hs : p.ctx.parserState = .body) : WaitsAt pf parseLine cbs p st := by
  intro s hnone
  rw [dispatch_body (show (p.withInp s).ctx.parserState = .body from hs)]
  rw [bodyIter_size_wait pf.recycler cbs.body (p := p.withInp s)
    ⟨h.chunked, h.state, h.start, h.bodysz⟩ 13 hnone]
  have hctx : { p.ctx with parserState := .body } = p.ctx := by rw [← hs]
  show Iter.again { (p.withInp s).toEod with ctx := { p.ctx with parserState := .body } } = _
  rw [hctx]
  rfl

/-! ### Waiting for a size line -/

section
variable {R st : Nat} {z : Int} {line rest : List UInt8} {p : Parser} {reads : List Read}

variable {pf parseLine cbs} in
theorem LineHere.sizeHere {s : Stream} {s₀ : Stream} {reads₀ : List Read} (h : SizeAt st z p)
    (hs : p.ctx.parserState = .body) (hl : NoCrlf line)
    (hfit : (line.length : Int) + 1 + R ≤ intMax)
    (hstream : (s₀.data ++ pending reads₀).drop st = line ++ CR :: LF :: rest)
    (hhere : LineHere R st line rest s₀ reads₀ s reads) :
    SizeHere pf parseLine cbs R st z line rest s₀ reads₀ p.calls (p.withInp s) reads := by
  have hc := hhere.complete
  have hb := hhere.bounded
  have hfound := findcrlf_eq (s := s) hl (by rw [hhere.stream]; exact hstream) (by omega) (by omega)
  rw [if_pos hc] at hfound
  exact ⟨13, p.withInp s, dispatch_body hs, ⟨h.chunked, h.state, h.start, h.bodysz⟩, rfl, hhere,
    hfound⟩

theorem size_reaches (h : SizeTop R st z (line ++ CR :: LF :: rest) p reads) (hl : NoCrlf line)
    (hfit : (line.length : Int) + 1 + R ≤ intMax) :
    ∃ D reads', Reaches (loopStep pf parseLine cbs) ⟨.top, p, reads⟩ ⟨.dispatch, D, reads'⟩ ∧
      SizeHere pf parseLine cbs R st z line rest p.inp reads p.calls D reads' := by
  obtain ⟨s, reads', hr, hhere⟩ := awaitLine (p := p) (waitsAt_size pf parseLine cbs h.size h.state)
    hl hfit h.delivers h.stream h.le h.pos h.bounded
  exact ⟨p.withInp s, reads', hr, hhere.sizeHere h.size h.state hl hfit h.stream⟩

theorem size_reaches_blank {b₀ : Nat} {more : List UInt8} {s₀ : Stream} {reads₀ : List Read}
    (hblank : BlankHere R b₀ more s₀ reads₀ p reads) (hfr : p.ctx.framing = ⟨z, true, .size⟩)
    (hst : p.inp.pos + 2 = st)
    (hstream : (p.inp.data ++ pending reads).drop st = line ++ CR :: LF :: rest)
    (hl : NoCrlf line) (hfit : (line.length : Int) + 1 + R ≤ intMax) :
    ∃ D reads', Reaches (loopStep pf parseLine cbs) ⟨.dispatch, p, reads⟩ ⟨.dispatch, D, reads'⟩ ∧
      SizeHere pf parseLine cbs R st z line rest p.inp reads p.calls D reads' := by
  simp only [Ctx.framing, Framing.mk.injEq] at hfr
  have hsize : SizeAt st z (blankLine p) := ⟨hfr.2.1, hfr.2.2, hst, hfr.1⟩
  have hdisp : dispatch pf parseLine cbs p = bodyIter pf.recycler cbs.body 12 (blankLine p) :=
    dispatch_blank hblank.state hblank.start hblank.found
  have hpos := hblank.pos
  have hbound := hblank.bounded
  have hcomplete := hblank.complete
  have hlo : (st : Int) ≤ p.inp.eod + 2 ∧ (b₀ : Int) + 2 ≤ st := by split at hpos <;> omega
  have hfound := findcrlf_eq (s := p.inp) hl hstream hlo.1 (by omega)
  by_cases hc : (st : Int) + line.length + 2 ≤ p.inp.eod
  · -- the first size line came with the empty line
    rw [if_pos hc] at hfound
    exact ⟨p, reads, .refl _, 12, blankLine p, hdisp, hsize, rfl,
      ⟨rfl, hc, by show p.inp.eod - _ ≤ _; omega, hblank.delivers, fun _ _ => Iff.rfl,
        fun _ _ _ => receive_congr reads rfl rfl rfl⟩, hfound⟩
  · rw [if_neg hc] at hfound
    have hit := bodyIter_size_wait pf.recycler cbs.body hsize 12 hfound
    generalize hq : (blankLine p).ctx = c at hit
    -- from here on it is a wait like any other
    have hsize' : SizeAt st z { p with ctx := { c with parserState := .body } } := by
      rw [← hq]
      exact ⟨hsize.chunked, hsize.state, hsize.start, hsize.bodysz⟩
    have hstep : loopStep pf parseLine cbs ⟨.dispatch, p, reads⟩ = .again ⟨.top,
        ({ p with ctx := { c with parserState := .body } } : Parser).withInp
          (blankLine p).toEod.inp, reads⟩ := by
      simp only [loopStep, hdisp, hit]
      rfl
    have heod : (blankLine p).toEod.inp = p.inp.advance (p.inp.eod - p.inp.pos) := by
      simp only [Parser.toEod, blankLine, Stream.advance, Stream.eod, Stream.mk.injEq, true_and]
      omega
    rw [heod] at hstep
    obtain ⟨s, reads', hr, hhere⟩ := awaitLine_eod
      (waitsAt_size pf parseLine cbs hsize' rfl) hl hfit reads
      (p.inp.advance (p.inp.eod - p.inp.pos)) hblank.delivers hstream hlo.1
      p.inp.eod_le_pos_advance (by simp only [Stream.eod_advance]; omega)
    exact ⟨_, reads', .head hstep hr, hhere.of_advance.sizeHere hsize' rfl hl hfit hstream⟩

theorem size_accept {s₀ : Stream} {reads₀ : List Read} {calls : List Call} {D : Parser} {v : Nat}
    (h : SizeHere pf parseLine cbs R st z line rest s₀ reads₀ calls D reads)
    (hstream : (s₀.data ++ pending reads₀).drop st = line ++ CR :: LF :: rest)
    (hnum : ∀ s : Stream, LineHere R st line rest s₀ reads₀ s reads →
      (strtol (s.mem st) 16).len = line.length ∧ toInt (strtol (s.mem st) 16).val = v) :
    ∃ q, loopStep pf parseLine cbs ⟨.dispatch, D, reads⟩ = .again ⟨.top, q, reads⟩ ∧
      DataTop R (st + line.length + 2) v (toInt (z + v)) rest q reads ∧ q.calls = calls := by
  obtain ⟨k, P, hdisp, hsize, hcalls, hhere, hfound⟩ := h.ex
  obtain ⟨hlen, hval⟩ := hnum P.inp hhere
  obtain ⟨q, hit, hdata, hstate, hinp, hqc⟩ :=
    bodyIter_size_accept pf.recycler cbs.body hsize k hfound hlen hval
  have hc := hhere.complete
  have hb := hhere.bounded
  refine ⟨q, loopStep_again (hdisp.trans hit), ⟨hdata, hstate, ?_, ?_, ?_, hhere.delivers, ?_⟩,
    hqc.trans hcalls⟩
  · rw [hinp, Stream.pos_advance]; push_cast; omega
  · rw [hinp, Stream.eod_advance]; push_cast; omega
  · rw [hinp, Stream.data_advance, hhere.stream, Nat.add_assoc, ← List.drop_drop, hstream]
    have : line ++ CR :: LF :: rest = (line ++ [CR, LF]) ++ rest := by simp
    rw [this, List.drop_left' (by simp)]
  · rw [hinp, Stream.eod_advance]; push_cast; omega

theorem size_reject {s₀ : Stream} {reads₀ : List Read} {calls : List Call} {D : Parser}
    (h : SizeHere pf parseLine cbs R st z line rest s₀ reads₀ calls D reads)
    (hnum : ∀ s : Stream, LineHere R st line rest s₀ reads₀ s reads →
      (strtol (s.mem st) 16).len ≠ line.length) :
    ∃ k q, Returns (loopStep pf parseLine cbs) ⟨.dispatch, D, reads⟩
      (.returned (.diag .httpParseMessage k) q reads) := by
  obtain ⟨k, P, hdisp, hsize, hcalls, hhere, hfound⟩ := h.ex
  obtain ⟨q, hit⟩ := bodyIter_size_reject pf.recycler cbs.body hsize k hfound
    (.inl (hnum P.inp hhere))
  exact ⟨k, q, .of_done (loopStep_ret (hdisp.trans hit))⟩

end

/-! ### Collecting the data -/

section
variable {R b v : Nat} {z : Int} {whole : List UInt8}

/-- Inside the data of a chunk; `whole` is the stream. -/
structure DataGo (R b v : Nat) (z : Int) (whole : List UInt8) (calls : List Call) (p : Parser)
    (reads : List Read) : Prop where
  data : DataAt b v z p
  state : p.ctx.parserState = .body
  pos_le : p.inp.pos ≤ p.inp.eod
  stream : p.inp.data ++ pending reads = whole
  delivers : Delivers R reads
  bounded : p.inp.eod - p.inp.pos ≤ R
  calls : p.calls = calls

variable {calls : List Call} {p : Parser} {reads : List Read}

theorem DataGo.consume {bs slack : List UInt8}
    (h : DataGo R b v z whole calls p (.bytes bs slack :: reads)) (hmore : p.inp.eod ≤ p.inp.pos) :
    DataGo R b v z whole calls (p.withInp (p.inp.consume bs slack)) reads where
  data := ⟨h.data.chunked, h.data.state, h.data.size, h.data.start, h.data.stop, h.data.le_pos,
    h.data.pos_le, h.data.bodysz⟩
  state := h.state
  pos_le := by
    have := h.pos_le
    show p.inp.pos ≤ (p.inp.consume bs slack).eod
    rw [Stream.eod_consume]; omega
  stream := by rw [← h.stream]; simp [Parser.withInp, Read.payload]
  delivers := h.delivers.tail
  bounded := by
    obtain ⟨_, _, heq, -, hbR⟩ := h.delivers.head
    cases heq
    show (p.inp.consume bs slack).eod - p.inp.pos ≤ R
    rw [Stream.eod_consume]; omega
  calls := h.calls

/-- One dispatch with data missing: up to the end of the chunk or of what has
come. -/
theorem data_step (h : DataGo R b v z whole calls p reads) (hlt : p.inp.pos < b + v)
    (hv : (v : Int) ≤ intMax) (hR : (R : Int) ≤ intMax) :
    ∃ q, loopStep pf parseLine cbs ⟨.dispatch, p, reads⟩ = .again ⟨.top, q, reads⟩ ∧
      DataGo R b v z whole calls q reads ∧ q.inp.pos = min ((b : Int) + v) p.inp.eod ∧
      q.inp.eod = p.inp.eod := by
  have hpe := h.pos_le
  have hb := h.bounded
  obtain ⟨q, hiter, hdata, hstate, hinp, hcalls⟩ :=
    bodyIter_data_more pf.recycler cbs.body h.data 13 hlt hv hpe (by omega)
  have hdisp : dispatch pf parseLine cbs p = .again q := (dispatch_body h.state).trans hiter
  have hpos : q.inp.pos = min ((b : Int) + v) p.inp.eod := by
    rw [hinp, Stream.pos_advance]
    omega
  have heod : q.inp.eod = p.inp.eod := by rw [hinp]; rfl
  refine ⟨q, loopStep_again hdisp, ⟨hdata, hstate, by omega, ?_, h.delivers, by omega,
    hcalls.trans h.calls⟩, hpos, heod⟩
  rw [hinp]
  exact h.stream

/-- All the data is taken; the next dispatch comes after a byte behind it. -/
theorem data_full (h : DataGo R b v z whole calls p reads) (hpos : p.inp.pos = b + v)
    (hlen : b + v < whole.length) :
    ∃ q reads', Reaches (loopStep pf parseLine cbs) ⟨.top, p, reads⟩ ⟨.dispatch, q, reads'⟩ ∧
      DataGo R b v z whole calls q reads' ∧ q.inp.pos = b + v := by
  by_cases hmore : p.inp.eod ≤ p.inp.pos
  · match reads, h with
    | [], h =>
        have hs := congrArg List.length h.stream
        rw [pending_nil, List.append_nil] at hs
        unfold Stream.eod at hmore
        omega
    | r :: reads, h =>
        obtain ⟨bs, slack, rfl, -, -⟩ := h.delivers.head
        have hread : loopStep pf parseLine cbs ⟨.top, p.withInp p.inp, .bytes bs slack :: reads⟩ =
            .again ⟨.dispatch, p.withInp (p.inp.consume bs slack), reads⟩ := loopStep_read hmore
        exact ⟨_, reads, .single hread, h.consume hmore, hpos⟩
  · have htop : loopStep pf parseLine cbs ⟨.top, p.withInp p.inp, reads⟩ =
        .again ⟨.dispatch, p.withInp p.inp, reads⟩ := loopStep_top (by omega)
    exact ⟨p, reads, .single htop, h, hpos⟩

theorem data_reaches (hv : (v : Int) ≤ intMax) (hR : (R : Int) ≤ intMax)
    (hlen : b + v < whole.length) : ∀ (reads : List Read) (p : Parser),
    DataGo R b v z whole calls p reads →
    ∃ q reads', Reaches (loopStep pf parseLine cbs) ⟨.top, p, reads⟩ ⟨.dispatch, q, reads'⟩ ∧
      DataGo R b v z whole calls q reads' ∧ q.inp.pos = b + v := by
  intro reads
  induction reads with
  | nil =>
      intro p h
      -- everything has come
      have hs := congrArg List.length h.stream
      rw [pending_nil, List.append_nil] at hs
      have heod : (b : Int) + v < p.inp.eod := by unfold Stream.eod; omega
      by_cases hpos : p.inp.pos = b + v
      · exact data_full pf parseLine cbs h hpos hlen
      · have hle := h.data.pos_le
        have htop : loopStep pf parseLine cbs ⟨.top, p.withInp p.inp, []⟩ =
            .again ⟨.dispatch, p.withInp p.inp, []⟩ := loopStep_top (by omega)
        obtain ⟨q, hstep, hq, hqpos, -⟩ := data_step pf parseLine cbs h (by omega) hv hR
        obtain ⟨q', reads', hr, hq', hpos'⟩ := data_full pf parseLine cbs hq (by omega) hlen
        exact ⟨q', reads', .head htop (.head hstep hr), hq', hpos'⟩
  | cons r reads ih =>
      intro p h
      by_cases hpos : p.inp.pos = b + v
      · exact data_full pf parseLine cbs h hpos hlen
      have hle := h.data.pos_le
      obtain ⟨bs, slack, rfl, hbs, -⟩ := h.delivers.head
      -- the step after a read, and what follows it
      have hafter : ∀ p', DataGo R b v z whole calls p' reads → p'.inp.pos < b + v →
          ∃ q reads', Reaches (loopStep pf parseLine cbs) ⟨.dispatch, p', reads⟩
            ⟨.dispatch, q, reads'⟩ ∧
            DataGo R b v z whole calls q reads' ∧ q.inp.pos = b + v := by
        intro p' h' hlt'
        obtain ⟨q, hstep, hq, -, -⟩ := data_step pf parseLine cbs h' hlt' hv hR
        obtain ⟨q', reads', hr, hq', hpos'⟩ := ih q hq
        exact ⟨q', reads', .head hstep hr, hq', hpos'⟩
      by_cases hmore : p.inp.eod ≤ p.inp.pos
      · have hread : loopStep pf parseLine cbs ⟨.top, p.withInp p.inp, .bytes bs slack :: reads⟩ =
            .again ⟨.dispatch, p.withInp (p.inp.consume bs slack), reads⟩ := loopStep_read hmore
        obtain ⟨q, reads', hr, hq⟩ := hafter _ (h.consume hmore)
          (by show p.inp.pos < _; omega)
        exact ⟨q, reads', .head hread hr, hq⟩
      · have htop : loopStep pf parseLine cbs
              ⟨.top, p.withInp p.inp, .bytes bs slack :: reads⟩ =
            .again ⟨.dispatch, p.withInp p.inp, .bytes bs slack :: reads⟩ := loopStep_top (by omega)
        obtain ⟨q, hstep, hq, hqpos, hqeod⟩ := data_step pf parseLine cbs h (by omega) hv hR
        by_cases hqp : q.inp.pos = b + v
        · obtain ⟨q', reads', hr, hq', hpos'⟩ := data_full pf parseLine cbs hq hqp hlen
          exact ⟨q', reads', .head htop (.head hstep hr), hq', hpos'⟩
        · -- all that had come is taken, and it was not enough
          have hqm : q.inp.eod ≤ q.inp.pos := by omega
          have hread : loopStep pf parseLine cbs
                ⟨.top, q.withInp q.inp, .bytes bs slack :: reads⟩ =
              .again ⟨.dispatch, q.withInp (q.inp.consume bs slack), reads⟩ := loopStep_read hqm
          obtain ⟨q', reads', hr, hq'⟩ := hafter _ (hq.consume hqm)
            (by have := hq.data.pos_le; show q.inp.pos < _; omega)
          exact ⟨q', reads', .head htop (.head hstep (.head hread hr)), hq'⟩

/-! ### The end of a chunk -/

/-- The call of `body_cb` for one chunk. -/
structure ChunkCall (bs : List UInt8) (c : Call) : Prop where
  kind : c.kind = .body
  chunk : Addresses c.inp c.ctx.currentChunk bs

theorem DataAt.chunkCall {d rest more : List UInt8} (h : DataAt b v z p)
    (hpos : p.inp.pos = b + v) (hpe : p.inp.pos ≤ p.inp.eod)
    (hstream : (p.inp.data ++ more).drop b = d ++ rest) (hd : d.length = v) :
    ChunkCall d ⟨.body, p.ctx, p.inp⟩ := by
  have hle : b + v ≤ p.inp.data.length := by unfold Stream.eod at hpe; omega
  have hdata : p.inp.data.drop b = d ++ p.inp.data.drop (b + v) := by
    rw [List.drop_append_of_le_length (by omega)] at hstream
    have htake := congrArg (List.take v) hstream
    rw [List.take_append_of_le_length (by rw [List.length_drop]; omega), ← hd,
      List.take_left] at htake
    rw [← List.drop_drop, ← hd]
    conv_lhs => rw [← List.take_append_drop d.length (p.inp.data.drop b), htake]
  have hr : p.ctx.currentChunk = ⟨b, (b : Int) + d.length⟩ := by
    rw [hd, ← hpos, ← h.start, ← h.stop]
  refine ⟨rfl, ?_⟩
  show Addresses p.inp p.ctx.currentChunk d
  rw [hr]
  exact addresses_of_drop hdata

theorem chunk_end (hcb : cbs.Succeeding) (h : DataGo R b v z whole calls p reads)
    (hpos : p.inp.pos = b + v) {d rest : List UInt8} {x y : UInt8}
    (hwhole : whole.drop b = d ++ x :: y :: rest) (hd : d.length = v) :
    ∃ q c st, dispatch pf parseLine cbs p = (if 0 < v then .again q else .ret .ok q) ∧
      SizeTop R st z rest q reads ∧ q.calls = calls ++ [c] ∧ ChunkCall d c := by
  have hpe := h.pos_le
  have hb := h.bounded
  have hok : p.callback .body cbs.body = _ := callback_ok hcb.body
  obtain ⟨q, st, hiter, hskip, hcalls⟩ :=
    (bodyIter_data_end pf.recycler cbs.body h.data 13 hpos).2 (by rw [hok])
  have heod := hskip.eod
  have hstream : (p.inp.data ++ pending reads).drop b = d ++ x :: y :: rest := by
    rw [h.stream]; exact hwhole
  refine ⟨q, ⟨.body, p.ctx, p.inp⟩, st, (dispatch_body h.state).trans hiter,
    ⟨hskip.size, hskip.state, hskip.pos, by omega, ?_, h.delivers, by omega⟩, ?_,
    h.data.chunkCall hpos hpe hstream hd⟩
  · rw [hskip.stream, Nat.add_assoc, ← List.drop_drop, hstream]
    have : d ++ x :: y :: rest = (d ++ [x, y]) ++ rest := by simp
    rw [this, List.drop_left' (by simp; omega)]
  · rw [hcalls, hok, h.calls]

theorem DataTop.go {rest : List UInt8} (h : DataTop R b v z rest p reads) :
    DataGo R b v z (p.inp.data ++ pending reads) p.calls p reads :=
  ⟨h.data, h.state, by rw [h.pos]; exact h.le, rfl, h.delivers, by rw [h.pos]; exact h.bounded, rfl⟩

theorem data_ends (hcb : cbs.Succeeding) {d rest : List UInt8} {x y : UInt8}
    (h : DataTop R b v z (d ++ x :: y :: rest) p reads) (hd : d.length = v)
    (hv : (v : Int) ≤ intMax) (hR : (R : Int) ≤ intMax) :
    ∃ P q c st reads', Reaches (loopStep pf parseLine cbs) ⟨.top, p, reads⟩
        ⟨.dispatch, P, reads'⟩ ∧
      dispatch pf parseLine cbs P = (if 0 < v then .again q else .ret .ok q) ∧
      SizeTop R st z rest q reads' ∧ q.calls = p.calls ++ [c] ∧ ChunkCall d c := by
  have hlen := length_of_drop h.stream (by simp)
  rw [List.length_append, List.length_append, List.length_cons, List.length_cons] at hlen
  have hsum : (p.inp.data ++ pending reads).length = p.inp.data.length + (pending reads).length :=
    List.length_append
  obtain ⟨P, reads', hr, hgo, hpos⟩ := data_reaches pf parseLine cbs hv hR
    (show b + v < (p.inp.data ++ pending reads).length by omega) reads p h.go
  obtain ⟨q, c, st, hdisp, hsize, hcalls, hcall⟩ :=
    chunk_end pf parseLine cbs hcb hgo hpos h.stream hd
  exact ⟨P, q, c, st, reads', hr, hdisp, hsize, hcalls, hcall⟩

/-- **One chunk with data**: one call, and then the next size. -/
theorem chunk_data (hcb : cbs.Succeeding) {d rest : List UInt8} {x y : UInt8}
    (h : DataTop R b v z (d ++ x :: y :: rest) p reads) (hd : d.length = v) (hv0 : 0 < v)
    (hv : (v : Int) ≤ intMax) (hR : (R : Int) ≤ intMax) :
    ∃ q c st reads', Reaches (loopStep pf parseLine cbs) ⟨.top, p, reads⟩ ⟨.top, q, reads'⟩ ∧
      SizeTop R st z rest q reads' ∧ q.calls = p.calls ++ [c] ∧ ChunkCall d c := by
  obtain ⟨P, q, c, st, reads', hr, hdisp, hsize, hcalls, hcall⟩ :=
    data_ends pf parseLine cbs hcb h hd hv hR
  rw [if_pos hv0] at hdisp
  exact ⟨q, c, st, reads', hr.trans (.single (loopStep_again hdisp)), hsize, hcalls, hcall⟩

/-- **The empty chunk**: one call, and the end. -/
theorem last_data (hcb : cbs.Succeeding) {rest : List UInt8} {x y : UInt8}
    (h : DataTop R b 0 z (x :: y :: rest) p reads) (hR : (R : Int) ≤ intMax) :
    ∃ q c st reads', Returns (loopStep pf parseLine cbs) ⟨.top, p, reads⟩
        (.returned .ok q reads') ∧
      SizeTop R st z rest q reads' ∧ q.calls = p.calls ++ [c] ∧ ChunkCall [] c := by
  obtain ⟨P, q, c, st, reads', hr, hdisp, hsize, hcalls, hcall⟩ :=
    data_ends pf parseLine cbs hcb (d := []) h rfl (by decide) hR
  rw [if_neg (Nat.lt_irrefl 0)] at hdisp
  exact ⟨q, c, st, reads', hr.returns (.of_done (loopStep_ret hdisp)), hsize, hcalls, hcall⟩

end

/-! ## All the chunks -/

section
variable {R st v : Nat} {z : Int} {p : Parser} {reads : List Read} {rest : List UInt8}

/-- Hexadecimal digits that write `v`. -/
structure SizeText (text : List UInt8) (v : Nat) : Prop where
  ne : text ≠ []
  digits : ∀ b ∈ text, isDigit 16 b = true
  value : ofDigits 16 text = v

theorem SizeText.noCrlf {text : List UInt8} (h : SizeText text v) : NoCrlf text :=
  noCrlf_of_not_mem fun hc => isDigit_ne_CR (h.digits CR hc) rfl

theorem Chunk.sizeText (c : Chunk) : SizeText c.size c.data.length :=
  ⟨c.size_ne, c.size_digits, c.size_value⟩

theorem sizeText_zero : SizeText (ascii "0") 0 := ⟨by decide, by decide, by decide⟩

theorem SizeText.strtol {text : List UInt8} (h : SizeText text v) (hv : (v : Int) ≤ intMax)
    {s s₀ : Stream} {reads₀ : List Read}
    (hstream : (s₀.data ++ pending reads₀).drop st = text ++ CR :: LF :: rest)
    (hhere : LineHere R st text rest s₀ reads₀ s reads) :
    (strtol (s.mem st) 16).len = text.length ∧ toInt (strtol (s.mem st) 16).val = v := by
  obtain ⟨behind, hmem⟩ := mem_of_complete (s := s) (by rw [hhere.stream]; exact hstream)
    hhere.complete
  have hnum := strtol_digits (LF :: behind) h.ne h.digits (b := CR) (by decide)
    (by decide) (by rw [h.value]; unfold intMax at hv; unfold longMax; omega)
  rw [hmem, hnum, h.value]
  exact ⟨rfl, toInt_of_le (show _ ≤ (v : Int) by omega) hv⟩

end

end

end MnHttp
