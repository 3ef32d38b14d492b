/-
# `MnApp.Http.RunningSize` — the running total of a chunked body

Every chunk size is a `long` that is stored in an `int`, and added to the `int`
`bodysz`.  Nothing bounds the sizes or the number of the chunks: a delivered
chunk is recycled, so the stream may go on for ever.

A run is watched here (`Loop.Watched`) for the sizes that it has come by:
`announcedBy` is the number that stands in a complete size line, as a number
of any size.  `bodyCallsOf` are the calls of `body_cb` that a step makes.  At
each of them `bodysz` is the sum of what was announced, exactly when that sum
has been in the range of an `int` at every call, and no `Content-Length` was
left in `bodysz` by the head (`running_size_iff`).  The step that matters is
`Tally.step`: as long as the totals fit, nothing was lost in the narrowing of
any single size.
-/
import MnApp.Http.ContentLength

namespace MnHttp

open CLib Loop

/-! ## What is watched -/

/-- The number in a size line that is complete. -/
def sizeLine (x : Parser) : List Int :=
  if x.ctx.flagChunked = true ∧ x.ctx.chunkParserState = .size ∧
      (x.inp.scan x.ctx.currentChunk.start).isSome = true then
    [numeral (x.inp.mem x.ctx.currentChunk.start) 16]
  else []

/-- The size that a step comes by, if it does. -/
def announcedBy (t : LoopState) : List Int :=
  match t.pc with
  | .top => []
  | .dispatch => ((bodyInput t.par).map sizeLine).getD []

theorem announcedBy_top (p : Parser) (reads : List Read) : announcedBy ⟨.top, p, reads⟩ = [] := rfl

/-- The calls of `body_cb` that a step makes. -/
def bodyCallsOf (pf : Platform) (parseLine : Parser → Res × Parser) (cbs : Callbacks)
    (t : LoopState) : List Call :=
  match t.pc with
  | .top => []
  | .dispatch => ((dispatch pf parseLine cbs t.par).par.calls.drop t.par.calls.length).filter
      fun c => c.kind = .body

/-- What `process_body` makes of a number of any size. -/
def narrowed (e : Int) : Int := toInt (max longMin (min e longMax))

/-! ## One iteration -/

/-- **What an iteration can do in a chunked body.** -/
inductive ChunkStep (cb : Option Callback) (x : Parser) (it : Iter) : Prop
  | same (quiet : sizeLine x = []) (calls : it.par.calls = x.calls)
      (framing : ∀ q, it = .again q → q.ctx.framing = x.ctx.framing)
  | size (e : Int) (line : sizeLine x = [e]) (state : x.ctx.chunkParserState = .size)
      (calls : it.par.calls = x.calls)
      (framing : ∀ q, it = .again q →
        q.ctx.framing = ⟨toInt (x.ctx.bodysz + narrowed e), true, .data⟩)
  | data (quiet : sizeLine x = []) (state : x.ctx.chunkParserState = .data)
      (calls : it.par.calls = (x.callback .body cb).2.calls)
      (framing : ∀ q, it = .again q → q.ctx.framing = ⟨x.ctx.bodysz, true, .size⟩)

theorem bodyIter_chunkStep (rc : Recycler) (cb : Option Callback) (k : Nat) {x : Parser}
    (hc : x.ctx.flagChunked = true) : ChunkStep cb x (bodyIter rc cb k x) := by
  obtain ⟨hctx, hinp⟩ := callback_frame (p := x) .body cb
  have hquiet : ∀ s, s ≠ .size → x.ctx.chunkParserState = s → sizeLine x = [] :=
    fun s hs hx => if_neg fun h => hs (hx.symm.trans h.2.1)
  unfold bodyIter processBody
  rw [if_pos hc]
  cases hs : x.ctx.chunkParserState with
  | none =>
      exact .same (hquiet _ (by simp) hs) rfl fun q hq => by cases hq
  | size =>
      simp only
      unfold processChunkSize
      simp only
      cases hscan : findcrlf (x.inp.mem x.ctx.currentChunk.start)
          (toInt (x.inp.eod - x.ctx.currentChunk.start)) with
      | none =>
          refine .same (if_neg fun h => ?_) rfl fun q hq => ?_
          · have hsome := h.2.2
            rw [show x.inp.scan x.ctx.currentChunk.start = none from hscan] at hsome
            cases hsome
          · cases hq
            rfl
      | some n =>
          have hline : sizeLine x = [numeral (x.inp.mem x.ctx.currentChunk.start) 16] :=
            if_pos ⟨hc, hs, Option.isSome_iff_exists.mpr ⟨n, hscan⟩⟩
          have hcalls := (noteErrno_same x (strtol (x.inp.mem x.ctx.currentChunk.start) 16)).1
          have hnum : toInt (strtol (x.inp.mem x.ctx.currentChunk.start) 16).val =
              narrowed (numeral (x.inp.mem x.ctx.currentChunk.start) 16) := by
            rw [strtol_val]
            rfl
          simp only
          by_cases hbad : (strtol (x.inp.mem x.ctx.currentChunk.start) 16).len ≠ n ∨
              toInt (strtol (x.inp.mem x.ctx.currentChunk.start) 16).val < 0
          · rw [if_pos hbad]
            exact .size _ hline hs hcalls fun q hq => by cases hq
          · rw [if_neg hbad]
            refine .size _ hline hs hcalls fun q hq => ?_
            cases hq
            simp only [Ctx.framing, hnum, hc]
  | data =>
      simp only
      have hq := hquiet _ (by simp) hs
      unfold processChunkData
      simp only
      by_cases hneed : toInt (x.ctx.currentChunkSize -
          (x.ctx.currentChunk.stop - x.ctx.currentChunk.start)) > 0
      · rw [if_pos hneed]
        exact .same hq rfl fun q hq => by cases hq; rfl
      rw [if_neg hneed]
      by_cases hfail : (x.callback .body cb).1 ≠ 0
      · rw [if_pos hfail]
        exact .data hq hs rfl fun q hq => by cases hq
      rw [if_neg hfail]
      by_cases hlast : (x.callback .body cb).2.ctx.currentChunkSize > 0
      · rw [if_pos hlast]
        refine .data hq hs rfl fun q hq => ?_
        cases hq
        simp only [recycleStreamBuffer, Ctx.framing, hctx, hc]
      · rw [if_neg hlast]
        exact .data hq hs rfl fun q hq => by cases hq

/-! ## The total -/

/-- The framing of a body that has announced `es`, when `z₀` was in `bodysz` at
its start.  Before a size line the total has fitted so far; inside a chunk the
last size has been added, and has not been judged yet. -/
inductive Tally (z₀ : Int) (f : Framing) : List Int → Prop
  | plain (es : List Int) (flag : f.chunked = false) : Tally z₀ f es
  | size (es : List Int) (eq : f = ⟨toInt (z₀ + es.sum), true, .size⟩) (lo : 0 ≤ es.sum)
      (hi : es.sum ≤ intMax) : Tally z₀ f es
  | data (es : List Int) (e : Int)
      (eq : f = ⟨toInt (toInt (z₀ + es.sum) + narrowed e), true, .data⟩) (lo : 0 ≤ es.sum)
      (hi : es.sum ≤ intMax) : Tally z₀ f (es ++ [e])

/-- A size between two totals that fit was not changed by the narrowing. -/
theorem narrowed_of_totals {a e : Int} (h0 : 0 ≤ a) (h1 : a ≤ intMax) (h2 : 0 ≤ a + e)
    (h3 : a + e ≤ intMax) : narrowed e = e := by
  unfold narrowed
  have hclamp : max longMin (min e longMax) = e := by
    unfold longMin longMax
    unfold intMax at h1 h3
    omega
  rw [hclamp]
  exact toInt_of_le (by unfold intMax at h1; omega) (by omega)

theorem Tally.bodysz {z₀ : Int} {f : Framing} {es : List Int} (h : Tally z₀ f es)
    (hc : f.chunked = true) (hs : f.chunkState = .data) (h0 : 0 ≤ es.sum)
    (h1 : es.sum ≤ intMax ∨ f.bodysz = es.sum) :
    f.bodysz = toInt (z₀ + es.sum) ∧ es.sum ≤ intMax := by
  cases h with
  | plain _ flag =>
      rw [flag] at hc
      cases hc
  | size _ eq =>
      rw [eq] at hs
      cases hs
  | data es e eq lo hi =>
      subst eq
      rw [List.sum_append, List.sum_singleton] at *
      have hle : es.sum + e ≤ intMax := by
        rcases h1 with h1 | h1
        · exact h1
        · rw [← h1]
          exact (toInt_range _).2
      refine ⟨?_, hle⟩
      show toInt (toInt (z₀ + es.sum) + narrowed e) = _
      rw [narrowed_of_totals lo hi h0 hle, toInt_toInt_add, Int.add_assoc]

section
variable {z₀ : Int} {x q : Parser} {es : List Int} {rc : Recycler} {cb : Option Callback} {k : Nat}

/-- **One iteration in the body.**  At a call the total must fit, or `bodysz`
must be the total. -/
theorem Tally.step (h : Tally z₀ x.ctx.framing es)
    (hfit : x.ctx.flagChunked = true → x.ctx.chunkParserState = .data →
      (bodyIter rc cb k x).par.calls = (x.callback .body cb).2.calls →
      0 ≤ es.sum ∧ (es.sum ≤ intMax ∨ x.ctx.bodysz = es.sum))
    (hit : bodyIter rc cb k x = .again q) : Tally z₀ q.ctx.framing (es ++ sizeLine x) := by
  cases hc : x.ctx.flagChunked with
  | false =>
      exact .plain _ ((bodyIter_flag.1 q hit).trans hc)
  | true =>
      cases bodyIter_chunkStep rc cb k hc with
      | same quiet _ framing =>
          rw [quiet, List.append_nil, framing q hit]
          exact h
      | size e line state _ framing =>
          rw [line, framing q hit]
          cases h with
          | plain _ flag => cases hc.symm.trans flag
          | data _ _ eq => cases state.symm.trans (congrArg Framing.chunkState eq)
          | size _ eq lo hi =>
              have hz : x.ctx.bodysz = toInt (z₀ + es.sum) := congrArg Framing.bodysz eq
              rw [hz]
              exact .data es e rfl lo hi
      | data quiet state calls framing =>
          obtain ⟨h0, h1⟩ := hfit hc state calls
          obtain ⟨hz, hle⟩ := h.bodysz hc state h0 h1
          rw [quiet, List.append_nil, framing q hit]
          refine .size es ?_ h0 hle
          rw [show x.ctx.bodysz = toInt (z₀ + es.sum) from hz]

end

/-! ## The start -/

/-- The lines that decide on the body. -/
def framesBody (line : List UInt8) : Bool := isLengthLine line || asksChunked line

/-- The last of these lines asks for chunks, or it is a `Content-Length` that is
stored as 0. -/
def StartsAtZero (H : RawHead) : Prop :=
  ∃ line, (H.lines.filter framesBody).getLast? = some line ∧
    (isLengthLine line = true → lengthOf line = 0)

/-- The last such line has the last word on `bodysz`. -/
theorem foldl_bodysz (ls : List (List UInt8)) (f : Framing) :
    (ls.foldl lineFraming f).bodysz = match (ls.filter framesBody).getLast? with
      | none => f.bodysz
      | some line => if isLengthLine line then lengthOf line else 0 := by
  induction ls generalizing f with
  | nil => rfl
  | cons line ls ih =>
      rw [List.foldl_cons, ih, List.filter_cons]
      cases hline : framesBody line with
      | false =>
          obtain ⟨hlen, hask⟩ := Bool.or_eq_false_iff.mp hline
          have hsame : lineFraming f line = f := by
            unfold lineFraming
            rw [hlen, if_neg nofun, hask, if_neg nofun]
          rw [hsame]
          rfl
      | true =>
          rw [if_pos rfl, List.getLast?_cons]
          cases (ls.filter framesBody).getLast? with
          | some _ => rfl
          | none =>
              show (lineFraming f line).bodysz = _
              unfold lineFraming
              cases hlen : isLengthLine line with
              | true => simp [hlen]
              | false =>
                  rw [framesBody, hlen, Bool.false_or] at hline
                  simp [hlen, hline, Framing.chunks]

theorem foldl_ready {ls : List (List UInt8)} {f : Framing}
    (hf : f.chunked = true → f.chunkState = .size) (hls : (ls.foldl lineFraming f).chunked = true) :
    (ls.foldl lineFraming f).chunkState = .size := by
  induction ls generalizing f with
  | nil => exact hf hls
  | cons line ls ih =>
      refine ih ?_ hls
      unfold lineFraming
      split
      · exact hf
      · split
        · exact fun _ => rfl
        · exact hf

/-- **The count starts at 0 exactly when no length was left over.** -/
theorem startsAtZero_iff {H : RawHead} :
    (H.lines.foldl lineFraming .unset).bodysz = 0 ↔ StartsAtZero H := by
  rw [foldl_bodysz]
  unfold StartsAtZero
  cases hlast : (H.lines.filter framesBody).getLast? with
  | none => exact iff_of_false (by decide) (by rintro ⟨line, hline, -⟩; cases hline)
  | some line =>
      simp only [Option.some.injEq, exists_eq_left']
      cases isLengthLine line <;> simp

theorem lengthOf_range (line : List UInt8) : -2147483648 ≤ lengthOf line ∧ lengthOf line ≤ intMax :=
  toInt_range _

theorem foldl_bodysz_int (ls : List (List UInt8)) :
    toInt (ls.foldl lineFraming .unset).bodysz = (ls.foldl lineFraming .unset).bodysz := by
  rw [foldl_bodysz]
  cases (ls.filter framesBody).getLast? with
  | none => rfl
  | some line =>
      simp only
      split
      · exact toInt_of_le (lengthOf_range line).1 (lengthOf_range line).2
      · rfl

/-! ## The calls -/

section
variable {pf : Platform} {l : FirstLine} {cbs : Callbacks} {p x : Parser} {reads : List Read}

theorem bodyCallsOf_dispatch {more : List Call}
    (h : (dispatch pf l.parse cbs p).par.calls = p.calls ++ more) :
    bodyCallsOf pf l.parse cbs ⟨.dispatch, p, reads⟩ = more.filter fun c => c.kind = .body := by
  show List.filter _ (List.drop p.calls.length _) = _
  rw [h, List.drop_left]

theorem bodyIter_plain_calls (rc : Recycler) (cb : Option Callback) (k : Nat)
    (hc : x.ctx.flagChunked = false) : ∃ more, (bodyIter rc cb k x).par.calls = x.calls ++ more ∧
      ∀ c ∈ more, c.ctx.flagChunked = false := by
  have hone : ∃ more, ((plainTaken x).callback .body cb).2.calls = x.calls ++ more ∧
      ∀ c ∈ more, c.ctx.flagChunked = false := by
    cases cb with
    | none => exact ⟨[], (List.append_nil _).symm, fun _ h => absurd h List.not_mem_nil⟩
    | some f => exact ⟨[_], rfl, fun c h => by rw [List.mem_singleton.mp h]; exact hc⟩
  unfold bodyIter processBody
  rw [hc, if_neg nofun, processPlainBody_eq]
  by_cases hmore : (plainTaken x).ctx.body.stop - x.ctx.body.start < x.ctx.bodysz
  · rw [if_pos hmore]
    exact ⟨[], (List.append_nil _).symm, fun _ h => absurd h List.not_mem_nil⟩
  rw [if_neg hmore]
  simp only
  by_cases hfail : ((plainTaken x).callback .body cb).1 ≠ 0
  · rw [if_pos hfail]
    exact hone
  · rw [if_neg hfail]
    exact hone

theorem mem_bodyCallsOf {c : Call} (h : c ∈ bodyCallsOf pf l.parse cbs ⟨.dispatch, p, reads⟩)
    (hc : c.ctx.flagChunked = true) :
    ∃ x, bodyInput p = some x ∧ x.ctx.flagChunked = true ∧ x.ctx.chunkParserState = .data ∧
      c.ctx = x.ctx ∧ cbs.body.isSome = true := by
  cases hin : bodyInput p with
  | none =>
      obtain ⟨more, hmore, hkind⟩ := dispatch_head_calls pf l cbs hin
      rw [bodyCallsOf_dispatch hmore] at h
      obtain ⟨hmem, hbody⟩ := List.mem_filter.mp h
      exact absurd (of_decide_eq_true hbody) (hkind c hmem)
  | some x =>
      refine ⟨x, rfl, ?_⟩
      obtain ⟨k, hdisp⟩ := dispatch_bodyInput pf l.parse cbs hin
      have hcalls := bodyInput_calls hin
      have hnone : ∀ {it : Iter}, dispatch pf l.parse cbs p = it →
          it.par.calls = x.calls → False := by
        rintro it rfl hit
        rw [hcalls, ← List.append_nil p.calls] at hit
        rw [bodyCallsOf_dispatch hit] at h
        cases h
      cases hflag : x.ctx.flagChunked with
      | false =>
          obtain ⟨more, hmore, hall⟩ := bodyIter_plain_calls pf.recycler cbs.body k hflag
          rw [← hdisp, hcalls] at hmore
          rw [bodyCallsOf_dispatch hmore] at h
          cases hc.symm.trans (hall c (List.mem_filter.mp h).1)
      | true =>
          cases bodyIter_chunkStep pf.recycler cbs.body k hflag with
          | same _ calls => exact absurd (hnone hdisp calls) id
          | size _ _ _ calls => exact absurd (hnone hdisp calls) id
          | data _ state calls =>
              refine ⟨rfl, state, ?_⟩
              cases hcb : cbs.body with
              | none =>
                  rw [hcb] at calls hdisp
                  exact absurd (hnone hdisp calls) id
              | some f =>
                  have hmade : (dispatch pf l.parse cbs p).par.calls =
                      p.calls ++ [⟨.body, x.ctx, x.inp⟩] := by
                    rw [hdisp, calls, hcb, ← hcalls]
                    rfl
                  rw [bodyCallsOf_dispatch hmade] at h
                  rw [List.mem_singleton.mp (List.mem_filter.mp h).1]
                  exact ⟨rfl, rfl⟩

theorem bodyCall_made {k : Nat} (hin : bodyInput p = some x)
    (hdisp : dispatch pf l.parse cbs p = bodyIter pf.recycler cbs.body k x)
    (hcb : cbs.body.isSome = true)
    (h : (bodyIter pf.recycler cbs.body k x).par.calls = (x.callback .body cbs.body).2.calls) :
    ⟨.body, x.ctx, x.inp⟩ ∈ bodyCallsOf pf l.parse cbs ⟨.dispatch, p, reads⟩ := by
  obtain ⟨f, hf⟩ := Option.isSome_iff_exists.mp hcb
  have hmade : (dispatch pf l.parse cbs p).par.calls = p.calls ++ [⟨.body, x.ctx, x.inp⟩] := by
    rw [hdisp, h, hf, ← bodyInput_calls hin]
    rfl
  rw [bodyCallsOf_dispatch hmade]
  simp

end

/-! ## Whole runs -/

section
variable (pf : Platform) (l : FirstLine) (cbs : Callbacks) (t₀ : LoopState)

/-- The run from `t₀` makes the call `c` of `body_cb` in a chunked body, with
`es` announced before. -/
def ChunkCallAt (es : List Int) (c : Call) : Prop :=
  ∃ t, Watched (loopStep pf l.parse cbs) announcedBy t₀ es t ∧
    c ∈ bodyCallsOf pf l.parse cbs t ∧ c.ctx.flagChunked = true

/-- At every call `bodysz` is the total of the announced sizes; it is not
negative. -/
def SizesTrue : Prop :=
  ∀ es c, ChunkCallAt pf l cbs t₀ es c → c.ctx.bodysz = es.sum ∧ 0 ≤ c.ctx.bodysz

/-- At every call the total is one of an `int`, and it was counted from 0. -/
def TotalsFit (H : RawHead) : Prop :=
  ∀ es c, ChunkCallAt pf l cbs t₀ es c → StartsAtZero H ∧ 0 ≤ es.sum ∧ es.sum ≤ intMax

variable {pf l cbs} {H : RawHead} {Z : List UInt8} {errno : Int} {s : Stream} {reads : List Read}

/-- Where a run is: in the head, with nothing announced, or in the body. -/
def TallyAt (H : RawHead) (Z : List UInt8) (b : Nat) (t : LoopState) (es : List Int) : Prop :=
  (t.par.ctx.parserState = .body ∧
      Tally (H.lines.foldl lineFraming .unset).bodysz t.par.ctx.framing es) ∨
    es = [] ∧ ∃ k, LinesAt H Z b t.par t.reads k ∧ FramingAt t.par k

theorem TallyAt.input {b : Nat} {p x : Parser} {es : List Int} (hend : HeadEnd Z)
    (h : TallyAt H Z b ⟨.dispatch, p, reads⟩ es) (hin : bodyInput p = some x) :
    Tally (H.lines.foldl lineFraming .unset).bodysz x.ctx.framing es := by
  rw [bodyInput_framing hin]
  obtain ⟨-, htally⟩ | ⟨rfl, k, hat, hframing⟩ := h
  · exact htally
  · -- then it is at the empty line
    have hhead : p.ctx.parserState = .headerFieldOut ∧
        p.inp.scan p.ctx.currentHeaderName.start = some 0 := by
      obtain ⟨hstate, hscan, -⟩ | ⟨hstate, -⟩ := bodyInput_cases hin
      · exact ⟨hstate, hscan⟩
      · have hbody : p.ctx.parserState = .bodyIn ∨ p.ctx.parserState = .body := hstate
        cases hat with
        | first _ state | field _ _ _ _ state =>
            rcases state with ⟨state, -⟩ | ⟨state, -⟩ <;> rw [state] at hbody <;>
              rcases hbody with hbody | hbody <;> cases hbody
    obtain ⟨rfl, -⟩ := hat.blank hend hhead.1 hhead.2
    have hfold : p.ctx.framing = H.lines.foldl lineFraming .unset := hframing.1
    show Tally _ p.ctx.framing []
    rw [hfold]
    cases hc : (H.lines.foldl lineFraming .unset).chunked with
    | false => exact .plain [] hc
    | true =>
        have hready := foldl_ready (f := .unset) nofun hc
        have hint := foldl_bodysz_int H.lines
        generalize H.lines.foldl lineFraming .unset = f at hc hready hint
        refine .size [] ?_ (Int.le_refl 0) (by decide)
        rw [List.sum_nil, Int.add_zero, hint]
        obtain ⟨z, c, st⟩ := f
        simp only at hc hready
        rw [hc, hready]

/-- **The run rule.** -/
theorem tally_watched {t : LoopState} {es : List Int} (hcb : cbs.body.isSome = true)
    (h0 : 0 ≤ s.pos) (hle : s.pos ≤ s.eod + 2)
    (hstream : (s.data ++ pending reads).drop s.pos.toNat = H.bytes ++ Z) (hend : HeadEnd Z)
    (hfit : ∀ es c, ChunkCallAt pf l cbs ⟨.top, .init s errno, reads⟩ es c →
      0 ≤ es.sum ∧ (es.sum ≤ intMax ∨ c.ctx.bodysz = es.sum))
    (h : Watched (loopStep pf l.parse cbs) announcedBy ⟨.top, .init s errno, reads⟩ es t) :
    TallyAt H Z (s.pos.toNat + H.bytes.length) t es := by
  refine h.invariant (I := TallyAt H Z (s.pos.toNat + H.bytes.length)) ?_ ?_
  · intro t u es hrun hI hs
    cases loopStep_again_iff.mp hs with
    | read =>
        rw [announcedBy_top, List.append_nil]
        rcases hI with hbody | ⟨hes, k, hat, hframing⟩
        · exact .inl hbody
        · exact .inr ⟨hes, k, hat.consume, by cases k <;> exact hframing⟩
    | look =>
        rw [announcedBy_top, List.append_nil]
        exact hI
    | @pass p q reads' hd =>
        cases hin : bodyInput p with
        | some x =>
            obtain ⟨k, hdisp⟩ := dispatch_bodyInput pf l.parse cbs hin
            have hsizes : announcedBy ⟨.dispatch, p, reads'⟩ = sizeLine x := by
              simp only [announcedBy, hin, Option.map_some, Option.getD_some]
            have hit := hdisp.symm.trans hd
            rw [hsizes]
            refine .inl ⟨bodyIter_state hit, (hI.input hend hin).step (fun hc _ hcalls => ?_) hit⟩
            exact hfit es _ ⟨_, hrun, bodyCall_made hin hdisp hcb hcalls, hc⟩
        | none =>
            have hquiet : announcedBy ⟨.dispatch, p, reads'⟩ = [] := by
              simp only [announcedBy, hin, Option.map_none, Option.getD_none]
            rw [hquiet, List.append_nil]
            rcases hI with ⟨hbody, -⟩ | ⟨hes, k, hat, hframing⟩
            · cases hin.symm.trans (bodyInput_body hbody)
            · rcases hat.iteration pf l cbs hend with ⟨rfl, hblank⟩ | ⟨hagain, -⟩
              · have hfound := hblank.found
                rw [← hblank.start] at hfound
                cases hin.symm.trans (bodyInput_blank hblank.state hfound)
              · obtain ⟨k', hat', hstep⟩ := hagain _ hd
                exact .inr ⟨hes, k', hat', hframing.step hstep⟩
  · exact .inr ⟨rfl, none, .first s.pos.toNat (.inl ⟨rfl, by show s.pos = _; omega⟩)
      (by show _ ≤ s.eod + 2; omega) hstream rfl, rfl⟩

theorem bodysz_at_call {es : List Int} {c : Call} (h0 : 0 ≤ s.pos) (hle : s.pos ≤ s.eod + 2)
    (hstream : (s.data ++ pending reads).drop s.pos.toNat = H.bytes ++ Z) (hend : HeadEnd Z)
    (hfit : ∀ es c, ChunkCallAt pf l cbs ⟨.top, .init s errno, reads⟩ es c →
      0 ≤ es.sum ∧ (es.sum ≤ intMax ∨ c.ctx.bodysz = es.sum))
    (h : ChunkCallAt pf l cbs ⟨.top, .init s errno, reads⟩ es c) :
    c.ctx.bodysz = toInt ((H.lines.foldl lineFraming .unset).bodysz + es.sum) ∧
      es.sum ≤ intMax := by
  obtain ⟨hsum, hor⟩ := hfit es c h
  obtain ⟨⟨pc, p, reads'⟩, hrun, hmem, hc⟩ := h
  cases pc with
  | top => cases hmem
  | dispatch =>
      obtain ⟨x, hin, hflag, hstate, hctx, hcb⟩ := mem_bodyCallsOf hmem hc
      have htally := (tally_watched hcb h0 hle hstream hend hfit hrun).input hend hin
      rw [hctx] at hor ⊢
      exact htally.bodysz hflag hstate hsum hor

/-- **`bodysz` is the total of the announced sizes at every call of `body_cb` in
a chunked body if and only if** these totals fit in an `int` and no
`Content-Length` was left in `bodysz` by the head.  On any stream, cut in any
way, with any callbacks. -/
theorem running_size_iff (pf : Platform) (l : FirstLine) (cbs : Callbacks) (errno : Int)
    (s : Stream) (reads : List Read) (H : RawHead) (Z : List UInt8) (h0 : 0 ≤ s.pos)
    (hle : s.pos ≤ s.eod + 2)
    (hstream : (s.data ++ pending reads).drop s.pos.toNat = H.bytes ++ Z) (hend : HeadEnd Z) :
    SizesTrue pf l cbs ⟨.top, .init s errno, reads⟩ ↔
      TotalsFit pf l cbs ⟨.top, .init s errno, reads⟩ H := by
  have hrange := foldl_bodysz_int H.lines
  constructor
  · intro htrue es c hcall
    have hfit : ∀ es c, ChunkCallAt pf l cbs ⟨.top, .init s errno, reads⟩ es c →
        0 ≤ es.sum ∧ (es.sum ≤ intMax ∨ c.ctx.bodysz = es.sum) := fun es c h => by
      obtain ⟨heq, hnonneg⟩ := htrue es c h
      exact ⟨heq ▸ hnonneg, .inr heq⟩
    obtain ⟨hz, hmax⟩ := bodysz_at_call h0 hle hstream hend hfit hcall
    obtain ⟨heq, hnonneg⟩ := htrue es c hcall
    rw [heq] at hz hnonneg
    refine ⟨startsAtZero_iff.mp ?_, hnonneg, hmax⟩
    have hlo := toInt_range (H.lines.foldl lineFraming .unset).bodysz
    rw [hrange] at hlo
    generalize (H.lines.foldl lineFraming .unset).bodysz = z at hz hlo
    unfold toInt intMax at *
    rw [Int.bmod_def] at hz
    split at hz <;> omega
  · intro hfits es c hcall
    have hfit : ∀ es c, ChunkCallAt pf l cbs ⟨.top, .init s errno, reads⟩ es c →
        0 ≤ es.sum ∧ (es.sum ≤ intMax ∨ c.ctx.bodysz = es.sum) := fun es c h => by
      obtain ⟨-, hlo, hhi⟩ := hfits es c h
      exact ⟨hlo, .inl hhi⟩
    obtain ⟨hz, hmax⟩ := bodysz_at_call h0 hle hstream hend hfit hcall
    obtain ⟨hstart, hlo, -⟩ := hfits es c hcall
    rw [startsAtZero_iff.mpr hstart, Int.zero_add, toInt_of_le (by omega) hmax] at hz
    exact ⟨hz, by omega⟩

end

/-! ### Sizes that fit, and one that does not -/

section
variable {pf : Platform} {l : FirstLine} {cbs : Callbacks} {t₀ : LoopState}

theorem totalsFit_of_watch {H : RawHead} (n : Nat)
    (hrun : (run (loopStep pf l.parse cbs) n t₀).isSome = true) (hstart : StartsAtZero H)
    (h : ∀ e ∈ watch (loopStep pf l.parse cbs) announcedBy n [] t₀,
      ∀ c ∈ bodyCallsOf pf l.parse cbs e.2, 0 ≤ e.1.sum ∧ e.1.sum ≤ intMax) :
    TotalsFit pf l cbs t₀ H := by
  rintro es c ⟨t, hw, hmem, -⟩
  obtain ⟨r, hr⟩ := Option.isSome_iff_exists.mp hrun
  exact ⟨hstart, h (es, t) (mem_watch hr hw []) c hmem⟩

theorem chunkCallAt_of_watch {n : Nat} {sum z : Int}
    (h : ∃ e ∈ watch (loopStep pf l.parse cbs) announcedBy n [] t₀,
      ∃ c ∈ bodyCallsOf pf l.parse cbs e.2,
        c.ctx.flagChunked = true ∧ e.1.sum = sum ∧ c.ctx.bodysz = z) :
    ∃ es c, ChunkCallAt pf l cbs t₀ es c ∧ es.sum = sum ∧ c.ctx.bodysz = z := by
  obtain ⟨⟨es, t⟩, hmem, c, hc, hflag, hsum, hz⟩ := h
  obtain ⟨es', heq, hw⟩ := watched_of_mem hmem
  rw [List.nil_append] at heq
  subst heq
  exact ⟨es, c, ⟨t, hw, hc, hflag⟩, hsum, hz⟩

end

/-- The run on such a request. -/
def chunkedRun (body : List UInt8) : LoopState :=
  ⟨.top, .init ⟨[], [], 0⟩ 0, chunkedRequest body⟩

theorem running_size_five :
    SizesTrue .keeping (.request .getRoot) .accepting
        (chunkedRun (ascii "3\r\nxyz\r\n2\r\nuv\r\n0\r\n\r\n")) ∧
      ∃ es c, ChunkCallAt .keeping (.request .getRoot) .accepting
        (chunkedRun (ascii "3\r\nxyz\r\n2\r\nuv\r\n0\r\n\r\n")) es c ∧ es.sum = 5 ∧
        c.ctx.bodysz = 5 := by
  refine ⟨?_, chunkCallAt_of_watch (n := 40) (by decide +kernel)⟩
  exact (running_size_iff .keeping (.request .getRoot) .accepting 0 ⟨[], [], 0⟩
    (chunkedRequest (ascii "3\r\nxyz\r\n2\r\nuv\r\n0\r\n\r\n"))
    (oneLine (ascii "Transfer-Encoding: chunked") (by decide))
    (CR :: LF :: ascii "3\r\nxyz\r\n2\r\nuv\r\n0\r\n\r\n") (by decide) (by decide) (by decide)
    (.blank _ rfl)).mpr (totalsFit_of_watch 40 (by decide +kernel)
      ⟨ascii "Transfer-Encoding: chunked", by decide, by decide⟩ (by decide +kernel))

/-- **A chunk of 2^32 bytes is announced and `bodysz` is 0**; the call takes it
for the last chunk, and returns 0. -/
theorem size_modulo :
    ∃ es c, ChunkCallAt .keeping (.request .getRoot) .accepting
        (chunkedRun (ascii "100000000\r\n\r\n")) es c ∧
      es.sum = 4294967296 ∧ c.ctx.bodysz = 0 ∧
      (∃ q rest, Parses (.request .getRoot) .keeping .accepting 0 ⟨[], [], 0⟩
        (chunkedRequest (ascii "100000000\r\n\r\n")) (.returned .ok q rest)) ∧
      ¬ SizesTrue .keeping (.request .getRoot) .accepting
        (chunkedRun (ascii "100000000\r\n\r\n")) := by
  have hcalls : ∃ es c, ChunkCallAt .keeping (.request .getRoot) .accepting
        (chunkedRun (ascii "100000000\r\n\r\n")) es c ∧
      es.sum = 4294967296 ∧ c.ctx.bodysz = 0 := chunkCallAt_of_watch (n := 40) (by decide +kernel)
  obtain ⟨es, c, hcall, hsum, hz⟩ := hcalls
  obtain ⟨q, rest, hparse, -⟩ := parses_bodysz 40 (chunkedRequest (ascii "100000000\r\n\r\n"))
    (r := .ok) (z := 0) (by decide +kernel)
  refine ⟨es, c, hcall, hsum, hz, ⟨q, rest, hparse⟩, fun htrue => ?_⟩
  have heq := (htrue es c hcall).1
  omega

end MnHttp
