/-
# `MnApp.Http.PlainBody` — a body of known length

`process_body` outside the chunked encoding.  It keeps `body.end` equal to
`pos` and moves both to the end of the data or to the end of the body,
whichever comes first; when the body is complete, `body_cb` is called once.

    `PlainAt`        the state of that: the body starts at `b` and is `n` long
    `bodyIter_more`, `bodyIter_done`   one iteration
    `plain_returns`  enough bytes come: one call for `[b, b + n)`
    `plain_blocks`   too few bytes come: no call

`b` need not be where the peer's body starts, and the data may even end
before it: the accumulated length is then negative for a while.
-/
import MnApp.Http.Head

namespace MnHttp

open CLib Loop

/-! ## Recycling -/

/-- Recycling shifts the offsets, not the stream. -/
theorem recycle_drop (rc : Recycler) {s : Stream} {upto : Int} (h0 : 0 ≤ upto)
    (hpos : upto ≤ s.pos) (nonempty : Int) (more : List UInt8) :
    0 ≤ (rc.apply s nonempty upto).pos ∧
      ((rc.apply s nonempty upto).data ++ more).drop (rc.apply s nonempty upto).pos.toNat =
        (s.data ++ more).drop s.pos.toNat := by
  have h1 := rc.amount_le_until s nonempty upto h0
  have h2 := rc.amount_le_eod s nonempty upto
  unfold Recycler.apply
  refine ⟨by simp only; omega, ?_⟩
  simp only
  rw [← List.drop_append_of_le_length h2, List.drop_drop]
  congr 1
  omega

/-! ## What `process_body` can do -/

/-- Reading on in the body: offsets, `errno` and the state of the chunk may be others. -/
structure ReadOn (p x : Parser) : Prop where
  flagChunked : x.ctx.flagChunked = p.ctx.flagChunked
  bodysz : x.ctx.bodysz = p.ctx.bodysz ∨ ∃ e, x.ctx.bodysz = toInt e
  calls : x.calls = p.calls
  data : x.inp.data = p.inp.data
  slack : x.inp.slack = p.inp.slack

theorem ReadOn.refl (p : Parser) : ReadOn p p := ⟨rfl, .inl rfl, rfl, rfl, rfl⟩

/-- Nothing is called, or `body_cb` is, and behind a call that succeeds the buffer is
recycled. -/
inductive BodyFrame (rc : Recycler) (cb : Option Callback) (p q : Parser) : Prop
  | read (on : ReadOn p q)
  | call {x : Parser} (on : ReadOn p x) (after : q = (x.callback .body cb).2)
  | recycle {x y : Parser} (on : ReadOn p x) (behind : ReadOn (x.callback .body cb).2 y)
      (after : q = recycleStreamBuffer rc y)

section
variable (rc : Recycler) (cb : Option Callback)

theorem processChunkSize_frame (p : Parser) : BodyFrame rc cb p (processChunkSize p).2 := by
  refine .read ?_
  unfold processChunkSize
  simp only
  split
  · exact ⟨rfl, .inl rfl, rfl, rfl, rfl⟩
  · obtain ⟨hcalls, hinp⟩ := noteErrno_same p (strtol (p.inp.mem p.ctx.currentChunk.start) 16)
    have hdata := congrArg Stream.data hinp
    have hslack := congrArg Stream.slack hinp
    split <;> exact ⟨rfl, .inr ⟨_, rfl⟩, hcalls, hdata, hslack⟩

theorem processChunkData_frame (p : Parser) : BodyFrame rc cb p (processChunkData rc cb p).2 := by
  unfold processChunkData
  simp only
  split
  · exact .read ⟨rfl, .inl rfl, rfl, rfl, rfl⟩
  · split
    · exact .call (.refl p) rfl
    · split <;>
      · refine .recycle (.refl p) ?_ rfl
        exact ⟨rfl, .inl rfl, rfl, rfl, rfl⟩

theorem processPlainBody_frame (p : Parser) : BodyFrame rc cb p (processPlainBody rc cb p).2 := by
  unfold processPlainBody
  simp only
  split
  · exact .read ⟨rfl, .inl rfl, rfl, rfl, rfl⟩
  · split
    · refine .call ?_ rfl
      exact ⟨rfl, .inl rfl, rfl, rfl, rfl⟩
    · refine .recycle ?_ (.refl _) rfl
      exact ⟨rfl, .inl rfl, rfl, rfl, rfl⟩

theorem processBody_frame (p : Parser) : BodyFrame rc cb p (processBody rc cb p).2 := by
  unfold processBody
  split
  · split
    · exact processChunkSize_frame rc cb p
    · exact processChunkData_frame rc cb p
    · exact .read (.refl p)
  · exact processPlainBody_frame rc cb p

end

/-! ## The state -/

/-- Reading a body of `n` bytes that starts at `b`. -/
structure PlainAt (b n : Nat) (p : Parser) : Prop where
  plain : p.ctx.flagChunked = false
  bodysz : p.ctx.bodysz = n
  start : p.ctx.body.start = b
  chunk : p.ctx.currentChunk.start = b
  stop : p.ctx.body.stop = p.inp.pos
  pos_le : p.inp.pos ≤ b + n

/-- The call of `body_cb` for the whole body. -/
structure PlainCall (b n : Nat) (c : Call) : Prop where
  kind : c.kind = .body
  body : c.ctx.body = ⟨b, b + n⟩
  chunk : c.ctx.currentChunk = ⟨b, b + n⟩
  pos : c.inp.pos = b + n
  complete : (b : Int) + n ≤ c.inp.eod

section
variable (rc : Recycler) (cb : Option Callback) {b n : Nat} {p : Parser}

theorem bodyIter_more (h : PlainAt b n p) (hlt : p.inp.eod < b + n) (k : Nat) :
    ∃ q, bodyIter rc cb k p = .again q ∧ PlainAt b n q ∧ q.ctx.parserState = .body ∧
      q.inp = p.inp.advance (p.inp.eod - p.inp.pos) ∧ q.calls = p.calls := by
  have hmin : min (p.inp.eod - p.inp.pos)
      ((n : Int) - (p.inp.pos - b)) = p.inp.eod - p.inp.pos := by omega
  have hacc : p.inp.pos + (p.inp.eod - p.inp.pos) - (b : Int) < n := by omega
  unfold bodyIter processBody processPlainBody
  simp only [h.plain, h.bodysz, h.start, h.stop, hmin, hacc, if_true, Bool.false_eq_true, if_false]
  refine ⟨_, rfl, ⟨rfl, rfl, rfl, h.chunk, rfl, ?_⟩, rfl, rfl, rfl⟩
  simp only [Stream.pos_advance]; omega

variable {cb} in
theorem bodyIter_done (hcb : ∃ f : Callback, cb = some f ∧ ∀ cs c s, f cs c s = 0)
    (h : PlainAt b n p) (hle : (b : Int) + n ≤ p.inp.eod) (k : Nat) :
    ∃ q c, bodyIter rc cb k p = .ret .ok q ∧ PlainCall b n c ∧ q.calls = p.calls ++ [c] ∧
      c.inp.data = p.inp.data ∧ q.inp = rc.apply c.inp 512 b := by
  have hpos := h.pos_le
  have hmin : min (p.inp.eod - p.inp.pos)
      ((n : Int) - (p.inp.pos - b)) = (b : Int) + n - p.inp.pos := by omega
  have hstop : p.inp.pos + ((b : Int) + n - p.inp.pos) = (b : Int) + n := by omega
  have hacc : ¬ ((b : Int) + n - (b : Int) < n) := by omega
  unfold bodyIter processBody processPlainBody
  simp only [h.plain, h.bodysz, h.start, h.stop, h.chunk, hmin, hstop, hacc, if_false,
    Bool.false_eq_true, callback_ok hcb, ne_eq, not_true]
  exact ⟨_, _, rfl, ⟨rfl, rfl, rfl, hstop, hle⟩, rfl, rfl, rfl⟩

end

/-! ## The run -/

section
variable (pf : Platform) (parseLine : Parser → Res × Parser) {cbs : Callbacks}
variable {R b n : Nat}

/-- How a body that came completely ends. -/
structure PlainDone (pf : Platform) (b n : Nat) (stream : List UInt8) (calls : List Call)
    (q : Parser) (reads : List Read) (c : Call) : Prop where
  call : PlainCall b n c
  calls : q.calls = calls ++ [c]
  stream : c.inp.data ++ pending reads = stream
  inp : q.inp = pf.recycler.apply c.inp 512 b

variable {pf parseLine} in
theorem dispatch_body {p : Parser} (hs : p.ctx.parserState = .body) :
    dispatch pf parseLine cbs p = bodyIter pf.recycler cbs.body 13 p := by
  unfold dispatch
  simp only [hs]

variable {pf parseLine} in
theorem bodyIter_state {rc : Recycler} {cb : Option Callback} {k : Nat} {p q : Parser}
    (h : bodyIter rc cb k p = .again q) : q.ctx.parserState = .body := by
  unfold bodyIter at h
  split at h
  · cases h
    rfl
  · cases h
  · cases h

/-- What `process_body` leaves behind is what the iteration leaves behind, up to
the state of the parser. -/
theorem bodyIter_keeps {P : Parser → Prop} {rc : Recycler} {cb : Option Callback} {k : Nat}
    {p : Parser} (hbody : P (processBody rc cb p).2)
    (hstate : ∀ q, P q → P { q with ctx := { q.ctx with parserState := .body } }) :
    (∀ q, bodyIter rc cb k p = .again q → P q) ∧ ∀ r q, bodyIter rc cb k p = .ret r q → P q := by
  unfold bodyIter
  split
  · rename_i heq
    rw [heq] at hbody
    exact ⟨fun q hq => by cases hq; exact hstate _ hbody, fun _ _ h => (by cases h)⟩
  · rename_i heq
    rw [heq] at hbody
    exact ⟨fun _ h => (by cases h), fun r q hq => by cases hq; exact hstate _ hbody⟩
  · rename_i heq
    rw [heq] at hbody
    exact ⟨fun _ h => (by cases h), fun r q hq => by cases hq; exact hbody⟩

variable {pf parseLine} in
/-- The rule for runs inside a body: what reads and iterations keep holds of
the parser that the call returns. -/
theorem body_invariant {I : Parser → Prop}
    (hread : ∀ p bs slack, I p → I { p with inp := p.inp.consume bs slack })
    (hagain : ∀ p q, I p → bodyIter pf.recycler cbs.body 13 p = .again q → I q)
    (hret : ∀ p r q, I p → bodyIter pf.recycler cbs.body 13 p = .ret r q → I q)
    {t : LoopState} {r : Res} {q : Parser} {reads : List Read} (h₀ : I t.par)
    (hs : t.par.ctx.parserState = .body)
    (h : Returns (loopStep pf parseLine cbs) t (.returned r q reads)) : I q := by
  have hkeep : ∀ t t', I t.par ∧ t.par.ctx.parserState = .body →
      loopStep pf parseLine cbs t = .again t' → I t'.par ∧ t'.par.ctx.parserState = .body := by
    rintro t t' ⟨hinv, hst⟩ hstep
    cases loopStep_again_iff.mp hstep with
    | read => exact ⟨hread _ _ _ hinv, hst⟩
    | look => exact ⟨hinv, hst⟩
    | pass heq =>
        rw [dispatch_body hst] at heq
        exact ⟨hagain _ _ hinv heq, bodyIter_state heq⟩
  obtain ⟨t', ⟨hinv, hst⟩, hdone⟩ := h.invariant hkeep ⟨h₀, hs⟩
  cases loopStep_done_iff.mp hdone with
  | fail => exact hinv
  | ret heq =>
      rw [dispatch_body hst] at heq
      exact hret _ _ _ hinv heq

variable {pf parseLine} in
/-- The rule for runs from the empty line on: what reads and `process_body` keep
holds of the parser that the call returns. -/
theorem blank_invariant {I : Parser → Prop}
    (hread : ∀ p bs slack, I p → I { p with inp := p.inp.consume bs slack })
    (hbody : ∀ p, I p → I (processBody pf.recycler cbs.body p).2)
    (hstate : ∀ p, I p → I { p with ctx := { p.ctx with parserState := .body } })
    {p q : Parser} {r : Res} {reads reads' : List Read}
    (hdisp : dispatch pf parseLine cbs p = bodyIter pf.recycler cbs.body 12 (blankLine p))
    (h₀ : I (blankLine p))
    (h : Returns (loopStep pf parseLine cbs) ⟨.dispatch, p, reads⟩ (.returned r q reads')) :
    I q := by
  have hiter : ∀ k p, I p → _ := fun k p hp =>
    bodyIter_keeps (k := k) (hbody p hp) hstate
  cases hit : bodyIter pf.recycler cbs.body 12 (blankLine p) with
  | ret r' q' =>
      cases h.unique (.of_done (loopStep_ret (hdisp.trans hit)))
      exact (hiter 12 _ h₀).2 _ _ hit
  | again q' =>
      have hstep : loopStep pf parseLine cbs ⟨.dispatch, p, reads⟩ = .again ⟨.top, q', reads⟩ :=
        loopStep_again (hdisp.trans hit)
      exact body_invariant hread (fun p q hp => (hiter 13 p hp).1 q)
        (fun p r q hp => (hiter 13 p hp).2 r q) ((hiter 12 _ h₀).1 _ hit) (bodyIter_state hit)
        ((Reaches.single hstep).returns_iff.mp h)

theorem plain_returns (hcb : cbs.Succeeding) : ∀ (reads : List Read) (p : Parser),
    PlainAt b n p → p.ctx.parserState = .body → p.inp.eod ≤ p.inp.pos → p.inp.eod < b + n →
    Delivers R reads → b + n ≤ (p.inp.data ++ pending reads).length →
    ∃ q reads' c, Returns (loopStep pf parseLine cbs) ⟨.top, p, reads⟩ (.returned .ok q reads') ∧
      PlainDone pf b n (p.inp.data ++ pending reads) p.calls q reads' c := by
  intro reads
  induction reads with
  | nil =>
      intro p _ _ _ hlt _ hlen
      unfold Stream.eod at hlt
      simp only [pending_nil, List.append_nil] at hlen
      omega
  | cons r reads ih =>
      intro p hp hs hmore hlt hd hlen
      obtain ⟨bs, slack, rfl, hbs, -⟩ := hd.head
      have hread : loopStep pf parseLine cbs ⟨.top, p.withInp p.inp, .bytes bs slack :: reads⟩ =
          .again ⟨.dispatch, p.withInp (p.inp.consume bs slack), reads⟩ := loopStep_read hmore
      have hp' : PlainAt b n (p.withInp (p.inp.consume bs slack)) :=
        ⟨hp.plain, hp.bodysz, hp.start, hp.chunk, hp.stop, hp.pos_le⟩
      have hstream : (p.inp.consume bs slack).data ++ pending reads =
          p.inp.data ++ pending (.bytes bs slack :: reads) := by
        simp [Read.payload]
      have hdisp : dispatch pf parseLine cbs (p.withInp (p.inp.consume bs slack)) =
          bodyIter pf.recycler cbs.body 13 (p.withInp (p.inp.consume bs slack)) := dispatch_body hs
      by_cases hc : (b : Int) + n ≤ (p.inp.consume bs slack).eod
      · obtain ⟨q, c, hit, hcall, hcalls, hdata, hinp⟩ :=
          bodyIter_done pf.recycler hcb.body hp' hc 13
        have hstep : loopStep pf parseLine cbs
              ⟨.dispatch, p.withInp (p.inp.consume bs slack), reads⟩ =
            .done (.returned .ok q reads) :=
          loopStep_ret (hdisp.trans hit)
        exact ⟨q, reads, c, (Reaches.single hread).returns (.of_done hstep), hcall, hcalls,
          by rw [hdata]; exact hstream, hinp⟩
      · obtain ⟨q, hit, hq, hqs, hqi, hqc⟩ :=
          bodyIter_more pf.recycler cbs.body hp' (Int.not_le.mp hc) 13
        have hstep : loopStep pf parseLine cbs
              ⟨.dispatch, p.withInp (p.inp.consume bs slack), reads⟩ = .again ⟨.top, q, reads⟩ :=
          loopStep_again (hdisp.trans hit)
        have hqd : q.inp.data ++ pending reads =
            p.inp.data ++ pending (.bytes bs slack :: reads) := by
          rw [hqi]; exact hstream
        obtain ⟨q', reads', c, hret, hdone⟩ := ih q hq hqs
          (by rw [hqi]; exact Stream.eod_le_pos_advance _)
          (by rw [hqi]; exact Int.not_le.mp hc) hd.tail (by rw [hqd]; exact hlen)
        refine ⟨q', reads', c, (Reaches.head hread (.single hstep)).returns hret, ?_⟩
        rw [hqd, hqc] at hdone
        exact hdone

variable (cbs) in
/-- Too few bytes are still to come: the loop waits for more. -/
theorem plain_blocks : ∀ (reads : List Read) (p : Parser),
    PlainAt b n p → p.ctx.parserState = .body → p.inp.eod ≤ p.inp.pos →
    Delivers R reads → (p.inp.data ++ pending reads).length < b + n →
    ∃ q, Returns (loopStep pf parseLine cbs) ⟨.top, p, reads⟩ (.blocked q) := by
  intro reads
  induction reads with
  | nil =>
      intro p _ _ hmore _ _
      have : loopStep pf parseLine cbs ⟨.top, p, []⟩ = .done (.blocked p) := by
        simp [loopStep, Stream.needMore, hmore]
      exact ⟨p, .of_done this⟩
  | cons r reads ih =>
      intro p hp hs hmore hd hlen
      obtain ⟨bs, slack, rfl, hbs, -⟩ := hd.head
      have hread : loopStep pf parseLine cbs ⟨.top, p.withInp p.inp, .bytes bs slack :: reads⟩ =
          .again ⟨.dispatch, p.withInp (p.inp.consume bs slack), reads⟩ := loopStep_read hmore
      have hp' : PlainAt b n (p.withInp (p.inp.consume bs slack)) :=
        ⟨hp.plain, hp.bodysz, hp.start, hp.chunk, hp.stop, hp.pos_le⟩
      have hlen' : ((p.inp.consume bs slack).data ++ pending reads).length < b + n := by
        simpa [Read.payload] using hlen
      have hlt : (p.inp.consume bs slack).eod < b + n := by
        simp only [List.length_append] at hlen'
        unfold Stream.eod
        omega
      obtain ⟨q, hit, hq, hqs, hqi, -⟩ := bodyIter_more pf.recycler cbs.body hp' hlt 13
      have hdisp : dispatch pf parseLine cbs (p.withInp (p.inp.consume bs slack)) =
          bodyIter pf.recycler cbs.body 13 (p.withInp (p.inp.consume bs slack)) := dispatch_body hs
      have hstep : loopStep pf parseLine cbs
            ⟨.dispatch, p.withInp (p.inp.consume bs slack), reads⟩ = .again ⟨.top, q, reads⟩ :=
        loopStep_again (hdisp.trans hit)
      obtain ⟨q', hret⟩ := ih q hq hqs (by rw [hqi]; exact Stream.eod_le_pos_advance _) hd.tail
        (by rw [hqi]; exact hlen')
      exact ⟨q', (Reaches.head hread (.single hstep)).returns hret⟩

/-! ## From the empty line -/

variable {pf parseLine} in
theorem dispatch_blank {b : Nat} {p : Parser} (hs : p.ctx.parserState = .headerFieldOut)
    (hst : p.ctx.currentHeaderName.start = b)
    (hfound : findcrlf (p.inp.mem b) (toInt (p.inp.eod - b)) = some 0) :
    dispatch pf parseLine cbs p = bodyIter pf.recycler cbs.body 12 (blankLine p) := by
  unfold dispatch
  simp only [hs, headerFieldOut, hst, hfound]

theorem plain_outcome (hcb : cbs.Succeeding) {p : Parser} {reads : List Read} {b₀ : Nat}
    {rest : List UInt8} {s₀ : Stream} {reads₀ : List Read}
    (hblank : BlankHere R b₀ rest s₀ reads₀ p reads) (hfr : p.ctx.framing = .length n)
    (hb : p.inp.pos + 2 = b) :
    if b + n ≤ (p.inp.data ++ pending reads).length then
      ∃ q reads' c, Returns (loopStep pf parseLine cbs) ⟨.dispatch, p, reads⟩
          (.returned .ok q reads') ∧
        PlainDone pf b n (p.inp.data ++ pending reads) p.calls q reads' c
    else ∃ q, Returns (loopStep pf parseLine cbs) ⟨.dispatch, p, reads⟩ (.blocked q) := by
  have hp : PlainAt b n (blankLine p) := by
    simp only [Ctx.framing, Framing.length, Framing.mk.injEq] at hfr
    exact ⟨hfr.2.1, hfr.1, hb, hb, rfl, by show p.inp.pos + 2 ≤ _; omega⟩
  have hdisp : dispatch pf parseLine cbs p = bodyIter pf.recycler cbs.body 12 (blankLine p) :=
    dispatch_blank hblank.state hblank.start hblank.found
  by_cases hc : (b : Int) + n ≤ p.inp.eod
  · have hlen : b + n ≤ (p.inp.data ++ pending reads).length := by
      unfold Stream.eod at hc
      rw [List.length_append]
      omega
    rw [if_pos hlen]
    obtain ⟨q, c, hit, hcall, hcalls, hdata, hinp⟩ := bodyIter_done pf.recycler hcb.body hp hc 12
    have hstep : loopStep pf parseLine cbs ⟨.dispatch, p, reads⟩ =
        .done (.returned .ok q reads) :=
      loopStep_ret (hdisp.trans hit)
    exact ⟨q, reads, c, .of_done hstep, hcall, hcalls, by rw [hdata]; rfl, hinp⟩
  · obtain ⟨q, hit, hq, hqs, hqi, hqc⟩ :=
      bodyIter_more pf.recycler cbs.body hp (Int.not_le.mp hc) 12
    have hstep : loopStep pf parseLine cbs ⟨.dispatch, p, reads⟩ = .again ⟨.top, q, reads⟩ :=
      loopStep_again (hdisp.trans hit)
    have hqd : q.inp.data ++ pending reads = p.inp.data ++ pending reads := by rw [hqi]; rfl
    have hpos : q.inp.eod ≤ q.inp.pos := by rw [hqi]; exact Stream.eod_le_pos_advance _
    split
    · rename_i hlen
      obtain ⟨q', reads', c, hret, hdone⟩ := plain_returns pf parseLine hcb
        reads q hq hqs hpos (by rw [hqi]; exact Int.not_le.mp hc) hblank.delivers
        (by rw [hqd]; exact hlen)
      refine ⟨q', reads', c, .of_again hstep hret, ?_⟩
      rw [hqd, hqc] at hdone
      exact hdone
    · rename_i hlen
      obtain ⟨q', hret⟩ := plain_blocks pf parseLine cbs reads q hq hqs
        hpos hblank.delivers (by rw [hqd]; omega)
      exact ⟨q', .of_again hstep hret⟩

end

end MnHttp
