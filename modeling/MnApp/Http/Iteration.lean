/-
# `MnApp.Http.Iteration` — what one iteration of the parser does, on any input

Nothing is known of the stream here.  `Pass p q` lists the ways in which an
iteration can go round again, with what is left of the position, the saved
offsets and the framing; `dispatch_again` says that there are no others.

    wait          no CR LF yet: `pos` goes to the end of the data
    line, header  a complete line: `pos` goes behind its CR LF
    blank, body   into `process_body`, where `BodyPass` says the same of the
                  two states of a chunked body and of a plain one

From it, where the saved offsets are (`Placed`): a line is always scanned
from an offset inside the received bytes, or at most two behind them, so
what a scan finds are received bytes (`scan_some`).  What holds inside a
body is left to the user of the rule (`Placed.pass`).
-/
import MnApp.Http.PlainBody
import MnApp.Http.RawHead

namespace MnHttp

open CLib Loop

/-! ## Scans -/

/-- The scan for the end of a line that starts at `st`. -/
def Stream.scan (s : Stream) (st : Int) : Option Nat :=
  findcrlf (s.mem st) (toInt (s.eod - st))

/-- A scan that finds something was given room for it. -/
theorem scan_room {s : Stream} {st : Int} {n : Nat} (h : s.scan st = some n) :
    (n : Int) + 2 ≤ intMax := by
  obtain ⟨rest, heq, hlen, -⟩ := firstCrlf_eq_some h
  have htake := congrArg List.length heq
  rw [List.length_append, hlen, List.length_take] at htake
  simp only [List.length_cons] at htake
  have := (toInt_range (s.eod - st)).2
  omega

theorem scan_some {s : Stream} {st : Int} {n : Nat} (h0 : 0 ≤ st) (hle : st ≤ s.eod + 2)
    (h : s.scan st = some n) :
    st + n + 2 ≤ s.eod ∧ ∃ line behind, s.data.drop st.toNat = line ++ CR :: LF :: behind ∧
      NoCrlf line ∧ line.length = n := by
  obtain ⟨m, rfl⟩ := Int.eq_ofNat_of_zero_le h0
  have hst := findcrlf_le hle h
  have hwin : toInt (s.eod - m) ≤ s.eod - m := toInt_le (by omega)
  have hm : m ≤ s.data.length := by unfold Stream.eod at hst; omega
  have hk : (toInt (s.eod - m)).toNat ≤ (s.data.drop m).length := by
    rw [List.length_drop]
    unfold Stream.eod at *
    omega
  have htake : (s.mem m).take (toInt (s.eod - m)).toNat =
      (s.data.drop m).take (toInt (s.eod - m)).toNat := by
    unfold Stream.mem
    rw [Int.toNat_natCast, List.drop_append_of_le_length hm, List.take_append_of_le_length hk]
  unfold Stream.scan findcrlf at h
  rw [htake] at h
  obtain ⟨behind, heq, hlen, hno⟩ := firstCrlf_eq_some h
  have hsplit : s.data.drop m = ((s.data.drop m).take (toInt (s.eod - m)).toNat).take n ++
      CR :: LF :: (behind ++ (s.data.drop m).drop (toInt (s.eod - m)).toNat) := by
    conv_lhs => rw [← List.take_append_drop (toInt (s.eod - m)).toNat (s.data.drop m), heq]
    simp
  refine ⟨?_, _, _, by rw [Int.toNat_natCast]; exact hsplit, hno, hlen⟩
  have := congrArg List.length hsplit
  rw [List.length_append, hlen, List.length_drop] at this
  simp only [List.length_cons] at this
  unfold Stream.eod
  omega

/-! ## The body -/

/-- What `process_body` can do when the loop goes round again. -/
inductive BodyPass (p q : Parser) : Prop
  | sizeWait (chunked : p.ctx.flagChunked = true) (size : p.ctx.chunkParserState = .size)
      (none : p.inp.scan p.ctx.currentChunk.start = none)
      (eq : q = { p.toEod with ctx := { p.ctx with parserState := .body } })
  | sizeDone (n : Nat) (chunked : p.ctx.flagChunked = true)
      (size : p.ctx.chunkParserState = .size)
      (found : p.inp.scan p.ctx.currentChunk.start = some n)
      (inp : q.inp = p.inp.advance (p.ctx.currentChunk.start + n - p.inp.pos + 2))
      (chunked' : q.ctx.flagChunked = true) (data' : q.ctx.chunkParserState = .data)
      (chunk : q.ctx.currentChunk = ⟨q.inp.pos, q.inp.pos⟩)
      (lo : 0 ≤ q.ctx.currentChunkSize) (hi : q.ctx.currentChunkSize ≤ intMax)
  | dataMore (incr : Int) (chunked : p.ctx.flagChunked = true)
      (data : p.ctx.chunkParserState = .data)
      (needed : 0 < toInt (p.ctx.currentChunkSize -
        (p.ctx.currentChunk.stop - p.ctx.currentChunk.start)))
      (min : incr = min (toInt (p.ctx.currentChunkSize -
        (p.ctx.currentChunk.stop - p.ctx.currentChunk.start))) (toInt (p.inp.eod - p.inp.pos)))
      (eq : q = { p with
        ctx := { p.ctx with
          currentChunk := ⟨p.ctx.currentChunk.start, p.ctx.currentChunk.stop + incr⟩
          parserState := .body }
        inp := p.inp.advance incr })
  | dataDone (chunked : p.ctx.flagChunked = true) (data : p.ctx.chunkParserState = .data)
      (needed : toInt (p.ctx.currentChunkSize -
        (p.ctx.currentChunk.stop - p.ctx.currentChunk.start)) ≤ 0)
      (recycled : Nat) (le_eod : (recycled : Int) ≤ p.inp.eod)
      (le_pos : 0 ≤ p.inp.pos + 2 → (recycled : Int) ≤ p.inp.pos + 2)
      (data_eq : q.inp.data = p.inp.data.drop recycled)
      (pos : q.inp.pos = p.inp.pos + 2 - recycled)
      (chunked' : q.ctx.flagChunked = true) (size' : q.ctx.chunkParserState = .size)
      (chunk : q.ctx.currentChunk = ⟨q.inp.pos, q.inp.pos⟩)
  | plain (plain : p.ctx.flagChunked = false) (plain' : q.ctx.flagChunked = false)
      (data : q.inp.data = p.inp.data) (pos : q.inp.pos = p.inp.eod)

section
variable {rc : Recycler} {cb : Option Callback} {k : Nat} {p q : Parser}

theorem processChunkSize_again {r : Parser} (hch : p.ctx.flagChunked = true)
    (hst : p.ctx.chunkParserState = .size) (h : processChunkSize p = (.needMore, r)) :
    BodyPass p { r with ctx := { r.ctx with parserState := .body } } := by
  unfold processChunkSize at h
  simp only at h
  split at h
  · rename_i hnone
    cases h
    exact .sizeWait hch hst hnone rfl
  · rename_i n hn
    obtain ⟨-, hinp⟩ := noteErrno_same p (strtol (p.inp.mem p.ctx.currentChunk.start) 16)
    split at h
    · cases h
    · rename_i hgood
      cases h
      simp only [hinp]
      refine .sizeDone n hch hst hn rfl hch rfl rfl ?_ (toInt_range _).2
      exact Int.not_lt.mp fun hneg => hgood (.inr hneg)

theorem processChunkData_again {r : Parser} (hch : p.ctx.flagChunked = true)
    (hst : p.ctx.chunkParserState = .data) (h : processChunkData rc cb p = (.needMore, r)) :
    BodyPass p { r with ctx := { r.ctx with parserState := .body } } := by
  unfold processChunkData at h
  simp only at h
  split at h
  · rename_i hneed
    cases h
    exact .dataMore _ hch hst hneed rfl rfl
  · rename_i hneed
    obtain ⟨hctx, hinp⟩ := callback_frame (p := p) .body cb
    split at h
    · cases h
    · split at h
      · cases h
        have hle := rc.amount_le_eod (p.inp.advance 2) 512 (p.inp.pos + 2)
        refine .dataDone hch hst (by omega) (rc.amount (p.inp.advance 2) 512 (p.inp.pos + 2))
          (by unfold Stream.eod; rw [Stream.data_advance] at hle; omega)
          (rc.amount_le_until _ _ _) ?_ ?_ ?_ rfl ?_
        · simp only [recycleStreamBuffer, Recycler.apply, hinp]
          rfl
        · simp only [recycleStreamBuffer, Recycler.apply, hinp]
          rfl
        · show (p.callback .body cb).2.ctx.flagChunked = true
          rw [hctx]
          exact hch
        · simp only [recycleStreamBuffer, Recycler.apply, hinp]
      · cases h

theorem processPlainBody_again {r : Parser} (hch : p.ctx.flagChunked = false)
    (h : processPlainBody rc cb p = (.needMore, r)) :
    BodyPass p { r with ctx := { r.ctx with parserState := .body } } := by
  unfold processPlainBody at h
  simp only at h
  split at h
  · rename_i hless
    cases h
    refine .plain hch hch rfl ?_
    -- more is needed than there is
    simp only [Stream.pos_advance]
    omega
  · split at h <;> cases h

/-- **What `process_body` does when the loop goes round again.** -/
theorem bodyIter_again (h : bodyIter rc cb k p = .again q) : BodyPass p q := by
  unfold bodyIter at h
  split at h
  · rename_i r heq
    cases h
    unfold processBody at heq
    split at heq
    · rename_i hch
      split at heq
      · exact processChunkSize_again hch ‹_› heq
      · exact processChunkData_again hch ‹_› heq
      · cases heq
    · rename_i hch
      exact processPlainBody_again (Bool.eq_false_iff.mpr hch) heq
  · cases h
  · cases h

end

/-! ## The dispatch -/

/-- What an iteration can do when the loop goes round again. -/
inductive Pass (p q : Parser) : Prop
  | start (state : p.ctx.parserState = .start)
      (eq : q = { p with ctx := { p.ctx with
        firstLine := ⟨p.inp.pos, p.ctx.firstLine.stop⟩, parserState := .line } })
  | lineWait (state : p.ctx.parserState = .line)
      (none : p.inp.scan p.ctx.firstLine.start = none) (eq : q = p.toEod)
  | line (n : Nat) (state : p.ctx.parserState = .line)
      (found : p.inp.scan p.ctx.firstLine.start = some n)
      (state' : q.ctx.parserState = .headerFieldIn) (data : q.inp.data = p.inp.data)
      (pos : q.inp.pos = p.ctx.firstLine.start + n + 2)
      (framing : q.ctx.framing = p.ctx.framing)
  | fieldIn (state : p.ctx.parserState = .headerFieldIn)
      (eq : q = { p with ctx := { p.ctx with
        currentHeaderName := ⟨p.inp.pos, p.ctx.currentHeaderName.stop⟩
        parserState := .headerFieldOut } })
  | fieldWait (state : p.ctx.parserState = .headerFieldOut)
      (none : p.inp.scan p.ctx.currentHeaderName.start = none) (eq : q = p.toEod)
  | header (n : Nat) (state : p.ctx.parserState = .headerFieldOut)
      (found : p.inp.scan p.ctx.currentHeaderName.start = some (n + 1))
      (state' : q.ctx.parserState = .headerFieldIn) (eod : q.inp.eod = p.inp.eod)
      (pos : q.inp.pos = p.ctx.currentHeaderName.start + (n + 1) + 2)
      (chunk : q.ctx.chunkParserState = p.ctx.chunkParserState ∨
        q.ctx.chunkParserState = .size)
  | blank (state : p.ctx.parserState = .headerFieldOut)
      (found : p.inp.scan p.ctx.currentHeaderName.start = some 0)
      (state' : q.ctx.parserState = .body) (body : BodyPass (blankLine p) q)
  | bodyIn (state : p.ctx.parserState = .bodyIn) (state' : q.ctx.parserState = .body)
      (body : BodyPass p q)
  | body (state : p.ctx.parserState = .body) (state' : q.ctx.parserState = .body)
      (body : BodyPass p q)

section
variable {pf : Platform} {l : FirstLine} {cbs : Callbacks} {p q : Parser}

theorem processHeader_chunkState {r : Res} (h : processHeader p = (r, q)) :
    q.ctx.chunkParserState = p.ctx.chunkParserState ∨ q.ctx.chunkParserState = .size := by
  unfold processHeader at h
  simp only at h
  split at h
  · split at h <;> (cases h; exact .inl rfl)
  · split at h
    · split at h
      · cases h; exact .inl rfl
      · split at h
        · cases h; exact .inr rfl
        · cases h; exact .inl rfl
    · cases h; exact .inl rfl

theorem headerFieldOut_again (hst : p.ctx.parserState = .headerFieldOut)
    (h : headerFieldOut pf cbs p = .again q) : Pass p q := by
  unfold headerFieldOut at h
  simp only at h
  split at h
  · rename_i hnone
    cases h
    exact .fieldWait hst hnone rfl
  · rename_i hzero
    exact .blank hst hzero (bodyIter_state h) (bodyIter_again h)
  · rename_i n hn
    split at h
    · cases h
    · rename_i c hc
      split at h
      · rename_i r hproc
        split at h
        · cases h
        · cases h
          obtain ⟨hctx, hinp⟩ := callback_frame (p := r) .header cbs.header
          have hframe := (processHeader_frame (headerLine pf.nullOff
            (p.ctx.currentHeaderName.start + (n + 1)) (p.ctx.currentHeaderName.start + c) p)).1
          rw [hproc] at hframe
          have heod : r.inp.eod = p.inp.eod := by
            simp only at hframe
            rw [hframe]
            simp [headerLine]
          refine .header n hst hn rfl ?_ ?_ ?_
          · rw [Stream.eod_advance, hinp]
            exact heod
          · rw [Stream.pos_advance]
            omega
          · show (r.callback .header cbs.header).2.ctx.chunkParserState = _ ∨ _
            rw [hctx]
            have hchunk := processHeader_chunkState hproc
            exact hchunk
      · cases h

/-- **What an iteration does when the loop goes round again.** -/
theorem dispatch_again (h : dispatch pf l.parse cbs p = .again q) : Pass p q := by
  unfold dispatch at h
  split at h
  · rename_i hst
    cases h
    exact .start hst rfl
  · rename_i hst
    have hframe := l.parse_frame p
    split at h
    · rename_i r heq
      cases h
      rw [heq] at hframe
      obtain ⟨hq, hnone⟩ := hframe.wait rfl
      exact .lineWait hst hnone hq
    · rename_i r heq
      rw [heq] at hframe
      obtain ⟨n, hn, hstate, hpos⟩ := hframe.ok rfl
      obtain ⟨hctx, hinp⟩ := callback_frame (p := r) .line cbs.line
      simp only at h
      split at h
      · cases h
      · cases h
        refine .line n hst hn (by rw [hctx]; exact hstate) (by rw [hinp]; exact hframe.data)
          (by rw [hinp]; exact hpos) (by rw [hctx]; exact hframe.framing)
    · cases h
  · rename_i hst
    cases h
    exact .fieldIn hst rfl
  · exact headerFieldOut_again ‹_› h
  · exact .bodyIn ‹_› (bodyIter_state h) (bodyIter_again h)
  · exact .body ‹_› (bodyIter_state h) (bodyIter_again h)

end

theorem BodyPass.eod_le {p q : Parser} (h : BodyPass p q) : q.inp.eod ≤ p.inp.eod := by
  cases h with
  | sizeWait _ _ _ eq | dataMore _ _ _ _ _ eq =>
      subst eq
      exact Int.le_refl _
  | sizeDone _ _ _ _ inp => exact Int.le_of_eq (by rw [inp, Stream.eod_advance])
  | dataDone _ _ _ recycled _ _ data_eq =>
      unfold Stream.eod
      rw [data_eq, List.length_drop]
      omega
  | plain _ _ data => exact Int.le_of_eq (by unfold Stream.eod; rw [data])

theorem Pass.eod_le {p q : Parser} (h : Pass p q) : q.inp.eod ≤ p.inp.eod := by
  cases h with
  | start _ eq | lineWait _ _ eq | fieldIn _ eq | fieldWait _ _ eq =>
      subst eq
      exact Int.le_refl _
  | line _ _ _ _ data => exact Int.le_of_eq (by unfold Stream.eod; rw [data])
  | header _ _ _ _ eod => exact Int.le_of_eq eod
  | blank _ _ _ body => exact body.eod_le
  | bodyIn _ _ body => exact body.eod_le
  | body _ _ body => exact body.eod_le

/-! ## Where the offsets are -/

/-- Where the saved start of a line is, in each state of the head; inside the
body, `B`. -/
inductive Placed (B : Parser → Prop) (p : Parser) : Prop
  | start (state : p.ctx.parserState = .start) (lo : 0 ≤ p.inp.pos)
      (hi : p.inp.pos ≤ p.inp.eod + 2) (chunk : p.ctx.chunkParserState ≠ .data)
  | line (state : p.ctx.parserState = .line) (lo : 0 ≤ p.ctx.firstLine.start)
      (hi : p.ctx.firstLine.start ≤ p.inp.eod + 2) (chunk : p.ctx.chunkParserState ≠ .data)
  | fieldIn (state : p.ctx.parserState = .headerFieldIn) (lo : 0 ≤ p.inp.pos)
      (hi : p.inp.pos ≤ p.inp.eod) (chunk : p.ctx.chunkParserState ≠ .data)
  | fieldOut (state : p.ctx.parserState = .headerFieldOut)
      (lo : 0 ≤ p.ctx.currentHeaderName.start)
      (le : p.ctx.currentHeaderName.start ≤ p.inp.pos) (hi : p.inp.pos ≤ p.inp.eod)
      (chunk : p.ctx.chunkParserState ≠ .data)
  | body (state : p.ctx.parserState = .body) (body : B p)

section
variable {B : Parser → Prop} {p q : Parser}

theorem placed_init {s : Stream} (errno : Int) (h0 : 0 ≤ s.pos) (hle : s.pos ≤ s.eod + 2) :
    Placed B (.init s errno) := .start rfl h0 hle nofun

theorem Placed.consume {bs slack : List UInt8} (h : Placed B p)
    (hB : B p → B { p with inp := p.inp.consume bs slack }) :
    Placed B { p with inp := p.inp.consume bs slack } := by
  have heod : p.inp.eod ≤ (p.inp.consume bs slack).eod := by
    rw [Stream.eod_consume]
    omega
  cases h with
  | start st lo hi ch => exact .start st lo (by simp only [Stream.pos_consume]; omega) ch
  | line st lo hi ch => exact .line st lo (by simp only; omega) ch
  | fieldIn st lo hi ch => exact .fieldIn st lo (by simp only [Stream.pos_consume]; omega) ch
  | fieldOut st lo le hi ch =>
      exact .fieldOut st lo le (by simp only [Stream.pos_consume]; omega) ch
  | body st hb => exact .body st (hB hb)

theorem Placed.pass (h : Placed B p) (hp : Pass p q)
    (hblank : p.ctx.parserState = .headerFieldOut → 0 ≤ p.ctx.currentHeaderName.start →
      p.ctx.currentHeaderName.start ≤ p.inp.pos → p.inp.pos ≤ p.inp.eod →
      p.ctx.chunkParserState ≠ .data → BodyPass (blankLine p) q → B q)
    (hbody : p.ctx.parserState = .body → B p → BodyPass p q → B q) : Placed B q := by
  have hstate : ∀ {a b : ParserState}, p.ctx.parserState = a → p.ctx.parserState = b → a = b :=
    fun ha hb => ha.symm.trans hb
  cases hp with
  | start st eq =>
      subst eq
      cases h with
      | start _ lo hi ch => exact .line rfl lo hi ch
      | line st' | fieldIn st' | fieldOut st' | body st' => cases hstate st st'
  | lineWait st none eq =>
      subst eq
      cases h with
      | line _ lo hi ch => exact .line st lo hi ch
      | start st' | fieldIn st' | fieldOut st' | body st' => cases hstate st st'
  | line n st found st' data pos framing =>
      cases h with
      | line _ lo hi ch =>
          have hle := (scan_some lo hi found).1
          have heod : q.inp.eod = p.inp.eod := by unfold Stream.eod; rw [data]
          refine .fieldIn st' (by omega) (by omega) ?_
          have hch : q.ctx.framing.chunkState = p.ctx.framing.chunkState := by rw [framing]
          exact fun hq => ch (hch.symm.trans hq)
      | start st' | fieldIn st' | fieldOut st' | body st' => cases hstate st st'
  | fieldIn st eq =>
      subst eq
      cases h with
      | fieldIn _ lo hi ch => exact .fieldOut rfl lo (Int.le_refl _) hi ch
      | start st' | line st' | fieldOut st' | body st' => cases hstate st st'
  | fieldWait st none eq =>
      subst eq
      cases h with
      | fieldOut _ lo le hi ch =>
          have hpos : p.toEod.inp.pos = p.inp.eod := by
            show p.inp.pos + (p.inp.eod - p.inp.pos) = _
            omega
          exact .fieldOut st lo (by rw [hpos]; exact Int.le_trans le hi)
            (by rw [hpos]; exact Int.le_refl _) ch
      | start st' | line st' | fieldIn st' | body st' => cases hstate st st'
  | header n st found st' eod pos chunk =>
      cases h with
      | fieldOut _ lo le hi ch =>
          have hle := (scan_some lo (by omega) found).1
          refine .fieldIn st' (by omega) (by omega) fun hq => ?_
          rcases chunk with hc | hc
          · exact ch (hc.symm.trans hq)
          · cases hc.symm.trans hq
      | start st' | line st' | fieldIn st' | body st' => cases hstate st st'
  | blank st found st' body =>
      cases h with
      | fieldOut _ lo le hi ch => exact .body st' (hblank st lo le hi ch body)
      | start st' | line st' | fieldIn st' | body st' => cases hstate st st'
  | bodyIn st =>
      cases h with
      | start st' | line st' | fieldIn st' | fieldOut st' | body st' => cases hstate st st'
  | body st st' body =>
      cases h with
      | body _ hb => exact .body st' (hbody st hb body)
      | start st' | line st' | fieldIn st' | fieldOut st' => cases hstate st st'

end

/-! ## Into the body -/

/-- The parser that an iteration hands to `process_body`. -/
def bodyInput (p : Parser) : Option Parser :=
  match p.ctx.parserState with
  | .headerFieldOut =>
      if p.inp.scan p.ctx.currentHeaderName.start = some 0 then some (blankLine p) else none
  | .bodyIn | .body => some p
  | _ => none

section
variable {p q x : Parser}

theorem bodyInput_cases (h : bodyInput p = some x) :
    (p.ctx.parserState = .headerFieldOut ∧ p.inp.scan p.ctx.currentHeaderName.start = some 0 ∧
        x = blankLine p) ∨
      (p.ctx.parserState = .bodyIn ∨ p.ctx.parserState = .body) ∧ x = p := by
  unfold bodyInput at h
  split at h
  · rename_i hstate
    split at h
    · rename_i hscan
      cases h
      exact .inl ⟨hstate, hscan, rfl⟩
    · cases h
  · rename_i hstate
    cases h
    exact .inr ⟨.inl hstate, rfl⟩
  · rename_i hstate
    cases h
    exact .inr ⟨.inr hstate, rfl⟩
  · cases h

theorem bodyInput_body (h : p.ctx.parserState = .body) : bodyInput p = some p := by
  unfold bodyInput
  simp only [h]

theorem bodyInput_blank (h : p.ctx.parserState = .headerFieldOut)
    (hscan : p.inp.scan p.ctx.currentHeaderName.start = some 0) :
    bodyInput p = some (blankLine p) := by
  unfold bodyInput
  simp only [h, hscan, if_true]

theorem bodyInput_calls (h : bodyInput p = some x) : x.calls = p.calls := by
  obtain ⟨-, -, rfl⟩ | ⟨-, rfl⟩ := bodyInput_cases h <;> rfl

theorem bodyInput_framing (h : bodyInput p = some x) : x.ctx.framing = p.ctx.framing := by
  obtain ⟨-, -, rfl⟩ | ⟨-, rfl⟩ := bodyInput_cases h <;> rfl

theorem dispatch_bodyInput (pf : Platform) (parseLine : Parser → Res × Parser) (cbs : Callbacks)
    (h : bodyInput p = some x) :
    ∃ k, dispatch pf parseLine cbs p = bodyIter pf.recycler cbs.body k x := by
  obtain ⟨hstate, hscan, rfl⟩ | ⟨hstate | hstate, rfl⟩ := bodyInput_cases h
  · refine ⟨12, ?_⟩
    unfold Stream.scan at hscan
    unfold dispatch headerFieldOut
    simp only [hstate, hscan]
  · refine ⟨12, ?_⟩
    unfold dispatch
    simp only [hstate]
  · exact ⟨13, dispatch_body hstate⟩

/-- The parser behind an iteration. -/
def Iter.par : Iter → Parser
  | .again p => p
  | .ret _ p => p

theorem dispatch_head_calls (pf : Platform) (l : FirstLine) (cbs : Callbacks)
    (h : bodyInput p = none) : ∃ more, (dispatch pf l.parse cbs p).par.calls = p.calls ++ more ∧
      ∀ c ∈ more, c.kind ≠ .body := by
  have hnone : ∀ q : Parser, q.calls = p.calls →
      ∃ more, q.calls = p.calls ++ more ∧ ∀ c ∈ more, c.kind ≠ .body :=
    fun q hq => ⟨[], by rw [hq, List.append_nil], fun _ hc => absurd hc List.not_mem_nil⟩
  have hone : ∀ (q : Parser) (kind : CallKind) (cb : Option Callback), kind ≠ .body →
      q.calls = p.calls → ∃ more, (q.callback kind cb).2.calls = p.calls ++ more ∧
        ∀ c ∈ more, c.kind ≠ .body := by
    intro q kind cb hk hq
    cases cb with
    | none => exact hnone q hq
    | some f =>
        refine ⟨[⟨kind, q.ctx, q.inp⟩], ?_, fun c hc => ?_⟩
        · rw [← hq]
          rfl
        · rw [List.mem_singleton.mp hc]
          exact hk
  have hline := l.parse_frame p
  unfold bodyInput at h
  unfold dispatch
  split
  · exact hnone _ rfl
  · split
    · rename_i heq
      rw [heq] at hline
      exact hnone _ hline.calls
    · rename_i r heq
      rw [heq] at hline
      simp only
      split <;> exact hone r .line cbs.line (by simp) hline.calls
    · rename_i heq
      rw [heq] at hline
      exact hnone _ hline.calls
  · exact hnone _ rfl
  · rename_i hstate
    rw [hstate] at h
    simp only at h
    unfold headerFieldOut
    simp only
    split
    · exact hnone _ rfl
    · rename_i hblank
      have hscan : p.inp.scan p.ctx.currentHeaderName.start = some 0 := hblank
      rw [if_pos hscan] at h
      cases h
    · rename_i n _
      split
      · exact hnone _ rfl
      · rename_i c _
        obtain ⟨-, hcalls, -, -⟩ := processHeader_frame (headerLine pf.nullOff
          (p.ctx.currentHeaderName.start + (n + 1)) (p.ctx.currentHeaderName.start + c) p)
        split
        · rename_i r heq
          rw [heq] at hcalls
          split <;> exact hone r .header cbs.header (by simp) hcalls
        · rename_i heq
          rw [heq] at hcalls
          exact hnone _ hcalls
  · rename_i hstate
    rw [hstate] at h
    cases h
  · rename_i hstate
    rw [hstate] at h
    cases h

theorem Pass.state_ne_body (h : Pass p q) (hin : bodyInput p = none) :
    q.ctx.parserState ≠ .body := by
  cases h with
  | start _ eq =>
      rw [eq]
      nofun
  | fieldIn _ eq =>
      rw [eq]
      nofun
  | lineWait state _ eq =>
      rw [eq]
      exact fun h => by cases state.symm.trans h
  | fieldWait state _ eq =>
      rw [eq]
      exact fun h => by cases state.symm.trans h
  | line _ _ _ state' =>
      rw [state']
      nofun
  | header _ _ _ state' =>
      rw [state']
      nofun
  | blank state found => cases hin.symm.trans (bodyInput_blank state found)
  | bodyIn state =>
      unfold bodyInput at hin
      rw [state] at hin
      cases hin
  | body state => cases hin.symm.trans (bodyInput_body state)

end

end MnHttp
