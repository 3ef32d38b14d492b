/-
# `MnApp.Http.Forward` — a parse never goes back behind the place it began at

A stream that is used again still holds what earlier parses have taken, and
the offsets a parse saves are only as good as the position it started from.
Here nothing is known of the bytes; `b` is an offset from which on the stream
is the parse's own.

    Forward b p     the line or the chunk the parser is at begins at `b` or
                    behind it
    Forward.again   an iteration keeps that; what is recycled moves `b` along
    Forward.ok      a parse that returns 0 leaves `pos` at `b` or behind it

The last one needs a body whose length is stated and not negative: with
`bodysz` at -1 the position goes back by one.
-/
import MnApp.Http.ContentLength

namespace MnHttp

open CLib Loop

/-- Where the line starts that the parser is at, in the head. -/
def Parser.lineStart (p : Parser) : Int :=
  match p.ctx.parserState with
  | .line => p.ctx.firstLine.start
  | .headerFieldOut => p.ctx.currentHeaderName.start
  | _ => p.inp.pos

/-- In the body: the saved offsets are at `b` or behind it. -/
inductive BodyFrom (b : Nat) (p : Parser) : Prop
  | plain (plain : p.ctx.flagChunked = false) (lo : (b : Int) ≤ p.ctx.body.start)
      (stop : p.ctx.body.stop = p.inp.pos) (chunk : p.ctx.currentChunk.start = p.ctx.body.start)
  | size (chunked : p.ctx.flagChunked = true) (state : p.ctx.chunkParserState = .size)
      (lo : (b : Int) ≤ p.ctx.currentChunk.start)
      (hi : p.ctx.currentChunk.start ≤ p.inp.eod + 2)
  | data (chunked : p.ctx.flagChunked = true) (state : p.ctx.chunkParserState = .data)
      (lo : (b : Int) ≤ p.ctx.currentChunk.start)
      (le : p.ctx.currentChunk.start ≤ p.ctx.currentChunk.stop)
      (stop : p.ctx.currentChunk.stop = p.inp.pos) (hi : p.inp.pos ≤ p.inp.eod)
  /-- there is no state to go on from -/
  | stuck (chunked : p.ctx.flagChunked = true) (state : p.ctx.chunkParserState = .none)

/-- The parse is at `b` or behind it. -/
structure Forward (b : Nat) (p : Parser) : Prop where
  placed : Placed (fun _ => True) p
  head : p.ctx.parserState ≠ .body → (b : Int) ≤ p.lineStart
  body : p.ctx.parserState = .body → BodyFrom b p

section
variable {b : Nat} {p q : Parser}

theorem forward_init {s : Stream} (errno : Int) (hb : (b : Int) ≤ s.pos)
    (hle : s.pos ≤ s.eod + 2) : Forward b (.init s errno) where
  placed := placed_init errno (by omega) hle
  head _ := hb
  body h := by cases h

theorem Forward.consume {bs slack : List UInt8} (h : Forward b p) :
    Forward b { p with inp := p.inp.consume bs slack } where
  placed := h.placed.consume id
  head := h.head
  body hst := by
    have heod : p.inp.eod ≤ (p.inp.consume bs slack).eod := by
      rw [Stream.eod_consume]
      omega
    cases h.body hst with
    | plain plain lo stop chunk => exact .plain plain lo stop chunk
    | size chunked state lo hi =>
        exact .size chunked state lo (Int.le_trans hi (Int.add_le_add_right heod 2))
    | data chunked state lo le stop hi =>
        exact .data chunked state lo le stop (Int.le_trans hi heod)
    | stuck chunked state => exact .stuck chunked state

/-! ## Iterations -/

theorem Pass.lineStart_le (h : Pass p q) (hq : q.ctx.parserState ≠ .body) :
    p.lineStart ≤ q.lineStart := by
  cases h with
  | start st eq =>
      subst eq
      simp only [Parser.lineStart, st]
      exact Int.le_refl _
  | lineWait st _ eq =>
      subst eq
      simp only [Parser.lineStart, Parser.toEod, st]
      exact Int.le_refl _
  | line n st _ st' _ pos =>
      simp only [Parser.lineStart, st, st', pos]
      omega
  | fieldIn st eq =>
      subst eq
      simp only [Parser.lineStart, st]
      exact Int.le_refl _
  | fieldWait st _ eq =>
      subst eq
      simp only [Parser.lineStart, Parser.toEod, st]
      exact Int.le_refl _
  | header n st _ st' _ pos =>
      simp only [Parser.lineStart, st, st', pos]
      omega
  | blank _ _ st' => exact absurd st' hq
  | bodyIn _ st' => exact absurd st' hq
  | body _ st' => exact absurd st' hq

/-- Outside the body an iteration of the head recycles nothing. -/
theorem Pass.eod_head (h : Pass p q) (hq : q.ctx.parserState ≠ .body) :
    q.inp.eod = p.inp.eod := by
  cases h with
  | start _ eq | lineWait _ _ eq | fieldIn _ eq | fieldWait _ _ eq => subst eq; rfl
  | line _ _ _ _ data => unfold Stream.eod; rw [data]
  | header _ _ _ _ eod => exact eod
  | blank _ _ st' => exact absurd st' hq
  | bodyIn _ st' => exact absurd st' hq
  | body _ st' => exact absurd st' hq

theorem Forward.blankLine (h : Forward b p) (hst : p.ctx.parserState = .headerFieldOut) :
    BodyFrom b (blankLine p) := by
  have hlo := h.head (by rw [hst]; nofun)
  simp only [Parser.lineStart, hst] at hlo
  cases h.placed with
  | fieldOut _ _ le hi chunk =>
      have hpos : (b : Int) ≤ (MnHttp.blankLine p).inp.pos := by
        show (b : Int) ≤ p.inp.pos + 2
        omega
      cases hch : p.ctx.flagChunked with
      | false => exact .plain hch hpos rfl rfl
      | true =>
          cases hcs : p.ctx.chunkParserState with
          | none => exact .stuck hch hcs
          | size => exact .size hch hcs hpos (Int.add_le_add_right hi 2)
          | data => exact absurd hcs chunk
  | start st | line st | fieldIn st | body st => cases hst.symm.trans st

variable {rc : Recycler} {cb : Option Callback} {k : Nat}

theorem plainTaken_from (hstop : p.ctx.body.stop = p.inp.pos) :
    (plainTaken p).ctx.body.stop = (plainTaken p).inp.pos ∧
      (plainTaken p).inp.pos ≤ p.inp.eod := by
  refine ⟨?_, ?_⟩
  · show p.ctx.body.stop + _ = p.inp.pos + _
    rw [hstop]
  · show p.inp.pos + min _ _ ≤ _
    omega

theorem recycleStreamBuffer_inp (rc : Recycler) (p : Parser)
    (h0 : 0 ≤ p.ctx.currentChunk.start) : ∃ r : Nat, (r : Int) ≤ p.ctx.currentChunk.start ∧
      (recycleStreamBuffer rc p).inp.eod = p.inp.eod - r ∧ (r : Int) ≤ p.inp.eod ∧
      (recycleStreamBuffer rc p).inp.pos = p.inp.pos - r := by
  have hle := rc.amount_le_eod p.inp 512 p.ctx.currentChunk.start
  refine ⟨_, rc.amount_le_until p.inp 512 _ h0, ?_, ?_, rfl⟩
  · show (((p.inp.data.drop _).length : Nat) : Int) = _
    rw [List.length_drop]
    unfold Stream.eod
    omega
  · unfold Stream.eod
    omega

theorem BodyFrom.again (h : BodyFrom b p) (hmax : p.inp.eod ≤ intMax)
    (hd : bodyIter rc cb k p = .again q) :
    ∃ r : Nat, q.inp.eod = p.inp.eod - r ∧ (r : Int) ≤ p.inp.eod ∧ BodyFrom (b - r) q := by
  have heod : (0 : Int) ≤ p.inp.eod := Int.natCast_nonneg _
  cases h with
  | plain plain lo stop chunk =>
      simp only [bodyIter, processBody, plain, Bool.false_eq_true, if_false,
        processPlainBody_eq] at hd
      split at hd
      · rename_i heq
        cases hd
        split at heq
        · cases heq
          exact ⟨0, by simp [plainTaken], heod, .plain plain (by simpa [plainTaken] using lo)
            (plainTaken_from stop).1 chunk⟩
        · split at heq <;> cases heq
      · cases hd
      · cases hd
  | stuck chunked state =>
      simp [bodyIter, processBody, chunked, state] at hd
  | size chunked state lo hi =>
      cases bodyIter_again hd with
      | sizeWait _ _ _ eq =>
          subst eq
          exact ⟨0, by simp [Parser.toEod], heod, .size chunked state (by simpa using lo) hi⟩
      | sizeDone n _ _ found inp chunked' data' chunk =>
          have hfound := (scan_some (by omega) hi found).1
          have hpos : q.inp.pos = p.ctx.currentChunk.start + n + 2 := by
            rw [inp, Stream.pos_advance]
            omega
          have heq : q.inp.eod = p.inp.eod := by rw [inp, Stream.eod_advance]
          have hstart : q.ctx.currentChunk.start = q.inp.pos := by rw [chunk]
          have hstop : q.ctx.currentChunk.stop = q.inp.pos := by rw [chunk]
          exact ⟨0, by omega, heod,
            .data chunked' data' (by omega) (by omega) hstop (by omega)⟩
      | dataMore _ _ data => cases state.symm.trans data
      | dataDone _ data => cases state.symm.trans data
      | plain plain => cases chunked.symm.trans plain
  | data chunked state lo le stop hi =>
      cases bodyIter_again hd with
      | sizeWait _ size => cases state.symm.trans size
      | sizeDone _ _ size => cases state.symm.trans size
      | dataMore incr _ _ needed min eq =>
          have havail : toInt (p.inp.eod - p.inp.pos) = p.inp.eod - p.inp.pos :=
            toInt_of_le (by omega) (by omega)
          subst eq
          refine ⟨0, by simp, heod, .data chunked state (by simpa using lo) ?_ ?_ ?_⟩
          · simp only
            omega
          · simp only [Stream.pos_advance]
            omega
          · simp only [Stream.pos_advance, Stream.eod_advance]
            omega
      | dataDone _ _ _ r le_eod le_pos data_eq pos chunked' size' chunk =>
          have hr := le_pos (by omega)
          have heq : q.inp.eod = p.inp.eod - r := by
            unfold Stream.eod at le_eod ⊢
            rw [data_eq, List.length_drop]
            omega
          refine ⟨r, heq, le_eod, .size chunked' size' ?_ ?_⟩ <;> rw [chunk] <;> simp only <;> omega
      | plain plain => cases chunked.symm.trans plain

/-! ### The end of a body -/

theorem bodyIter_ok (h : bodyIter rc cb k p = .ret .ok q) : ∃ v, processBody rc cb p = (.ok, v) ∧
    q = { v with ctx := { v.ctx with parserState := .body } } := by
  unfold bodyIter at h
  split at h
  · cases h
  · rename_i v heq
    cases h
    exact ⟨v, heq, rfl⟩
  · cases h

theorem processPlainBody_ok (h : processPlainBody rc cb p = (.ok, q)) :
    p.ctx.bodysz ≤ (plainTaken p).ctx.body.stop - p.ctx.body.start ∧
      q = recycleStreamBuffer rc ((plainTaken p).callback .body cb).2 := by
  rw [processPlainBody_eq] at h
  split at h
  · cases h
  · rename_i hfull
    simp only at h
    split at h
    · cases h
    · cases h
      exact ⟨Int.not_lt.mp hfull, rfl⟩

theorem processChunkSize_ne_ok (h : processChunkSize p = (.ok, q)) : False := by
  unfold processChunkSize at h
  simp only at h
  split at h
  · cases h
  · split at h <;> cases h

theorem processChunkData_ok (h : processChunkData rc cb p = (.ok, q)) : ∃ v : Parser,
    v.inp = p.inp.advance 2 ∧ v.ctx.currentChunk.start = p.inp.pos + 2 ∧
      q = recycleStreamBuffer rc v := by
  obtain ⟨-, hinp⟩ := callback_frame (p := p) .body cb
  unfold processChunkData at h
  simp only at h
  split at h
  · cases h
  · split at h
    · cases h
    · split at h
      · cases h
      · cases h
        exact ⟨_, congrArg (·.advance 2) hinp, congrArg (·.pos + 2) hinp, rfl⟩

/-- The end of a body: `r` bytes are recycled, and `pos` is not in front of `b`. -/
theorem BodyFrom.ok (h : BodyFrom b p) (hd : bodyIter rc cb k p = .ret .ok q)
    (hlen : q.ctx.flagChunked = true ∨ 0 ≤ q.ctx.bodysz) :
    ∃ r : Nat, q.inp.eod = p.inp.eod - r ∧ (r : Int) ≤ p.inp.eod ∧
      ((b - r : Nat) : Int) ≤ q.inp.pos ∧ q.inp.pos ≤ q.inp.eod + 2 := by
  obtain ⟨v, hproc, rfl⟩ := bodyIter_ok hd
  unfold processBody at hproc
  cases h with
  | plain plain lo stop chunk =>
      rw [plain, if_neg nofun] at hproc
      obtain ⟨hfull, rfl⟩ := processPlainBody_ok hproc
      obtain ⟨hctx, hinp⟩ := callback_frame (p := plainTaken p) .body cb
      generalize ((plainTaken p).callback .body cb).2 = v at hctx hinp hlen hproc
      obtain ⟨hstop, hle⟩ := plainTaken_from stop
      -- the length was stated, so the position is not in front of the body
      have hsz : 0 ≤ p.ctx.bodysz := by
        have hv : v.ctx.flagChunked = true ∨ 0 ≤ v.ctx.bodysz := hlen
        rw [hctx] at hv
        have hplain : (plainTaken p).ctx.flagChunked = false := plain
        exact hv.resolve_left (by rw [hplain]; nofun)
      have hstart : v.ctx.currentChunk.start = p.ctx.body.start := by
        rw [hctx]
        exact chunk
      obtain ⟨r, hr, heod, hreod, hpos⟩ := recycleStreamBuffer_inp rc v (by rw [hstart]; omega)
      rw [hinp] at heod hreod hpos
      have htaken : (plainTaken p).inp.eod = p.inp.eod := rfl
      refine ⟨r, heod, hreod, ?_, ?_⟩ <;> simp only [heod, hpos] <;> omega
  | stuck chunked state =>
      simp only [chunked, state, if_true] at hproc
      cases hproc
  | size chunked state lo hi =>
      simp only [chunked, state, if_true] at hproc
      exact (processChunkSize_ne_ok hproc).elim
  | data chunked state lo le stop hi =>
      simp only [chunked, state, if_true] at hproc
      obtain ⟨w, hinp, hstart, rfl⟩ := processChunkData_ok hproc
      obtain ⟨r, hr, heod, hreod, hpos⟩ := recycleStreamBuffer_inp rc w (by rw [hstart]; omega)
      rw [hinp, Stream.eod_advance] at heod hreod
      rw [hinp, Stream.pos_advance] at hpos
      refine ⟨r, heod, hreod, ?_, ?_⟩ <;> simp only [heod, hpos] <;> omega

/-! ## The loop -/

variable {pf : Platform} {l : FirstLine} {cbs : Callbacks}

/-- **An iteration keeps the parse behind the place it began at.** -/
theorem Forward.again (h : Forward b p) (hmax : p.inp.eod ≤ intMax)
    (hd : dispatch pf l.parse cbs p = .again q) :
    ∃ r : Nat, q.inp.eod = p.inp.eod - r ∧ (r : Int) ≤ p.inp.eod ∧ Forward (b - r) q := by
  have hpass := dispatch_again hd
  have hplaced : Placed (fun _ => True) q :=
    h.placed.pass hpass (fun _ _ _ _ _ _ => trivial) fun _ _ _ => trivial
  by_cases hq : q.ctx.parserState = .body
  · have hbody : ∃ r : Nat, q.inp.eod = p.inp.eod - r ∧ (r : Int) ≤ p.inp.eod ∧
        BodyFrom (b - r) q := by
      unfold dispatch at hd
      cases hpass with
      | blank st found =>
          simp only [st] at hd
          unfold headerFieldOut at hd
          have hfound : findcrlf (p.inp.mem p.ctx.currentHeaderName.start)
              (toInt (p.inp.eod - p.ctx.currentHeaderName.start)) = some 0 := found
          simp only [hfound] at hd
          exact (h.blankLine st).again hmax hd
      | bodyIn st =>
          cases h.placed with
          | start st' | line st' | fieldIn st' | fieldOut st' | body st' => cases st.symm.trans st'
      | body st =>
          simp only [st] at hd
          exact (h.body st).again hmax hd
      | start _ eq => rw [eq] at hq; cases hq
      | lineWait st _ eq => rw [eq] at hq; cases st.symm.trans hq
      | line _ _ _ st' => cases st'.symm.trans hq
      | fieldIn _ eq => rw [eq] at hq; cases hq
      | fieldWait st _ eq => rw [eq] at hq; cases st.symm.trans hq
      | header _ _ _ st' => cases st'.symm.trans hq
    obtain ⟨r, heod, hr, hb⟩ := hbody
    exact ⟨r, heod, hr, hplaced, fun hne => absurd hq hne, fun _ => hb⟩
  · have hp : p.ctx.parserState ≠ .body := fun hst => by
      cases hpass with
      | body _ st' => exact hq st'
      | start st | lineWait st | line _ st | fieldIn st | fieldWait st | header _ st | blank st
      | bodyIn st => cases hst.symm.trans st
    refine ⟨0, by rw [hpass.eod_head hq]; omega, Int.natCast_nonneg _, hplaced, fun _ => ?_,
      fun hb => absurd hb hq⟩
    exact Int.le_trans (h.head hp) (hpass.lineStart_le hq)

/-- **A parse that returns 0 leaves the position behind the place it began at.** -/
theorem Forward.ok (h : Forward b p) (hd : dispatch pf l.parse cbs p = .ret .ok q)
    (hlen : q.ctx.flagChunked = true ∨ 0 ≤ q.ctx.bodysz) :
    ∃ r : Nat, q.inp.eod = p.inp.eod - r ∧ (r : Int) ≤ p.inp.eod ∧
      ((b - r : Nat) : Int) ≤ q.inp.pos ∧ q.inp.pos ≤ q.inp.eod + 2 := by
  unfold dispatch at hd
  split at hd
  · cases hd
  · split at hd
    · cases hd
    · simp only at hd
      split at hd <;> cases hd
    · rename_i hok heq
      cases hd
      exact (hok rfl).elim
  · cases hd
  · rename_i hst
    unfold headerFieldOut at hd
    simp only at hd
    split at hd
    · cases hd
    · exact (h.blankLine hst).ok hd hlen
    · split at hd
      · cases hd
      · split at hd
        · split at hd <;> cases hd
        · rename_i hproc
          cases hd
          exact absurd (congrArg Prod.fst hproc) (processHeader_frame _).2.2.2
  · rename_i hst
    cases h.placed with
    | start st' | line st' | fieldIn st' | fieldOut st' | body st' => cases hst.symm.trans st'
  · exact (h.body ‹_›).ok hd hlen

/-! ## Other returns -/

theorem recycleStreamBuffer_eod_le (rc : Recycler) (p : Parser) :
    (recycleStreamBuffer rc p).inp.eod ≤ p.inp.eod := by
  show (((p.inp.data.drop _).length : Nat) : Int) ≤ p.inp.data.length
  rw [List.length_drop]
  omega

theorem processBody_eod_le (rc : Recycler) (cb : Option Callback) (p : Parser) :
    (processBody rc cb p).2.inp.eod ≤ p.inp.eod := by
  have heod : ∀ {x y : Parser}, ReadOn x y → y.inp.eod = x.inp.eod := fun on =>
    congrArg (fun data : List UInt8 => (data.length : Int)) on.data
  have hcall : ∀ x : Parser, (x.callback .body cb).2.inp.eod = x.inp.eod := fun x => by
    rw [(callback_frame .body cb).2]
  cases processBody_frame rc cb p with
  | read on => exact Int.le_of_eq (heod on)
  | call on after =>
      rw [after]
      exact Int.le_of_eq ((hcall _).trans (heod on))
  | recycle on behind after =>
      rw [after]
      have hsame := (heod behind).trans ((hcall _).trans (heod on))
      exact Int.le_trans (recycleStreamBuffer_eod_le ..) (Int.le_of_eq hsame)

theorem bodyIter_ret_eod_le {r : Res} (h : bodyIter rc cb k p = .ret r q) :
    q.inp.eod ≤ p.inp.eod := by
  have hle := processBody_eod_le rc cb p
  unfold bodyIter at h
  split at h <;> rename_i heq <;> rw [heq] at hle <;> cases h <;> exact hle

theorem dispatch_ret_eod_le {r : Res} (h : dispatch pf l.parse cbs p = .ret r q) :
    q.inp.eod ≤ p.inp.eod := by
  unfold dispatch at h
  split at h
  · cases h
  · have hdata := (l.parse_frame p).data
    split at h
    · cases h
    · rename_i v heq
      have hinp := (callback_frame (p := v) .line cbs.line).2
      rw [heq] at hdata
      simp only at h hdata
      split at h
      · cases h
        exact Int.le_of_eq (by unfold Stream.eod; rw [hinp, hdata])
      · cases h
    · rename_i heq
      cases h
      rw [heq] at hdata
      unfold Stream.eod
      exact Int.le_of_eq (congrArg (fun l : List UInt8 => (l.length : Int)) hdata)
  · cases h
  · unfold headerFieldOut at h
    simp only at h
    split at h
    · cases h
    · have hle : q.inp.eod ≤ (blankLine p).inp.eod := bodyIter_ret_eod_le h
      exact hle
    · rename_i n _
      split at h
      · cases h
        exact Int.le_refl _
      · rename_i c _
        have hframe := (processHeader_frame (headerLine pf.nullOff
          (p.ctx.currentHeaderName.start + (n + 1)) (p.ctx.currentHeaderName.start + c) p)).1
        have heod : (headerLine pf.nullOff (p.ctx.currentHeaderName.start + (n + 1))
            (p.ctx.currentHeaderName.start + c) p).inp.eod = p.inp.eod := by simp [headerLine]
        split at h
        · rename_i v hproc
          have hinp := (callback_frame (p := v) .header cbs.header).2
          rw [hproc] at hframe
          split at h
          · cases h
            exact Int.le_of_eq (by rw [hinp, ← heod, ← hframe])
          · cases h
        · rename_i hproc
          cases h
          rw [hproc] at hframe
          exact Int.le_of_eq (by rw [← heod, ← hframe])
  · exact bodyIter_ret_eod_le h
  · exact bodyIter_ret_eod_le h

end

end MnHttp
