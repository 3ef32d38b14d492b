/-
# `MnApp.Http.Recycling` — what is recycled has been received

`recycle_stream_buffer` gives `bytestream_recycle` the offset of the current
chunk, up to which the bytes of the stream are not needed any more.  Nothing
compares that offset with the end of the data before.

    chunked    the offset is two bytes behind the data of the chunk that was
               just delivered.  The two bytes are skipped unseen, and a read
               may have ended in front of them or between them
    plain      the offset is the beginning of the body, and it is inside the
               data as soon as a body of a stated length is complete.  With
               `bodysz` at -1 the body "is complete" one byte in front of its
               beginning, and that may not have been received

`recycledBy` is the parser that a call of `process_body` recycles, and
`Inside` the bounds before and after.  They hold along a run exactly when at
each of these calls the bytes up to the offset had come (`Arrived`), which is
`recycled_inside_iff`; the local statements are `chunkSkipped_inside`, for any
parser, and `plainTaken_inside`, where the offsets of a plain body must be
known (`PlainOffsets`, an invariant of the loop).
-/
import MnApp.Http.ChunkSound
import MnApp.Http.ContentLength
import MnApp.Http.HeaderRanges

namespace MnHttp

open CLib Loop

/-! ## The calls of `recycle_stream_buffer` -/

/-- The chunk was delivered: the next one begins two bytes further on. -/
def chunkSkipped (p : Parser) : Parser :=
  let s := p.inp.advance 2
  { p with inp := s, ctx := { p.ctx with
    chunkParserState := .size, currentChunk := ⟨s.pos, s.pos⟩ } }

/-- The parser on which `process_body` calls `recycle_stream_buffer`, if it
does. -/
def recycledBy (cb : Option Callback) (y : Parser) : Option Parser :=
  if y.ctx.flagChunked then
    match y.ctx.chunkParserState with
    | .data =>
        let chunk := y.ctx.currentChunk
        let needed := toInt (y.ctx.currentChunkSize - (chunk.stop - chunk.start))
        let (r, p) := y.callback .body cb
        if needed > 0 ∨ r ≠ 0 then none else some (chunkSkipped p)
    | _ => none
  else
    let (r, p) := (plainTaken y).callback .body cb
    if (plainTaken y).ctx.body.stop - y.ctx.body.start < y.ctx.bodysz ∨ r ≠ 0 then none else some p

section
variable {cb : Option Callback} {y x : Parser}

theorem recycledBy_cases (h : recycledBy cb y = some x) :
    (y.ctx.flagChunked = true ∧ y.ctx.chunkParserState = .data ∧
        toInt (y.ctx.currentChunkSize - (y.ctx.currentChunk.stop - y.ctx.currentChunk.start)) ≤ 0 ∧
        (y.callback .body cb).1 = 0 ∧ x = chunkSkipped (y.callback .body cb).2) ∨
      y.ctx.flagChunked = false ∧
        y.ctx.bodysz ≤ (plainTaken y).ctx.body.stop - y.ctx.body.start ∧
        ((plainTaken y).callback .body cb).1 = 0 ∧ x = ((plainTaken y).callback .body cb).2 := by
  unfold recycledBy at h
  split at h
  · rename_i hchunked
    split at h
    · rename_i hdata
      simp only at h
      split at h
      · cases h
      · rename_i hgo
        cases h
        obtain ⟨hneed, hcb⟩ := not_or.mp hgo
        exact .inl ⟨hchunked, hdata, Int.not_lt.mp hneed, Decidable.not_not.mp hcb, rfl⟩
    · cases h
  · rename_i hplain
    simp only at h
    split at h
    · cases h
    · rename_i hgo
      cases h
      obtain ⟨hfull, hcb⟩ := not_or.mp hgo
      exact .inr ⟨Bool.eq_false_iff.mpr hplain, Int.not_lt.mp hfull, Decidable.not_not.mp hcb, rfl⟩

theorem processBody_recycles (h : recycledBy cb y = some x) :
    ∃ r, ∀ rc, processBody rc cb y = (r, recycleStreamBuffer rc x) := by
  obtain ⟨hchunked, hdata, hneed, hcb, rfl⟩ | ⟨hplain, hfull, hcb, rfl⟩ := recycledBy_cases h
  · refine ⟨if (y.callback .body cb).2.ctx.currentChunkSize > 0 then .needMore else .ok,
      fun rc => ?_⟩
    simp only [processBody, hchunked, if_true, hdata, processChunkData,
      if_neg (Int.not_lt.mpr hneed), hcb, ne_eq, not_true_eq_false, if_false]
    split <;> rfl
  · refine ⟨.ok, fun rc => ?_⟩
    simp only [processBody, hplain, Bool.false_eq_true, if_false, processPlainBody_eq,
      if_neg (Int.not_lt.mpr hfull), hcb, ne_eq, not_true_eq_false]

theorem processBody_unrecycled (h : recycledBy cb y = none) (rc rc' : Recycler) :
    processBody rc cb y = processBody rc' cb y := by
  unfold recycledBy at h
  unfold processBody
  split at h
  · rename_i hchunked
    simp only [hchunked, if_true]
    cases hst : y.ctx.chunkParserState with
    | none => rfl
    | size => rfl
    | data =>
        simp only [hst] at h
        split at h
        · rename_i hstop
          unfold processChunkData
          simp only
          split
          · rfl
          · rename_i hneed
            rw [if_pos (hstop.resolve_left hneed)]
            rw [if_pos (hstop.resolve_left hneed)]
        · cases h
  · rename_i hplain
    simp only at h
    split at h
    · rename_i hstop
      rw [if_neg hplain, if_neg hplain, processPlainBody_eq, processPlainBody_eq]
      by_cases hmore : (plainTaken y).ctx.body.stop - y.ctx.body.start < y.ctx.bodysz
      · rw [if_pos hmore, if_pos hmore]
      · simp only [if_neg hmore, if_pos (hstop.resolve_left hmore)]
    · cases h

end

/-! ## The bounds -/

/-- The offset is inside the data, and afterwards the position is. -/
structure Inside (rc : Recycler) (x : Parser) : Prop where
  start_lo : 0 ≤ x.ctx.currentChunk.start
  start_hi : x.ctx.currentChunk.start ≤ x.inp.eod
  pos_lo : 0 ≤ (recycleStreamBuffer rc x).inp.pos
  pos_hi : (recycleStreamBuffer rc x).inp.pos ≤ (recycleStreamBuffer rc x).inp.eod

/-- What must have been received when `process_body` is called: the two bytes
behind the data of the chunk; of a plain body nothing more, if it has a
length. -/
def Arrived (rc : Recycler) (y : Parser) : Prop :=
  if y.ctx.flagChunked then 0 ≤ y.inp.pos + 2 ∧ y.inp.pos + 2 ≤ y.inp.eod
  else 0 ≤ y.ctx.bodysz ∨ y.ctx.body.start ≤ y.inp.eod ∧
    rc.amount (y.inp.advance (y.ctx.body.start + y.ctx.bodysz - y.inp.pos)) 512 y.ctx.body.start ≤
      y.ctx.body.start + y.ctx.bodysz

instance (rc : Recycler) (y : Parser) : Decidable (Arrived rc y) := by
  unfold Arrived
  infer_instance

section
variable {rc : Recycler} {cb : Option Callback} {x y : Parser}

/-- The same number of bytes is taken from the end and from the position. -/
theorem inside_iff : Inside rc x ↔ 0 ≤ x.ctx.currentChunk.start ∧
    x.ctx.currentChunk.start ≤ x.inp.eod ∧
    rc.amount x.inp 512 x.ctx.currentChunk.start ≤ x.inp.pos ∧ x.inp.pos ≤ x.inp.eod := by
  have hle := rc.amount_le_eod x.inp 512 x.ctx.currentChunk.start
  have hpos : (recycleStreamBuffer rc x).inp.pos =
      x.inp.pos - rc.amount x.inp 512 x.ctx.currentChunk.start := rfl
  have heod : (recycleStreamBuffer rc x).inp.eod =
      x.inp.eod - rc.amount x.inp 512 x.ctx.currentChunk.start := by
    show (((x.inp.data.drop _).length : Nat) : Int) = _
    rw [List.length_drop]
    unfold Stream.eod
    omega
  constructor
  · rintro ⟨h1, h2, h3, h4⟩
    rw [hpos] at h3 h4
    rw [heod] at h4
    exact ⟨h1, h2, by omega, by omega⟩
  · rintro ⟨h1, h2, h3, h4⟩
    exact ⟨h1, h2, by omega, by omega⟩

/-- **Behind a chunk.** -/
theorem chunkSkipped_inside (rc : Recycler) (p : Parser) :
    Inside rc (chunkSkipped p) ↔ 0 ≤ p.inp.pos + 2 ∧ p.inp.pos + 2 ≤ p.inp.eod := by
  have hstart : (chunkSkipped p).ctx.currentChunk.start = p.inp.pos + 2 := rfl
  have hpos : (chunkSkipped p).inp.pos = p.inp.pos + 2 := rfl
  have heod : (chunkSkipped p).inp.eod = p.inp.eod := rfl
  rw [inside_iff, hstart, hpos, heod]
  constructor
  · rintro ⟨hlo, hhi, -, -⟩
    exact ⟨hlo, hhi⟩
  · rintro ⟨hlo, hhi⟩
    exact ⟨hlo, hhi, rc.amount_le_until _ _ _ hlo, hhi⟩

/-- The offsets of a plain body. -/
structure PlainOffsets (y : Parser) : Prop where
  lo : 0 ≤ y.ctx.body.start
  stop : y.ctx.body.stop = y.inp.pos
  chunk : y.ctx.currentChunk.start = y.ctx.body.start

theorem PlainOffsets.taken_inp (h : PlainOffsets y)
    (hfull : y.ctx.bodysz ≤ (plainTaken y).ctx.body.stop - y.ctx.body.start) :
    (plainTaken y).inp = y.inp.advance (y.ctx.body.start + y.ctx.bodysz - y.inp.pos) ∧
      y.ctx.body.start + y.ctx.bodysz ≤ y.inp.eod := by
  have hstop := h.stop
  have hincr : y.ctx.bodysz ≤ y.ctx.body.stop +
      min (y.inp.eod - y.inp.pos) (y.ctx.bodysz - (y.ctx.body.stop - y.ctx.body.start)) -
        y.ctx.body.start := hfull
  refine ⟨congrArg y.inp.advance ?_, ?_⟩ <;> omega

/-- **At the end of a plain body.** -/
theorem plainTaken_inside (h : PlainOffsets y)
    (hfull : y.ctx.bodysz ≤ (plainTaken y).ctx.body.stop - y.ctx.body.start) :
    Inside rc (plainTaken y) ↔ 0 ≤ y.ctx.bodysz ∨ y.ctx.body.start ≤ y.inp.eod ∧
      rc.amount (y.inp.advance (y.ctx.body.start + y.ctx.bodysz - y.inp.pos)) 512
        y.ctx.body.start ≤ y.ctx.body.start + y.ctx.bodysz := by
  obtain ⟨hinp, heod⟩ := h.taken_inp hfull
  have hstart : (plainTaken y).ctx.currentChunk.start = y.ctx.body.start := h.chunk
  have hpos : y.inp.pos + (y.ctx.body.start + y.ctx.bodysz - y.inp.pos) =
      y.ctx.body.start + y.ctx.bodysz := by omega
  rw [inside_iff, hstart, hinp, Stream.pos_advance, Stream.eod_advance, hpos]
  have hlo := h.lo
  have huntil := rc.amount_le_until
    (y.inp.advance (y.ctx.body.start + y.ctx.bodysz - y.inp.pos)) 512 y.ctx.body.start hlo
  constructor
  · rintro ⟨-, hhi, hamount, -⟩
    exact .inr ⟨hhi, hamount⟩
  · rintro (hsz | ⟨hhi, hamount⟩)
    · exact ⟨hlo, by omega, by omega, heod⟩
    · exact ⟨hlo, hhi, hamount, heod⟩

theorem inside_callback (rc : Recycler) (p : Parser) (kind : CallKind) (cb : Option Callback) :
    Inside rc (p.callback kind cb).2 ↔ Inside rc p := by
  obtain ⟨hctx, hinp⟩ := callback_frame (p := p) kind cb
  rw [inside_iff, inside_iff, hctx, hinp]

/-- **The bounds hold in a call of `process_body` if and only if** the bytes up to
the offset have come. -/
theorem recycledBy_inside (hplain : y.ctx.flagChunked = false → PlainOffsets y)
    (h : recycledBy cb y = some x) : Inside rc x ↔ Arrived rc y := by
  unfold Arrived
  obtain ⟨hchunked, -, -, -, rfl⟩ | ⟨hflag, hfull, -, rfl⟩ := recycledBy_cases h
  · obtain ⟨-, hinp⟩ := callback_frame (p := y) .body cb
    rw [if_pos hchunked, chunkSkipped_inside, hinp]
  · rw [if_neg (by rw [hflag]; nofun), inside_callback, plainTaken_inside (hplain hflag) hfull]

end

/-! ## The offsets of a plain body -/

theorem PlainOffsets.again {rc : Recycler} {cb : Option Callback} {k : Nat} {y q : Parser}
    (h : PlainOffsets y) (hflag : y.ctx.flagChunked = false) (hd : bodyIter rc cb k y = .again q) :
    PlainOffsets q := by
  simp only [bodyIter, processBody, hflag, Bool.false_eq_true, if_false, processPlainBody_eq] at hd
  split at hd
  · rename_i heq
    cases hd
    split at heq
    · cases heq
      exact ⟨h.lo, congrArg (· + _) h.stop, h.chunk⟩
    · split at heq <;> cases heq
  · cases hd
  · cases hd

/-- Where a plain body is in the loop. -/
structure PlainPlaced (p : Parser) : Prop where
  placed : Placed (fun _ => True) p
  body : p.ctx.parserState = .body → p.ctx.flagChunked = false → PlainOffsets p

theorem PlainPlaced.input {p y : Parser} (h : PlainPlaced p) (hin : bodyInput p = some y)
    (hflag : y.ctx.flagChunked = false) : PlainOffsets y := by
  obtain ⟨hstate, -, rfl⟩ | ⟨hstate | hstate, rfl⟩ := bodyInput_cases hin
  · cases h.placed with
    | fieldOut _ lo le =>
        refine ⟨?_, rfl, rfl⟩
        show 0 ≤ p.inp.pos + 2
        omega
    | start st | line st | fieldIn st | body st => cases hstate.symm.trans st
  · cases h.placed with
    | start st | line st | fieldIn st | fieldOut st | body st => cases hstate.symm.trans st
  · exact h.body hstate hflag

theorem plainPlaced_reaches {pf : Platform} {l : FirstLine} {cbs : Callbacks} {errno : Int}
    {s : Stream} {reads : List Read} {t : LoopState} (h0 : 0 ≤ s.pos) (hle : s.pos ≤ s.eod + 2)
    (h : Reaches (loopStep pf l.parse cbs) ⟨.top, .init s errno, reads⟩ t) :
    PlainPlaced t.par := by
  refine h.invariant (I := fun t => PlainPlaced t.par) ?_
    ⟨placed_init errno h0 hle, fun hst => by cases hst⟩
  intro t t' ht hs
  cases loopStep_again_iff.mp hs with
  | read =>
      refine ⟨ht.placed.consume id, fun hst hflag => ?_⟩
      obtain ⟨lo, stop, chunk⟩ := ht.body hst hflag
      exact ⟨lo, stop, chunk⟩
  | look => exact ht
  | @pass p q reads' hd =>
      have hpass := dispatch_again hd
      refine ⟨ht.placed.pass hpass (fun _ _ _ _ _ _ => trivial) fun _ _ _ => trivial,
        fun hst hflag => ?_⟩
      cases hin : bodyInput p with
      | none => exact absurd hst (hpass.state_ne_body hin)
      | some y =>
          obtain ⟨k, hdisp⟩ := dispatch_bodyInput pf l.parse cbs hin
          have hit := hdisp.symm.trans hd
          have hsame := bodyIter_flag.1 _ hit
          have hplain : y.ctx.flagChunked = false := hsame.symm.trans hflag
          exact (ht.input hin hplain).again hplain hit

/-! ## Whole runs -/

/-- The parser that a step hands to `process_body`, and the one that is recycled
in there. -/
def recycledIn (cbs : Callbacks) (t : LoopState) : Option (Parser × Parser) :=
  match t.pc with
  | .top => none
  | .dispatch => (bodyInput t.par).bind fun y => (recycledBy cbs.body y).map fun x => (y, x)

section
variable (pf : Platform) (l : FirstLine) (cbs : Callbacks) (t₀ : LoopState)

/-- In the run from `t₀`, `process_body` is called on `y` and recycles `x`. -/
def RecycledAt (y x : Parser) : Prop :=
  ∃ t, Reaches (loopStep pf l.parse cbs) t₀ t ∧ recycledIn cbs t = some (y, x)

/-- The bounds hold at every call of `bytestream_recycle`. -/
def RecyclesInside : Prop := ∀ y x, RecycledAt pf l cbs t₀ y x → Inside pf.recycler x

/-- At every one of them the bytes had come. -/
def AllArrived : Prop := ∀ y x, RecycledAt pf l cbs t₀ y x → Arrived pf.recycler y

variable {pf l cbs t₀}

theorem recycledIn_some {t : LoopState} {y x : Parser} (h : recycledIn cbs t = some (y, x)) :
    t.pc = .dispatch ∧ bodyInput t.par = some y ∧ recycledBy cbs.body y = some x := by
  unfold recycledIn at h
  split at h
  · cases h
  · rename_i hpc
    obtain ⟨y', hin, hmap⟩ := Option.bind_eq_some_iff.mp h
    obtain ⟨x', hx, heq⟩ := Option.map_eq_some_iff.mp hmap
    cases heq
    exact ⟨hpc, hin, hx⟩

end

/-- **The bounds hold at every call of `bytestream_recycle` in a run if and only
if** at each of them what is skipped had been received. -/
theorem recycled_inside_iff (pf : Platform) (l : FirstLine) (cbs : Callbacks) (errno : Int)
    (s : Stream) (reads : List Read) (h0 : 0 ≤ s.pos) (hle : s.pos ≤ s.eod + 2) :
    RecyclesInside pf l cbs ⟨.top, .init s errno, reads⟩ ↔
      AllArrived pf l cbs ⟨.top, .init s errno, reads⟩ := by
  have hstep : ∀ y x, RecycledAt pf l cbs ⟨.top, .init s errno, reads⟩ y x →
      (Inside pf.recycler x ↔ Arrived pf.recycler y) := by
    rintro y x ⟨t, hreach, hin⟩
    obtain ⟨-, hbody, hrec⟩ := recycledIn_some hin
    exact recycledBy_inside ((plainPlaced_reaches h0 hle hreach).input hbody) hrec
  constructor
  · intro h y x hat
    exact (hstep y x hat).mp (h y x hat)
  · intro h y x hat
    exact (hstep y x hat).mpr (h y x hat)

/-! ### A body in one read, and one that is cut -/

section
variable {pf : Platform} {l : FirstLine} {cbs : Callbacks} {t₀ : LoopState}

theorem allArrived_of_watch (n : Nat)
    (hrun : (run (loopStep pf l.parse cbs) n t₀).isSome = true)
    (h : ∀ e ∈ watch (loopStep pf l.parse cbs) (fun _ => ([] : List Unit)) n [] t₀,
      ∀ c ∈ recycledIn cbs e.2, Arrived pf.recycler c.1) : AllArrived pf l cbs t₀ := by
  rintro y x ⟨t, hreach, hin⟩
  obtain ⟨r, hr⟩ := Option.isSome_iff_exists.mp hrun
  obtain ⟨es, hes⟩ := hreach.watched fun _ => ([] : List Unit)
  exact h ([] ++ es, t) (mem_watch hr hes []) (y, x) hin

theorem recycledAt_of_watch {n : Nat} {P : Parser → Prop}
    (h : ∃ e ∈ watch (loopStep pf l.parse cbs) (fun _ => ([] : List Unit)) n [] t₀,
      ∃ c ∈ recycledIn cbs e.2, P c.2) : ∃ y x, RecycledAt pf l cbs t₀ y x ∧ P x := by
  obtain ⟨⟨es, t⟩, hmem, ⟨y, x⟩, hin, hP⟩ := h
  obtain ⟨es', -, hes⟩ := watched_of_mem hmem
  exact ⟨y, x, ⟨t, hes.reaches, hin⟩, hP⟩

end

theorem recycled_inside_whole :
    RecyclesInside .keeping (.request .getRoot) .accepting
        ⟨.top, .init ⟨[], [], 0⟩ 0, chunkedRequest (ascii "3\r\nxyz\r\n0\r\n\r\n")⟩ ∧
      ∃ y x, RecycledAt .keeping (.request .getRoot) .accepting
        ⟨.top, .init ⟨[], [], 0⟩ 0, chunkedRequest (ascii "3\r\nxyz\r\n0\r\n\r\n")⟩ y x ∧
        x.ctx.currentChunk.start + 5 = x.inp.eod :=
  ⟨(recycled_inside_iff .keeping (.request .getRoot) .accepting 0 ⟨[], [], 0⟩
      (chunkedRequest (ascii "3\r\nxyz\r\n0\r\n\r\n")) (by decide) (by decide)).mpr
      (allArrived_of_watch 40 (by decide +kernel) (by decide +kernel)),
    recycledAt_of_watch (n := 40) (by decide +kernel)⟩

/-- **The read ends between the CR and the LF behind a chunk**: the offset is one
byte behind the end of the data, and so is the position afterwards. -/
theorem recycled_behind_end :
    (∃ y x, RecycledAt .keeping (.request .getRoot) .accepting
        ⟨.top, .init ⟨[], [], 0⟩ 0,
          chunkedRequest (ascii "3\r\nxyz\r") ++ [.bytes (ascii "\n0\r\n\r\n") []]⟩ y x ∧
        x.ctx.currentChunk.start = x.inp.eod + 1 ∧
        (recycleStreamBuffer .keep x).inp.pos = (recycleStreamBuffer .keep x).inp.eod + 1) ∧
      ¬ RecyclesInside .keeping (.request .getRoot) .accepting
        ⟨.top, .init ⟨[], [], 0⟩ 0,
          chunkedRequest (ascii "3\r\nxyz\r") ++ [.bytes (ascii "\n0\r\n\r\n") []]⟩ := by
  have hat : ∃ y x, RecycledAt .keeping (.request .getRoot) .accepting
      ⟨.top, .init ⟨[], [], 0⟩ 0,
        chunkedRequest (ascii "3\r\nxyz\r") ++ [.bytes (ascii "\n0\r\n\r\n") []]⟩ y x ∧
      x.ctx.currentChunk.start = x.inp.eod + 1 ∧
      (recycleStreamBuffer .keep x).inp.pos = (recycleStreamBuffer .keep x).inp.eod + 1 :=
    recycledAt_of_watch (n := 40) (by decide +kernel)
  refine ⟨hat, fun h => ?_⟩
  obtain ⟨y, x, hrec, hstart, -⟩ := hat
  have hhi := (h y x hrec).start_hi
  omega

end MnHttp
