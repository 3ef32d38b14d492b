/-
# `MnApp.Http.Truncation` — a message that breaks off

A proper prefix of a well-formed message arrives, cut into reads in any way,
and then the input ends.  The call should tell: `MNHTTP_PARSE_EMPTY` when
nothing at all has come, `MNHTTP_PARSE_CONSUME_DATA_ERROR` otherwise.

    inside the head          it does (`head_blocks`): complete the head with
                             more reads, and the call comes to the empty line,
                             so it has waited for them
    with a `Content-Length`  it does: the body is counted, and if a read has
                             cut the empty line even one byte too many is
    chunked                  it does if the text that is read as chunks is
                             unfinished (`MnApp.Http.Unfinished`)

**Where that fails.**  The CR LF behind the data of a chunk is skipped, not
awaited, and the last chunk has no data: once a byte stands behind its size
line the call returns 0, so a message without its last LF passes for complete
(`truncation_without_last_byte`).  When a read ended inside the empty line the
text starts one byte too late, and any of the three ends is possible.

What the memory behind the received bytes holds, and what a recycling leaves
there, is nobody's choice, so "detected" is meant for all of it.
-/
import MnApp.Http.Unfinished

namespace MnHttp

open CLib Loop

/-! ## Messages, and what has come of one -/

/-- The two ways to say where a body ends. -/
inductive Payload where
  | length (body : List UInt8)
  | chunks (cs : List Chunk)

def Payload.bytes : Payload → List UInt8
  | .length body => body
  | .chunks cs => chunkedBytes cs

/-- The headers announce it, and its sizes fit in an `int`. -/
def Payload.Framed (R : Nat) (hs : List Header) : Payload → Prop
  | .length body => HasLength hs body.length
  | .chunks cs => HasChunked hs ∧ ChunksFit R cs ∧ ∀ c ∈ cs, (c.data.length : Int) ≤ intMax

theorem Payload.Framed.lengthOk {R : Nat} {hs : List Header} {payload : Payload}
    (h : payload.Framed R hs) : ∀ x ∈ hs, x.LengthOk := by
  cases payload with
  | length body => exact HasLength.lengthOk h
  | chunks cs => exact fun x hx hn => absurd hn (h.1.plain x hx)

/-- A message. -/
def messageBytes (l : FirstLine) (hs : List Header) (payload : Payload) : List UInt8 :=
  headBytes l hs ++ CR :: LF :: payload.bytes

/-- `text` is what stands in the buffer from `pos` on and what the fragments
bring. -/
structure Fragmented (R : Nat) (data : List UInt8) (pos : Nat) (frs : List (List UInt8))
    (text : List UInt8) : Prop where
  pos_le : pos ≤ data.length
  text_eq : (data ++ frs.flatten).drop pos = text
  pieces : ∀ f ∈ frs, f ≠ [] ∧ f.length ≤ R
  bounded : data.length ≤ pos + R

/-- The read brings this fragment. -/
def Carries (f : List UInt8) (r : Read) : Prop := ∃ slack, r = .bytes f slack

/-- A fragment ends at the offset. -/
def EndsAt (data : List UInt8) (frs : List (List UInt8)) (n : Int) : Prop :=
  Cuts data.length (frs.map fun f => .bytes f []) n

/-- A read ended between the CR and the LF of the empty line. -/
def CutInBlank (l : FirstLine) (hs : List Header) (data : List UInt8) (pos : Nat)
    (frs : List (List UInt8)) : Prop :=
  EndsAt data frs ((pos : Int) + (headBytes l hs).length + 1)

instance (l : FirstLine) (hs : List Header) (data : List UInt8) (pos : Nat)
    (frs : List (List UInt8)) : Decidable (CutInBlank l hs data pos frs) :=
  inferInstanceAs (Decidable (Cuts _ _ _))

/-- What is read as chunks when `T` stands behind the empty line. -/
def bodyText (l : FirstLine) (hs : List Header) (data : List UInt8) (pos : Nat)
    (frs : List (List UInt8)) (T : List UInt8) : List UInt8 :=
  if CutInBlank l hs data pos frs then T.drop 1 else T

/-- Whatever the memory holds: the call ends with the code for a message that
broke off. -/
def TruncationDetected (l : FirstLine) (data : List UInt8) (pos : Nat) (frs : List (List UInt8))
    (text : List UInt8) : Prop :=
  ∀ (pf : Platform) (cbs : Callbacks) (errno : Int) (slack : List UInt8) (reads : List Read),
    cbs.Succeeding → List.Forall₂ Carries frs reads →
    ∃ q rest, Parses l pf cbs errno ⟨data, slack, pos⟩ (reads ++ [.fail parseEof])
      (.returned (if text = [] then .empty else .consumeDataError) q rest)

/-- If a chunked body has been entered, what has come of it stops where the
parser waits. -/
def StopsWhereAwaited (l : FirstLine) (hs : List Header) (data : List UInt8) (pos : Nat)
    (frs : List (List UInt8)) (text : List UInt8) : Payload → Prop
  | .length _ => True
  | .chunks cs => ∀ T, text = headBytes l hs ++ CR :: LF :: T →
      (¬ CutInBlank l hs data pos frs → T.length + 2 ≤ (chunkedBytes cs).length) ∧
      (CutInBlank l hs data pos frs → Unfinished (T.drop 1))

/-- And if it is read from one byte too far, its size lines are short enough. -/
def ShiftedFits (R : Nat) (l : FirstLine) (hs : List Header) (data : List UInt8) (pos : Nat)
    (frs : List (List UInt8)) (text : List UInt8) : Payload → Prop
  | .length _ => True
  | .chunks _ => ∀ T, text = headBytes l hs ++ CR :: LF :: T →
      CutInBlank l hs data pos frs → SizesFit R (T.drop 1)

section
variable {R pos : Nat} {data text : List UInt8} {frs : List (List UInt8)} {reads : List Read}

theorem pending_of_carries (h : List.Forall₂ Carries frs reads) : pending reads = frs.flatten := by
  induction h with
  | nil => rfl
  | cons hr _ ih =>
      obtain ⟨slack, rfl⟩ := hr
      rw [pending_cons, ih]
      rfl

theorem cuts_of_carries (h : List.Forall₂ Carries frs reads) (n : Int) :
    ∀ e : Int, Cuts e reads n ↔ Cuts e (frs.map fun f => .bytes f []) n := by
  induction h with
  | nil => exact fun _ => Iff.rfl
  | @cons f r frs reads hr _ ih =>
      intro e
      obtain ⟨slack, rfl⟩ := hr
      exact or_congr Iff.rfl (ih (e + f.length))

theorem Fragmented.delivers (h : Fragmented R data pos frs text)
    (hc : List.Forall₂ Carries frs reads) : Delivers R reads := by
  have hp := h.pieces
  clear h
  induction hc with
  | nil => exact .nil R
  | @cons f r frs reads hr _ ih =>
      obtain ⟨slack, rfl⟩ := hr
      obtain ⟨hne, hlen⟩ := hp f List.mem_cons_self
      exact .cons hne hlen (ih fun f' hf' => hp f' (List.mem_cons_of_mem _ hf'))

theorem Fragmented.arrives (h : Fragmented R data pos frs text)
    (hc : List.Forall₂ Carries frs reads) (slack : List UInt8) :
    Arrives R text ⟨data, slack, pos⟩ reads where
  pos_nonneg := Int.natCast_nonneg _
  pos_le := by
    have := h.pos_le
    show (pos : Int) ≤ (data.length : Int) + 2
    omega
  stream := by
    show (data ++ pending reads).drop ((pos : Int)).toNat = text
    rw [pending_of_carries hc, Int.toNat_natCast, h.text_eq]
  delivers := h.delivers hc
  bounded := by
    have := h.bounded
    show (data.length : Int) - pos ≤ R
    omega

end

/-! ## Waiting for more -/

section
variable {pf : Platform} {l : FirstLine} {cbs : Callbacks}

/-- A run either leaves the later reads alone, or has waited for them. -/
theorem reaches_split (more : List Read) {t u : LoopState} {rs : List Read}
    (h : Reaches (loopStep pf l.parse cbs) t u) (ht : t.reads = rs ++ more) :
    (∃ rs', u.reads = rs' ++ more) ∨
      ∃ q, Returns (loopStep pf l.parse cbs) { t with reads := rs } (.blocked q) := by
  induction h generalizing rs with
  | refl t => exact .inl ⟨rs, ht⟩
  | head hs _ ih =>
      cases loopStep_again_iff.mp hs with
      | @read p bs slack reads hmore =>
          cases rs with
          | nil => exact .inr ⟨p, .of_done (loopStep_done_iff.mpr (.blocked hmore))⟩
          | cons r rs =>
              cases ht
              refine (ih rfl).imp_right fun ⟨q, hq⟩ => ⟨q, ?_⟩
              exact .of_again (loopStep_again_iff.mpr (.read hmore)) hq
      | look hlt =>
          refine (ih ht).imp_right fun ⟨q, hq⟩ => ⟨q, ?_⟩
          exact .of_again (loopStep_again_iff.mpr (.look hlt)) hq
      | pass hagain =>
          refine (ih ht).imp_right fun ⟨q, hq⟩ => ⟨q, ?_⟩
          exact .of_again (loopStep_again_iff.mpr (.pass hagain)) hq

theorem reaches_more (more : List Read) {t u : LoopState}
    (h : Reaches (loopStep pf l.parse cbs) t u) :
    Reaches (loopStep pf l.parse cbs) { t with reads := t.reads ++ more }
      { u with reads := u.reads ++ more } := by
  induction h with
  | refl t => exact .refl _
  | head hs _ ih => exact .head (again_more more hs) ih

theorem Pass.ne_start {p q : Parser} (h : Pass p q) : q.ctx.parserState ≠ .start := by
  have hne : ∀ {st : ParserState}, q.ctx.parserState = st → st ≠ .start →
      q.ctx.parserState ≠ .start := fun h1 h2 h3 => h2 (h1.symm.trans h3)
  cases h with
  | start _ eq => exact eq ▸ nofun
  | lineWait st _ eq => exact hne ((congrArg (·.ctx.parserState) eq).trans st) nofun
  | line _ _ _ st' => exact hne st' nofun
  | fieldIn _ eq => exact eq ▸ nofun
  | fieldWait st _ eq => exact hne ((congrArg (·.ctx.parserState) eq).trans st) nofun
  | header _ _ _ st' => exact hne st' nofun
  | blank _ _ st' => exact hne st' nofun
  | bodyIn _ st' => exact hne st' nofun
  | body _ st' => exact hne st' nofun

theorem blocked_ne_start {errno : Int} {s : Stream} {reads : List Read} {q : Parser}
    (h : Returns (loopStep pf l.parse cbs) ⟨.top, .init s errno, reads⟩ (.blocked q))
    (hsome : s.pos < s.eod ∨ reads ≠ []) : q.ctx.parserState ≠ .start := by
  obtain ⟨t, ht, hdone⟩ := h.invariant
    (I := fun t => t.par.ctx.parserState = .start → t.pc = .top → t.par.inp = s ∧ t.reads = reads)
    (fun t t' _ hs => by
      cases loopStep_again_iff.mp hs with
      | read => exact fun _ hpc => by cases hpc
      | look => exact fun _ hpc => by cases hpc
      | pass hagain => exact fun hst _ => absurd hst (dispatch_again hagain).ne_start)
    fun _ _ => ⟨rfl, rfl⟩
  cases loopStep_done_iff.mp hdone with
  | blocked hmore =>
      intro hst
      obtain ⟨rfl, hreads⟩ := ht hst rfl
      rcases hsome with hlt | hne
      · exact absurd hmore (Int.not_le.mpr hlt)
      · exact hne hreads.symm

/-- A call that would wait for ever sees the end of the input. -/
theorem blocked_parses {errno : Int} {s : Stream} {reads : List Read} {q : Parser}
    (h : Returns (loopStep pf l.parse cbs) ⟨.top, .init s errno, reads⟩ (.blocked q))
    (hsome : s.pos < s.eod ∨ reads ≠ []) :
    Parses l pf cbs errno s (reads ++ [.fail parseEof]) (.returned .consumeDataError q []) := by
  obtain ⟨hreach, hmore⟩ := blocked_reaches [.fail parseEof] h
  have hne : ¬ (parseEof = parseEof ∧ q.ctx.parserState = .start) :=
    fun hst => blocked_ne_start h hsome hst.2
  have hfail : Done pf l.parse cbs ⟨.top, q, [.fail parseEof]⟩ _ := .fail hmore
  rw [if_neg hne] at hfail
  exact parses_iff.mpr (hreach.returns (.of_done (loopStep_done_iff.mpr hfail)))

end

/-! ## Inside the head -/

/-- Bytes that come one at a time. -/
def bytewise (bs : List UInt8) : List Read := bs.map fun b => .bytes [b] []

theorem pending_bytewise (bs : List UInt8) : pending (bytewise bs) = bs := by
  unfold bytewise pending
  rw [List.flatMap_map]
  exact List.flatMap_singleton' bs

theorem delivers_bytewise {R : Nat} (hR : 0 < R) (bs : List UInt8) : Delivers R (bytewise bs) := by
  intro r hr
  obtain ⟨b, -, rfl⟩ := List.mem_map.mp hr
  exact ⟨[b], [], rfl, List.cons_ne_nil _ _, hR⟩

theorem Delivers.append {R : Nat} {rs rs' : List Read} (h : Delivers R rs) (h' : Delivers R rs') :
    Delivers R (rs ++ rs') := by
  intro r hr
  rcases List.mem_append.mp hr with hr | hr
  · exact h r hr
  · exact h' r hr

section
variable (pf : Platform) {cbs : Callbacks} (errno : Int) {R : Nat} {l : FirstLine}
variable {hs : List Header} {s : Stream} {reads : List Read}

/-- **A head that breaks off is waited for.** -/
theorem head_blocks (hcb : cbs.Succeeding) (hfits : HeadFits R l hs)
    (hok : ∀ h ∈ hs, h.LengthOk) {text missing : List UInt8} (hR : 0 < R)
    (hhead : text ++ missing = headBytes l hs ++ CR :: LF :: []) (hne : missing ≠ [])
    (hle : s.pos ≤ s.eod) (harr : Arrives R text s reads) :
    ∃ q, Returns (loopStep pf l.parse cbs) ⟨.top, .init s errno, reads⟩ (.blocked q) := by
  -- one byte at a time completes it
  have hpend := pending_bytewise missing
  have hdel := delivers_bytewise hR missing
  generalize bytewise missing = extra at hpend hdel
  have h0 := harr.pos_nonneg
  have harr' : Arrives R (headBytes l hs ++ CR :: LF :: []) s (reads ++ extra) := by
    refine ⟨h0, harr.pos_le, ?_, harr.delivers.append hdel, harr.bounded⟩
    rw [pending_append, hpend, ← List.append_assoc, List.drop_append_of_le_length, harr.stream,
      hhead]
    rw [List.length_append]
    unfold Stream.eod at hle
    omega
  obtain ⟨p, reads', c, cs, hr, hblank, -⟩ := head_reaches pf (p := .init s errno) hcb l hs hok
    hfits.line hfits.headers rfl harr'
  rcases reaches_split extra hr rfl with ⟨rs, hrs⟩ | hblocked
  · -- the empty line is complete, so nothing is left of the added reads
    exfalso
    have hcomplete := hblank.complete
    have htotal := hblank.total
    have hreads' : reads' = rs ++ extra := hrs
    rw [hreads', pending_append, hpend] at htotal
    simp only [List.length_append, List.length_nil] at htotal
    have hmissing : 0 < missing.length := List.length_pos_iff.mpr hne
    unfold Stream.eod at hcomplete
    have hpos : (Parser.init s errno).inp = s := rfl
    rw [hpos] at hcomplete htotal
    omega
  · exact hblocked

end

/-! ## Behind the head -/

section
variable {pf : Platform} {l : FirstLine} {cbs : Callbacks} {R b st : Nat} {L : Prop}
variable {T : List UInt8} {s₀ : Stream} {reads₀ reads : List Read} {p : Parser}

theorem BlankHere.awaits (h : BlankHere R b T s₀ reads₀ p reads) (hfr : p.ctx.framing = .chunks)
    (hst : p.inp.pos + 2 = st) (lres : Int) :
    Awaits R L ((p.inp.data ++ pending reads).drop st) (blankLine p) (reads ++ [.fail lres]) := by
  simp only [Ctx.framing, Framing.chunks, Framing.mk.injEq] at hfr
  have hc := h.complete
  have hb := h.bounded
  have hpos := h.pos
  have hlo : (b : Int) ≤ p.inp.pos ∧ p.inp.pos ≤ b + 1 := by split at hpos <;> omega
  have hpend : pending (reads ++ [.fail lres]) = pending reads := by
    rw [pending_append]
    exact List.append_nil _
  refine .size st 0 ⟨hfr.2.1, hfr.2.2, hst, hfr.1⟩ ?_ (by rw [hpend]; rfl) fun _ _ _ _ => ⟨?_, ?_⟩
  · show (st : Int) ≤ p.inp.eod + 2
    omega
  · show p.inp.pos + 2 - st ≤ _
    omega
  · show p.inp.eod - st ≤ _
    omega

theorem blank_ends (hcb : cbs.Succeeding) (hR : (R : Int) ≤ intMax)
    (hkeep : L → pf.recycler = .keep) (h : BlankHere R b T s₀ reads₀ p reads)
    (hfr : p.ctx.framing = .chunks) (hst : p.inp.pos + 2 = st)
    (hfits : SizesFit R ((p.inp.data ++ pending reads).drop st))
    (hloud : L → Loud p.inp (reads ++ [.fail parseEof])) :
    ∃ r q rest, Returns (loopStep pf l.parse cbs) ⟨.dispatch, p, reads ++ [.fail parseEof]⟩
        (.returned r q rest) ∧
      EndsBody L ((p.inp.data ++ pending reads).drop st) r := by
  have hawaits := h.awaits (L := L) hfr hst parseEof
  have hsize : p.ctx.chunkParserState = .size := congrArg Framing.chunkState hfr
  have hleaves := hawaits.iter pf.recycler cbs.body 12 hcb.body hR hfits
    (fun hd => by cases hsize.symm.trans hd) fun hL => (hloud hL).1
  have hdisp : dispatch pf l.parse cbs p = bodyIter pf.recycler cbs.body 12 (blankLine p) :=
    dispatch_blank h.state h.start h.found
  have hends : EndsWith parseEof (reads ++ [.fail parseEof]) := by
    refine ⟨reads, rfl, fun r hr => ?_⟩
    obtain ⟨bs, slack, rfl, hne, -⟩ := h.delivers r hr
    exact ⟨bs, slack, rfl, hne⟩
  have hsmall : SmallReads R (reads ++ [.fail parseEof]) := by
    intro r hr
    rcases List.mem_append.mp hr with hr | hr
    · obtain ⟨bs, slack, rfl, -, hle⟩ := h.delivers r hr
      exact hle
    · cases List.mem_singleton.mp hr
      exact Nat.zero_le _
  cases hit : bodyIter pf.recycler cbs.body 12 (blankLine p) with
  | again q =>
      rw [hit] at hleaves
      obtain ⟨text', hawaits', hfits', hiff⟩ := hleaves
      have hin : InBody R L text' ⟨.top, q, reads ++ [.fail parseEof]⟩ := by
        refine ⟨bodyIter_state hit, hawaits', hends, hsmall, hfits', fun hpc => (by cases hpc),
          fun hL => ⟨?_, (hloud hL).2⟩⟩
        rw [hkeep hL] at hit
        exact (bodyIter_slack hit).trans (hloud hL).1
      obtain ⟨r, q', rest, hret, hend⟩ := hin.stops (l := l) hcb hR hkeep
      exact ⟨r, q', rest, .of_again (loopStep_again (hdisp.trans hit)) hret,
        fun hun => hend.detected (hiff.mp hun), fun hL hr => hiff.mpr (hend.only hL hr)⟩
  | ret r q =>
      rw [hit] at hleaves
      exact ⟨r, q, _, .of_done (loopStep_ret (hdisp.trans hit)),
        fun hun => absurd hun hleaves.2, fun _ hr => absurd hr hleaves.1⟩

/-! ### The memory behind the data -/

theorem parseRequestLine_slack (p : Parser) : (parseRequestLine p).2.inp.slack = p.inp.slack := by
  unfold parseRequestLine
  simp only
  split
  · rfl
  iterate 5
    split
    · rfl
  split
  · rename_i heq
    exact congrArg Stream.slack (parseVersion_frame heq).2.1
  · rename_i heq
    have hsame := congrArg Stream.slack (parseVersion_frame heq).2.1
    exact hsame

theorem parseStatusLine_slack (p : Parser) : (parseStatusLine p).2.inp.slack = p.inp.slack := by
  unfold parseStatusLine
  simp only
  split
  · rfl
  split
  · rfl
  split
  · rename_i heq
    exact congrArg Stream.slack (parseVersion_frame heq).2.1
  rename_i heq
  have hsame := congrArg Stream.slack (parseVersion_frame heq).2.1
  split
  · exact hsame
  · have hnote : ∀ (q : Parser) r, (q.noteErrno r).inp.slack = q.inp.slack := fun q r => by
      rw [(noteErrno_same q r).2]
    split <;> exact (hnote _ _).trans hsame

theorem dispatch_slack (hkeep : pf.recycler = .keep) {q : Parser}
    (h : dispatch pf l.parse cbs p = .again q) : q.inp.slack = p.inp.slack := by
  have hline : (l.parse p).2.inp.slack = p.inp.slack := by
    cases l with
    | request _ => exact parseRequestLine_slack p
    | status _ => exact parseStatusLine_slack p
  unfold dispatch at h
  split at h
  · cases h
    rfl
  · split at h
    · rename_i heq
      cases h
      rw [heq] at hline
      exact hline
    · rename_i r heq
      rw [heq] at hline
      obtain ⟨-, hinp⟩ := callback_frame (p := r) .line cbs.line
      simp only at h
      split at h
      · cases h
      · cases h
        rw [hinp]
        exact hline
    · cases h
  · cases h
    rfl
  · unfold headerFieldOut at h
    simp only at h
    split at h
    · cases h
      rfl
    · rw [hkeep] at h
      have hsame := bodyIter_slack h
      exact hsame
    · rename_i n _
      split at h
      · cases h
      · rename_i c _
        have hframe := (processHeader_frame (headerLine pf.nullOff
          (p.ctx.currentHeaderName.start + (n + 1)) (p.ctx.currentHeaderName.start + c) p)).1
        split at h
        · rename_i r heq
          rw [heq] at hframe
          obtain ⟨-, hinp⟩ := callback_frame (p := r) .header cbs.header
          split at h
          · cases h
          · cases h
            rw [Stream.slack_advance, hinp]
            have hsame := congrArg Stream.slack hframe
            exact hsame
        · cases h
  · rw [hkeep] at h
    exact bodyIter_slack h
  · rw [hkeep] at h
    exact bodyIter_slack h

theorem loud_reaches (hkeep : pf.recycler = .keep) {t u : LoopState}
    (h : Reaches (loopStep pf l.parse cbs) t u) (ht : Loud t.par.inp t.reads) :
    Loud u.par.inp u.reads := by
  refine h.invariant (I := fun t => Loud t.par.inp t.reads) (fun t t' hl hs => ?_) ht
  cases loopStep_again_iff.mp hs with
  | read => exact hl.consume
  | look => exact hl
  | pass hagain => exact ⟨(dispatch_slack hkeep hagain).trans hl.1, hl.2⟩

end

/-! ## The whole message -/

section
variable {R pos : Nat} {l : FirstLine} {hs : List Header} {data text T : List UInt8}
variable {frs : List (List UInt8)} {reads : List Read}

theorem Fragmented.piece_pos {f : List UInt8} (h : Fragmented R data pos (f :: frs) text) :
    0 < f.length ∧ f.length ≤ R := by
  obtain ⟨hne, hle⟩ := h.pieces f List.mem_cons_self
  exact ⟨List.length_pos_iff.mpr hne, hle⟩

theorem Fragmented.some (h : Fragmented R data pos frs text) (hne : text ≠ []) :
    0 < R ∧ (pos < data.length ∨ frs ≠ []) := by
  have hb := h.bounded
  cases frs with
  | nil =>
      have hlen : text.length = data.length - pos := by
        rw [← h.text_eq]
        simp
      have hpos : 0 < text.length := List.length_pos_iff.mpr hne
      exact ⟨by omega, .inl (by omega)⟩
  | cons f frs =>
      have hf := h.piece_pos
      exact ⟨by omega, .inr (List.cons_ne_nil _ _)⟩

theorem nothing_detected (h : Fragmented R data pos frs []) :
    TruncationDetected l data pos frs [] := by
  intro pf cbs errno slack reads _ hc
  have hlen := congrArg List.length h.text_eq
  rw [List.length_drop, List.length_append, List.length_nil] at hlen
  have hle := h.pos_le
  cases hc with
  | nil =>
      have hmore : (Parser.init ⟨data, slack, pos⟩ errno).inp.eod ≤
          (Parser.init ⟨data, slack, pos⟩ errno).inp.pos := by
        show (data.length : Int) ≤ pos
        omega
      exact ⟨_, [], parses_iff.mpr (.of_done (loopStep_done_iff.mpr (.fail hmore)))⟩
  | @cons f r frs reads hr _ =>
      have hf := h.piece_pos
      rw [List.flatten_cons, List.length_append] at hlen
      omega

theorem detected_of_blocked (h : Fragmented R data pos frs text) (hne : text ≠ [])
    (hblocks : ∀ (pf : Platform) (cbs : Callbacks) (errno : Int) (slack : List UInt8)
      (reads : List Read), cbs.Succeeding → Arrives R text ⟨data, slack, pos⟩ reads →
      ∃ q, Returns (loopStep pf l.parse cbs) ⟨.top, .init ⟨data, slack, pos⟩ errno, reads⟩
        (.blocked q)) : TruncationDetected l data pos frs text := by
  intro pf cbs errno slack reads hcb hc
  obtain ⟨q, hq⟩ := hblocks pf cbs errno slack reads hcb (h.arrives hc slack)
  have hsome : (pos : Int) < data.length ∨ reads ≠ [] := by
    refine (h.some hne).2.imp (fun hlt => by omega) fun hfrs hreads => hfrs ?_
    subst hreads
    cases hc
    rfl
  rw [if_neg hne]
  exact ⟨q, [], blocked_parses hq hsome⟩

theorem head_detected (hfits : HeadFits R l hs) (hok : ∀ h ∈ hs, h.LengthOk)
    (h : Fragmented R data pos frs text) (hpre : text <+: headBytes l hs ++ [CR, LF])
    (hshort : text.length < (headBytes l hs).length + 2) :
    TruncationDetected l data pos frs text := by
  by_cases hne : text = []
  · subst hne
    exact nothing_detected h
  obtain ⟨missing, hmissing⟩ := hpre
  have hmne : missing ≠ [] := by
    rintro rfl
    have hlen := congrArg List.length hmissing
    simp only [List.length_append, List.length_cons, List.length_nil] at hlen
    omega
  have hle := h.pos_le
  exact detected_of_blocked h hne fun pf cbs errno slack reads hcb harr =>
    head_blocks pf errno hcb hfits hok (h.some hne).1 hmissing hmne
      (show (pos : Int) ≤ data.length by omega) harr

theorem length_blocks (pf : Platform) {cbs : Callbacks} (errno : Int) {n : Nat} {s : Stream}
    (hcb : cbs.Succeeding) (hfits : HeadFits R l hs) (hlen : HasLength hs n) (hshort : T.length < n)
    (harr : Arrives R (headBytes l hs ++ CR :: LF :: T) s reads) :
    ∃ q, Returns (loopStep pf l.parse cbs) ⟨.top, .init s errno, reads⟩ (.blocked q) := by
  obtain ⟨p, reads', c, cs, hr, hblank, hfr, -⟩ := hlen.head pf errno hcb hfits harr
  have htotal := hblank.total
  obtain ⟨b, hb, hge⟩ : ∃ b : Nat, p.inp.pos + 2 = b ∧
      s.pos.toNat + (headBytes l hs).length + 2 ≤ b := by
    rcases hblank.body_start harr.pos_nonneg rfl with ⟨-, hpos⟩ | ⟨-, hpos⟩
    · exact ⟨_, hpos, by omega⟩
    · exact ⟨_, hpos, by omega⟩
  have hout := plain_outcome pf l.parse hcb hblank hfr hb
  rw [if_neg (by omega)] at hout
  obtain ⟨q, hq⟩ := hout
  exact ⟨q, hr.returns hq⟩

theorem chunked_ends (pf : Platform) {cbs : Callbacks} (errno : Int) (slack : List UInt8) {L : Prop}
    (hcb : cbs.Succeeding) (hfits : HeadFits R l hs) (hch : HasChunked hs)
    (hR : (R : Int) ≤ intMax)
    (hfrag : Fragmented R data pos frs (headBytes l hs ++ CR :: LF :: T))
    (hc : List.Forall₂ Carries frs reads) (hsizes : SizesFit R (bodyText l hs data pos frs T))
    (hkeep : L → pf.recycler = .keep)
    (hloud : L → Loud ⟨data, slack, pos⟩ (reads ++ [.fail parseEof])) :
    ∃ r q rest, Parses l pf cbs errno ⟨data, slack, pos⟩ (reads ++ [.fail parseEof])
        (.returned r q rest) ∧ EndsBody L (bodyText l hs data pos frs T) r := by
  have harr := hfrag.arrives hc slack
  obtain ⟨p, reads', c, cs, hr, hblank, hfr, -⟩ := hch.head pf errno hcb hfits harr
  have hr' := reaches_more [.fail parseEof] hr
  have hloud' : L → Loud p.inp (reads' ++ [.fail parseEof]) := fun hL =>
    loud_reaches (hkeep hL) hr' (hloud hL)
  have hcut : Cuts (Stream.eod ⟨data, slack, pos⟩) reads
      ((pos : Int) + (headBytes l hs).length + 1) ↔ CutInBlank l hs data pos frs :=
    cuts_of_carries hc _ _
  obtain ⟨st, hst, htext⟩ : ∃ st : Nat, p.inp.pos + 2 = st ∧
      (p.inp.data ++ pending reads').drop st = bodyText l hs data pos frs T := by
    unfold bodyText
    rcases hblank.body_start harr.pos_nonneg rfl with ⟨hyes, hpos⟩ | ⟨hno, hpos⟩
    · refine ⟨_, hpos, ?_⟩
      rw [if_pos (hcut.mp hyes), ← hblank.stream, List.drop_drop]
    · refine ⟨_, hpos, ?_⟩
      rw [if_neg fun h => hno (hcut.mpr h)]
      exact hblank.stream
  obtain ⟨r, q, rest, hret, hend⟩ := blank_ends (l := l) hcb hR hkeep hblank hfr hst
    (htext ▸ hsizes) hloud'
  rw [htext] at hend
  exact ⟨r, q, rest, parses_iff.mpr (hr'.returns hret), hend⟩

theorem chunked_truncation_iff {cs : List Chunk} (hfits : HeadFits R l hs) (hch : HasChunked hs)
    (hcf : ChunksFit R cs) (hmax : ∀ c ∈ cs, (c.data.length : Int) ≤ intMax)
    (hfrag : Fragmented R data pos frs (headBytes l hs ++ CR :: LF :: T))
    (hpre : T <+: chunkedBytes cs)
    (hsizes : CutInBlank l hs data pos frs → SizesFit R (T.drop 1)) :
    TruncationDetected l data pos frs (headBytes l hs ++ CR :: LF :: T) ↔
      Unfinished (bodyText l hs data pos frs T) := by
  have hR : (R : Int) ≤ intMax := by have := hfits.line; omega
  have hne : headBytes l hs ++ CR :: LF :: T ≠ [] := by simp
  have hbody : SizesFit R (bodyText l hs data pos frs T) := by
    unfold bodyText
    split
    · exact hsizes ‹_›
    · exact sizesFit_prefix hcf hmax hpre
  constructor
  · -- with a figure in the memory behind the data
    intro hdet
    have hcar : List.Forall₂ Carries frs (frs.map fun f => .bytes f [49]) :=
      List.forall₂_map_right_iff.mpr (List.forall₂_same.mpr fun f _ => ⟨[49], rfl⟩)
    have hloud : Loud ⟨data, [49], pos⟩
        ((frs.map fun f => .bytes f [49]) ++ [.fail parseEof]) := by
      refine ⟨rfl, fun bs slack hr => ?_⟩
      rcases List.mem_append.mp hr with hr | hr
      · obtain ⟨f, -, heq⟩ := List.mem_map.mp hr
        cases heq
        rfl
      · cases List.mem_singleton.mp hr
    obtain ⟨r, q, rest, hparse, hend⟩ := chunked_ends (L := True) .keeping 0 [49]
      Callbacks.accepting_succeeding hfits hch hR hfrag hcar hbody (fun _ => rfl) fun _ => hloud
    obtain ⟨q', rest', hparse'⟩ := hdet .keeping .accepting 0 [49] _
      Callbacks.accepting_succeeding hcar
    have hsame := Returns.unique (parses_iff.mp hparse) (parses_iff.mp hparse')
    rw [if_neg hne] at hsame
    cases hsame
    exact hend.only trivial rfl
  · intro hun pf cbs errno slack reads hcb hcar
    obtain ⟨r, q, rest, hparse, hend⟩ := chunked_ends (L := False) pf errno slack hcb hfits hch hR
      hfrag hcar hbody False.elim False.elim
    rw [if_neg hne, ← hend.detected hun]
    exact ⟨q, rest, hparse⟩

/-- **A message that breaks off is noticed, except where a chunked one passes
for complete**: when nothing but its last byte is missing, or when it is read
from one byte too far and does not seem to break off. -/
theorem truncation_detected_iff (l : FirstLine) (hs : List Header) (payload : Payload)
    (hfits : HeadFits R l hs) (hpay : payload.Framed R hs)
    (hfrag : Fragmented R data pos frs text) (hpre : text <+: messageBytes l hs payload)
    (hproper : text ≠ messageBytes l hs payload)
    (hsizes : ShiftedFits R l hs data pos frs text payload) :
    TruncationDetected l data pos frs text ↔
      StopsWhereAwaited l hs data pos frs text payload := by
  -- what has come ends inside the head, or `T` stands behind it
  have hsplit : messageBytes l hs payload = (headBytes l hs ++ [CR, LF]) ++ payload.bytes := by
    simp [messageBytes]
  by_cases hlong : (headBytes l hs).length + 2 ≤ text.length
  · obtain ⟨T, rfl, hT⟩ : ∃ T, text = headBytes l hs ++ CR :: LF :: T ∧ T <+: payload.bytes := by
      rw [hsplit] at hpre
      obtain ⟨T, hT⟩ := List.prefix_of_prefix_length_le (List.prefix_append _ _) hpre
        (by simpa using hlong)
      rw [← hT] at hpre
      exact ⟨T, by rw [← hT]; simp, (List.prefix_append_right_inj _).mp hpre⟩
    have hTne : T ≠ payload.bytes := fun h => hproper (by rw [h]; rfl)
    cases payload with
    | length body =>
        have hshort : T.length < body.length :=
          Nat.lt_of_le_of_ne hT.length_le fun h => hTne (hT.eq_of_length h)
        exact iff_of_true (detected_of_blocked hfrag (by simp) fun pf cbs errno slack reads hcb =>
          length_blocks pf errno hcb hfits hpay hshort) trivial
    | chunks cs =>
        obtain ⟨hch, hcf, hmax⟩ := hpay
        rw [chunked_truncation_iff hfits hch hcf hmax hfrag hT (hsizes T rfl)]
        have hun := unfinished_prefix hmax hT
        constructor
        · intro h T' heq
          obtain rfl : T = T' := by simpa using heq
          unfold bodyText at h
          exact ⟨fun hno => hun.mp (by rwa [if_neg hno] at h), fun hyes => by
            rwa [if_pos hyes] at h⟩
        · intro h
          unfold bodyText
          split
          · exact (h T rfl).2 ‹_›
          · exact hun.mpr ((h T rfl).1 ‹_›)
  · refine iff_of_true (head_detected hfits hpay.lengthOk hfrag ?_ (by omega)) ?_
    · refine List.prefix_of_prefix_length_le hpre (hsplit ▸ List.prefix_append _ _) ?_
      simp only [List.length_append, List.length_cons, List.length_nil]
      omega
    · cases payload with
      | length body => trivial
      | chunks cs =>
          rintro T rfl
          simp only [List.length_append, List.length_cons] at hlong
          omega

end

/-! ### Two messages that break off -/

/-- What a call has returned. -/
def Outcome.result : Outcome → Option Res
  | .returned r _ _ => some r
  | .blocked _ => none

/-- Inside the data of a chunk. -/
theorem truncation_detected_in_chunk :
    TruncationDetected (.request .getRoot) [] 0
      [ascii "GET / HTTP/1.1\r\nTransfer-Encoding: chunked\r\n\r\n3\r", ascii "\nxy"]
      (ascii "GET / HTTP/1.1\r\nTransfer-Encoding: chunked\r\n\r\n3\r\nxy") := by
  refine (truncation_detected_iff (R := 64) _ [.chunkedEncoding] (.chunks [.xyz])
    ⟨by decide, by decide⟩ ⟨hasChunked_chunkedEncoding, ⟨by decide, by decide⟩, by decide⟩
    ⟨by decide, by decide, by decide, by decide⟩ (by decide) (by decide)
    fun _ _ hcut => absurd hcut (by decide)).mpr fun T heq => ⟨fun _ => ?_, fun hcut => ?_⟩
  · have htext : ascii "GET / HTTP/1.1\r\nTransfer-Encoding: chunked\r\n\r\n3\r\nxy" =
        headBytes (.request .getRoot) [.chunkedEncoding] ++ CR :: LF :: ascii "3\r\nxy" := by decide
    obtain rfl : ascii "3\r\nxy" = T := by simpa using htext.symm.trans heq
    decide
  · exact absurd hcut (by decide)

/-- A message without chunks, and without its last byte. -/
theorem truncation_without_last_byte :
    Payload.Framed 64 [.chunkedEncoding] (.chunks []) ∧
      Fragmented 64 [] 0
        [ascii "GET / HTTP/1.1\r\nTransfer-Encoding: chunked\r\n\r\n0\r\n\r"]
        (ascii "GET / HTTP/1.1\r\nTransfer-Encoding: chunked\r\n\r\n0\r\n\r") ∧
      ascii "GET / HTTP/1.1\r\nTransfer-Encoding: chunked\r\n\r\n0\r\n\r" ++ [LF] =
        messageBytes (.request .getRoot) [.chunkedEncoding] (.chunks []) ∧
      ¬ TruncationDetected (.request .getRoot) [] 0
        [ascii "GET / HTTP/1.1\r\nTransfer-Encoding: chunked\r\n\r\n0\r\n\r"]
        (ascii "GET / HTTP/1.1\r\nTransfer-Encoding: chunked\r\n\r\n0\r\n\r") := by
  refine ⟨⟨hasChunked_chunkedEncoding, ⟨by decide, by decide⟩, by decide⟩,
    ⟨by decide, by decide, by decide, by decide⟩, by decide, fun hdet => ?_⟩
  obtain ⟨q, rest, hparse⟩ := hdet .keeping .accepting 0 [] _ Callbacks.accepting_succeeding
    (.cons ⟨[], rfl⟩ .nil)
  rw [if_neg (by decide)] at hparse
  obtain ⟨out, hout, hres⟩ := Option.bind_eq_some_iff.mp
    (show ((FirstLine.request .getRoot).httpParse .keeping .accepting 20 (.init ⟨[], [], 0⟩ 0)
      [.bytes (ascii "GET / HTTP/1.1\r\nTransfer-Encoding: chunked\r\n\r\n0\r\n\r") [],
        .fail parseEof]).bind Outcome.result = some .ok by decide +kernel)
  cases Returns.unique (parses_iff.mp hparse) (parses_iff.mp ⟨20, hout⟩)
  cases hres

end MnHttp
