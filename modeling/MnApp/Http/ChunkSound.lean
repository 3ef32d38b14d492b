/-
# `MnApp.Http.ChunkSound` — what a chunked message was when the parser returns 0

The other direction of `MnApp.Http.ChunkedFraming`: nothing is known of the
stream, a call has returned 0 with the chunked flag set, and the question is
what the body must have been.

    `head_exists`     the stream starts with a head and an empty line
    `head_passes`     and the loop has come to that line (`MnApp.Http.RawHead`)
    `body_decodes`    from there on it took the text apart into pieces, one
                      call of `body_cb` for the data of each (`Decoded`)
    `chunked_sound_iff`   so the body was in strict form exactly when the
                      pieces are clean (`MnApp.Http.ChunkText`)

The body starts behind the empty line, or one byte further when a read ended
inside that line; both are in the statement.

**Sizes.**  Reads of at most `R` bytes, and no line of the stream so long
that a scan over it and one read would not fit in an `int`.
-/
import MnApp.Http.ChunkText
import MnApp.Http.Framing
import MnApp.Http.RawHead

namespace MnHttp

open CLib Loop

/-- No line of the text is too long to be scanned with a read behind it. -/
def LinesFit (R : Nat) (text : List UInt8) : Prop :=
  ∀ before line behind, text = before ++ (line ++ CR :: LF :: behind) → NoCrlf line →
    (line.length : Int) + 1 + R ≤ intMax

theorem LinesFit.suffix {R : Nat} {a b : List UInt8} (h : LinesFit R (a ++ b)) : LinesFit R b := by
  rintro before line behind rfl hl
  exact h (a ++ before) line behind (by simp) hl

theorem LinesFit.drop {R : Nat} {a : List UInt8} (h : LinesFit R a) (n : Nat) :
    LinesFit R (a.drop n) := by
  rw [← List.take_append_drop n a] at h
  exact h.suffix

theorem firstCrlf_take_none {l : List UInt8} (h : firstCrlf l = none) (k : Nat) :
    firstCrlf (l.take k) = none := by
  cases hk : firstCrlf (l.take k) with
  | none => rfl
  | some n =>
      obtain ⟨rest, heq, -, hno⟩ := firstCrlf_eq_some hk
      have hl : l = (l.take k).take n ++ CR :: LF :: (rest ++ l.drop k) := by
        conv_lhs => rw [← List.take_append_drop k l, heq]
        simp
      rw [hl, firstCrlf_line hno] at h
      cases h

/-! ## Inside the body -/

/-- Before a size line, or inside it; `rest` is the text from its start on. -/
structure SizeInv (R st : Nat) (z : Int) (rest : List UInt8) (p : Parser) (reads : List Read) :
    Prop where
  size : SizeAt st z p
  le : (st : Int) ≤ p.inp.eod + 2
  stream : (p.inp.data ++ pending reads).drop st = rest
  small : SmallReads R reads
  fits : LinesFit R rest
  room : ∀ line more, rest = line ++ CR :: LF :: more → NoCrlf line →
    Room R line.length st p.inp

/-- Inside the data of a chunk; `more` is the text from its start on. -/
structure DataInv (R b v : Nat) (z : Int) (more : List UInt8) (p : Parser) (reads : List Read) :
    Prop where
  data : DataAt b v z p
  pos_le : p.inp.pos ≤ p.inp.eod
  stream : (p.inp.data ++ pending reads).drop b = more
  small : SmallReads R reads
  fits : LinesFit R more
  bounded : p.inp.eod - p.inp.pos ≤ R

/-- In one of the two, with `rest` from the start of the chunk on. -/
inductive BodyInv (R : Nat) (rest : List UInt8) (p : Parser) (reads : List Read) : Prop
  | size (st : Nat) (z : Int) (inv : SizeInv R st z rest p reads)
  | data (line more : List UInt8) (b v : Nat) (z : Int) (text : rest = line ++ CR :: LF :: more)
      (noCrlf : NoCrlf line) (value : sizeOf line = v) (inv : DataInv R b v z more p reads)

section
variable {R st b v : Nat} {z : Int} {rest more : List UInt8} {p : Parser} {reads : List Read}

theorem BodyInv.consume {bs slack : List UInt8} (hm : p.inp.eod ≤ p.inp.pos)
    (h : BodyInv R rest p (.bytes bs slack :: reads)) :
    BodyInv R rest { p with inp := p.inp.consume bs slack } reads := by
  have heod : (p.inp.consume bs slack).eod = p.inp.eod + bs.length := Stream.eod_consume _ _ _
  have hpend : ∀ n, ((p.inp.consume bs slack).data ++ pending reads).drop n =
      (p.inp.data ++ pending (.bytes bs slack :: reads)).drop n := by
    intro n
    simp [Read.payload]
  cases h with
  | size st z inv =>
      have hbs : bs.length ≤ R := inv.small _ List.mem_cons_self
      have hle := inv.le
      refine .size st z ⟨⟨inv.size.chunked, inv.size.state, inv.size.start, inv.size.bodysz⟩,
        by simp only [heod]; omega, (hpend st).trans inv.stream, inv.small.tail, inv.fits,
        fun line more heq hl => (inv.room line more heq hl).consume hbs hm⟩
  | data line more b v z text noCrlf value inv =>
      have hbs : bs.length ≤ R := inv.small _ List.mem_cons_self
      have hle := inv.pos_le
      have hd := inv.data
      refine .data line more b v z text noCrlf value
        ⟨⟨hd.chunked, hd.state, hd.size, hd.start, hd.stop, hd.le_pos, hd.pos_le, hd.bodysz⟩,
        ?_, (hpend b).trans inv.stream, inv.small.tail, inv.fits, ?_⟩
      · show p.inp.pos ≤ (p.inp.consume bs slack).eod
        rw [heod]; omega
      · show (p.inp.consume bs slack).eod - p.inp.pos ≤ R
        rw [heod]; omega

variable (rc : Recycler) (cb : Option Callback) (k : Nat)

theorem SizeInv.wait (h : SizeInv R st z rest p reads)
    (hnone : findcrlf (p.inp.mem st) (toInt (p.inp.eod - st)) = none) :
    SizeInv R st z rest { p.toEod with ctx := { p.ctx with parserState := .body } } reads where
  size := ⟨h.size.chunked, h.size.state, h.size.start, h.size.bodysz⟩
  le := h.le
  stream := h.stream
  small := h.small
  fits := h.fits
  room line more heq hl :=
    ((h.room line more heq hl).wait (h.fits [] line more heq hl) hl (h.stream.trans heq) h.le
      hnone).2

theorem SizeInv.found {n : Nat} (h : SizeInv R st z rest p reads)
    (hf : findcrlf (p.inp.mem st) (toInt (p.inp.eod - st)) = some n) :
    ∃ line more, rest = line ++ CR :: LF :: more ∧ NoCrlf line ∧ n = line.length ∧
      (st : Int) + line.length + 2 ≤ p.inp.eod := by
  have hst := findcrlf_le h.le hf
  cases hfirst : firstCrlf rest with
  | none =>
      -- the window is a part of what is to come
      exfalso
      have hle : toInt (p.inp.eod - st) ≤ p.inp.eod - st := toInt_le (by omega)
      have hst' : st ≤ p.inp.data.length := by unfold Stream.eod at hst; omega
      have hwin : (p.inp.mem st).take (toInt (p.inp.eod - st)).toNat =
          rest.take (toInt (p.inp.eod - st)).toNat := by
        have hk : (toInt (p.inp.eod - st)).toNat ≤ (p.inp.data.drop st).length := by
          rw [List.length_drop]
          unfold Stream.eod at *
          omega
        rw [← h.stream, List.drop_append_of_le_length hst', Stream.mem, Int.toNat_natCast,
          List.drop_append_of_le_length hst', List.take_append_of_le_length hk,
          List.take_append_of_le_length hk]
      unfold findcrlf at hf
      rw [hwin, firstCrlf_take_none hfirst] at hf
      cases hf
  | some m =>
      obtain ⟨more, heq, -, hno⟩ := firstCrlf_eq_some hfirst
      obtain ⟨hn, hcomplete⟩ := findcrlf_some hno (h.stream.trans heq) h.le hf
      exact ⟨_, more, heq, hno, hn, hcomplete⟩

theorem size_iter (h : SizeInv R st z rest p reads) :
    (∀ q, bodyIter rc cb k p = .again q → BodyInv R rest q reads ∧ q.calls = p.calls) ∧
      ∀ q, bodyIter rc cb k p ≠ .ret .ok q := by
  cases hf : findcrlf (p.inp.mem st) (toInt (p.inp.eod - st)) with
  | none =>
      have hiter := bodyIter_size_wait rc cb h.size k hf
      rw [hiter]
      refine ⟨?_, fun _ h => (by cases h)⟩
      rintro q hq
      cases hq
      exact ⟨.size st z (h.wait hf), rfl⟩
  | some n =>
      obtain ⟨line, more, heq, hl, rfl, hcomplete⟩ := h.found hf
      by_cases hacc : (strtol (p.inp.mem st) 16).len = line.length ∧
          0 ≤ toInt (strtol (p.inp.mem st) 16).val
      · obtain ⟨hlen, hval⟩ := hacc
        obtain ⟨v, hv⟩ := Int.eq_ofNat_of_zero_le hval
        obtain ⟨q, hiter, hdata, -, hinp, hcalls⟩ := bodyIter_size_accept rc cb h.size k hf hlen hv
        rw [hiter]
        refine ⟨?_, fun _ h => (by cases h)⟩
        rintro q' hq
        cases hq
        obtain ⟨behind, hmem⟩ := mem_of_complete (h.stream.trans heq) hcomplete
        rw [hmem] at hlen hv
        have hroom := (h.room line more heq hl).eod_le
        have hpos : q.inp.pos = (st : Int) + line.length + 2 := by
          rw [hinp, Stream.pos_advance]; omega
        have heod : q.inp.eod = p.inp.eod := by rw [hinp]; rfl
        have hmore : LinesFit R more := by
          have := h.fits
          rw [heq, show line ++ CR :: LF :: more = (line ++ [CR, LF]) ++ more by simp] at this
          exact this.suffix
        refine ⟨.data line more _ v _ heq hl (sizeOf_eq hlen hv)
          ⟨hdata, by omega, ?_, h.small, hmore, by omega⟩, hcalls⟩
        have hdata' : q.inp.data = p.inp.data := by rw [hinp]; rfl
        rw [hdata', Nat.add_assoc, ← List.drop_drop, h.stream, heq,
          show line ++ CR :: LF :: more = (line ++ [CR, LF]) ++ more by simp,
          List.drop_left' (by simp)]
      · have hbad : (strtol (p.inp.mem st) 16).len ≠ line.length ∨
            toInt (strtol (p.inp.mem st) 16).val < 0 := by
          by_cases hlen : (strtol (p.inp.mem st) 16).len = line.length
          · exact .inr (by
              by_contra hneg
              exact hacc ⟨hlen, by omega⟩)
          · exact .inl hlen
        obtain ⟨q, hiter⟩ := bodyIter_size_reject rc cb h.size k hf hbad
        rw [hiter]
        exact ⟨fun _ h => (by cases h), fun _ h => (by cases h)⟩

/-- The calls that are made of these: all of them, if there is a callback. -/
def made (cb : Option Callback) (cs : List Call) : List Call := if cb.isSome then cs else []

theorem made_append (cb : Option Callback) (cs ds : List Call) :
    made cb (cs ++ ds) = made cb cs ++ made cb ds := by
  cases cb <;> rfl

theorem callback_made (p : Parser) (kind : CallKind) (cb : Option Callback) :
    (p.callback kind cb).2.calls = p.calls ++ made cb [⟨kind, p.ctx, p.inp⟩] := by
  cases cb with
  | none => exact (List.append_nil _).symm
  | some f => rfl

theorem data_iter {line : List UInt8} (hR : (R : Int) ≤ intMax)
    (h : DataInv R b v z more p reads) (hl : NoCrlf line) (hv : sizeOf line = v) :
    (∀ q, bodyIter rc cb k p = .again q →
      (BodyInv R (line ++ CR :: LF :: more) q reads ∧ q.calls = p.calls) ∨
      ∃ c, 0 < v ∧ v ≤ more.length ∧ q.calls = p.calls ++ made cb [c] ∧
        ChunkCall (more.take v) c ∧ BodyInv R ((more.drop v).drop 2) q reads) ∧
    ∀ q, bodyIter rc cb k p = .ret .ok q →
      ∃ c, v = 0 ∧ q.calls = p.calls ++ made cb [c] ∧ ChunkCall [] c ∧
        StandsAt (more.drop 2) q.inp reads ∧ q.inp.left reads = more.length - 2 := by
  have hmax : (v : Int) ≤ intMax := hv ▸ sizeOf_le line
  have hpe := h.pos_le
  have hb := h.bounded
  have hle := h.data.pos_le
  by_cases hlt : p.inp.pos < b + v
  · obtain ⟨q, hiter, hdata, -, hinp, hcalls⟩ :=
      bodyIter_data_more rc cb h.data k hlt hmax hpe (by omega)
    rw [hiter]
    refine ⟨?_, fun _ h => (by cases h)⟩
    rintro q' hq
    cases hq
    have hpos : q.inp.pos = min ((b : Int) + v) p.inp.eod := by
      rw [hinp, Stream.pos_advance]; omega
    have heod : q.inp.eod = p.inp.eod := by rw [hinp]; rfl
    have hdata' : q.inp.data = p.inp.data := by rw [hinp]; rfl
    exact .inl ⟨.data line more b v z rfl hl hv
      ⟨hdata, by omega, by rw [hdata']; exact h.stream, h.small, h.fits, by omega⟩, hcalls⟩
  · have hpos : p.inp.pos = b + v := by omega
    have hlen : v ≤ more.length := by
      rw [← h.stream, List.length_drop, List.length_append]
      unfold Stream.eod at hpe
      omega
    have hcall : ChunkCall (more.take v) ⟨.body, p.ctx, p.inp⟩ :=
      h.data.chunkCall hpos hpe (h.stream.trans (List.take_append_drop v more).symm)
        (List.length_take_of_le hlen)
    obtain ⟨hbad, hgood⟩ := bodyIter_data_end rc cb h.data k hpos
    by_cases hr : (p.callback .body cb).1 = 0
    · obtain ⟨q, st, hiter, hskip, hcalls⟩ := hgood hr
      have heod := hskip.eod
      have hqpos := hskip.pos
      have hrest : (q.inp.data ++ pending reads).drop st = (more.drop v).drop 2 := by
        rw [hskip.stream, List.drop_drop, ← h.stream, List.drop_drop]
        congr 1
      have hcalls' := hcalls.trans (callback_made p .body cb)
      rw [hiter]
      by_cases hv0 : 0 < v
      · rw [if_pos hv0]
        refine ⟨?_, fun _ h => (by cases h)⟩
        rintro q' hq
        cases hq
        refine .inr ⟨_, hv0, hlen, hcalls', hcall, .size st z ⟨hskip.size, by omega, hrest, h.small,
          (h.fits.drop v).drop 2, fun line more _ _ => ⟨by omega, by omega⟩⟩⟩
      · rw [if_neg hv0]
        refine ⟨fun _ h => (by cases h), ?_⟩
        rintro q' hq
        cases hq
        have hv0' : v = 0 := by omega
        subst hv0'
        refine ⟨_, rfl, hcalls', hcall, ⟨by omega, ?_⟩, ?_⟩
        · rw [hqpos, Int.toNat_natCast, hrest]
          rfl
        · have hmore := congrArg List.length h.stream
          rw [List.length_drop, List.length_append] at hmore
          unfold Stream.left
          rw [List.length_append]
          unfold Stream.eod at hpe heod
          omega
    · obtain ⟨q, hiter⟩ := hbad hr
      rw [hiter]
      exact ⟨fun _ h => (by cases h), fun _ h => (by cases h)⟩

end

/-- The text was read to its end, with one call for the data of each piece. -/
def Ends (cb : Option Callback) (q : Parser) (reads : List Read) (calls : List Call)
    (text : List UInt8) : Prop :=
  ∃ ps tail more, Decoded text ps tail ∧ q.calls = calls ++ made cb more ∧
    List.Forall₂ ChunkCall (ps.map Piece.data) more ∧ StandsAt tail q.inp reads ∧
    q.inp.left reads = text.length - span ps

section
variable {R : Nat} {rest : List UInt8} {p q : Parser} {reads reads' : List Read}
variable {cb : Option Callback}

theorem body_iter_ret (rc : Recycler) (k : Nat) (hR : (R : Int) ≤ intMax)
    (h : BodyInv R rest p reads) (hret : bodyIter rc cb k p = .ret .ok q) :
    Ends cb q reads p.calls rest := by
  cases h with
  | size st z inv => exact absurd hret ((size_iter rc cb k inv).2 q)
  | data line more b v z text hl hv inv =>
      obtain ⟨c, rfl, hcalls, hcall, hstands, hleft⟩ := (data_iter rc cb k hR inv hl hv).2 q hret
      subst text
      refine ⟨_, _, [c], .last hl hv, hcalls, .cons hcall .nil, hstands, ?_⟩
      simp only [span, List.length_append, List.length_cons, List.length_nil]
      omega

theorem body_iter_again (rc : Recycler) (k : Nat) (hR : (R : Int) ≤ intMax)
    (h : BodyInv R rest p reads) {p' : Parser} (hiter : bodyIter rc cb k p = .again p')
    (hends : ∀ text, BodyInv R text p' reads → Ends cb q reads' p'.calls text) :
    Ends cb q reads' p.calls rest := by
  cases h with
  | size st z inv =>
      obtain ⟨hinv, hcalls⟩ := (size_iter rc cb k inv).1 p' hiter
      rw [← hcalls]
      exact hends rest hinv
  | data line more b v z text hl hv inv =>
      subst text
      rcases (data_iter rc cb k hR inv hl hv).1 p' hiter with
        ⟨hinv, hcalls⟩ | ⟨c, hv0, hlen, hcalls, hcall, hinv⟩
      · rw [← hcalls]
        exact hends _ hinv
      · obtain ⟨ps, tail, calls, hdec, hq, hall, hstands, hleft⟩ := hends _ hinv
        have htake : (more.take v).length = v := List.length_take_of_le hlen
        have hne : more.take v ≠ [] := fun h0 => by
          rw [h0, List.length_nil] at htake
          omega
        have hdec' : Decoded (line ++ CR :: LF :: (more.take v ++ more.drop v))
            (⟨line, more.take v, (more.drop v).take 2⟩ :: ps) tail :=
          .chunk hl (by rw [hv, htake]) hne hdec
        rw [List.take_append_drop] at hdec'
        refine ⟨_, tail, c :: calls, hdec', ?_, .cons hcall hall, hstands, ?_⟩
        · rw [hq, hcalls, List.append_assoc, ← made_append]
          rfl
        · -- there is more text behind the two bytes
          have hpos := List.length_pos_iff.mpr hdec.text_ne_nil
          rw [List.drop_drop, List.length_drop] at hpos hleft
          simp only [span, List.length_append, List.length_cons, htake]
          omega

/-- **The rest of a run in the body**: the text was read to its end. -/
theorem body_decodes {pf : Platform} {parseLine : Parser → Res × Parser} {cbs : Callbacks}
    (hR : (R : Int) ≤ intMax) {t : LoopState} (hs : t.par.ctx.parserState = .body)
    (hret : Returns (loopStep pf parseLine cbs) t (.returned .ok q reads')) :
    ∀ rest, BodyInv R rest t.par t.reads → Ends cbs.body q reads' t.par.calls rest := by
  refine Returns.rec_run (P := fun t => t.par.ctx.parserState = .body →
    ∀ rest, BodyInv R rest t.par t.reads → Ends cbs.body q reads' t.par.calls rest) ?_ ?_ hret hs
  · rintro ⟨pc, p, reads⟩ hdone hs rest h
    cases pc with
    | top =>
        simp only [loopStep] at hdone
        split at hdone
        · split at hdone
          · cases hdone
          · cases hdone
          · simp only [Next.done.injEq, Outcome.returned.injEq] at hdone
            split at hdone
            · cases hdone.1
            · cases hdone.1
        · cases hdone
    | dispatch =>
        simp only [loopStep, dispatch_body hs] at hdone
        split at hdone
        · cases hdone
        · rename_i heq
          cases hdone
          exact body_iter_ret _ _ hR h heq
  · rintro ⟨pc, p, reads⟩ t' hstep _ ih hs rest h
    cases pc with
    | top =>
        simp only [loopStep] at hstep
        split at hstep
        · rename_i hm
          have hmore : p.inp.eod ≤ p.inp.pos := by simpa [Stream.needMore] using hm
          split at hstep
          · cases hstep
          · cases hstep
            exact ih hs rest (h.consume hmore)
          · cases hstep
        · cases hstep
          exact ih hs rest h
    | dispatch =>
        simp only [loopStep, dispatch_body hs] at hstep
        split at hstep
        · rename_i heq
          cases hstep
          exact body_iter_again _ _ hR h heq (ih (bodyIter_state heq))
        · cases hstep

end

/-! ## The head of any stream -/

section
variable {pf : Platform} {parseLine : Parser → Res × Parser} {cbs : Callbacks}
variable {t : LoopState} {r : Res} {q : Parser} {reads : List Read}

/-- A call that returns leaves the reads it did not need. -/
theorem returns_suffix (h : Returns (loopStep pf parseLine cbs) t (.returned r q reads)) :
    reads <:+ t.reads := by
  refine Returns.rec_run (P := fun t => reads <:+ t.reads) ?_ ?_ h
  · intro t hdone
    cases loopStep_done_iff.mp hdone with
    | fail => exact List.suffix_cons _ _
    | ret => exact List.suffix_rfl
  · intro t t' hstep _ ih
    cases loopStep_again_iff.mp hstep with
    | read => exact ih.trans (List.suffix_cons _ _)
    | look => exact ih
    | pass => exact ih

theorem again_more (more : List Read) {t' : LoopState}
    (h : loopStep pf parseLine cbs t = .again t') :
    loopStep pf parseLine cbs { t with reads := t.reads ++ more } =
      .again { t' with reads := t'.reads ++ more } := by
  apply loopStep_again_iff.mpr
  cases loopStep_again_iff.mp h with
  | read hmore => exact .read hmore
  | look hlt => exact .look hlt
  | pass hagain => exact .pass hagain

theorem returns_more (more : List Read)
    (h : Returns (loopStep pf parseLine cbs) t (.returned r q reads)) :
    Returns (loopStep pf parseLine cbs) { t with reads := t.reads ++ more }
      (.returned r q (reads ++ more)) := by
  refine Returns.rec_run (P := fun t => Returns (loopStep pf parseLine cbs)
    { t with reads := t.reads ++ more } (.returned r q (reads ++ more))) ?_ ?_ h
  · intro t hdone
    apply Returns.of_done
    apply loopStep_done_iff.mpr
    cases loopStep_done_iff.mp hdone with
    | fail hmore => exact .fail hmore
    | ret hret => exact .ret hret
  · intro t t' hstep _ ih
    exact .of_again (again_more more hstep) ih

/-- A call that waits for a read goes on with whatever comes. -/
theorem blocked_reaches (more : List Read)
    (h : Returns (loopStep pf parseLine cbs) t (.blocked q)) :
    Reaches (loopStep pf parseLine cbs) { t with reads := t.reads ++ more } ⟨.top, q, more⟩ ∧
      q.inp.eod ≤ q.inp.pos := by
  refine Returns.rec_run (P := fun t => Reaches (loopStep pf parseLine cbs)
    { t with reads := t.reads ++ more } ⟨.top, q, more⟩ ∧ q.inp.eod ≤ q.inp.pos) ?_ ?_ h
  · intro t hdone
    cases loopStep_done_iff.mp hdone with
    | blocked hmore => exact ⟨.refl _, hmore⟩
  · intro t t' hstep _ ih
    exact ⟨.head (again_more more hstep) ih.1, ih.2⟩

end

/-- Header lines and the empty line behind them; or all of them up to where
the text breaks off, which something more would complete. -/
theorem lines_exist : ∀ (n : Nat) (text : List UInt8), text.length ≤ n →
    ∃ more ls behind, (∀ l ∈ ls, NoCrlf l ∧ l ≠ []) ∧
      text ++ more = rawLines ls ++ CR :: LF :: behind ∧
      (more = [] ∨ text.length < (rawLines ls).length + 2) := by
  have hstop : ∀ text, firstCrlf text = none →
      ∃ more ls behind, (∀ l ∈ ls, NoCrlf l ∧ l ≠ []) ∧
        text ++ more = rawLines ls ++ CR :: LF :: behind ∧
        (more = [] ∨ text.length < (rawLines ls).length + 2) := by
    intro text hnone
    by_cases hne : text = []
    · exact ⟨crlf, [], [], fun _ h => absurd h List.not_mem_nil, by rw [hne]; rfl,
        .inr (by simp [hne])⟩
    · refine ⟨crlf ++ crlf, [text], [], ?_, by simp [rawLines, crlf], .inr ?_⟩
      · intro l hl
        cases List.mem_singleton.mp hl
        exact ⟨hnone, hne⟩
      · simp only [rawLines, List.flatMap_cons, List.flatMap_nil, List.append_nil,
          List.length_append]
        omega
  intro n
  induction n with
  | zero =>
      intro text hlen
      exact hstop text (by rw [List.length_eq_zero_iff.mp (Nat.le_zero.mp hlen)]; rfl)
  | succ n ih =>
      intro text hlen
      cases hfirst : firstCrlf text with
      | none => exact hstop text hfirst
      | some m =>
          obtain ⟨rest, heq, hm, hno⟩ := firstCrlf_eq_some hfirst
          generalize text.take m = line at heq hm hno
          by_cases hline : line = []
          · exact ⟨[], [], rest, fun _ h => absurd h List.not_mem_nil,
              by rw [List.append_nil, heq, hline]; rfl, .inl rfl⟩
          · have hrest : rest.length ≤ n := by
              rw [heq] at hlen
              simp only [List.length_append, List.length_cons] at hlen
              omega
            obtain ⟨more, ls, behind, hok, htext, hshort⟩ := ih rest hrest
            refine ⟨more, line :: ls, behind, ?_, ?_, ?_⟩
            · intro l hl
              rcases List.mem_cons.mp hl with rfl | hl
              · exact ⟨hno, hline⟩
              · exact hok l hl
            · rw [heq]
              simp only [rawLines, List.flatMap_cons] at htext ⊢
              simp [crlf, htext]
            · rcases hshort with h | h
              · exact .inl h
              · right
                rw [heq]
                simp only [rawLines, List.flatMap_cons, List.length_append, List.length_cons, crlf,
                  List.length_nil] at h ⊢
                omega

theorem rawHead_exists (text : List UInt8) :
    ∃ (more : List UInt8) (H : RawHead) (Y : List UInt8), text ++ more = H.bytes ++ CR :: LF :: Y ∧
      (more = [] ∨ text.length < H.bytes.length + 2) := by
  cases hfirst : firstCrlf text with
  | none =>
      refine ⟨crlf ++ crlf, ⟨text, [], hfirst, fun _ h => absurd h List.not_mem_nil⟩, [], ?_,
        .inr ?_⟩
      · simp [RawHead.bytes, rawLines, crlf]
      · simp only [RawHead.bytes, List.length_append]
        omega
  | some m =>
      obtain ⟨rest, heq, -, hno⟩ := firstCrlf_eq_some hfirst
      generalize text.take m = line at heq hno
      obtain ⟨more, ls, behind, hok, htext, hshort⟩ := lines_exist rest.length rest (Nat.le_refl _)
      refine ⟨more, ⟨line, ls, hno, hok⟩, behind, ?_, ?_⟩
      · rw [heq]
        simp [RawHead.bytes, crlf, htext]
      · rcases hshort with h | h
        · exact .inl h
        · right
          rw [heq]
          simp only [RawHead.bytes, List.length_append, List.length_cons, crlf,
            List.length_nil] at h ⊢
          omega

theorem pending_append (a b : List Read) : pending (a ++ b) = pending a ++ pending b :=
  List.flatMap_append

/-- **A stream on which a call returns 0 starts with a head.**  Otherwise give
the call one more read, which completes a head: it would return 0 all the
same, without having come to the empty line. -/
theorem head_exists {pf : Platform} {l : FirstLine} {cbs : Callbacks} {errno : Int} {s : Stream}
    {reads reads' : List Read} {q : Parser} (h0 : 0 ≤ s.pos) (hle : s.pos ≤ s.eod + 2)
    (hret : Returns (loopStep pf l.parse cbs) ⟨.top, .init s errno, reads⟩
      (.returned .ok q reads')) :
    ∃ (H : RawHead) (Y : List UInt8),
      (s.data ++ pending reads).drop s.pos.toNat = H.bytes ++ CR :: LF :: Y := by
  obtain ⟨more, H, Y, heq, hshort⟩ := rawHead_exists ((s.data ++ pending reads).drop s.pos.toNat)
  rcases hshort with rfl | hshort
  · exact ⟨H, Y, by rw [← heq, List.append_nil]⟩
  exfalso
  generalize hpad : List.replicate (s.pos.toNat - (s.data ++ pending reads).length) NUL = pad
  have hpadlen : pad.length = s.pos.toNat - (s.data ++ pending reads).length := by
    rw [← hpad, List.length_replicate]
  have hret' := returns_more [.bytes (pad ++ more) []] hret
  have hstream : (s.data ++ pending (reads ++ [.bytes (pad ++ more) []])).drop s.pos.toNat =
      H.bytes ++ CR :: LF :: Y := by
    rw [← heq, pending_append]
    simp only [pending_cons, Read.payload, pending_nil, List.append_nil]
    rw [← List.append_assoc]
    generalize s.data ++ pending reads = A at hpadlen ⊢
    rw [List.drop_append, List.drop_append, List.drop_eq_nil_of_le (by omega : pad.length ≤ _),
      Nat.sub_eq_zero_of_le (by omega : s.pos.toNat - A.length ≤ pad.length)]
    rfl
  have hinv : HeadInv H Y (s.pos.toNat + H.bytes.length) 0 (fun _ => True) False False
      ⟨.top, .init s errno, reads ++ [.bytes (pad ++ more) []]⟩ :=
    ⟨.start s.pos.toNat rfl (by show s.pos = _; omega) (by show _ ≤ s.eod + 2; omega)
        ⟨hstream, rfl⟩ False.elim,
      trivial, fun c hc => absurd hc List.not_mem_nil, False.elim, False.elim⟩
  have hkeep : KeepsFraming (fun _ => True) H.lines := fun _ _ _ _ _ _ _ _ _ _ _ _ _ => trivial
  obtain ⟨p, reads₁, hblank, hret₁⟩ := head_passes pf l cbs hkeep False.elim hinv hret'
  -- the added read was not needed, so what was there before it reaches behind the empty line
  obtain ⟨used, hused⟩ := returns_suffix hret₁
  have hreads₁ : reads₁ = used ++ (reads' ++ [.bytes (pad ++ more) []]) := hused.symm
  have hpend : (pad ++ more).length ≤ (pending reads₁).length := by
    rw [hreads₁, pending_append, pending_append]
    simp only [pending_cons, Read.payload, pending_nil, List.append_nil, List.length_append]
    omega
  have hY := congrArg List.length hblank.stream
  have htotal := congrArg List.length heq
  have hcomplete := hblank.complete
  simp only [List.length_drop, List.length_append, List.length_cons]
    at hY htotal hpend hshort hpadlen
  unfold Stream.eod at hcomplete
  omega

/-! ## The chunked flag -/

/-- A flag that is set is set together with the chunk state. -/
def ChunkedReady (f : Framing) : Prop := f.chunked = true → f.chunkState = .size

theorem keepsFraming_ready (ls : List (List UInt8)) : KeepsFraming ChunkedReady ls := by
  rintro ln - nullOff p q st c behind - - - hF hproc
  have hF' : ChunkedReady
      (headerLine nullOff ((st : Int) + ln.length) ((st : Int) + c) p).ctx.framing := hF
  generalize headerLine nullOff ((st : Int) + ln.length) ((st : Int) + c) p = p₁ at hF' hproc
  unfold processHeader at hproc
  simp only at hproc
  split at hproc
  · split at hproc
    · cases hproc
    · cases hproc
      exact hF'
  · split at hproc
    · split at hproc
      · cases hproc
      · split at hproc
        · cases hproc
          exact fun _ => rfl
        · cases hproc
          exact hF'
    · cases hproc
      exact hF'

theorem processBody_flag (rc : Recycler) (cb : Option Callback) (p : Parser) :
    (processBody rc cb p).2.ctx.flagChunked = p.ctx.flagChunked := by
  have hcb : ∀ x : Parser, (x.callback .body cb).2.ctx.flagChunked = x.ctx.flagChunked :=
    fun x => by rw [(callback_frame .body cb).1]
  cases processBody_frame rc cb p with
  | read on => exact on.flagChunked
  | call on after =>
      rw [after, hcb]
      exact on.flagChunked
  | recycle on behind after =>
      rw [after]
      exact behind.flagChunked.trans ((hcb _).trans on.flagChunked)

theorem bodyIter_flag {rc : Recycler} {cb : Option Callback} {k : Nat} {p : Parser} :
    (∀ q, bodyIter rc cb k p = .again q → q.ctx.flagChunked = p.ctx.flagChunked) ∧
      ∀ r q, bodyIter rc cb k p = .ret r q → q.ctx.flagChunked = p.ctx.flagChunked :=
  bodyIter_keeps (P := fun q => q.ctx.flagChunked = p.ctx.flagChunked)
    (processBody_flag rc cb p) fun _ h => h

/-! ## Chunked messages that were accepted -/

/-- The bytes from the end of the head up to `pos` are a chunked body by the
grammar, and the data of its chunks is what `body_cb` was given (with an
empty call for the last one). -/
def StrictlyRead (Y : List UInt8) (q : Parser) (reads : List Read) : Prop :=
  ∃ cs zs tail, Zeros zs ∧ Y = strictBytes cs zs ++ tail ∧ StandsAt tail q.inp reads ∧
    List.Forall₂ ChunkCall (cs.map Chunk.data ++ [[]]) (q.calls.filter (·.kind = .body))

/-- What the pieces must be, with the first byte of the body lost or not. -/
def DecodesCleanly (cut : Prop) (Y : List UInt8) : Prop :=
  (¬ cut ∧ ∀ p ∈ pieces Y, p.Clean) ∨
    (cut ∧ Y.head? = some 48 ∧ CleanBehind (pieces (Y.drop 1)))

theorem ChunkCall.unique {d d' : List UInt8} {c : Call} (h : ChunkCall d c)
    (h' : ChunkCall d' c) : d = d' := h.chunk.bytes.symm.trans h'.chunk.bytes

theorem chunkCalls_unique {ds ds' : List (List UInt8)} {cs : List Call}
    (h : List.Forall₂ ChunkCall ds cs) (h' : List.Forall₂ ChunkCall ds' cs) : ds = ds' := by
  induction h generalizing ds' with
  | nil => cases h'; rfl
  | cons hc _ ih =>
      cases h' with
      | cons hc' hall' => rw [hc.unique hc', ih hall']

theorem filter_chunkCalls {ds : List (List UInt8)} {head cs : List Call}
    (hhead : ∀ c ∈ head, c.kind ≠ .body) (h : List.Forall₂ ChunkCall ds cs) :
    (head ++ cs).filter (·.kind = .body) = cs := by
  have h1 : head.filter (·.kind = .body) = [] := by
    rw [List.filter_eq_nil_iff]
    intro c hc
    simpa using hhead c hc
  have h2 : cs.filter (·.kind = .body) = cs := by
    rw [List.filter_eq_self]
    induction h with
    | nil => exact fun _ h => absurd h List.not_mem_nil
    | cons hc _ ih =>
        intro c hmem
        rcases List.mem_cons.mp hmem with rfl | hmem
        · simpa using hc.kind
        · exact ih c hmem
  rw [List.filter_append, h1, h2, List.nil_append]

section
variable {q : Parser} {reads : List Read} {Y text tail : List UInt8} {ps : List Piece}

theorem strictlyRead_iff (hall : List.Forall₂ ChunkCall (ps.map Piece.data)
      (q.calls.filter (·.kind = .body))) (hstands : StandsAt tail q.inp reads) :
    StrictlyRead Y q reads ↔ StrictAs Y ps tail := by
  constructor
  · rintro ⟨cs, zs, tail', hz, hY, hstands', hall'⟩
    cases hstands'.unique hstands
    exact ⟨cs, zs, hz, hY, chunkCalls_unique hall' hall⟩
  · rintro ⟨cs, zs, hz, hY, hdata⟩
    exact ⟨cs, zs, tail, hz, hY, hstands, by rw [hdata]; exact hall⟩

theorem decodesCleanly_iff {cut : Prop} (hdec : Decoded text ps tail)
    (htext : (text = Y ∧ ¬ cut) ∨ (text = Y.drop 1 ∧ cut)) :
    StrictAs Y ps tail ↔ DecodesCleanly cut Y := by
  rcases htext with ⟨rfl, hcut⟩ | ⟨rfl, hcut⟩
  · rw [strict_iff hdec]
    simp [DecodesCleanly, hcut]
  · cases Y with
    | nil => exact absurd rfl hdec.ne_nil
    | cons x Y =>
        rw [show (x :: Y).drop 1 = Y from rfl] at hdec
        rw [strict_iff_lost hdec]
        simp [DecodesCleanly, hcut]

end

theorem blank_decodes {pf : Platform} {l : FirstLine} {cbs : Callbacks} {R b : Nat}
    {Y : List UInt8} {cut : Prop} {p q : Parser} {reads reads' : List Read}
    (hR : (R : Int) ≤ intMax) (hfit : LinesFit R Y)
    (hblank : BlankNow Y b R ChunkedReady True cut p reads)
    (hret : Returns (loopStep pf l.parse cbs) ⟨.dispatch, p, reads⟩ (.returned .ok q reads'))
    (hflag : q.ctx.flagChunked = true) :
    ∃ text, ((text = Y ∧ ¬ cut) ∨ (text = Y.drop 1 ∧ cut)) ∧
      Ends cbs.body q reads' p.calls text := by
  have hdisp : dispatch pf l.parse cbs p = bodyIter pf.recycler cbs.body 12 (blankLine p) :=
    dispatch_blank hblank.state hblank.start hblank.found
  -- the flag does not change any more
  have hchunked : (blankLine p).ctx.flagChunked = true := by
    cases hit : bodyIter pf.recycler cbs.body 12 (blankLine p) with
    | again p' =>
        have hrun := (Reaches.single (loopStep_again (hdisp.trans hit))).returns_iff.mp hret
        have hq := body_invariant
          (I := fun x => x.ctx.flagChunked = (blankLine p).ctx.flagChunked)
          (fun _ _ _ h => h) (fun _ _ h hi => (bodyIter_flag.1 _ hi).trans h)
          (fun _ _ _ h hi => (bodyIter_flag.2 _ _ hi).trans h) (bodyIter_flag.1 _ hit)
          (bodyIter_state hit) hrun
        rw [← hq, hflag]
    | ret r p' =>
        cases Returns.unique hret (.of_done (loopStep_ret (hdisp.trans hit)))
        rw [← bodyIter_flag.2 _ _ hit, hflag]
  have hsize : (blankLine p).ctx.chunkParserState = .size := hblank.framing hchunked
  obtain ⟨k, htext, hpos⟩ : ∃ k, ((Y.drop k = Y ∧ ¬ cut) ∨ (Y.drop k = Y.drop 1 ∧ cut)) ∧
      p.inp.pos + 2 = ((b + 2 + k : Nat) : Int) ∧ k ≤ 1 := by
    rcases hblank.pos trivial with ⟨hp, hc⟩ | ⟨hp, hc⟩
    · exact ⟨0, .inl ⟨rfl, hc⟩, by omega, by omega⟩
    · exact ⟨1, .inr ⟨rfl, hc⟩, by omega, by omega⟩
  obtain ⟨hpos, hk⟩ := hpos
  have hcomplete := hblank.complete
  have hbounded := hblank.bounded trivial
  have hinv : BodyInv R (Y.drop k) (blankLine p) reads := by
    refine .size (b + 2 + k) _ ⟨⟨hchunked, hsize, hpos, rfl⟩, ?_, ?_, hblank.small trivial,
      hfit.drop k, fun line more _ _ => ⟨?_, ?_⟩⟩
    · show _ ≤ p.inp.eod + 2
      omega
    · rw [← List.drop_drop]
      exact congrArg (List.drop k) hblank.stream
    · show p.inp.pos + 2 - _ ≤ _
      omega
    · show p.inp.eod - _ ≤ _
      omega
  refine ⟨Y.drop k, htext, ?_⟩
  show Ends cbs.body q reads' (blankLine p).calls _
  cases hit : bodyIter pf.recycler cbs.body 12 (blankLine p) with
  | again p' =>
      have hrun := (Reaches.single (loopStep_again (hdisp.trans hit))).returns_iff.mp hret
      exact body_iter_again _ _ hR hinv hit fun text htext =>
        body_decodes hR (bodyIter_state hit) hrun text htext
  | ret r p' =>
      cases Returns.unique hret (.of_done (loopStep_ret (hdisp.trans hit)))
      exact body_iter_ret _ _ hR hinv hit

/-- **What was accepted was a chunked body by the grammar, exactly when its
pieces are clean.**  For any stream and any reads. -/
theorem chunked_sound_iff (pf : Platform) (l : FirstLine) (cbs : Callbacks) (errno : Int)
    (s : Stream) (reads reads' : List Read) (q : Parser) (R : Nat) {f : Callback}
    (hcb : cbs.body = some f) (h0 : 0 ≤ s.pos) (hle : s.pos ≤ s.eod + 2)
    (hbuf : s.eod - s.pos ≤ R) (hsmall : SmallReads R reads)
    (hfit : LinesFit R ((s.data ++ pending reads).drop s.pos.toNat))
    (hparse : Parses l pf cbs errno s reads (.returned .ok q reads'))
    (hflag : q.ctx.flagChunked = true) :
    ∃ (H : RawHead) (Y : List UInt8),
      (s.data ++ pending reads).drop s.pos.toNat = H.bytes ++ CR :: LF :: Y ∧
      (StrictlyRead Y q reads' ↔
        DecodesCleanly (Cuts s.eod reads (s.pos + H.bytes.length + 1)) Y) := by
  have hret := parses_iff.mp hparse
  obtain ⟨H, Y, heq⟩ := head_exists h0 hle hret
  refine ⟨H, Y, heq, ?_⟩
  rw [heq] at hfit
  generalize hb : s.pos.toNat + H.bytes.length = b
  generalize hcut : Cuts s.eod reads (s.pos + H.bytes.length + 1) = cut
  -- the lines of the head, the empty one among them, are lines of the stream
  have hlines : H.Fits R := by
    intro ln hln
    rcases List.mem_cons.mp hln with rfl | hln
    · exact hfit H.bytes [] Y rfl rfl
    · rcases List.mem_cons.mp hln with rfl | hln
      · exact hfit [] _ (rawLines H.lines ++ CR :: LF :: Y) (by simp [RawHead.bytes, crlf])
          H.first_ok
      · obtain ⟨ls, ls', hls⟩ := List.append_of_mem hln
        exact hfit (H.first ++ crlf ++ rawLines ls) ln (rawLines ls' ++ CR :: LF :: Y)
          (by simp [RawHead.bytes, hls, rawLines, crlf]) (H.lines_ok ln hln).1
  have hR : (R : Int) ≤ intMax := by
    have := hlines [] List.mem_cons_self
    simp only [List.length_nil] at this
    omega
  have hinv : HeadInv H Y b R ChunkedReady True cut ⟨.top, .init s errno, reads⟩ := by
    refine ⟨.start s.pos.toNat rfl (by show s.pos = _; omega) (by show _ ≤ s.eod + 2; omega)
      ⟨heq, hb⟩ (fun _ => by show s.eod - _ ≤ _; omega), ?_,
      fun c hc => absurd hc List.not_mem_nil, fun _ => hsmall, fun _ _ => ?_⟩
    · intro h
      cases h
    · have hplace : (b : Int) + 1 = s.pos + H.bytes.length + 1 := by omega
      show Cuts s.eod reads _ ↔ cut
      rw [hplace, hcut]
  obtain ⟨p, reads₁, hblank, hret₁⟩ :=
    head_passes pf l cbs (keepsFraming_ready _) (fun _ => hlines) hinv hret
  have hfitY : LinesFit R Y := by
    rw [show H.bytes ++ CR :: LF :: Y = (H.bytes ++ [CR, LF]) ++ Y by simp] at hfit
    exact hfit.suffix
  obtain ⟨text, htext, ps, tail, more, hdec, hcalls, hall, hstands, -⟩ :=
    blank_decodes hR hfitY hblank hret₁ hflag
  rw [hcb] at hcalls
  have hall' : List.Forall₂ ChunkCall (ps.map Piece.data) (q.calls.filter (·.kind = .body)) := by
    rw [hcalls, show made (some f) more = more from rfl, filter_chunkCalls hblank.calls hall]
    exact hall
  rw [strictlyRead_iff hall' hstands, decodesCleanly_iff hdec htext]

/-! ### One message by the grammar, and one that is not -/

theorem linesFit_of_length {R : Nat} {text : List UInt8}
    (h : (text.length : Int) + 1 + R ≤ intMax) : LinesFit R text := by
  rintro before line behind rfl -
  simp only [List.length_append, List.length_cons] at h
  omega

/-- A call that returned 0 with the chunked flag set. -/
def Outcome.okChunked : Outcome → Bool
  | .returned .ok q _ => q.ctx.flagChunked
  | _ => false

theorem okChunked_elim {l : FirstLine} {pf : Platform} {cbs : Callbacks} {errno : Int} {s : Stream}
    {reads : List Read} (fuel : Nat)
    (h : (l.httpParse pf cbs fuel (.init s errno) reads).any Outcome.okChunked = true) :
    ∃ q reads', Parses l pf cbs errno s reads (.returned .ok q reads') ∧
      q.ctx.flagChunked = true := by
  cases hout : l.httpParse pf cbs fuel (.init s errno) reads with
  | none =>
      rw [hout] at h
      cases h
  | some out =>
      rw [hout] at h
      have hok : out.okChunked = true := h
      unfold Outcome.okChunked at hok
      split at hok
      · exact ⟨_, _, ⟨fuel, hout⟩, hok⟩
      · cases hok

/-- A request with this chunked body, in one read. -/
def chunkedRequest (body : List UInt8) : List Read :=
  [.bytes (ascii "GET / HTTP/1.1\r\nTransfer-Encoding: chunked\r\n\r\n" ++ body) []]

theorem chunked_sound_iff_xyz :
    ∃ q reads', Parses (.request .getRoot) .keeping .accepting 0 ⟨[], [], 0⟩
        (chunkedRequest (ascii "3\r\nxyz\r\n0\r\n\r\n")) (.returned .ok q reads') ∧
      ∃ (H : RawHead) (Y : List UInt8),
        pending (chunkedRequest (ascii "3\r\nxyz\r\n0\r\n\r\n")) = H.bytes ++ CR :: LF :: Y ∧
        (StrictlyRead Y q reads' ↔ DecodesCleanly (Cuts 0
          (chunkedRequest (ascii "3\r\nxyz\r\n0\r\n\r\n")) (0 + H.bytes.length + 1)) Y) := by
  have hrun : ((FirstLine.request .getRoot).httpParse .keeping .accepting 40
      (.init ⟨[], [], 0⟩ 0) (chunkedRequest (ascii "3\r\nxyz\r\n0\r\n\r\n"))).any
      Outcome.okChunked = true := by decide +kernel
  obtain ⟨q, reads', hparse, hflag⟩ := okChunked_elim 40 hrun
  have hsmall : SmallReads 128 (chunkedRequest (ascii "3\r\nxyz\r\n0\r\n\r\n")) := by
    intro r hr
    cases List.mem_singleton.mp hr
    decide
  exact ⟨q, reads', hparse, chunked_sound_iff .keeping (.request .getRoot) .accepting 0 ⟨[], [], 0⟩
    _ reads' q 128 rfl (by decide) (by decide) (by decide) hsmall
    (linesFit_of_length (by decide)) hparse hflag⟩

/-- A size of 2^32 + 3 is taken for 3: the call returns 0, and the body is not
one by the grammar. -/
theorem chunked_size_wraps :
    ∃ q reads', Parses (.request .getRoot) .keeping .accepting 0 ⟨[], [], 0⟩
        (chunkedRequest (ascii "100000003\r\nxyz\r\n0\r\n\r\n")) (.returned .ok q reads') ∧
      q.ctx.flagChunked = true ∧
      ¬ StrictlyRead (ascii "100000003\r\nxyz\r\n0\r\n\r\n") q reads' := by
  have hrun : ((FirstLine.request .getRoot).httpParse .keeping .accepting 40
      (.init ⟨[], [], 0⟩ 0) (chunkedRequest (ascii "100000003\r\nxyz\r\n0\r\n\r\n"))).any
      Outcome.okChunked = true := by decide +kernel
  obtain ⟨q, reads', hparse, hflag⟩ := okChunked_elim 40 hrun
  refine ⟨q, reads', hparse, hflag, ?_⟩
  rintro ⟨cs, zs, tail, hz, hY, -, -⟩
  have hline : NoCrlf (ascii "100000003") := by decide
  have hsplit : ascii "100000003\r\nxyz\r\n0\r\n\r\n" =
      ascii "100000003" ++ CR :: LF :: ascii "xyz\r\n0\r\n\r\n" := by decide
  rw [hsplit] at hY
  cases cs with
  | nil =>
      rw [strictBytes_nil] at hY
      obtain ⟨rfl, -⟩ := line_unique hline hz.noCrlf hY
      exact absurd (hz.2 49 (by decide)) (by decide)
  | cons c cs =>
      rw [strictBytes_cons] at hY
      obtain ⟨hsize, hdata⟩ := line_unique hline c.sizeText.noCrlf hY
      have hlen := congrArg List.length hdata
      have hval := c.size_value
      rw [← hsize, show ofDigits 16 (ascii "100000003") = 4294967299 by decide] at hval
      rw [List.length_append, ← hval,
        show (ascii "xyz\r\n0\r\n\r\n").length = 10 by decide] at hlen
      omega

end MnHttp
