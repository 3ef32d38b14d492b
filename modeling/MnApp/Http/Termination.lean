/-
# `MnApp.Http.Termination` — does the loop of the parser stop on every input

Between two reads `pos` may stay where it is, go back, or go beyond the data,
so what goes down is not `pos`.  It is

  1. the number of reads left,
  2. whether the loop is about to read (`pos` at the end of the data),
  3. the number of bytes from the start of the line that is awaited, or from
     `pos` inside the data of a chunk, to the end of the data,
  4. for the states that only note where a line starts, the state,

in this order (`measure`).  The third is where it can fail: in
`PS_CHUNK_DATA` the bytes there are (`navail`) are counted in an `int`.  With
2^32 of them the count is 0; the loop neither reads nor moves
(`chunk_data_loops`).  As long as the unread bytes fit in an `int` whenever
data of the chunk is missing, the loop stops, on any input and with any
callbacks (`parse_terminates`); for instance when the whole input does
(`chunkDataFits_of_small`).
-/
import Mathlib.Data.Prod.Lex
import MnApp.Http.ChunkSound
import MnApp.Http.Iteration

namespace MnHttp

open CLib Loop

/-! ## Inside a chunked body -/

/-- In `PS_CHUNK_DATA`. -/
structure InChunkData (p : Parser) : Prop where
  state : p.ctx.parserState = .body
  chunked : p.ctx.flagChunked = true
  data : p.ctx.chunkParserState = .data

/-- `needed`: how many bytes of its data the chunk still lacks. -/
def needed (p : Parser) : Int :=
  toInt (p.ctx.currentChunkSize - (p.ctx.currentChunk.stop - p.ctx.currentChunk.start))

/-- Where the offsets are inside a chunked body. -/
structure ChunkPlaced (p : Parser) : Prop where
  size : p.ctx.flagChunked = true → p.ctx.chunkParserState = .size →
    0 ≤ p.ctx.currentChunk.start ∧ p.ctx.currentChunk.start ≤ p.inp.eod + 2
  data : p.ctx.flagChunked = true → p.ctx.chunkParserState = .data →
    0 ≤ p.inp.pos ∧ p.inp.pos ≤ p.inp.eod

section
variable {p q : Parser}

theorem ChunkPlaced.consume {bs slack : List UInt8} (h : ChunkPlaced p) :
    ChunkPlaced { p with inp := p.inp.consume bs slack } where
  size hch hst := by
    have := h.size hch hst
    simp only [Stream.eod_consume]
    omega
  data hch hst := by
    have := h.data hch hst
    simp only [Stream.eod_consume, Stream.pos_consume]
    omega

theorem ChunkPlaced.of_size (hst : q.ctx.chunkParserState = .size)
    (hlo : 0 ≤ q.ctx.currentChunk.start) (hhi : q.ctx.currentChunk.start ≤ q.inp.eod + 2) :
    ChunkPlaced q :=
  ⟨fun _ _ => ⟨hlo, hhi⟩, fun _ hd => by cases hst.symm.trans hd⟩

theorem ChunkPlaced.of_data (hst : q.ctx.chunkParserState = .data) (hlo : 0 ≤ q.inp.pos)
    (hhi : q.inp.pos ≤ q.inp.eod) : ChunkPlaced q :=
  ⟨fun _ hs => (by cases hst.symm.trans hs), fun _ _ => ⟨hlo, hhi⟩⟩

theorem ChunkPlaced.of_plain (hplain : q.ctx.flagChunked = false) : ChunkPlaced q :=
  ⟨fun hch => (by cases hplain.symm.trans hch), fun hch => by cases hplain.symm.trans hch⟩

theorem ChunkPlaced.pass (h : ChunkPlaced p)
    (hfit : p.ctx.flagChunked = true → p.ctx.chunkParserState = .data → 0 < needed p →
      p.inp.eod - p.inp.pos ≤ intMax) (hp : BodyPass p q) : ChunkPlaced q := by
  cases hp with
  | sizeWait hch hst none eq =>
      subst eq
      obtain ⟨hlo, hhi⟩ := h.size hch hst
      exact .of_size hst hlo hhi
  | sizeDone n hch hst found inp _ hdata' =>
      obtain ⟨hlo, hhi⟩ := h.size hch hst
      have hle := (scan_some hlo hhi found).1
      refine .of_data hdata' ?_ ?_
      · rw [inp, Stream.pos_advance]; omega
      · rw [inp, Stream.pos_advance, Stream.eod_advance]; omega
  | dataMore incr hch hst needed hmin eq =>
      subst eq
      obtain ⟨hlo, hhi⟩ := h.data hch hst
      rw [toInt_of_le (show -2147483648 ≤ p.inp.eod - p.inp.pos by omega) (hfit hch hst needed)]
        at hmin
      refine .of_data hst ?_ ?_
      · rw [Stream.pos_advance]; omega
      · rw [Stream.pos_advance, Stream.eod_advance]; omega
  | dataDone hch hst _ recycled le_eod le_pos data_eq pos _ size' chunk =>
      obtain ⟨hlo, hhi⟩ := h.data hch hst
      have hrec := le_pos (by omega)
      have heod : q.inp.eod = p.inp.eod - recycled := by
        unfold Stream.eod at *
        rw [data_eq, List.length_drop]
        omega
      exact .of_size size' (by rw [chunk]; simp only; omega) (by rw [chunk]; simp only; omega)
  | plain _ hplain => exact .of_plain hplain

theorem chunkPlaced_blank (hlo : 0 ≤ p.inp.pos) (hhi : p.inp.pos ≤ p.inp.eod)
    (hch : p.ctx.chunkParserState ≠ .data) : ChunkPlaced (blankLine p) where
  size _ _ := by
    show 0 ≤ p.inp.pos + 2 ∧ p.inp.pos + 2 ≤ p.inp.eod + 2
    omega
  data _ hd := absurd hd hch

/-! ## The measure -/

/-- Where the loop goes on from: the start of the line it waits for, or
`pos`. -/
def anchor (p : Parser) : Int :=
  match p.ctx.parserState with
  | .line => p.ctx.firstLine.start
  | .headerFieldOut => p.ctx.currentHeaderName.start
  | .body =>
      match p.ctx.flagChunked, p.ctx.chunkParserState with
      | true, .size => p.ctx.currentChunk.start
      | _, _ => p.inp.pos
  | _ => p.inp.pos

/-- The bytes from there to the end of the data. -/
def left (p : Parser) : Nat := (p.inp.eod - anchor p).toNat

/-- The states that note where a line starts come before those that read it. -/
def rank (p : Parser) : Nat :=
  match p.ctx.parserState with
  | .start | .headerFieldIn => 1
  | _ => 0

theorem left_lt (hlt : q.inp.eod - anchor q < p.inp.eod - anchor p)
    (hpos : 0 < p.inp.eod - anchor p) : left q < left p := by
  unfold left
  omega

theorem anchor_size (hst : p.ctx.parserState = .body) (hch : p.ctx.flagChunked = true)
    (hsz : p.ctx.chunkParserState = .size) : anchor p = p.ctx.currentChunk.start := by
  simp only [anchor, hst, hch, hsz]

theorem anchor_data (hst : p.ctx.parserState = .body) (hch : p.ctx.flagChunked = true)
    (hsz : p.ctx.chunkParserState = .data) : anchor p = p.inp.pos := by
  simp only [anchor, hst, hch, hsz]

/-- The loop is about to read, or it has come closer to the end of the data,
or it has noted where a line starts. -/
def Nearer (p q : Parser) : Prop :=
  q.inp.eod ≤ q.inp.pos ∨ left q < left p ∨ (left q = left p ∧ rank q < rank p)

theorem nearer_toEod : Nearer p p.toEod := by
  left
  show p.inp.eod ≤ p.inp.pos + (p.inp.eod - p.inp.pos)
  omega

theorem nearer_body (h : ChunkPlaced p)
    (hfit : p.ctx.flagChunked = true → p.ctx.chunkParserState = .data →
      p.inp.pos < p.inp.eod ∧ (0 < needed p → p.inp.eod - p.inp.pos ≤ intMax))
    (hsize : p.ctx.flagChunked = true → p.ctx.chunkParserState = .size →
      anchor p ≤ p.ctx.currentChunk.start)
    (hdata : p.ctx.flagChunked = true → p.ctx.chunkParserState = .data → anchor p = p.inp.pos)
    (hst : q.ctx.parserState = .body) (hp : BodyPass p q) : Nearer p q := by
  cases hp with
  | sizeWait _ _ _ eq =>
      subst eq
      exact .inl (by
        show p.inp.eod ≤ p.inp.pos + (p.inp.eod - p.inp.pos)
        omega)
  | sizeDone n hch hsz found inp hch' hdata' =>
      -- the line is behind us
      obtain ⟨hlo, hhi⟩ := h.size hch hsz
      have hle := (scan_some hlo hhi found).1
      have ha := hsize hch hsz
      have hpos : q.inp.pos = p.ctx.currentChunk.start + n + 2 := by
        rw [inp, Stream.pos_advance]; omega
      have heod : q.inp.eod = p.inp.eod := by rw [inp]; rfl
      have hq := anchor_data hst hch' hdata'
      exact .inr (.inl (left_lt (by omega) (by omega)))
  | dataMore incr hch hdt needed hmin eq =>
      obtain ⟨hlt, hle⟩ := hfit hch hdt
      have ha := hdata hch hdt
      rw [toInt_of_le (show -2147483648 ≤ p.inp.eod - p.inp.pos by omega) (hle needed)] at hmin
      have hq : anchor q = p.inp.pos + incr := by
        subst eq
        exact anchor_data rfl hch hdt
      have heod : q.inp.eod = p.inp.eod := by rw [eq]; rfl
      exact .inr (.inl (left_lt (by omega) (by omega)))
  | dataDone hch hdt _ recycled le_eod _ data_eq pos hch' size' chunk =>
      obtain ⟨hlt, -⟩ := hfit hch hdt
      have ha := hdata hch hdt
      have heod : q.inp.eod = p.inp.eod - recycled := by
        unfold Stream.eod at *
        rw [data_eq, List.length_drop]
        omega
      have hq : anchor q = q.inp.pos := by
        rw [anchor_size hst hch' size', chunk]
      exact .inr (.inl (left_lt (by omega) (by omega)))
  | plain _ _ data pos =>
      refine .inl ?_
      have heod : q.inp.eod = p.inp.eod := by unfold Stream.eod; rw [data]
      omega

theorem nearer_pass (h : Placed ChunkPlaced p)
    (hfit : InChunkData p →
      p.inp.pos < p.inp.eod ∧ (0 < needed p → p.inp.eod - p.inp.pos ≤ intMax))
    (hp : Pass p q) : Nearer p q := by
  have hstate : ∀ {a b : ParserState}, p.ctx.parserState = a → p.ctx.parserState = b → a = b :=
    fun ha hb => ha.symm.trans hb
  cases hp with
  | start st eq =>
      have hp : anchor p = p.inp.pos := by simp only [anchor, st]
      subst eq
      exact .inr (.inr ⟨by unfold left; rw [hp]; rfl, by simp only [rank, st]; decide⟩)
  | lineWait _ _ eq => exact eq ▸ nearer_toEod
  | line n st found st' data pos =>
      cases h with
      | line _ lo hi =>
          have hle := (scan_some lo hi found).1
          have hp : anchor p = p.ctx.firstLine.start := by simp only [anchor, st]
          have hq : anchor q = q.inp.pos := by simp only [anchor, st']
          have heod : q.inp.eod = p.inp.eod := by unfold Stream.eod; rw [data]
          exact .inr (.inl (left_lt (by omega) (by omega)))
      | start s' | fieldIn s' | fieldOut s' | body s' => cases hstate st s'
  | fieldIn st eq =>
      have hp : anchor p = p.inp.pos := by simp only [anchor, st]
      subst eq
      exact .inr (.inr ⟨by unfold left; rw [hp]; rfl, by simp only [rank, st]; decide⟩)
  | fieldWait _ _ eq => exact eq ▸ nearer_toEod
  | header n st found st' eod pos =>
      cases h with
      | fieldOut _ lo le hi =>
          have hle := (scan_some lo (by omega) found).1
          have hp : anchor p = p.ctx.currentHeaderName.start := by simp only [anchor, st]
          have hq : anchor q = q.inp.pos := by simp only [anchor, st']
          exact .inr (.inl (left_lt (by omega) (by omega)))
      | start s' | line s' | fieldIn s' | body s' => cases hstate st s'
  | blank st found st' body =>
      cases h with
      | fieldOut _ lo le hi ch =>
          have hp : anchor p = p.ctx.currentHeaderName.start := by simp only [anchor, st]
          have hb : anchor (blankLine p) = p.inp.pos + 2 := rfl
          have hlt := (scan_some lo (by omega) found).1
          have hblank := chunkPlaced_blank (by omega) hi ch
          rcases nearer_body hblank (fun _ hd => absurd hd ch) (fun _ _ => Int.le_of_eq hb)
            (fun _ hd => absurd hd ch) st' body with hn | hn | ⟨hn, hr⟩
          · exact .inl hn
          · refine .inr (.inl (Nat.lt_of_lt_of_le hn ?_))
            unfold left
            rw [hb, hp]
            show (p.inp.eod - _).toNat ≤ _
            omega
          · cases hr
      | start s' | line s' | fieldIn s' | body s' => cases hstate st s'
  | bodyIn st =>
      cases h with
      | start s' | line s' | fieldIn s' | fieldOut s' | body s' => cases hstate st s'
  | body st st' body =>
      cases h with
      | body _ hb =>
          exact nearer_body hb (fun hch hd => hfit ⟨st, hch, hd⟩)
            (fun hch hs => Int.le_of_eq (anchor_size st hch hs))
            (fun hch hd => anchor_data st hch hd) st' body
      | start s' | line s' | fieldIn s' | fieldOut s' => cases hstate st s'

end

/-- What goes down with every step of the loop. -/
def measure (t : LoopState) : Nat ×ₗ Nat ×ₗ Nat :=
  toLex (t.reads.length,
    toLex (match t.pc with
      | .top =>
          (if t.par.inp.eod ≤ t.par.inp.pos then 0 else 1, 4 * left t.par + 2 * rank t.par + 1)
      | .dispatch => (1, 4 * left t.par + 2 * rank t.par)))

/-! ## Runs -/

section
variable {pf : Platform} {l : FirstLine} {cbs : Callbacks}

/-- In `PS_CHUNK_DATA`, while data is missing, the unread bytes fit in an `int`. -/
def ChunkDataFits (pf : Platform) (l : FirstLine) (cbs : Callbacks) (t : LoopState) : Prop :=
  ∀ p rest, Reaches (loopStep pf l.parse cbs) t ⟨.dispatch, p, rest⟩ → InChunkData p →
    0 < needed p → p.inp.eod - p.inp.pos ≤ intMax

/-- Every read delivers something, up to the last one, which fails. -/
def EndsWith (lres : Int) (reads : List Read) : Prop :=
  ∃ bs, reads = bs ++ [.fail lres] ∧ ∀ r ∈ bs, ∃ b slack, r = .bytes b slack ∧ b ≠ []

theorem EndsWith.tail {lres : Int} {bs slack : List UInt8} {reads : List Read}
    (h : EndsWith lres (.bytes bs slack :: reads)) : bs ≠ [] ∧ EndsWith lres reads := by
  obtain ⟨rs, heq, hrs⟩ := h
  cases rs with
  | nil => cases heq
  | cons r rs =>
      cases heq
      obtain ⟨b, sl, hb, hne⟩ := hrs _ List.mem_cons_self
      cases hb
      exact ⟨hne, rs, rfl, fun r hr => hrs r (List.mem_cons_of_mem _ hr)⟩

/-- What holds all along. -/
structure Live (pf : Platform) (l : FirstLine) (cbs : Callbacks) (lres : Int) (t : LoopState) :
    Prop where
  placed : Placed ChunkPlaced t.par
  reads : EndsWith lres t.reads
  fits : ChunkDataFits pf l cbs t
  unread : t.pc = .dispatch → InChunkData t.par → t.par.inp.pos < t.par.inp.eod

theorem Placed.chunkData {p : Parser} (h : Placed ChunkPlaced p) (hd : InChunkData p) :
    0 ≤ p.inp.pos ∧ p.inp.pos ≤ p.inp.eod := by
  cases h with
  | body _ hb => exact hb.data hd.chunked hd.data
  | start s' | line s' | fieldIn s' | fieldOut s' => cases hd.state.symm.trans s'

theorem placed_pass {p q : Parser} (h : Placed ChunkPlaced p)
    (hfit : InChunkData p → 0 < needed p → p.inp.eod - p.inp.pos ≤ intMax) (hp : Pass p q) :
    Placed ChunkPlaced q := by
  refine h.pass hp (fun _ hlo hle hhi hch hbp => ?_) fun st hb hbp => ?_
  · exact (chunkPlaced_blank (by omega) hhi hch).pass (fun _ hd => absurd hd hch) hbp
  · exact hb.pass (fun hch hd => hfit ⟨st, hch, hd⟩) hbp

theorem ChunkDataFits.step {t t' : LoopState} (h : ChunkDataFits pf l cbs t)
    (hs : loopStep pf l.parse cbs t = .again t') : ChunkDataFits pf l cbs t' :=
  fun p rest hr => h p rest (.head hs hr)

theorem Live.step {lres : Int} {t t' : LoopState} (h : Live pf l cbs lres t)
    (hs : loopStep pf l.parse cbs t = .again t') :
    Live pf l cbs lres t' ∧ measure t' < measure t := by
  have hfits := h.fits.step hs
  cases loopStep_again_iff.mp hs with
  | @read p bs slack reads hmore =>
      obtain ⟨hne, hreads⟩ := h.reads.tail
      have hlen : 0 < bs.length := List.length_pos_iff.mpr hne
      refine ⟨⟨h.placed.consume fun hb => hb.consume, hreads, hfits, fun _ hd => ?_⟩, ?_⟩
      · have hle : p.inp.pos ≤ p.inp.eod := (h.placed.chunkData ⟨hd.state, hd.chunked, hd.data⟩).2
        simp only [Stream.pos_consume, Stream.eod_consume]
        omega
      · exact Prod.Lex.toLex_lt_toLex.mpr (.inl (Nat.lt_succ_self _))
  | look hlt =>
      refine ⟨⟨h.placed, h.reads, hfits, fun _ _ => hlt⟩, ?_⟩
      refine Prod.Lex.toLex_lt_toLex.mpr (.inr ⟨rfl, Prod.Lex.toLex_lt_toLex.mpr (.inr ⟨?_, ?_⟩)⟩)
      · exact (if_neg (Int.not_le.mpr hlt)).symm
      · exact Nat.lt_succ_self _
  | @pass p q reads hagain =>
      have hpass := dispatch_again hagain
      have hfit : InChunkData p → 0 < needed p → p.inp.eod - p.inp.pos ≤ intMax :=
        h.fits p reads (.refl _)
      have hplaced := placed_pass h.placed hfit hpass
      refine ⟨⟨hplaced, h.reads, hfits, fun hpc => by cases hpc⟩, ?_⟩
      have hnear : Nearer p q := nearer_pass h.placed (fun hd => ⟨h.unread rfl hd, hfit hd⟩) hpass
      refine Prod.Lex.toLex_lt_toLex.mpr (.inr ⟨rfl, Prod.Lex.toLex_lt_toLex.mpr ?_⟩)
      show (if q.inp.eod ≤ q.inp.pos then 0 else 1) < 1 ∨ _
      by_cases hmore : q.inp.eod ≤ q.inp.pos
      · exact .inl (by rw [if_pos hmore]; decide)
      · refine .inr ⟨if_neg hmore, ?_⟩
        show 4 * left q + 2 * rank q + 1 < 4 * left p + 2 * rank p
        have hrank : rank q ≤ 1 := by unfold rank; split <;> omega
        rcases hnear with hn | hn | ⟨hn, hr⟩
        · exact absurd hn hmore
        · omega
        · omega

/-- **The loop stops on every input, as long as the unread bytes fit in an
`int` whenever data of a chunk is missing.** -/
theorem parse_terminates (pf : Platform) (l : FirstLine) (cbs : Callbacks) (errno lres : Int)
    (s : Stream) (reads : List Read) (h0 : 0 ≤ s.pos) (hle : s.pos ≤ s.eod + 2)
    (hreads : EndsWith lres reads)
    (hfits : ChunkDataFits pf l cbs ⟨.top, .init s errno, reads⟩) :
    ∃ r q rest, Parses l pf cbs errno s reads (.returned r q rest) := by
  have hlive : Live pf l cbs lres ⟨.top, .init s errno, reads⟩ :=
    ⟨placed_init errno h0 hle, hreads, hfits, fun hpc => by cases hpc⟩
  obtain ⟨out, hout⟩ := returns_of_decreasing wellFounded_lt measure
    (fun _ _ ht hs => Live.step ht hs) hlive
  -- it does not wait for a read: there is one
  obtain ⟨t, ht, hdone⟩ := hout.invariant (fun _ _ ht hs => (Live.step ht hs).1) hlive
  cases loopStep_done_iff.mp hdone with
  | blocked =>
      obtain ⟨bs, heq, -⟩ := ht.reads
      exact absurd heq.symm (by simp)
  | fail => exact ⟨_, _, _, parses_iff.mpr hout⟩
  | ret => exact ⟨_, _, _, parses_iff.mpr hout⟩

theorem chunkDataFits_of_small {errno : Int} {s : Stream} {reads : List Read} (h0 : 0 ≤ s.pos)
    (hle : s.pos ≤ s.eod + 2) (hsmall : s.eod + (pending reads).length ≤ intMax) :
    ChunkDataFits pf l cbs ⟨.top, .init s errno, reads⟩ := by
  have fits : ∀ p : Parser, Placed ChunkPlaced p → p.inp.eod ≤ intMax → InChunkData p →
      p.inp.eod - p.inp.pos ≤ intMax := fun p hp heod hd => by
    have := hp.chunkData hd
    omega
  have keep : ∀ t t', (Placed ChunkPlaced t.par ∧
      t.par.inp.eod + (pending t.reads).length ≤ intMax) → loopStep pf l.parse cbs t = .again t' →
      Placed ChunkPlaced t'.par ∧ t'.par.inp.eod + (pending t'.reads).length ≤ intMax := by
    rintro t t' ⟨hp, ht⟩ hs
    cases loopStep_again_iff.mp hs with
    | read =>
        refine ⟨hp.consume fun hb => hb.consume, ?_⟩
        simp only [pending_cons, List.length_append, Read.payload] at ht
        simp only [Stream.eod_consume]
        omega
    | look => exact ⟨hp, ht⟩
    | @pass p q reads hagain =>
        have hpass := dispatch_again hagain
        have ht' : p.inp.eod + (pending reads).length ≤ intMax := ht
        have heod := hpass.eod_le
        refine ⟨placed_pass hp (fun hd _ => fits p hp (by omega) hd) hpass, ?_⟩
        show q.inp.eod + (pending reads).length ≤ intMax
        omega
  intro p rest hreach hd _
  obtain ⟨hp, ht⟩ := hreach.invariant keep ⟨placed_init errno h0 hle, hsmall⟩
  have ht' : p.inp.eod + (pending rest).length ≤ intMax := ht
  exact fits p hp (by omega) hd

end

/-! ### One run that stops, and one that does not -/

theorem parse_terminates_garbage : ∃ r q rest,
    Parses (.request .getRoot) .keeping .accepting 0 ⟨[], [], 0⟩
      [.bytes (ascii "GET / HTTP/1.1\r\nTransfer-Encoding: chunked\r\n\r\n5\r\nxy") [],
        .fail parseEof] (.returned r q rest) := by
  refine parse_terminates .keeping (.request .getRoot) .accepting 0 parseEof ⟨[], [], 0⟩ _
    (by decide) (by decide) ⟨[_], rfl, ?_⟩ (chunkDataFits_of_small (by decide) (by decide)
      (by decide))
  intro r hr
  cases List.mem_singleton.mp hr
  exact ⟨_, _, rfl, by decide⟩

section
variable {pf : Platform} {parseLine : Parser → Res × Parser} {cbs : Callbacks} {p : Parser}

/-- Data is missing, and 2^32 bytes are there: nothing moves. -/
theorem dispatch_stuck (hd : InChunkData p) (hneed : 0 < needed p)
    (hthere : p.inp.eod - p.inp.pos = 4294967296) :
    dispatch pf parseLine cbs p = .again p := by
  unfold needed at hneed
  have havail : toInt (p.inp.eod - p.inp.pos) = 0 := by rw [hthere]; decide
  have hincr : min (toInt (p.ctx.currentChunkSize -
      (p.ctx.currentChunk.stop - p.ctx.currentChunk.start))) 0 = 0 := by omega
  rw [dispatch_body hd.state]
  unfold bodyIter processBody processChunkData
  simp only [hd.chunked, hd.data, if_true, gt_iff_lt, hneed, havail, hincr, Stream.advance,
    Int.add_zero]
  rw [← hd.state, ← hd.data, ← hd.chunked]

theorem stuck_forever {reads : List Read} (hd : InChunkData p) (hneed : 0 < needed p)
    (hthere : p.inp.eod - p.inp.pos = 4294967296) (out : Outcome) :
    ¬ Returns (loopStep pf parseLine cbs) ⟨.dispatch, p, reads⟩ out := by
  refine not_returns_of_forever (I := fun t => t.par = p) ?_ rfl out
  rintro ⟨pc, q, rs⟩ hq
  obtain rfl : q = p := hq
  cases pc with
  | top => exact ⟨_, loopStep_again_iff.mpr (.look (by omega)), rfl⟩
  | dispatch => exact ⟨_, loopStep_again_iff.mpr (.pass (dispatch_stuck hd hneed hthere)), rfl⟩

end

/-- A request up to the size of its first chunk. -/
def chunkBegun : List Read := chunkedRequest (ascii "5\r\n")

/-- What is looked at of a parser that waits inside a chunk. -/
def Outcome.inChunk : Outcome → Bool
  | .blocked p => decide (p.ctx.parserState = .body ∧ p.ctx.flagChunked = true ∧
      p.ctx.chunkParserState = .data ∧ p.ctx.currentChunkSize = 5 ∧
      p.ctx.currentChunk.stop = p.ctx.currentChunk.start ∧ p.inp.eod = p.inp.pos)
  | _ => false

/-- **The loop does not stop when 2^32 bytes arrive at once for a chunk of
5.** -/
theorem chunk_data_loops : ¬ ∃ out,
    Parses (.request .getRoot) .keeping .accepting 0 ⟨[], [], 0⟩
      (chunkBegun ++ [.bytes (List.replicate 4294967296 120) [], .fail parseEof]) out := by
  rintro ⟨out, hparse⟩
  have hrun : ((FirstLine.request .getRoot).httpParse .keeping .accepting 40
      (.init ⟨[], [], 0⟩ 0) chunkBegun).any Outcome.inChunk = true := by decide +kernel
  obtain ⟨out₀, hout₀, hchunk⟩ := (Option.any_eq_true _ _).mp hrun
  cases out₀ with
  | returned => cases hchunk
  | blocked p =>
      obtain ⟨hst, hch, hdt, hsize, hnone, hend⟩ := of_decide_eq_true hchunk
      have hblocked := parses_iff.mp ⟨40, hout₀⟩
      obtain ⟨hreach, hmore⟩ := blocked_reaches
        [.bytes (List.replicate 4294967296 120) [], .fail parseEof] hblocked
      have hret := hreach.returns_iff.mp (parses_iff.mp hparse)
      have hread : loopStep .keeping (FirstLine.request .getRoot).parse .accepting
          ⟨.top, p, [.bytes (List.replicate 4294967296 120) [], .fail parseEof]⟩ = .again _ :=
        loopStep_again_iff.mpr (.read hmore)
      have hrest := (Reaches.single hread).returns_iff.mp hret
      refine stuck_forever (p := { p with inp := p.inp.consume _ _ }) ⟨hst, hch, hdt⟩ ?_ ?_ out
        hrest
      · show 0 < toInt (p.ctx.currentChunkSize - _)
        rw [hsize, hnone, Int.sub_self]
        decide
      · show (p.inp.consume _ _).eod - p.inp.pos = _
        rw [Stream.eod_consume, List.length_replicate, hend]
        omega

end MnHttp
