/-
# `MnApp.Http.Variants` — other spellings of the same head

The names of header fields and of transfer codings are not case sensitive, and
blanks around a value are not part of it.  `Variant` says that two header
lines are the same but for that, and `Parser.choice` is what the head has made
of the body when the empty line is complete: chunks, or a number of bytes.

`process_header` compares names with `strcasecmp`, skips the blanks in front
of a value, and gives the length to `strtol`, which stops at the blanks behind
it: so far every spelling reads the same (`Variant.length`).  The coding is
compared with `strcmp`, and the blanks behind it have not been cut off:

    Transfer-Encoding: chunked      chunks
    Transfer-Encoding: Chunked      no body
    Transfer-Encoding: chunked_     no body   (with a blank for the _)

So another spelling of a head frames the body in the same way exactly when
both heads spell the coding as the source does, or neither.

**Where the message ends.**  A call that returns 0 has left the stream behind the
body that the head has announced (`Finished.ends`): so many bytes, or the pieces
of the text up to an empty one.  But it counts from where it found itself when the
empty line was complete, and that is one byte too far when a read has ended inside
that line.  A blank more in a header moves the line, so it can do that too:

    Content-Length:1     first read 37 bytes, the empty line is in it     A
    Content-Length: 1    first read 37 bytes, it ends behind the CR       B

Two spellings end at the same place exactly when they are framed alike and both
empty lines are cut, or neither; or when the body is chunked and the byte that is
lost is not missed, as the `'0'` of `05` (`framing_insensitive_iff`).
-/
import MnApp.Http.Accepted

namespace MnHttp

open CLib Loop

/-! ## Spellings -/

/-- Blanks: SP and TAB. -/
def Blanks (bs : List UInt8) : Prop := ∀ b ∈ bs, ISSPACE b = true

instance (bs : List UInt8) : Decidable (Blanks bs) :=
  inferInstanceAs (Decidable (∀ b ∈ bs, ISSPACE b = true))

/-- The same text but for the letters of the coding `chunked`, wherever it stands in it. -/
inductive Recoded : List UInt8 → List UInt8 → Prop
  | nil : Recoded [] []
  | byte (b : UInt8) {v v' : List UInt8} : Recoded v v' → Recoded (b :: v) (b :: v')
  | coding {c c' v v' : List UInt8} : SameLetters c chunkedCoding →
      SameLetters c' chunkedCoding → Recoded v v' → Recoded (c ++ v) (c' ++ v')

theorem Recoded.alone {c c' : List UInt8} (h : SameLetters c chunkedCoding)
    (h' : SameLetters c' chunkedCoding) : Recoded c c' := by
  have := Recoded.coding h h' .nil
  rwa [List.append_nil, List.append_nil] at this

theorem Recoded.behind {v v' : List UInt8} (h : Recoded v v') (a : List UInt8) :
    Recoded (a ++ v) (a ++ v') := by
  induction a with
  | nil => exact h
  | cons b a ih => exact .byte b ih

/-- **Two spellings of a header line.**  The names have the same letters; the
values are the same, or in a `Transfer-Encoding` line the same but for the letters
of `chunked`; and there may be any blanks around each of them. -/
structure Variant (line line' : List UInt8) : Prop where
  name : SameLetters (nameOf line) (nameOf line')
  value : ∃ before value behind before' value' behind',
    behindColon line = before ++ value ++ behind ∧
    behindColon line' = before' ++ value' ++ behind' ∧
    Blanks before ∧ Blanks behind ∧ Blanks before' ∧ Blanks behind' ∧
    (value' = value ∨ SameLetters (nameOf line) transferEncoding ∧ Recoded value value')

theorem Blanks.isspace {bs : List UInt8} (h : Blanks bs) : ∀ b ∈ bs, isspace b = true := by
  intro b hb
  have := h b hb
  unfold ISSPACE at this
  rcases (Bool.or_eq_true _ _).mp this with h | h <;> (rw [eq_of_beq h]; rfl)

theorem lengthOf_trim {line before value behind : List UInt8}
    (h : behindColon line = before ++ value ++ behind) (hb : Blanks before) (hb' : Blanks behind) :
    lengthOf line = toInt (strtol (value ++ [NUL]) 10).val := by
  have hskip : Blanks ((behindColon line).takeWhile ISSPACE) := fun b hb =>
    List.all_eq_true.mp List.all_takeWhile b hb
  have hval : (strtol (headerValue line ++ [NUL]) 10).val =
      (strtol (value ++ [NUL]) 10).val := by
    calc (strtol (headerValue line ++ [NUL]) 10).val
        = (strtol (behindColon line ++ [NUL]) 10).val := by
          unfold headerValue
          rw [← strtol_space hskip.isspace, ← List.append_assoc, List.takeWhile_append_dropWhile]
      _ = (strtol (value ++ behind ++ [NUL]) 10).val := by
          rw [h, List.append_assoc, List.append_assoc, strtol_space hb.isspace, List.append_assoc]
      _ = (strtol (value ++ [NUL]) 10).val := strtol_trailing hb'.isspace value
  unfold lengthOf
  rw [hval]

section
variable {line line' : List UInt8} {lines lines' : List (List UInt8)}

theorem Variant.length (h : Variant line line') :
    isLengthLine line' = isLengthLine line ∧
      (isLengthLine line = true → lengthOf line' = lengthOf line) := by
  refine ⟨(h.name.strcasecmp _).symm, fun hlen => ?_⟩
  obtain ⟨before, value, behind, before', value', behind', hv, hv', hb, hbe, hb', hbe', hval⟩ :=
    h.value
  rw [lengthOf_trim hv hb hbe, lengthOf_trim hv' hb' hbe']
  rcases hval with rfl | ⟨henc, -⟩
  · rfl
  · -- the other kind of line
    have hno : strcasecmpEq transferEncoding contentLength = false := by decide
    unfold isLengthLine at hlen
    rw [henc.strcasecmp, hno] at hlen
    cases hlen

theorem variant_lengths (h : List.Forall₂ Variant lines lines') :
    (lines'.filter isLengthLine).map lengthOf = (lines.filter isLengthLine).map lengthOf := by
  induction h with
  | nil => rfl
  | cons hline _ ih =>
      obtain ⟨hname, hlen⟩ := hline.length
      rw [List.filter_cons, List.filter_cons, hname]
      split
      · rename_i hl
        rw [List.map_cons, List.map_cons, ih, hlen hl]
      · exact ih

end

/-! ## The choice -/

/-- What the head has made of the body: chunks (`none`), or a number of bytes,
with -1 where no line has stated one. -/
def Parser.choice (p : Parser) : Option Int :=
  if p.ctx.flagChunked then none else some p.ctx.bodysz

/-- A call that has read the head `H` is at its empty line, with the state `p`:
for some first line, callbacks and stream, cut in some way. -/
def EndOfHead (H : RawHead) (p : Parser) : Prop :=
  ∃ (pf : Platform) (l : FirstLine) (cbs : Callbacks) (errno : Int) (s : Stream)
    (reads reads' : List Read) (Z : List UInt8),
    0 ≤ s.pos ∧ s.pos ≤ s.eod + 2 ∧
    (s.data ++ pending reads).drop s.pos.toNat = H.bytes ++ Z ∧ HeadEnd Z ∧
    Reaches (loopStep pf l.parse cbs) ⟨.top, .init s errno, reads⟩ ⟨.dispatch, p, reads'⟩ ∧
    p.ctx.parserState = .headerFieldOut ∧ p.inp.scan p.ctx.currentHeaderName.start = some 0

/-- The head spells the coding as the source does. -/
def SpellsChunked (H : RawHead) : Prop := ∃ line ∈ H.lines, asksChunked line = true

instance (H : RawHead) : Decidable (SpellsChunked H) :=
  inferInstanceAs (Decidable (∃ line ∈ H.lines, asksChunked line = true))

section
variable {H : RawHead} {p : Parser}

theorem EndOfHead.lines (h : EndOfHead H p) : FramingAt p (some H.lines) := by
  obtain ⟨pf, l, cbs, errno, s, reads, reads', Z, h0, hle, hstream, hend, hrun, hstate, hfound⟩ := h
  have hat : LinesAt H Z (s.pos.toNat + H.bytes.length) (Parser.init s errno) reads none :=
    .first s.pos.toNat (.inl ⟨rfl, by show s.pos = _; omega⟩) (by show _ ≤ s.eod + 2; omega)
      hstream rfl
  have hunset : FramingAt (Parser.init s errno) none := rfl
  rcases LinesAt.reaches (t := ⟨.top, .init s errno, reads⟩) (J := FramingAt)
    (fun p bs slack k h => by cases k <;> exact h) (fun p q k k' h hs => h.step hs) hend hat hunset
    hrun with hbody | ⟨k, hat', hframing⟩
  · cases hstate.symm.trans hbody
  · obtain ⟨rfl, -⟩ := hat'.blank hend hstate hfound
    exact hframing

theorem EndOfHead.choice (h : EndOfHead H p) :
    (SpellsChunked H → p.choice = none) ∧ (¬ SpellsChunked H →
      p.choice = some (((H.lines.filter isLengthLine).map lengthOf).getLast?.getD (-1))) := by
  have hframing := h.lines.1
  unfold Parser.choice
  constructor
  · intro hask
    have hflag : p.ctx.framing.chunked = true := by
      rw [hframing]
      exact foldl_chunked (.inr hask)
    exact if_pos hflag
  · intro hask
    have hplain : ∀ l ∈ H.lines, asksChunked l = false := fun l hl =>
      Bool.eq_false_iff.mpr fun hl' => hask ⟨l, hl, hl'⟩
    rw [foldl_lineFraming hplain] at hframing
    have hflag : p.ctx.flagChunked = false := congrArg Framing.chunked hframing
    rw [hflag, if_neg nofun, List.getLast?_map]
    exact congrArg some (congrArg Framing.bodysz hframing)

end

/-- The choice is the same for both spellings of `chunked` or for neither. -/
theorem choice_variant {H H' : RawHead} {p p' : Parser}
    (hvar : List.Forall₂ Variant H.lines H'.lines) (hp : EndOfHead H p) (hp' : EndOfHead H' p') :
    p'.choice = p.choice ↔ (SpellsChunked H' ↔ SpellsChunked H) := by
  obtain ⟨hyes, hno⟩ := hp.choice
  obtain ⟨hyes', hno'⟩ := hp'.choice
  rw [variant_lengths hvar] at hno'
  by_cases h : SpellsChunked H <;> by_cases h' : SpellsChunked H'
  · simp only [hyes h, hyes' h', h, h']
  · rw [hyes h, hno' h']
    exact iff_of_false nofun fun hiff => h' (hiff.mpr h)
  · rw [hno h, hyes' h']
    exact iff_of_false nofun fun hiff => h (hiff.mp h')
  · rw [hno h, hno' h']
    exact iff_of_true rfl (iff_of_false h' h)

/-! ## Where the message ends -/

/-- A call has returned 0 on a message with the head `H` and the text `Y` behind the
empty line; `cut` says that a read ended inside that line.  No line, and no read,
is longer than `findcrlf` can scan. -/
def Finished (H : RawHead) (Y : List UInt8) (cut : Bool) (q : Parser) (reads' : List Read) : Prop :=
  ∃ (pf : Platform) (l : FirstLine) (cbs : Callbacks) (errno : Int) (s : Stream)
    (reads : List Read) (R : Nat),
    0 ≤ s.pos ∧ s.pos ≤ s.eod + 2 ∧ s.eod - s.pos ≤ R ∧ SmallReads R reads ∧
    (s.data ++ pending reads).drop s.pos.toNat = H.bytes ++ CR :: LF :: Y ∧
    LinesFit R (H.bytes ++ CR :: LF :: Y) ∧
    decide (Cuts s.eod reads (s.pos + H.bytes.length + 1)) = cut ∧
    Parses l pf cbs errno s reads (.returned .ok q reads')

/-- The bytes in front of the body that the parser has skipped. -/
def lost (cut : Bool) : Int := if cut then 1 else 0

theorem lost_inj {cut cut' : Bool} : lost cut' = lost cut ↔ cut' = cut := by
  cases cut <;> cases cut' <;> decide

/-- Where the body ends, counted from the empty line on. -/
def bodyEnd (cut : Bool) (Y : List UInt8) : Option Int → Int
  | some n => lost cut + n
  | none => lost cut + span (pieces (textBehind cut Y))

section
variable {H : RawHead} {Y : List UInt8} {cut : Bool} {q : Parser} {reads : List Read}

theorem length_textBehind (h : textBehind cut Y ≠ []) :
    ((textBehind cut Y).length : Int) = Y.length - lost cut := by
  have hpos := List.length_pos_iff.mpr h
  unfold textBehind lost at *
  cases cut with
  | false => simp
  | true =>
      simp only [if_true, List.length_drop] at hpos ⊢
      omega

section
variable {pf : Platform} {l : FirstLine} {cbs : Callbacks} {Z : List UInt8} {b R : Nat}
variable {p : Parser} {reads₁ : List Read} (hread : HeadRead H Z p)
  (hret : Returns (loopStep pf l.parse cbs) ⟨.dispatch, p, reads₁⟩ (.returned .ok q reads))
include hread hret

theorem chunks_left (hR : (R : Int) ≤ intMax) (hfit : LinesFit R Y)
    (hblank : BlankNow Y b R ChunkedReady True (cut = true) p reads₁)
    (hflag : p.ctx.flagChunked = true) :
    q.choice = p.choice ∧ q.inp.left reads = Y.length - bodyEnd cut Y q.choice := by
  have hp : p.choice = none := if_pos hflag
  have hq : q.choice = none := if_pos (chunked_flag hread hflag hret rfl)
  obtain ⟨ps, tail, more, hdec, -, -, -, hleft⟩ := chunks_behind hR hfit hblank hread hflag hret
  rw [hp, hq, hleft, length_textBehind hdec.text_ne_nil, bodyEnd, hdec.pieces_eq]
  exact ⟨rfl, by omega⟩

theorem plain_left {F : Framing → Prop} (hblank : BlankNow Y b R F True (cut = true) p reads₁)
    (hflag : p.ctx.flagChunked = false) :
    q.choice = p.choice ∧ q.inp.left reads = Y.length - bodyEnd cut Y q.choice := by
  obtain ⟨-, hbody, hleft⟩ := plain_length hread hflag hblank.calls hret rfl
  have hp : p.choice = some p.ctx.bodysz := if_neg (by rw [hflag]; nofun)
  have hq : q.choice = some p.ctx.bodysz := by
    rw [← hbody.bodysz]
    exact if_neg (by rw [hbody.plain]; nofun)
  refine ⟨hq.trans hp.symm, ?_⟩
  have htotal := congrArg List.length hblank.stream
  rw [List.length_drop] at htotal
  have hcomplete := hblank.complete
  unfold Stream.eod at hcomplete
  rw [List.length_append] at htotal hleft
  rw [hleft, hq, bodyEnd, lost]
  rcases hblank.pos trivial with ⟨hpos, hcut⟩ | ⟨hpos, hcut⟩
  · rw [if_neg hcut]
    omega
  · rw [if_pos hcut]
    omega

end

/-- **Where a call that has returned 0 has left the stream**: behind the body that the
head has announced. -/
theorem Finished.ends (h : Finished H Y cut q reads) : ∃ p, EndOfHead H p ∧
    q.choice = p.choice ∧ q.inp.left reads = Y.length - bodyEnd cut Y q.choice := by
  obtain ⟨pf, l, cbs, errno, s, reads₀, R, h0, hle, hbuf, hsmall, heq, hfit, hcut, hparse⟩ := h
  obtain ⟨p, reads₁, hblank, hrun, hret⟩ :=
    empty_line_comes h0 hle hbuf hsmall heq hfit hcut hparse
  have hfound : p.inp.scan p.ctx.currentHeaderName.start = some 0 := by
    rw [hblank.start]
    exact hblank.found
  have hend : EndOfHead H p := ⟨pf, l, cbs, errno, s, reads₀, reads₁, CR :: LF :: Y, h0, hle, heq,
    .blank Y rfl, hrun, hblank.state, hfound⟩
  have hread : HeadRead H (CR :: LF :: Y) p := ⟨hblank.state, hfound, ⟨Y, rfl⟩, hend.lines⟩
  refine ⟨p, hend, ?_⟩
  cases hflag : p.ctx.flagChunked with
  | true => exact chunks_left hread hret hfit.le_intMax hfit.behind hblank hflag
  | false => exact plain_left hread hret hblank hflag

end

/-- The empty lines are cut alike; or the body is chunked, and the text ends at the same
place without the byte that is lost. -/
def CutAlike (H : RawHead) (Y : List UInt8) (cut cut' : Bool) : Prop :=
  cut' = cut ∨ SpellsChunked H ∧ bodyEnd cut' Y none = bodyEnd cut Y none

/-- **Of two spellings of a head: they frame the body in the same way if and only if the
source's own spelling of `chunked` stands in both, or in neither; and two calls that
return 0, with the same text behind the heads, moreover end at the same place if and
only if the empty lines are cut alike.**  The first in any two calls that have come to
the end of the heads, on any streams, cut in any way. -/
theorem framing_insensitive_iff (H H' : RawHead) (hvar : List.Forall₂ Variant H.lines H'.lines) :
    (∀ p p', EndOfHead H p → EndOfHead H' p' →
      (p'.choice = p.choice ↔ (SpellsChunked H' ↔ SpellsChunked H))) ∧
    ∀ Y cut cut' q q' reads reads', Finished H Y cut q reads → Finished H' Y cut' q' reads' →
      (q'.choice = q.choice ∧ q'.inp.left reads' = q.inp.left reads ↔
        (SpellsChunked H' ↔ SpellsChunked H) ∧ CutAlike H Y cut cut') := by
  refine ⟨fun p p' hp hp' => choice_variant hvar hp hp', ?_⟩
  intro Y cut cut' q q' reads reads' hq hq'
  obtain ⟨p, hp, hchoice, hleft⟩ := hq.ends
  obtain ⟨p', hp', hchoice', hleft'⟩ := hq'.ends
  rw [← choice_variant hvar hp hp', hchoice, hchoice', hleft, hleft']
  refine and_congr_right fun hsame => ?_
  rw [hchoice', hchoice, hsame]
  obtain ⟨hyes, hno⟩ := hp.choice
  unfold CutAlike
  by_cases h : SpellsChunked H
  · rw [hyes h]
    constructor
    · intro heq
      exact .inr ⟨h, by omega⟩
    · rintro (rfl | ⟨-, heq⟩)
      · rfl
      · rw [heq]
  · -- so many bytes behind the one that is lost, if one is
    rw [hno h]
    simp only [bodyEnd, h, false_and, or_false]
    rw [← lost_inj]
    omega

/-! ### Spellings of one line -/

theorem one_line_ok {line : List UInt8} (ok : NoCrlf line ∧ line ≠ []) :
    ∀ l ∈ [line], NoCrlf l ∧ l ≠ [] := fun _ hl => List.mem_singleton.mp hl ▸ ok

/-- A response with one header line. -/
def lineHead (line : List UInt8) (ok : NoCrlf line ∧ line ≠ []) : RawHead :=
  ⟨ascii "HTTP/1.1 200 OK", [line], noCrlf_statusOk, one_line_ok ok⟩

/-- What is looked at of a call that has returned 0: the choice, and what is left. -/
def Outcome.finished : Outcome → Option (Option Int × Int)
  | .returned .ok q reads => some (q.choice, q.inp.left reads)
  | _ => none

theorem smallReads_pending (reads : List Read) : SmallReads (pending reads).length reads := by
  intro r hr
  obtain ⟨before, behind, rfl⟩ := List.append_of_mem hr
  simp only [pending_append, pending_cons, List.length_append]
  omega

theorem finished_of_run {H : RawHead} {Y : List UInt8} {b : Bool} {c : Option Int} {n : Int}
    (fuel : Nat) (reads : List Read) (hstream : pending reads = H.bytes ++ CR :: LF :: Y)
    (hlen : ((pending reads).length : Int) + 1 + (pending reads).length ≤ intMax)
    (hcut : decide (Cuts 0 reads (0 + H.bytes.length + 1)) = b)
    (hrun : ((FirstLine.status .ok).httpParse .keeping .accepting fuel (.init ⟨[], [], 0⟩ 0)
      reads).bind Outcome.finished = some (c, n)) :
    ∃ q reads', Finished H Y b q reads' ∧ q.choice = c ∧ q.inp.left reads' = n := by
  obtain ⟨out, hout, hobs⟩ := Option.bind_eq_some_iff.mp hrun
  unfold Outcome.finished at hobs
  split at hobs
  · rename_i q reads'
    cases hobs
    exact ⟨q, reads', ⟨.keeping, .status .ok, .accepting, 0, ⟨[], [], 0⟩, reads,
      (pending reads).length, by decide, by decide, Int.natCast_nonneg _,
      smallReads_pending reads, hstream,
      linesFit_of_length (by rw [← hstream]; exact hlen), hcut, fuel, hout⟩, rfl, rfl⟩
  · cases hobs

theorem framing_insensitive_blank : ∃ (H H' : RawHead) (Y : List UInt8) (p p' q q' : Parser)
    (reads reads' : List Read), List.Forall₂ Variant H.lines H'.lines ∧ H'.lines ≠ H.lines ∧
    EndOfHead H p ∧ EndOfHead H' p' ∧ Finished H Y false q reads ∧
    Finished H' Y false q' reads' ∧ p'.choice = p.choice ∧ q'.choice = q.choice ∧
    q'.inp.left reads' = q.inp.left reads := by
  obtain ⟨q, reads, hq, -⟩ := finished_of_run
    (H := lineHead (ascii "Transfer-Encoding:gzip, chunked") (by decide)) 40
    [.bytes (ascii "HTTP/1.1 200 OK\r\nTransfer-Encoding:gzip, chunked\r\n\r\nAB") []]
    (Y := ascii "AB") (b := false) (c := some (-1)) (n := 3) (by decide) (by decide) (by decide)
    (by decide +kernel)
  obtain ⟨q', reads', hq', -⟩ := finished_of_run
    (H := lineHead (ascii "transfer-encoding: gzip, CHUNKED") (by decide)) 40
    [.bytes (ascii "HTTP/1.1 200 OK\r\ntransfer-encoding: gzip, CHUNKED\r\n") [],
      .bytes (ascii "\r\nAB") []]
    (Y := ascii "AB") (b := false) (c := some (-1)) (n := 3) (by decide) (by decide) (by decide)
    (by decide +kernel)
  have hvar : List.Forall₂ Variant (lineHead (ascii "Transfer-Encoding:gzip, chunked")
      (by decide)).lines (lineHead (ascii "transfer-encoding: gzip, CHUNKED") (by decide)).lines :=
    .cons ⟨by decide, [], ascii "gzip, " ++ ascii "chunked", [], [SP],
      ascii "gzip, " ++ ascii "CHUNKED", [], by decide, by decide, by decide, by decide, by decide,
      by decide, .inr ⟨by decide, (Recoded.alone rfl (by decide)).behind _⟩⟩ .nil
  obtain ⟨p, hp, -⟩ := hq.ends
  obtain ⟨p', hp', -⟩ := hq'.ends
  have hspells : SpellsChunked (lineHead (ascii "transfer-encoding: gzip, CHUNKED") (by decide)) ↔
      SpellsChunked (lineHead (ascii "Transfer-Encoding:gzip, chunked") (by decide)) := by decide
  obtain ⟨hframing, hend⟩ := framing_insensitive_iff _ _ hvar
  obtain ⟨hchoice, hleft⟩ := (hend _ _ _ _ _ _ _ hq hq').mpr ⟨hspells, .inl rfl⟩
  exact ⟨_, _, _, p, p', q, q', reads, reads', hvar, by decide, hp, hp', hq, hq',
    (hframing p p' hp hp').mpr hspells, hchoice, hleft⟩

/-- **`Chunked` is not `chunked`**, and the second message has no body at all; and **a blank
can cost a byte**: in two responses whose first reads have 37 bytes, the one with a
blank in front of its length ends one byte later. -/
theorem spelling_matters :
    (∃ (H H' : RawHead) (q q' : Parser) (reads reads' : List Read),
      H.lines = [ascii "Transfer-Encoding: chunked"] ∧
      H'.lines = [ascii "Transfer-Encoding: Chunked"] ∧
      List.Forall₂ Variant H.lines H'.lines ∧ Finished H (ascii "0\r\n\r\n") false q reads ∧
      Finished H' (ascii "0\r\n\r\n") false q' reads' ∧ (q.choice = none ∧
      q.inp.left reads = 0) ∧ q'.choice = some (-1) ∧ q'.inp.left reads' = 6) ∧
    ∃ (H H' : RawHead) (q q' : Parser) (reads reads' : List Read),
      H.lines = [ascii "Content-Length:1"] ∧ H'.lines = [ascii "Content-Length: 1"] ∧
      List.Forall₂ Variant H.lines H'.lines ∧ Finished H (ascii "AB") false q reads ∧
      Finished H' (ascii "AB") true q' reads' ∧ (q.choice = some 1 ∧
      q.inp.left reads = 1) ∧ q'.choice = some 1 ∧ q'.inp.left reads' = 0 := by
  constructor
  · obtain ⟨q, reads, hq, hseen⟩ := finished_of_run
      (H := lineHead (ascii "Transfer-Encoding: chunked") (by decide)) 40
      [.bytes (ascii "HTTP/1.1 200 OK\r\nTransfer-Encoding: chunked\r\n\r\n0\r\n\r\n") []]
      (Y := ascii "0\r\n\r\n") (b := false) (c := none) (n := 0) (by decide) (by decide)
      (by decide) (by decide +kernel)
    obtain ⟨q', reads', hq', hseen'⟩ := finished_of_run
      (H := lineHead (ascii "Transfer-Encoding: Chunked") (by decide)) 40
      [.bytes (ascii "HTTP/1.1 200 OK\r\nTransfer-Encoding: Chunked\r\n\r\n0\r\n\r\n") []]
      (Y := ascii "0\r\n\r\n") (b := false) (c := some (-1)) (n := 6) (by decide) (by decide)
      (by decide) (by decide +kernel)
    refine ⟨_, _, q, q', reads, reads', rfl, rfl, ?_, hq, hq', hseen, hseen'⟩
    exact .cons ⟨by decide, [SP], ascii "chunked", [], [SP], ascii "Chunked", [], by decide,
      by decide, by decide, by decide, by decide, by decide,
      .inr ⟨by decide, .alone rfl (by decide)⟩⟩ .nil
  · obtain ⟨q, reads, hq, hseen⟩ := finished_of_run
      (H := lineHead (ascii "Content-Length:1") (by decide)) 40
      [.bytes (ascii "HTTP/1.1 200 OK\r\nContent-Length:1\r\n\r\n") [], .bytes (ascii "AB") []]
      (Y := ascii "AB") (b := false) (c := some 1) (n := 1) (by decide) (by decide) (by decide)
      (by decide +kernel)
    obtain ⟨q', reads', hq', hseen'⟩ := finished_of_run
      (H := lineHead (ascii "Content-Length: 1") (by decide)) 40
      [.bytes (ascii "HTTP/1.1 200 OK\r\nContent-Length: 1\r\n\r") [],
        .bytes (ascii "\nAB") []]
      (Y := ascii "AB") (b := true) (c := some 1) (n := 0) (by decide) (by decide) (by decide)
      (by decide +kernel)
    refine ⟨_, _, q, q', reads, reads', rfl, rfl, ?_, hq, hq', hseen, hseen'⟩
    exact .cons ⟨by decide, [], ascii "1", [], [SP], ascii "1", [], by decide,
      by decide, by decide, by decide, by decide, by decide, .inl rfl⟩ .nil

end MnHttp
