/-
# `MnApp.Http.Framing` — a message with a `Content-Length` is read exactly

The head (`MnApp.Http.Head`) and the body (`MnApp.Http.PlainBody`) put
together: for a well-formed message with one `Content-Length`, followed by
anything, `http_parse_request` and `http_parse_response` deliver exactly the
line, the headers and the body, and stop at the first byte behind them.

**Where that fails.**  The empty line is left with `SPOS(in) += 2`, from
wherever `pos` stands.  After a scan in vain `pos` stands at the end of the
data, so when a read ended between the CR and the LF of the empty line the
body is taken from one byte too far.  `length_exact_iff` says that this is
the only way.
-/
import MnApp.Http.PlainBody

namespace MnHttp

open CLib Loop

/-! ## Calls of the parser -/

/-- `http_parse_request` or `http_parse_response`, as the first line asks. -/
def FirstLine.httpParse : FirstLine → Platform → Callbacks → Nat → Parser → List Read →
    Option Outcome
  | .request _ => httpParseRequest
  | .status _ => httpParseResponse

/-- The call, on a stream with a fresh context, comes to this outcome. -/
def Parses (l : FirstLine) (pf : Platform) (cbs : Callbacks) (errno : Int) (s : Stream)
    (reads : List Read) (out : Outcome) : Prop :=
  ∃ fuel, l.httpParse pf cbs fuel (.init s errno) reads = some out

theorem parses_iff {l : FirstLine} {pf : Platform} {cbs : Callbacks} {errno : Int} {s : Stream}
    {reads : List Read} {out : Outcome} :
    Parses l pf cbs errno s reads out ↔
      Returns (loopStep pf l.parse cbs) ⟨.top, .init s errno, reads⟩ out := by
  cases l <;> exact Iff.rfl

/-- The lines of the head are short enough for scans that count in `int`, with
up to `R` bytes received beyond them. -/
structure HeadFits (R : Nat) (l : FirstLine) (hs : List Header) : Prop where
  line : (l.bytes.length : Int) + 1 + R ≤ intMax
  headers : ∀ h ∈ hs, (h.bytes.length : Int) + 1 + R ≤ intMax

/-- Exactly one `Content-Length`, of `n`, and no `Transfer-Encoding`. -/
structure HasLength (hs : List Header) (n : Nat) : Prop where
  one : ∃ pre h post, hs = pre ++ h :: post ∧ h.IsContentLength n ∧
    ∀ x ∈ pre ++ post, ¬ x.Named contentLength
  plain : ∀ h ∈ hs, ¬ h.Named transferEncoding
  fits : (n : Int) ≤ intMax

theorem HasLength.framing {hs : List Header} {n : Nat} (h : HasLength hs n) :
    framingFrom .unset hs = .length n := by
  obtain ⟨pre, a, post, rfl, ha, hother⟩ := h.one
  refine framingFrom_length ha (fun x hx => ⟨hother x (by simp [hx]), fun hc => ?_⟩)
    (fun x hx => ⟨hother x (by simp [hx]), fun hc => ?_⟩)
  · exact h.plain x (by simp [hx]) hc.1
  · exact h.plain x (by simp [hx]) hc.1

theorem HasLength.lengthOk {hs : List Header} {n : Nat} (h : HasLength hs n) :
    ∀ x ∈ hs, x.LengthOk := by
  obtain ⟨pre, a, post, rfl, ha, hother⟩ := h.one
  intro x hx hn
  have hcases : x = a ∨ x ∈ pre ++ post := by
    simp only [List.mem_append, List.mem_cons] at hx ⊢
    tauto
  rcases hcases with rfl | hx
  · exact ⟨ha.digits, by rw [ha.value]; exact h.fits⟩
  · exact absurd hn (hother x hx)

/-! ## What an exact reading is -/

/-- One `line_cb`, one `header_cb` for each header, and then these. -/
def HeadCalls (l : FirstLine) (hs : List Header) (calls more : List Call) : Prop :=
  ∃ c cs, calls = c :: (cs ++ more) ∧ LineCall l c ∧ List.Forall₂ HeaderCall hs cs

/-- The call of `body_cb` for this body: both ranges address it. -/
structure BodyCall (bs : List UInt8) (c : Call) : Prop where
  kind : c.kind = .body
  range : Addresses c.inp c.ctx.body bs
  chunk : Addresses c.inp c.ctx.currentChunk bs

/-- `pos` is at the first byte of `rest`, received or not. -/
structure StandsAt (rest : List UInt8) (s : Stream) (reads : List Read) : Prop where
  pos_nonneg : 0 ≤ s.pos
  stream : (s.data ++ pending reads).drop s.pos.toNat = rest

theorem StandsAt.unique {r r' : List UInt8} {s : Stream} {reads : List Read}
    (h : StandsAt r s reads) (h' : StandsAt r' s reads) : r = r' :=
  h.stream.symm.trans h'.stream

/-- How many bytes are behind `pos`, received or not; `pos` may be behind them. -/
def Stream.left (s : Stream) (reads : List Read) : Int := (s.data ++ pending reads).length - s.pos

theorem Recycler.left_apply (rc : Recycler) (s : Stream) (nonempty upto : Int)
    (reads : List Read) : (rc.apply s nonempty upto).left reads = s.left reads := by
  have h := rc.amount_le_eod s nonempty upto
  unfold Stream.left Recycler.apply
  simp only [List.length_append, List.length_drop]
  omega

/-- What a call that returned leaves to be read. -/
def Outcome.ahead : Outcome → Option (List UInt8)
  | .returned _ q reads => some ((q.inp.data ++ pending reads).drop q.inp.pos.toNat)
  | .blocked _ => none

/-- Running the call tells where it can leave the stream. -/
theorem Parses.ahead_eq {l : FirstLine} {pf : Platform} {cbs : Callbacks} {errno : Int}
    {s : Stream} {reads reads' : List Read} {res : Res} {q : Parser} {rest r : List UInt8}
    (fuel : Nat) (h : Parses l pf cbs errno s reads (.returned res q reads'))
    (hrun : (l.httpParse pf cbs fuel (.init s errno) reads).bind Outcome.ahead = some r)
    (hs : StandsAt rest q.inp reads') : rest = r := by
  obtain ⟨out, hout, hr⟩ := Option.bind_eq_some_iff.mp hrun
  have heq := Returns.unique (parses_iff.mp h) (parses_iff.mp ⟨fuel, hout⟩)
  subst heq
  rw [← hs.stream]
  exact Option.some.inj hr

/-- The message was read exactly. -/
structure ReadExactly (l : FirstLine) (hs : List Header) (body rest : List UInt8)
    (q : Parser) (reads : List Read) : Prop where
  calls : ∃ c, HeadCalls l hs q.calls [c] ∧ BodyCall body c
  stands : StandsAt rest q.inp reads

theorem PlainDone.exact {pf : Platform} {b n : Nat} {stream body rest : List UInt8}
    {calls : List Call} {q : Parser} {reads : List Read} {c : Call}
    (h : PlainDone pf b n stream calls q reads c) (hstream : stream.drop b = body ++ rest)
    (hn : body.length = n) : BodyCall body c ∧ StandsAt rest q.inp reads := by
  have hcomplete := h.call.complete
  have hle : b ≤ c.inp.data.length := by
    unfold Stream.eod at hcomplete
    omega
  have hdata : ∃ behind, c.inp.data.drop b = body ++ behind := by
    have hs := hstream
    rw [← h.stream, List.drop_append_of_le_length hle] at hs
    refine ⟨(c.inp.data.drop b).drop body.length, ?_⟩
    have htake := congrArg (List.take body.length) hs
    rw [List.take_left, List.take_append_of_le_length] at htake
    · conv_lhs => rw [← List.take_append_drop body.length (c.inp.data.drop b)]
      rw [htake]
    · unfold Stream.eod at hcomplete
      rw [List.length_drop]
      omega
  obtain ⟨behind, hdata⟩ := hdata
  have haddr := addresses_of_drop hdata
  rw [hn] at haddr
  have hpos := h.call.pos
  obtain ⟨h0, hdrop⟩ := recycle_drop pf.recycler (show (0 : Int) ≤ (b : Int) by omega)
    (show (b : Int) ≤ c.inp.pos by omega) 512 (pending reads)
  refine ⟨⟨h.call.kind, ?_, ?_⟩, ?_, ?_⟩
  · rw [h.call.body]; exact haddr
  · rw [h.call.chunk]; exact haddr
  · rw [h.inp]; exact h0
  · rw [h.inp, hdrop, h.stream, hpos]
    have hnat : ((b : Int) + n).toNat = b + body.length := by omega
    rw [hnat, ← List.drop_drop, hstream, List.drop_left]

/-! ## Content-Length -/

section
variable (pf : Platform) {cbs : Callbacks} (errno : Int) {R n : Nat} {l : FirstLine}
variable {hs : List Header} {body rest : List UInt8} {s : Stream} {reads : List Read}

theorem HasLength.head (hcb : cbs.Succeeding) (hfits : HeadFits R l hs) (hlen : HasLength hs n)
    (harr : Arrives R (headBytes l hs ++ CR :: LF :: rest) s reads) :
    ∃ p reads' c cs, Reaches (loopStep pf l.parse cbs) ⟨.top, .init s errno, reads⟩
        ⟨.dispatch, p, reads'⟩ ∧
      BlankHere R (s.pos.toNat + (headBytes l hs).length) rest s reads p reads' ∧
      p.ctx.framing = .length n ∧ p.calls = c :: cs ∧ LineCall l c ∧
      List.Forall₂ HeaderCall hs cs := by
  obtain ⟨p, reads', c, cs, hr, hblank, hfr, hcalls, hline, hall⟩ :=
    head_reaches pf (p := .init s errno) hcb l hs hlen.lengthOk hfits.line hfits.headers rfl harr
  have hinit : (Parser.init s errno).ctx.framing = .unset := rfl
  rw [hinit, hlen.framing] at hfr
  exact ⟨p, reads', c, cs, hr, hblank, hfr, hcalls, hline, hall⟩

theorem BlankHere.body_start {b : Nat} {p : Parser} {reads' : List Read} {m : Nat}
    (h : BlankHere R b rest s reads p reads') (h0 : 0 ≤ s.pos) (hb : b = s.pos.toNat + m) :
    (Cuts s.eod reads (s.pos + m + 1) ∧ p.inp.pos + 2 = ((b + 3 : Nat) : Int)) ∨
      (¬ Cuts s.eod reads (s.pos + m + 1) ∧ p.inp.pos + 2 = ((b + 2 : Nat) : Int)) := by
  have hcast : (b : Int) + 1 = s.pos + m + 1 := by omega
  have hpos := h.pos
  rw [hcast] at hpos
  by_cases hcut : Cuts s.eod reads (s.pos + m + 1)
  · rw [if_pos hcut] at hpos
    exact .inl ⟨hcut, by omega⟩
  · rw [if_neg hcut] at hpos
    exact .inr ⟨hcut, by omega⟩

theorem BlankHere.total {b : Nat} {p : Parser} {reads' : List Read}
    (h : BlankHere R b rest s reads p reads') :
    (p.inp.data ++ pending reads').length = b + 2 + rest.length := by
  have hc := h.complete
  have hlen := congrArg List.length h.stream
  rw [List.length_drop] at hlen
  unfold Stream.eod at hc
  have : p.inp.data.length ≤ (p.inp.data ++ pending reads').length := by simp
  omega

/-- No read ends inside the empty line: the message is read exactly, and all of
it has come. -/
theorem length_exact (hcb : cbs.Succeeding) (hfits : HeadFits R l hs)
    (hlen : HasLength hs n) (hbody : body.length = n)
    (harr : Arrives R (headBytes l hs ++ CR :: LF :: (body ++ rest)) s reads)
    (hcut : ¬ Cuts s.eod reads (s.pos + (headBytes l hs).length + 1)) :
    ∃ q reads', Parses l pf cbs errno s reads (.returned .ok q reads') ∧
      ReadExactly l hs body rest q reads' ∧ (pending reads').length ≤ rest.length := by
  obtain ⟨p, reads₁, c, cs, hr, hblank, hfr, hcalls, hline, hall⟩ :=
    hlen.head pf errno hcb hfits harr
  have hstream := hblank.stream
  have htotal := hblank.total
  have happ : (body ++ rest).length = body.length + rest.length := List.length_append
  rcases hblank.body_start harr.pos_nonneg rfl with ⟨hcut', -⟩ | ⟨-, hpos⟩
  · exact absurd hcut' hcut
  have hout := plain_outcome pf l.parse hcb hblank hfr hpos
  rw [if_pos (by omega)] at hout
  obtain ⟨q, reads', c', hret, hdone⟩ := hout
  obtain ⟨hcall, hstands⟩ := hdone.exact hstream hbody
  refine ⟨q, reads', parses_iff.mpr (hr.returns hret), ⟨⟨c', ⟨c, cs, ?_, hline, hall⟩, hcall⟩,
    hstands⟩, ?_⟩
  · rw [hdone.calls, hcalls]
    rfl
  · have hcomplete := hdone.call.complete
    have hlen' := congrArg List.length hdone.stream
    rw [List.length_append] at hlen'
    unfold Stream.eod at hcomplete
    omega

/-- A read ends inside the empty line: the body is taken from one byte too far,
and there are too few bytes, or its end is the wrong one. -/
theorem length_lost (hcb : cbs.Succeeding) (hfits : HeadFits R l hs)
    (hlen : HasLength hs n) (hbody : body.length = n)
    (harr : Arrives R (headBytes l hs ++ CR :: LF :: (body ++ rest)) s reads)
    (hcut : Cuts s.eod reads (s.pos + (headBytes l hs).length + 1)) {q : Parser}
    {reads' : List Read} (hparse : Parses l pf cbs errno s reads (.returned .ok q reads')) :
    ¬ ReadExactly l hs body rest q reads' := by
  intro hexact
  obtain ⟨p, reads₁, c, cs, hr, hblank, hfr, -⟩ := hlen.head pf errno hcb hfits harr
  have hstream := hblank.stream
  have htotal := hblank.total
  have happ : (body ++ rest).length = body.length + rest.length := List.length_append
  generalize hb : s.pos.toNat + (headBytes l hs).length = b at hblank hstream htotal
  rcases hblank.body_start harr.pos_nonneg hb.symm with ⟨-, hpos⟩ | ⟨hcut', -⟩
  swap
  · exact hcut' hcut
  have hret := hr.returns_iff.mp (parses_iff.mp hparse)
  have hout := plain_outcome pf l.parse hcb hblank hfr hpos
  split at hout
  · rename_i hle
    obtain ⟨q', reads'', c', hret', hdone⟩ := hout
    have heq := Returns.unique hret hret'
    cases heq
    have hshift : (p.inp.data ++ pending reads₁).drop (b + 3) =
        ((body ++ rest).drop 1).take n ++ rest.drop 1 := by
      rw [show b + 3 = b + 2 + 1 from rfl, ← List.drop_drop, hstream]
      conv_lhs => rw [← List.take_append_drop n ((body ++ rest).drop 1)]
      rw [List.drop_drop, Nat.add_comm 1 n, ← List.drop_drop, List.drop_left' hbody]
    have hrest : rest.drop 1 = rest :=
      (hdone.exact hshift (by simp; omega)).2.unique hexact.stands
    have hlen' := congrArg List.length hrest
    rw [List.length_drop] at hlen'
    omega
  · obtain ⟨q', hret'⟩ := hout
    have heq := Returns.unique hret hret'
    cases heq

/-- **A message with a `Content-Length` is read exactly, body and end, unless a
read ends between the CR and the LF of its empty line.**  The head fits in the
reads and the callbacks accept. -/
theorem length_exact_iff (hcb : cbs.Succeeding) (hfits : HeadFits R l hs)
    (hlen : HasLength hs n) (hbody : body.length = n)
    (harr : Arrives R (headBytes l hs ++ CR :: LF :: (body ++ rest)) s reads) :
    (∃ q reads', Parses l pf cbs errno s reads (.returned .ok q reads') ∧
      ReadExactly l hs body rest q reads') ↔
      ¬ Cuts s.eod reads (s.pos + (headBytes l hs).length + 1) := by
  constructor
  · rintro ⟨q, reads', hparse, hexact⟩ hcut
    exact length_lost pf errno hcb hfits hlen hbody harr hcut hparse hexact
  · intro hcut
    obtain ⟨q, reads', hparse, hexact, -⟩ := length_exact pf errno hcb hfits hlen hbody harr hcut
    exact ⟨q, reads', hparse, hexact⟩

end

/-! ### One message, cut in two ways -/

/-- A platform whose recycling keeps everything. -/
def Platform.keeping : Platform := ⟨.keep, -1, minus_one_neg⟩

/-- Callbacks that accept everything. -/
def Callbacks.accepting : Callbacks :=
  ⟨some fun _ _ _ => 0, some fun _ _ _ => 0, some fun _ _ _ => 0⟩

theorem Callbacks.accepting_succeeding : Callbacks.accepting.Succeeding :=
  ⟨⟨_, rfl, fun _ _ _ => rfl⟩, ⟨_, rfl, fun _ _ _ => rfl⟩, ⟨_, rfl, fun _ _ _ => rfl⟩⟩

/-- `GET / HTTP/1.1`. -/
def RequestLine.getRoot : RequestLine where
  method := .get
  token := ascii "GET"
  token_ok := by decide
  gap := 0
  uri := ascii "/"
  uri_ne := by decide
  uri_ok := by decide

/-- What is looked at of a call: its result and `bodysz`. -/
def Outcome.bodysz : Outcome → Option (Res × Int)
  | .blocked _ => none
  | .returned r q _ => some (r, q.ctx.bodysz)

theorem parses_bodysz (fuel : Nat) (reads : List Read) {r : Res} {z : Int}
    (h : ((FirstLine.request .getRoot).httpParse .keeping .accepting fuel (.init ⟨[], [], 0⟩ 0)
      reads).bind Outcome.bodysz = some (r, z)) :
    ∃ q rest, Parses (.request .getRoot) .keeping .accepting 0 ⟨[], [], 0⟩ reads
      (.returned r q rest) ∧ q.ctx.bodysz = z := by
  obtain ⟨out, hout, hobs⟩ := Option.bind_eq_some_iff.mp h
  cases out with
  | blocked _ => cases hobs
  | returned r' q rest =>
      cases hobs
      exact ⟨q, rest, ⟨fuel, hout⟩, rfl⟩

/-- `Content-Length: 1`. -/
def Header.lengthOne : Header where
  name := ascii "Content-Length"
  blanks := [SP]
  value := ascii "1"
  name_ne := by decide
  name_ok := by decide
  blanks_ok := isspace_blank
  value_ne := by decide
  value_ok := by decide
  value_head := by decide

theorem hasLength_lengthOne : HasLength [.lengthOne] 1 :=
  ⟨⟨[], _, [], rfl, ⟨by decide, by decide, by decide⟩, by simp⟩, by decide, by decide⟩

theorem headFits_getRoot_lengthOne : HeadFits 64 (.request .getRoot) [.lengthOne] :=
  ⟨by decide, by decide⟩

theorem length_exact_iff_getRoot :
    ∃ q reads, Parses (.request .getRoot) .keeping .accepting 0 ⟨[], [], 0⟩
        [.bytes (ascii "GET / HTTP/1.1\r\nContent-Length: 1\r\n\r\nAB") []]
        (.returned .ok q reads) ∧
      ReadExactly (.request .getRoot) [.lengthOne] (ascii "A") (ascii "B") q reads :=
  (length_exact_iff (R := 64) .keeping 0 Callbacks.accepting_succeeding headFits_getRoot_lengthOne
    hasLength_lengthOne rfl
    ⟨by decide, by decide, by decide, .cons (by decide) (by decide) (.nil _), by decide⟩).mpr
    (by decide)

/-- The same message, cut between the CR and the LF of its empty line: the
body is taken from the second byte behind it. -/
theorem length_cut_in_blank_line :
    Arrives 64 (headBytes (.request .getRoot) [.lengthOne] ++ CR :: LF :: (ascii "A" ++ ascii "B"))
        ⟨[], [], 0⟩ [.bytes (ascii "GET / HTTP/1.1\r\nContent-Length: 1\r\n\r") [],
          .bytes (ascii "\nAB") []] ∧
      ¬ ∃ q reads, Parses (.request .getRoot) .keeping .accepting 0 ⟨[], [], 0⟩
          [.bytes (ascii "GET / HTTP/1.1\r\nContent-Length: 1\r\n\r") [],
            .bytes (ascii "\nAB") []] (.returned .ok q reads) ∧
        ReadExactly (.request .getRoot) [.lengthOne] (ascii "A") (ascii "B") q reads := by
  refine ⟨⟨by decide, by decide, by decide,
    .cons (by decide) (by decide) (.cons (by decide) (by decide) (.nil _)), by decide⟩, ?_⟩
  rintro ⟨q, reads, hparse, hexact⟩
  have hend := hparse.ahead_eq 20 (r := []) (by decide +kernel) hexact.stands
  exact absurd hend (by decide)

end MnHttp
