/-
# `MnApp.Http.HeadCalls` — the calls of `line_cb` and `header_cb` for any head

What is told of a head to the two callbacks, line by line as the lines stand
in the stream.  `FieldCall` is the call for a header line, with the name and
the value that the line has for this parser, the first `':'` between them and
no blanks before the value.

  * Wherever a run is in a head, the calls so far are the call for the first
    line and one for each header line behind the parser (`calls_reaches`).
  * A head whose first line is accepted, and whose header lines all have a
    name and a value, is read to its empty line (`request_reaches`).
-/
import MnApp.Http.ContentLength

namespace MnHttp

open CLib Loop

/-! ## The call for a line -/

/-- The call of `header_cb` for a line. -/
structure FieldCall (line : List UInt8) (c : Call) : Prop where
  kind : c.kind = .header
  name : Addresses c.inp c.ctx.currentHeaderName (nameOf line)
  value : headerValue line ≠ [] → Addresses c.inp c.ctx.currentHeaderValue (headerValue line)
  absent : headerValue line = [] → c.ctx.currentHeaderValue.start < 0

/-- The call of `line_cb` for a request. -/
structure UriCall (uri : List UInt8) (c : Call) : Prop where
  kind : c.kind = .line
  uri : c.ctx.requestUri = some uri

/-- The calls for the lines that have been read. -/
def CallsAt (p : Parser) : Option (List (List UInt8)) → Prop
  | none => p.calls = []
  | some seen => ∃ uri c cs, p.calls = c :: cs ∧ UriCall uri c ∧
      (∀ b ∈ uri, ISSPACE b = false) ∧ List.Forall₂ FieldCall seen cs

section
variable {pf : Platform} {p q : Parser} {st : Nat} {line behind : List UInt8}

theorem LineNow.split (h : LineNow st line behind p) :
    p.inp.data.drop st = nameOf line ++ COLON :: (behindColon line ++ CR :: LF :: behind) ∧
      line.length = (nameOf line).length + 1 + (behindColon line).length := by
  obtain ⟨c, hcolon⟩ := h.colon
  obtain ⟨hsplit, -⟩ := split_colon hcolon
  constructor
  · rw [h.data]
    conv_lhs => rw [hsplit]
    simp
  · conv_lhs => rw [hsplit]
    simp only [List.length_append, List.length_cons]
    omega

theorem LineNow.ranges (h : LineNow st line behind p) (nullOff : Int) :
    let x := atHeader nullOff st line p
    Addresses x.inp x.ctx.currentHeaderName (nameOf line) ∧
      (headerValue line ≠ [] → Addresses x.inp x.ctx.currentHeaderValue (headerValue line)) ∧
      (headerValue line = [] → x.ctx.currentHeaderValue.start = nullOff) := by
  obtain ⟨hdata, hlen⟩ := h.split
  have hfit := h.fits
  obtain ⟨hd, -, hn, hv⟩ := headerLine_line nullOff h.start hdata (by omega)
  have hcast : (st : Int) + line.length =
      (st : Int) + ((nameOf line).length + 1 + (behindColon line).length) := by omega
  unfold atHeader
  simp only [hcast]
  generalize headerLine nullOff _ _ p = x at hd hn hv
  refine ⟨by rw [hn]; exact addresses_of_drop hd, fun hval => ?_, fun hval => ?_⟩
  · rw [if_pos (headerValue_ne_nil.mp hval)] at hv
    have hle : ((behindColon line).takeWhile ISSPACE).length ≤ (behindColon line).length :=
      (List.takeWhile_sublist _).length_le
    have hskip : x.inp.data.drop
        (st + ((nameOf line).length + 1 + ((behindColon line).takeWhile ISSPACE).length)) =
          headerValue line ++ NUL :: LF :: behind := by
      rw [← List.drop_drop, hd, ← List.drop_drop, ← List.drop_drop, List.drop_left, List.drop_one,
        List.tail_cons, List.drop_append_of_le_length hle, drop_takeWhile]
      rfl
    have hvlen : (headerValue line).length + ((behindColon line).takeWhile ISSPACE).length =
        (behindColon line).length := by
      unfold headerValue
      rw [← drop_takeWhile, List.length_drop]
      omega
    have haddr := addresses_of_drop hskip
    rw [hv]
    convert haddr using 2 <;> push_cast <;> omega
  · rw [if_neg fun hex => headerValue_ne_nil.mpr hex hval] at hv
    rw [hv]

theorem LineNow.call (h : LineNow st line behind p) {r : Res}
    (hproc : processHeader (atHeader pf.nullOff st line p) = (r, q)) :
    FieldCall line ⟨.header, q.ctx, q.inp⟩ := by
  obtain ⟨hname, hvalue, hnone⟩ := h.ranges pf.nullOff
  obtain ⟨hinp, -, -, -⟩ := processHeader_frame (atHeader pf.nullOff st line p)
  obtain ⟨hpn, hpv⟩ := processHeader_ranges (atHeader pf.nullOff st line p)
  rw [hproc] at hinp hpn hpv
  simp only at hinp hpn hpv hname hvalue hnone
  refine ⟨rfl, ?_, fun hval => ?_, fun hval => ?_⟩
  · simp only [hinp, hpn]
    exact hname
  · simp only [hinp, hpv]
    exact hvalue hval
  · simp only [hpv, hnone hval]
    exact pf.nullOff_neg

end

/-! ## The calls of a run -/

theorem findsp_take {s : List UInt8} {n : Int} {k : Nat} (h : findsp s n = some k) :
    ∀ b ∈ s.take k, ISSPACE b = false := by
  unfold findsp at h
  obtain ⟨hlt, -, hno⟩ := List.findIdx?_eq_some_iff_getElem.mp h
  intro b hb
  obtain ⟨i, hi, rfl⟩ := List.mem_iff_getElem.mp hb
  rw [List.length_take] at hi hlt
  have := hno i (by omega)
  simpa using this

theorem parseVersion_uri {p q : Parser} {t : Int} {e : Except Res Int}
    (h : parseVersion p t = (e, q)) : q.ctx.requestUri = p.ctx.requestUri := by
  unfold parseVersion at h
  simp only at h
  repeat' split at h
  all_goals (cases h; rfl)

/-- **The request URI has no blanks in it**, whatever the line was. -/
theorem parseRequestLine_uri {p q : Parser} (h : parseRequestLine p = (.ok, q)) :
    ∃ uri, q.ctx.requestUri = some uri ∧ ∀ b ∈ uri, ISSPACE b = false := by
  unfold parseRequestLine at h
  simp only at h
  split at h
  · cases h
  iterate 4
    split at h
    · cases h
  rename_i hsz
  split at h
  · cases h
  split at h
  · rename_i hv
    obtain ⟨-, -, -, herr⟩ := parseVersion_frame hv
    exact absurd (congrArg Prod.fst h) (herr _ rfl).1
  · rename_i hv
    cases h
    exact ⟨_, parseVersion_uri hv, findsp_take hsz⟩

section
variable {pf : Platform} {x : RequestLine} {cbs : Callbacks} {H : RawHead} {Z : List UInt8}
variable {b : Nat} {p q : Parser} {k k' : Option (List (List UInt8))}

theorem CallsAt.step (hcb : cbs.Succeeding) (h : CallsAt p k)
    (hs : LinesStep pf (.request x) cbs p q k k') : CallsAt q k' := by
  cases hs with
  | same _ calls =>
      unfold CallsAt at *
      rw [calls]
      exact h
  | line r parsed eq =>
      have hframe := FirstLine.parse_frame (.request x) p
      rw [parsed] at hframe
      have hr : r.calls = p.calls := hframe.calls
      obtain ⟨uri, huri, hclean⟩ := parseRequestLine_uri parsed
      have hnone : p.calls = [] := h
      rw [eq, callback_ok hcb.line]
      exact ⟨uri, _, [], by simp only [hr, hnone]; rfl, ⟨rfl, huri⟩, hclean, .nil⟩
  | header seen st line behind y now processed calls framing =>
      obtain ⟨uri, c, cs, hcalls, hline, hclean, hall⟩ := h
      have hy : y.calls = p.calls := by
        have := (processHeader_frame (atHeader pf.nullOff st line p)).2.1
        rw [processed] at this
        exact this
      refine ⟨uri, c, cs ++ [⟨.header, y.ctx, y.inp⟩], ?_, hline, hclean,
        List.rel_append hall (.cons (now.call processed) .nil)⟩
      rw [calls, callback_ok hcb.header, hy, hcalls]
      rfl

/-- **The calls of a run that is in the head.** -/
theorem calls_reaches {t t' : LoopState} (hcb : cbs.Succeeding)
    (hend : HeadEnd Z) (hat : LinesAt H Z b t.par t.reads none) (hnone : t.par.calls = [])
    (h : Reaches (loopStep pf parseRequestLine cbs) t t') :
    t'.par.ctx.parserState = .body ∨
      ∃ k, LinesAt H Z b t'.par t'.reads k ∧ CallsAt t'.par k := by
  have hcalls : CallsAt t.par none := hnone
  have h' : Reaches (loopStep pf (FirstLine.request .getRoot).parse cbs) t t' := h
  exact LinesAt.reaches (fun p bs slack k h => by cases k <;> exact h)
    (fun p q k k' h hs => h.step hcb hs) hend hat hcalls h'

/-- **A run that has come to an empty line has read the lines before it**, and
has made their calls. -/
theorem called_lines {errno : Int} {s : Stream} {reads reads' : List Read} (hcb : cbs.Succeeding)
    (hend : HeadEnd Z) (h0 : 0 ≤ s.pos) (hle : s.pos ≤ s.eod + 2)
    (hstream : (s.data ++ pending reads).drop s.pos.toNat = H.bytes ++ Z)
    (h : Reaches (loopStep pf parseRequestLine cbs) ⟨.top, .init s errno, reads⟩
      ⟨.dispatch, p, reads'⟩)
    (hstate : p.ctx.parserState = .headerFieldOut)
    (hfound : p.inp.scan p.ctx.currentHeaderName.start = some 0) :
    CallsAt p (some H.lines) ∧ BlankAt Z (s.pos.toNat + H.bytes.length) p := by
  have hat : LinesAt H Z (s.pos.toNat + H.bytes.length) (Parser.init s errno) reads none :=
    .first s.pos.toNat (.inl ⟨rfl, by show s.pos = _; omega⟩) (by show _ ≤ s.eod + 2; omega)
      hstream rfl
  rcases calls_reaches (t := ⟨.top, .init s errno, reads⟩) hcb hend hat rfl h with
    hbody | ⟨k, hat', hcalls⟩
  · cases hstate.symm.trans hbody
  · obtain ⟨rfl, hblank⟩ := hat'.blank hend hstate hfound
    exact ⟨hcalls, hblank⟩

end

/-! ## A head that is read -/

/-- A header line with a `':'` and a value. -/
structure GoodLine (line : List UInt8) : Prop where
  noCrlf : NoCrlf line
  colon : ∃ c, line.findIdx? (· == COLON) = some c
  value : headerValue line ≠ []

section
variable (pf : Platform) {l : FirstLine} {cbs : Callbacks} {R : Nat} {rest : List UInt8}
variable {p : Parser} {reads : List Read}

theorem dispatch_field {st : Nat} {line behind : List UInt8} (hcb : cbs.Succeeding)
    (hgood : GoodLine line) (hs : p.ctx.parserState = .headerFieldOut)
    (hst : p.ctx.currentHeaderName.start = st)
    (hfound : findcrlf (p.inp.mem st) (toInt (p.inp.eod - st)) = some line.length)
    (hdata : p.inp.data.drop st = line ++ CR :: LF :: behind)
    (hfit : (line.length : Int) ≤ intMax) :
    ∃ q c, dispatch pf l.parse cbs p = .again q ∧ Passed line.length st p q c ∧
      FieldCall line c := by
  obtain ⟨c, hcolon⟩ := hgood.colon
  have hnow : LineNow st line behind p := ⟨hst, hdata, ⟨c, hcolon⟩, hfit⟩
  have hclt := (List.findIdx?_eq_some_iff_getElem.mp hcolon).1
  have hname := (split_colon hcolon).2
  obtain ⟨n, hn⟩ : ∃ n, line.length = n + 1 := ⟨line.length - 1, by omega⟩
  have hcall : headerCall pf p = some (line, atHeader pf.nullOff st line p) := by
    have hmem : (p.inp.mem st).take (n + 1) = line := by
      rw [mem_eq_of_drop hdata (by simp), ← hn, List.append_assoc, List.take_left]
    have hscan : p.inp.scan st = some (n + 1) := by rw [← hn]; exact hfound
    have htake : (p.inp.data.drop st).take (n + 1) = line := by rw [hdata, ← hn, List.take_left]
    have hlen : (line.length : Int) = n + 1 := by omega
    unfold headerCall
    simp only [hst, hscan, hmem, hcolon, Option.map_some, Int.toNat_natCast, htake, atHeader, hname,
      hlen]
  obtain ⟨n', hfound', hdisp⟩ := dispatch_headerCall l.parse cbs hs hcall
  have hn' : line.length = n' + 1 := by
    rw [hst] at hfound'
    exact Option.some.inj (hfound.symm.trans hfound')
  obtain ⟨hinp, hcalls, -, -⟩ := processHeader_frame (atHeader pf.nullOff st line p)
  obtain ⟨e, y, hproc⟩ : ∃ e y, processHeader (atHeader pf.nullOff st line p) = (e, y) :=
    ⟨_, _, rfl⟩
  rw [hproc] at hinp hcalls hdisp
  obtain ⟨rfl, -, -⟩ | ⟨-, -, hnil⟩ := processHeader_line pf.nullOff_neg hst hdata hcolon hfit hproc
  · simp only [callback_ok hcb.header, ne_eq, not_true, if_false] at hdisp
    refine ⟨_, _, hdisp, ⟨rfl, ?_, ?_, ?_, ?_, ?_⟩, hnow.call hproc⟩
    · rw [show y.calls = p.calls from hcalls]
    · simp only [Stream.pos_advance]
      omega
    · simp only [Stream.eod_advance]
      rw [show y.inp = (atHeader pf.nullOff st line p).inp from hinp]
      simp [atHeader, headerLine]
    · show y.inp.slack = p.inp.slack
      rw [show y.inp = (atHeader pf.nullOff st line p).inp from hinp]
      rfl
    · rw [Stream.data_advance, show y.inp = (atHeader pf.nullOff st line p).inp from hinp]
      exact headerLine_behind pf.nullOff p (by omega) (by omega)
  · exact absurd hnil hgood.value

theorem lines_done (hcb : cbs.Succeeding) : ∀ (ls : List (List UInt8)) {p : Parser}
    {reads : List Read}, (∀ ln ∈ ls, GoodLine ln ∧ (ln.length : Int) + 1 + R ≤ intMax) →
    p.ctx.parserState = .headerFieldIn → AtTop R (rawLines ls ++ rest) p reads →
    ∃ p' reads' cs, Reaches (loopStep pf l.parse cbs) ⟨.top, p, reads⟩ ⟨.top, p', reads'⟩ ∧
      AtTop R rest p' reads' ∧ p'.inp.pos = p.inp.pos + (rawLines ls).length ∧
      p'.ctx.parserState = .headerFieldIn ∧ p'.calls = p.calls ++ cs ∧
      List.Forall₂ FieldCall ls cs := by
  intro ls
  induction ls with
  | nil =>
      intro p reads _ hst hat
      exact ⟨p, reads, [], .refl _, hat, by simp [rawLines], hst, by simp, .nil⟩
  | cons ln ls ih =>
      intro p reads hok hst hat
      obtain ⟨hgood, hfit⟩ := hok ln List.mem_cons_self
      have hat' : AtTop R (ln ++ CR :: LF :: (rawLines ls ++ rest)) p reads := by
        simpa [rawLines, crlf] using hat
      obtain ⟨p₁, reads₁, c, hr₁, hat₁, hon, hst₁, hcalls₁, hcall⟩ :=
        field_reaches pf l.parse (T := fun _ c => FieldCall ln c) hgood.noCrlf hfit hst hat'
          fun q st behind hstate hstart _ hfound hdata =>
            dispatch_field pf hcb hgood hstate hstart hfound hdata (by omega)
      obtain ⟨p₂, reads₂, cs, hr₂, hat₂, hpos₂, hst₂, hcalls₂, hall⟩ :=
        ih (fun x hx => hok x (List.mem_cons_of_mem _ hx)) hst₁ hat₁
      have hpos := hon.pos
      refine ⟨p₂, reads₂, c :: cs, hr₁.trans hr₂, hat₂, ?_, hst₂, ?_, .cons hcall hall⟩
      · simp only [rawLines, List.flatMap_cons, List.length_append, crlf, List.length_cons,
          List.length_nil] at hpos₂ ⊢
        omega
      · rw [hcalls₂, hcalls₁]
        simp

theorem dispatch_request {st : Nat} {method uri behind : List UInt8} (hcb : cbs.Succeeding)
    (hmethod : method ≠ []) (hmethod_ok : ∀ b ∈ method, b ≠ SP ∧ b ≠ TAB)
    (huri : uri ≠ []) (huri_ok : ∀ b ∈ uri, b ≠ SP ∧ b ≠ TAB)
    (hs : p.ctx.parserState = .line) (hst : p.ctx.firstLine.start = st)
    (hfound : findcrlf (p.inp.mem st) (toInt (p.inp.eod - st)) =
      some (requestBytes method 0 uri).length)
    (hmem : p.inp.mem st = requestBytes method 0 uri ++ CR :: LF :: behind)
    (hfit : ((requestBytes method 0 uri).length : Int) ≤ intMax) :
    ∃ q c, dispatch pf (FirstLine.request .getRoot).parse cbs p = .again q ∧
      Passed (requestBytes method 0 uri).length st p q c ∧ UriCall uri c := by
  have hparse := parseRequestLine_words 0 hmethod hmethod_ok huri huri_ok hst hfound hmem hfit
  unfold dispatch
  simp only [hs, FirstLine.parse, hparse, callback_ok hcb.line, ne_eq, not_true, if_false]
  refine ⟨_, _, rfl, ⟨rfl, rfl, ?_, rfl, rfl, rfl⟩, rfl, rfl⟩
  simp only [Stream.pos_advance]
  omega

/-- The parser is at a complete empty line that starts at `b`.  It has called
`line_cb` once, for the request URI, and `header_cb` once for each of `fs`. -/
structure HeadCalled {α : Type} (K : α → Call → Prop) (b : Int) (uri : List UInt8) (fs : List α)
    (p : Parser) : Prop where
  state : p.ctx.parserState = .headerFieldOut
  start : p.ctx.currentHeaderName.start = b
  found : p.inp.scan b = some 0
  calls : ∃ c cs, p.calls = c :: cs ∧ UriCall uri c ∧ List.Forall₂ K fs cs

/-- **A request with good lines is read to its empty line**, cut in any way. -/
theorem request_reaches (hcb : cbs.Succeeding) {method uri : List UInt8} {ls : List (List UInt8)}
    (errno : Int) {s : Stream} (hmethod : method ≠ [])
    (hmethod_ok : ∀ b ∈ method, b ≠ SP ∧ b ≠ TAB) (huri : uri ≠ [])
    (huri_ok : ∀ b ∈ uri, b ≠ SP ∧ b ≠ TAB) (hno : NoCrlf (requestBytes method 0 uri))
    (hfit : ((requestBytes method 0 uri).length : Int) + 1 + R ≤ intMax)
    (hls : ∀ ln ∈ ls, GoodLine ln ∧ (ln.length : Int) + 1 + R ≤ intMax)
    (hat : Arrives R (requestBytes method 0 uri ++ crlf ++ rawLines ls ++ CR :: LF :: rest) s
      reads) :
    ∃ p reads', Reaches (loopStep pf parseRequestLine cbs) ⟨.top, .init s errno, reads⟩
        ⟨.dispatch, p, reads'⟩ ∧
      HeadCalled FieldCall (s.pos + (requestBytes method 0 uri ++ crlf ++ rawLines ls).length) uri
        ls p := by
  have hat₀ : Arrives R (requestBytes method 0 uri ++ CR :: LF :: (rawLines ls ++ CR :: LF :: rest))
      (Parser.init s errno).inp reads := by
    show Arrives R _ s reads
    simpa [crlf] using hat
  obtain ⟨p₁, reads₁, c, hr₁, hat₁, hon₁, hst₁, hcalls₁, hline⟩ :=
    first_reaches pf (.request .getRoot) (T := fun _ c => UriCall uri c) hno hfit rfl hat₀
      fun q st behind hstate hstart _ hfound hmem =>
        dispatch_request pf hcb hmethod hmethod_ok huri huri_ok hstate hstart hfound hmem (by omega)
  obtain ⟨p₂, reads₂, cs, hr₂, hat₂, hpos₂, hst₂, hcalls₂, hall⟩ :=
    lines_done pf (l := .request .getRoot) hcb ls hls hst₁ hat₁
  obtain ⟨p₃, reads₃, hr₃, hblank, -, hcalls₃⟩ :=
    blank_reaches pf (FirstLine.request .getRoot).parse cbs hst₂ hat₂ (by omega)
  have hpos₁ : p₁.inp.pos = s.pos + ((requestBytes method 0 uri).length + 2 : Nat) := hon₁.pos
  have h0 := hat.pos_nonneg
  have hb : (p₂.inp.pos.toNat : Int) =
      s.pos + (requestBytes method 0 uri ++ crlf ++ rawLines ls).length := by
    simp only [List.length_append, crlf, List.length_cons, List.length_nil]
    omega
  have hfound : p₃.inp.scan (p₂.inp.pos.toNat : Int) = some 0 := hblank.found
  refine ⟨p₃, reads₃, hr₁.trans (hr₂.trans hr₃), hblank.state, ?_, ?_, c, cs, ?_, hline, hall⟩
  · rw [hblank.start, hb]
  · rw [← hb]
    exact hfound
  · rw [hcalls₃, hcalls₂, hcalls₁]
    rfl

end

end MnHttp
