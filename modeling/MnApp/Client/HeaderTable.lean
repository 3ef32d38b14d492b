/-
# `MnApp.Client.HeaderTable` — the header table of a response, and its framing

Every header line of a response is seen by two pieces of code:

    process_header               folds it into `bodysz` and the chunked flag;
                                 the last `Content-Length` has the last word,
                                 and a `Transfer-Encoding: chunked` is kept
    mnhttpc_response_header_cb   puts it into a table under its lower-case
                                 name; the first one found wins

`lines_lookup` says what the table holds in terms of the lines: of each name
the value of its first line.  The two agree for a response exactly when the
last `Content-Length` reads as what the first one states, and no
`Transfer-Encoding: chunked` hides behind another `Transfer-Encoding`
(`framing_table_iff`).
-/
import MnApp.Client.System
import MnApp.Http.ChunkedFraming
import MnApp.Http.HeadCalls

namespace MnHttpc

open MnHttp CLib Loop

/-! ## Line by line -/

/-- The name of a line in the table. -/
def tableName (line : List UInt8) : List UInt8 := (cstr (nameOf line)).map tolower

/-- The value of a line in the table. -/
def tableValue (line : List UInt8) : List UInt8 := cstr (headerValue line)

/-- What a header line does to the table. -/
def tableLine (headers : HeaderTable) (line : List UInt8) : Option HeaderTable :=
  match headers.lookup (tableName line) with
  | some _ => some headers
  | none =>
      if headerValue line = [] then none
      else some ((tableName line, tableValue line) :: headers)

theorem tableLine_lookup {t t' : HeaderTable} {line : List UInt8} (h : tableLine t line = some t')
    (name : List UInt8) :
    t'.lookup name = (t.lookup name).or (if tableName line = name then some (tableValue line)
      else none) := by
  unfold tableLine at h
  cases hfound : t.lookup (tableName line) with
  | some v =>
      rw [hfound] at h
      cases h
      split
      · rename_i heq
        rw [← heq, hfound]
        rfl
      · rw [Option.or_none]
  | none =>
      rw [hfound] at h
      simp only at h
      split at h
      · cases h
      cases h
      by_cases heq : tableName line = name
      · subst heq
        rw [if_pos rfl, hfound, List.lookup_cons, beq_self_eq_true]
        rfl
      · have hne : (name == tableName line) = false := beq_eq_false_iff_ne.mpr fun h => heq h.symm
        rw [if_neg heq, Option.or_none, List.lookup_cons, hne]

/-- **Of each name the table holds the value of its first line.** -/
theorem lines_lookup {ls : List (List UInt8)} {t : HeaderTable}
    (h : ls.foldlM tableLine [] = some t) (name : List UInt8) :
    mnhttpcRequestInHeader t name =
      (ls.find? fun l => tableName l = name).map tableValue := by
  unfold mnhttpcRequestInHeader
  suffices ∀ t₀ : HeaderTable, ls.foldlM tableLine t₀ = some t →
      t.lookup name = (t₀.lookup name).or
        ((ls.find? fun l => tableName l = name).map tableValue) by
    simpa using this [] h
  clear h
  induction ls with
  | nil =>
      intro t₀ h
      cases h
      simp
  | cons l ls ih =>
      intro t₀ h
      rw [List.foldlM_cons] at h
      obtain ⟨t₁, h₁, h₂⟩ := Option.bind_eq_some_iff.mp h
      rw [ih t₁ h₂, tableLine_lookup h₁, Option.or_assoc, List.find?_cons]
      congr 1
      by_cases heq : tableName l = name
      · simp [heq]
      · simp [heq]

theorem tableName_length (line : List UInt8) :
    isLengthLine line = decide (tableName line = contentLength) := by
  have hlow : (cstr contentLength).map tolower = contentLength := by decide
  unfold isLengthLine strcasecmpEq tableName
  rw [hlow, beq_eq_decide]

theorem tableName_encoding (line : List UInt8) :
    isEncodingLine line = decide (tableName line = transferEncoding) := by
  have hlow : (cstr transferEncoding).map tolower = transferEncoding := by decide
  unfold isEncodingLine
  rw [tableName_length]
  unfold strcasecmpEq
  rw [hlow]
  by_cases h : tableName line = transferEncoding
  · have hne : tableName line ≠ contentLength := by
      rw [h]
      decide
    rw [decide_eq_false hne, decide_eq_true h]
    exact beq_iff_eq.mpr h
  · rw [decide_eq_false h, Bool.and_eq_false_iff]
    exact .inr (beq_eq_false_iff_ne.mpr h)

theorem asksChunked_value (line : List UInt8) :
    asksChunked line = (isEncodingLine line && decide (tableValue line = chunkedCoding)) := by
  have hcstr : cstr chunkedCoding = chunkedCoding := by decide
  unfold asksChunked strcmpEq tableValue
  rw [hcstr, beq_eq_decide]

/-! ## The lines of a run -/

section
variable {pf : Platform} {l : FirstLine} {cbs : Callbacks} {p q y : Parser} {st : Nat}
variable {line behind : List UInt8} {r : Res}

theorem headerCb_line (now : LineNow st line behind p)
    (hproc : processHeader (atHeader pf.nullOff st line p) = (r, y)) (t : HeaderTable) :
    mnhttpcResponseHeaderCb t y.ctx y.inp = tableLine t line := by
  obtain ⟨c, hcolon⟩ := now.colon
  obtain ⟨⟨m₁, hname⟩, hvalue, hnone⟩ :=
    headerLine_mem pf.nullOff now.start now.data hcolon now.fits
  obtain ⟨hinp, -, -, -⟩ := processHeader_frame (atHeader pf.nullOff st line p)
  obtain ⟨hpn, hpv⟩ := processHeader_ranges (atHeader pf.nullOff st line p)
  rw [hproc] at hinp hpn hpv
  unfold mnhttpcResponseHeaderCb tableLine tableName
  dsimp only
  have hmem : y.inp.mem y.ctx.currentHeaderName.start = nameOf line ++ NUL :: m₁ := by
    simp only at hinp hpn
    rw [hinp, hpn]
    exact hname
  simp only at hinp hpv
  rw [hmem, cstr_nul, hinp, hpv]
  cases t.lookup ((cstr (nameOf line)).map tolower) with
  | some v => rfl
  | none =>
      show (if (atHeader pf.nullOff st line p).ctx.currentHeaderValue.start < 0 then none
        else some _) = if headerValue line = [] then none else some _
      by_cases hval : headerValue line = []
      · have hneg : (atHeader pf.nullOff st line p).ctx.currentHeaderValue.start < 0 := by
          have : (atHeader pf.nullOff st line p).ctx.currentHeaderValue.start = pf.nullOff :=
            hnone hval
          rw [this]
          exact pf.nullOff_neg
        rw [if_pos hval, if_pos hneg]
      · obtain ⟨h0, m₂, hmem₂⟩ := hvalue hval
        have h0' : ¬ (atHeader pf.nullOff st line p).ctx.currentHeaderValue.start < 0 :=
          Int.not_lt.mpr h0
        have hstored : cstr ((atHeader pf.nullOff st line p).inp.mem
            (atHeader pf.nullOff st line p).ctx.currentHeaderValue.start) = tableValue line := by
          unfold tableValue
          rw [← cstr_nul (headerValue line) m₂, ← hmem₂]
          rfl
        rw [if_neg hval, if_neg h0', hstored]

theorem inHeaders_other {calls : List Call} {c : Call} (h : c.kind ≠ .header) :
    inHeaders (calls ++ [c]) = inHeaders calls := by
  unfold inHeaders
  rw [List.filter_append]
  simp [h]

theorem inHeaders_extends (h : q.Extends p) : inHeaders q.calls = inHeaders p.calls := by
  obtain ⟨cs, hcs, hkind⟩ := h
  have hnone : cs.filter (fun c => decide (c.kind = .header)) = [] :=
    List.filter_eq_nil_iff.mpr fun c hc => by simp [hkind c hc]
  unfold inHeaders
  rw [hcs, List.filter_append, hnone, List.append_nil]

/-- What has been made of the lines that have been read. -/
structure TableAt (p : Parser) (k : Option (List (List UInt8))) : Prop where
  framing : FramingAt p k
  table : inHeaders p.calls = (k.getD []).foldlM tableLine []
  calls : ∀ c ∈ p.calls, c.kind ≠ .body

theorem TableAt.step {body : Option Callback} {k k' : Option (List (List UInt8))}
    (h : TableAt p k) (hs : LinesStep pf l (responseCallbacks body) p q k k') : TableAt q k' := by
  refine ⟨h.framing.step hs, ?_, ?_⟩
  · cases hs with
    | same _ calls => rw [calls, h.table]
    | line r parsed eq =>
        have hframe := l.parse_frame p
        rw [parsed] at hframe
        have hcalls : r.calls = p.calls := hframe.calls
        have hq : q.calls = p.calls ++ [⟨.line, r.ctx, r.inp⟩] := by
          rw [eq, ← hcalls]
          rfl
        rw [hq, inHeaders_other (by simp), h.table]
        rfl
    | header seen st line behind y now processed calls framing =>
        have hy : y.calls = p.calls := by
          have := (processHeader_frame (atHeader pf.nullOff st line p)).2.1
          rw [processed] at this
          exact this
        have hq : q.calls = p.calls ++ [⟨.header, y.ctx, y.inp⟩] := by
          rw [calls, ← hy]
          rfl
        have htable := h.table
        unfold inHeaders at htable ⊢
        rw [hq, List.filter_append, List.foldlM_append, htable, Option.getD_some,
          Option.getD_some, List.foldlM_append]
        congr 1
        funext t
        have := headerCb_line now processed t
        simp [this]
  · cases hs with
    | same _ calls => rw [calls]; exact h.calls
    | line r parsed eq =>
        have hframe := l.parse_frame p
        rw [parsed] at hframe
        have hcalls : r.calls = p.calls := hframe.calls
        rw [eq]
        exact calls_append (by simp) (by rw [hcalls]; exact h.calls) _
    | header seen st line behind y now processed calls framing =>
        have hy : y.calls = p.calls := by
          have := (processHeader_frame (atHeader pf.nullOff st line p)).2.1
          rw [processed] at this
          exact this
        rw [calls]
        exact calls_append (by simp) (by rw [hy]; exact h.calls) _

end

/-! ## Agreement -/

/-- A decimal number, with blanks behind it. -/
def DecimalText (v : List UInt8) (n : Nat) : Prop :=
  ∃ ds blanks, v = ds ++ blanks ∧ ds ≠ [] ∧ (∀ d ∈ ds, isDigit 10 d = true) ∧
    (∀ b ∈ blanks, ISSPACE b = true) ∧ ofDigits 10 ds = n

/-- **The framing of a parsed response is what its table says**: without chunks
the length is that of the table's `content-length`, and there are chunks only
if the table's `transfer-encoding` asks for them. -/
structure FramingAgrees (q : Parser) (headers : HeaderTable) : Prop where
  length : q.ctx.flagChunked = false →
    match mnhttpcRequestInHeader headers contentLength with
    | some v => ∃ n : Nat, DecimalText v n ∧ q.ctx.bodysz = n
    | none => q.ctx.bodysz = -1
  chunked : q.ctx.flagChunked = true →
    mnhttpcRequestInHeader headers transferEncoding = some chunkedCoding

/-- First and last line say the same: without a line that asks for chunks, the
first `Content-Length` states a number and the last one reads as that number;
otherwise the first `Transfer-Encoding` asks for chunks. -/
structure FirstIsLast (ls : List (List UInt8)) : Prop where
  length : (∀ l ∈ ls, asksChunked l = false) → ∀ first, ls.find? isLengthLine = some first →
    ∃ n : Nat, DecimalText (tableValue first) n ∧
      (ls.filter isLengthLine).getLast?.map lengthOf = some (n : Int)
  chunked : (∃ l ∈ ls, asksChunked l = true) →
    ∃ first, ls.find? isEncodingLine = some first ∧ asksChunked first = true

section
variable {ls : List (List UInt8)} {headers : HeaderTable}

theorem lookup_length (h : ls.foldlM tableLine [] = some headers) :
    mnhttpcRequestInHeader headers contentLength = (ls.find? isLengthLine).map tableValue := by
  rw [lines_lookup h]
  congr 2
  funext l
  exact (tableName_length l).symm

theorem lookup_encoding (h : ls.foldlM tableLine [] = some headers) :
    mnhttpcRequestInHeader headers transferEncoding =
      (ls.find? isEncodingLine).map tableValue := by
  rw [lines_lookup h]
  congr 2
  funext l
  exact (tableName_encoding l).symm

theorem lookup_chunked (h : ls.foldlM tableLine [] = some headers) :
    mnhttpcRequestInHeader headers transferEncoding = some chunkedCoding ↔
      ∃ first, ls.find? isEncodingLine = some first ∧ asksChunked first = true := by
  rw [lookup_encoding h, Option.map_eq_some_iff]
  constructor
  · rintro ⟨first, hfirst, hval⟩
    have henc := List.find?_some hfirst
    exact ⟨first, hfirst, by rw [asksChunked_value, henc, decide_eq_true hval]; rfl⟩
  · rintro ⟨first, hfirst, hask⟩
    rw [asksChunked_value, Bool.and_eq_true, decide_eq_true_eq] at hask
    exact ⟨first, hfirst, hask.2⟩

theorem find?_getLast? {α : Type} {pred : α → Bool} {xs : List α} :
    xs.find? pred = none ↔ (xs.filter pred).getLast? = none := by
  rw [List.getLast?_eq_none_iff, List.find?_eq_none, List.filter_eq_nil_iff]

end

/-- **The framing of a response and its header table agree if and only if its
first and last lines say the same.**  Whatever the header lines, in any letter
case and repeated any number of times, on any stream, cut in any way. -/
theorem framing_table_iff (pf : Platform) (l : StatusLine) (inBodyCb : Option Callback)
    (errno : Int) (s : Stream) (reads reads' : List Read) (H : RawHead) (Z : List UInt8)
    (q : Parser) (headers : HeaderTable) (h0 : 0 ≤ s.pos) (hle : s.pos ≤ s.eod + 2)
    (hstream : (s.data ++ pending reads).drop s.pos.toNat = H.bytes ++ Z) (hend : HeadEnd Z)
    (hret : Parses (.status l) pf (responseCallbacks inBodyCb) errno s reads
      (.returned .ok q reads'))
    (hheaders : inHeaders q.calls = some headers) :
    FramingAgrees q headers ↔ FirstIsLast H.lines := by
  have hat : LinesAt H Z (s.pos.toNat + H.bytes.length) (Parser.init s errno) reads none :=
    .first s.pos.toNat (.inl ⟨rfl, by show s.pos = _; omega⟩) (by show _ ≤ s.eod + 2; omega)
      hstream rfl
  obtain ⟨p, reads₁, hblank, htable, hrun⟩ := LinesAt.run (J := TableAt)
    (t := ⟨.top, .init s errno, reads⟩)
    (fun p bs slack k h => ⟨by cases k <;> exact h.framing, h.table, h.calls⟩)
    (fun p q k k' h hs => h.step hs) hend hat
    ⟨rfl, rfl, fun c hc => absurd hc List.not_mem_nil⟩ (parses_iff.mp hret)
  have hread : HeadRead H Z p := ⟨hblank.state, by rw [hblank.start]; exact hblank.found,
    hblank.blank, htable.framing⟩
  have hext : q.Extends p := by
    obtain ⟨k, p', hp', hit⟩ := body_last (I := fun p' _ => p'.Extends p) (fun _ _ _ _ h => h)
      (fun k p' _ _ h hit => ((bodyIter_calls _ _ k p').1 _ hit).trans h) hread.state hread.found
      (.refl rfl) hrun rfl
    exact ((bodyIter_calls _ _ k p').2 _ _ hit).trans hp'
  have hlines : H.lines.foldlM tableLine [] = some headers := by
    rw [← hheaders, inHeaders_extends hext, htable.table]
    rfl
  by_cases hask : ∃ l ∈ H.lines, asksChunked l = true
  · have hchunked : p.ctx.framing.chunked = true := by
      rw [hread.framing]
      exact foldl_chunked (.inr hask)
    have hflag := chunked_flag hread hchunked hrun rfl
    constructor
    · intro h
      refine ⟨fun hplain => ?_, fun _ => (lookup_chunked hlines).mp (h.chunked hflag)⟩
      obtain ⟨x, hx, htrue⟩ := hask
      cases htrue.symm.trans (hplain x hx)
    · intro h
      exact ⟨fun hplain => (by cases hflag.symm.trans hplain),
        fun _ => (lookup_chunked hlines).mpr (h.chunked hask)⟩
  · have hplain : ∀ x ∈ H.lines, asksChunked x = false := fun x hx =>
      Bool.eq_false_iff.mpr fun h => hask ⟨x, hx, h⟩
    have hframing := hread.framing
    rw [foldl_lineFraming hplain] at hframing
    obtain ⟨-, hbody, -⟩ := plain_length hread (congrArg Framing.chunked hframing) htable.calls
      hrun rfl
    have hbodysz : q.ctx.bodysz =
        ((H.lines.filter isLengthLine).getLast?.map lengthOf).getD (-1) := by
      rw [hbody.bodysz]
      exact congrArg Framing.bodysz hframing
    constructor
    · intro h
      refine ⟨fun _ first hfirst => ?_, fun hask' => absurd hask' hask⟩
      have hlen := h.length hbody.plain
      rw [lookup_length hlines, hfirst] at hlen
      obtain ⟨n, hn, hz⟩ := hlen
      refine ⟨n, hn, ?_⟩
      cases hlast : (H.lines.filter isLengthLine).getLast? with
      | none =>
          rw [find?_getLast?.mpr hlast] at hfirst
          cases hfirst
      | some last =>
          rw [hlast] at hbodysz
          rw [Option.map_some, ← hz, hbodysz]
          rfl
    · intro h
      refine ⟨fun _ => ?_, fun hflag => (by cases hflag.symm.trans hbody.plain)⟩
      rw [lookup_length hlines]
      cases hfirst : H.lines.find? isLengthLine with
      | none =>
          rw [hbodysz, find?_getLast?.mp hfirst]
          rfl
      | some first =>
          obtain ⟨n, hn, hlast⟩ := h.length hplain first hfirst
          refine ⟨n, hn, ?_⟩
          rw [hbodysz, hlast]
          rfl

/-! ### One length, and two -/

/-- What is looked at of a response. -/
structure Look where
  res : Res
  chunked : Bool
  bodysz : Int
  headers : Option HeaderTable
deriving DecidableEq

def lookAt : Outcome → Option Look
  | .blocked _ => none
  | .returned r q _ => some ⟨r, q.ctx.flagChunked, q.ctx.bodysz, inHeaders q.calls⟩

theorem parses_look (reads : List Read) {chunked : Bool} {z : Int} {headers : HeaderTable}
    (h : ((FirstLine.status .ok).httpParse .keeping (responseCallbacks none) 20
      (.init ⟨[], [], 0⟩ 0) reads).bind lookAt = some ⟨.ok, chunked, z, some headers⟩) :
    ∃ q rest, Parses (.status .ok) .keeping (responseCallbacks none) 0 ⟨[], [], 0⟩ reads
        (.returned .ok q rest) ∧
      q.ctx.flagChunked = chunked ∧ q.ctx.bodysz = z ∧ inHeaders q.calls = some headers := by
  obtain ⟨out, hout, hobs⟩ := Option.bind_eq_some_iff.mp h
  cases out with
  | blocked _ => cases hobs
  | returned r' q rest =>
      simp only [lookAt, Option.some.injEq, Look.mk.injEq] at hobs
      obtain ⟨rfl, hrest⟩ := hobs
      exact ⟨q, rest, ⟨20, hout⟩, hrest⟩

/-- A head with these header lines. -/
def okHead (lines : List (List UInt8)) (ok : ∀ l ∈ lines, NoCrlf l ∧ l ≠ []) : RawHead :=
  ⟨ascii "HTTP/1.1 200 OK", lines, noCrlf_statusOk, ok⟩

theorem framing_table_one_length : ∃ q rest,
    Parses (.status .ok) .keeping (responseCallbacks none) 0 ⟨[], [], 0⟩
      [.bytes (ascii "HTTP/1.1 200 OK\r\nContent-Length: 3\r\n\r\nabc") []]
      (.returned .ok q rest) ∧
    FramingAgrees q [(contentLength, ascii "3")] := by
  have hrun : ((FirstLine.status .ok).httpParse .keeping (responseCallbacks none) 20
      (.init ⟨[], [], 0⟩ 0)
      [.bytes (ascii "HTTP/1.1 200 OK\r\nContent-Length: 3\r\n\r\nabc") []]).bind lookAt =
      some ⟨.ok, false, 3, some [(contentLength, ascii "3")]⟩ := by decide +kernel
  obtain ⟨q, rest, hparse, -, -, hheaders⟩ := parses_look _ hrun
  refine ⟨q, rest, hparse, ?_⟩
  refine (framing_table_iff .keeping .ok none 0 ⟨[], [], 0⟩ _ rest
    (okHead [ascii "Content-Length: 3"] (by decide)) (ascii "\r\nabc") q _ (by decide) (by decide)
    (by decide) (.blank (ascii "abc") rfl) hparse hheaders).mpr ⟨fun _ first hfirst => ?_, ?_⟩
  · cases hfirst
    exact ⟨3, ⟨ascii "3", [], by decide, by decide, by decide, by decide, by decide⟩, by decide⟩
  · exact fun hask => absurd hask (by decide)

/-- **Two lengths**: the table keeps the first one, the parser the last. -/
theorem two_lengths_disagree : ∃ q rest headers,
    Parses (.status .ok) .keeping (responseCallbacks none) 0 ⟨[], [], 0⟩
      [.bytes (ascii
        "HTTP/1.1 200 OK\r\nContent-Length: 3\r\ncontent-length: 5\r\n\r\nabcde") []]
      (.returned .ok q rest) ∧
    inHeaders q.calls = some headers ∧ q.ctx.flagChunked = false ∧ q.ctx.bodysz = 5 ∧
    mnhttpcRequestInHeader headers contentLength = some (ascii "3") ∧
    ¬ FramingAgrees q headers := by
  have hrun : ((FirstLine.status .ok).httpParse .keeping (responseCallbacks none) 20
      (.init ⟨[], [], 0⟩ 0) [.bytes (ascii
        "HTTP/1.1 200 OK\r\nContent-Length: 3\r\ncontent-length: 5\r\n\r\nabcde") []]).bind lookAt =
      some ⟨.ok, false, 5, some [(contentLength, ascii "3")]⟩ := by decide +kernel
  obtain ⟨q, rest, hparse, hplain, hz, hheaders⟩ := parses_look _ hrun
  refine ⟨q, rest, _, hparse, hheaders, hplain, hz, by decide, fun hagree => ?_⟩
  -- the text `3` states no other number
  obtain ⟨n, ⟨ds, blanks, hv, hne, -, -, hn⟩, hbody⟩ := hagree.length hplain
  obtain ⟨d, ds', rfl⟩ := List.exists_cons_of_ne_nil hne
  obtain ⟨hd, hnil⟩ := List.cons.inj hv
  obtain ⟨rfl, -⟩ := List.append_eq_nil_iff.mp hnil.symm
  have h3 : ofDigits 10 [d] = 3 := by
    rw [← hd]
    decide
  omega

end MnHttpc
