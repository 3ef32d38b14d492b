/-
# `MnApp.Client.Splitting` — what a URI can do to the request it is written into

`mnhttpc_new` splits a URI and looks only at whether the host, the port, the
relative part and the path are there.  `mnhttpc_request_finalize` writes

    method SP relative [query terms] SP HTTP/1.1
    Date: …
    Host: host:port
    User-Agent: mnapp/0.1
    the headers of the caller
    an empty line

and the relative part, the host and the port stand there as they stood in the
URI.  Query terms are percent-encoded on their way, these are not.

**What is read.**  The bytes are put before `http_parse_request`, cut in any
way and with anything behind them.  `HeadCalled` says that the parser comes
to the last line of the block with one call for the request URI and one for
each header that was meant.  It does so exactly when nothing in the URI ends
a word or a line, and the headers of the caller are headers (`SplitFree`).

A CR or a LF alone ends nothing for this parser, and is not asked for.
-/
import MnApp.Client.Cache
import MnApp.Http.HeadCalls
import MnApp.Http.Query

namespace MnHttpc

open MnHttp CLib Loop

/-! ## The head of a request -/

/-- `MNHTTP_METHOD_*`. -/
inductive ApiMethod where
  | options | get | head | post | put | delete | trace | connect | patch
deriving DecidableEq, Repr

def ApiMethod.text : ApiMethod → List UInt8
  | .options => ascii "OPTIONS"
  | .get => ascii "GET"
  | .head => ascii "HEAD"
  | .post => ascii "POST"
  | .put => ascii "PUT"
  | .delete => ascii "DELETE"
  | .trace => ascii "TRACE"
  | .connect => ascii "CONNECT"
  | .patch => ascii "PATCH"

/-- `gmtime`, and `strftime` with `"%a, %d %b %Y %H:%M:%S GMT"`. -/
structure Clock where
  date : Int → List UInt8
  date_ne : ∀ t, date t ≠ []
  date_ok : ∀ t, ∀ b ∈ date t, b ≠ CR ∧ b ≠ LF ∧ b ≠ NUL
  date_head : ∀ t, ∀ b ∈ (date t).head?, ISSPACE b = false

/-- `PACKAGE`/`VERSION`. -/
def userAgent : List UInt8 := ascii "mnapp/0.1"

section
variable (B : Bytestream)

/-- `http_field_addb`. -/
def httpFieldAddb (out name value : List UInt8) : Wrote :=
  httpAddHeaderField B out (BDATA name) (BDATA value)

/-- `http_field_addf`, with the text that the format and the arguments make. -/
def httpFieldAddf (out name text : List UInt8) : Wrote := httpFieldAddb B out name text

/-- `http_field_addt`. -/
def httpFieldAddt (K : Clock) (out name : List UInt8) (t : Int) : Wrote :=
  httpFieldAddb B out name (K.date t)

/-- `mnhttpc_request_finalize`, from `mnhttp_uri_start_request` to
`http_end_of_header`.  Only the first result is looked at. -/
def writeHead (H : HashLib) (C : UrlCodec) (K : Clock) (u : QueryUri) (method : ApiMethod)
    (headers : Hash) (now : Int) (out : List UInt8) : Option Started := do
  let w ← mnhttpUriStartRequest H B C u out method.text
  let host ← u.uri.host
  let port ← u.uri.port
  return w.next fun out =>
    let out := (httpFieldAddt B K out (ascii "Date") now).2
    let out := (httpFieldAddf B out (ascii "Host")
      (cstr (BDATA host) ++ COLON :: cstr (BDATA port))).2
    let out := (httpFieldAddf B out (ascii "User-Agent") userAgent).2
    let out := (H.iter headers).foldl (fun out hit => (httpFieldAddb B out hit.1 hit.2).2) out
    (none, (httpEndOfHeader B out).2)

end

/-! ## What is written -/

/-- A name and a value. -/
abbrev NameValue := List UInt8 × List UInt8

/-- The line that is written for a header. -/
def fieldLine (f : NameValue) : List UInt8 := cstr f.1 ++ COLON :: SP :: cstr f.2

/-- The headers that a request is meant to have. -/
def meantFields (H : HashLib) (K : Clock) (host port : List UInt8) (headers : Hash) (now : Int) :
    List NameValue :=
  (ascii "Date", K.date now) :: (ascii "Host", host ++ COLON :: port) ::
    (ascii "User-Agent", userAgent) :: H.iter headers

/-- The bytes of a head, with its empty line. -/
def headBlock (method uri : List UInt8) (fs : List NameValue) : List UInt8 :=
  requestBytes method 0 uri ++ crlf ++ rawLines (fs.map fieldLine) ++ crlf

theorem cstr_BDATA (b : List UInt8) : cstr (BDATA b) = cstr b := by
  unfold BDATA
  induction b with
  | nil => rfl
  | cons x b ih =>
      unfold cstr at ih ⊢
      rw [List.cons_append, List.takeWhile_cons, List.takeWhile_cons, ih]

theorem ApiMethod.text_ok (m : ApiMethod) : m.text ≠ [] ∧
    ∀ b ∈ m.text, b ≠ SP ∧ b ≠ TAB ∧ b ≠ CR ∧ b ≠ LF ∧ b ≠ NUL := by
  cases m <;> decide

section
variable (B : Bytestream)

theorem httpFieldAddb_eq (out name value : List UInt8) :
    (httpFieldAddb B out name value).2 = out ++ (fieldLine (name, value) ++ crlf) := by
  unfold httpFieldAddb
  rw [httpAddHeaderField_eq, cstr_BDATA, cstr_BDATA]
  simp [fieldLine]

theorem addFields_eq (fs : List NameValue) (out : List UInt8) :
    fs.foldl (fun out hit => (httpFieldAddb B out hit.1 hit.2).2) out =
      out ++ rawLines (fs.map fieldLine) := by
  induction fs generalizing out with
  | nil => simp [rawLines]
  | cons f fs ih =>
      rw [List.foldl_cons, httpFieldAddb_eq, ih]
      simp [rawLines]

/-- **All of the head is written.** -/
theorem writeHead_eq (H : HashLib) (C : UrlCodec) (K : Clock) (u : QueryUri) (m : ApiMethod)
    (headers : Hash) (now : Int) (out : List UInt8) {host port rel : List UInt8}
    (hnul : u.uri.NulFree) (hhost : u.uri.host = some host) (hport : u.uri.port = some port)
    (hrel : u.uri.relative = some rel) :
    writeHead B H C K u m headers now out =
      some (none, out ++ headBlock m.text (rel ++ u.tail H C)
        (meantFields H K host port headers now)) := by
  have hmethod : cstr m.text = m.text := cstr_of_no_nul fun b hb => (m.text_ok.2 b hb).2.2.2.2
  have hh : cstr (BDATA host) = host := cstr_stop (hnul.host host hhost)
  have hp : cstr (BDATA port) = port := cstr_stop (hnul.port port hport)
  have hline : ascii " HTTP/1.1\r\n" = SP :: (ascii "HTTP/1.1" ++ crlf) := by decide
  unfold writeHead
  rw [mnhttpUriStartRequest_eq H B C u out _ hrel (hnul.relative rel hrel), hmethod, hhost, hport]
  simp only [Option.bind_eq_bind, Option.bind_some, Option.pure_def, Started.next_none, hh, hp]
  unfold httpFieldAddt httpFieldAddf httpEndOfHeader
  rw [addFields_eq, checked_cat, hline]
  simp only [httpFieldAddb_eq]
  simp [headBlock, requestBytes, meantFields, rawLines]

end

/-! ## Headers that are read as they were meant -/

/-- The call of `header_cb` for a name and a value. -/
structure NamedCall (f : NameValue) (c : Call) : Prop where
  kind : c.kind = .header
  name : Addresses c.inp c.ctx.currentHeaderName f.1
  value : Addresses c.inp c.ctx.currentHeaderValue f.2

/-- The name and the value can be told from the line. -/
structure FieldOk (f : NameValue) : Prop where
  name_ok : ∀ b ∈ f.1, b ≠ COLON ∧ b ≠ NUL
  value_ne : f.2 ≠ []
  value_nul : ∀ b ∈ f.2, b ≠ NUL
  value_head : ∀ b ∈ f.2.head?, ISSPACE b = false

section
variable {f : NameValue}

theorem fieldLine_colon (f : NameValue) : ∃ c, (fieldLine f).findIdx? (· == COLON) = some c := by
  refine Option.isSome_iff_exists.mp (List.findIdx?_isSome.trans ?_)
  simp [fieldLine]

theorem nameOf_fieldLine (f : NameValue) :
    nameOf (fieldLine f) = (cstr f.1).takeWhile (· != COLON) := by
  unfold nameOf fieldLine
  rw [List.takeWhile_append]
  split
  · rename_i h
    rw [List.takeWhile_cons_of_neg (by decide), List.append_nil]
    exact (List.takeWhile_sublist _).eq_of_length h |>.symm
  · rfl

theorem headerValue_fieldLine (h : ∀ b ∈ cstr f.1, b ≠ COLON) :
    headerValue (fieldLine f) = (cstr f.2).dropWhile ISSPACE := by
  unfold headerValue behindColon fieldLine
  rw [List.dropWhile_append_of_pos fun b hb => by simpa using h b hb,
    List.dropWhile_cons_of_neg (by decide), List.tail_cons, List.dropWhile_cons_of_pos (by decide)]

theorem takeWhile_takeWhile_eq {P Q : UInt8 → Bool} {l : List UInt8}
    (h : (l.takeWhile P).takeWhile Q = l) : ∀ b ∈ l, P b = true ∧ Q b = true := by
  have h1 : l.takeWhile P = l := by
    refine (List.takeWhile_sublist _).eq_of_length_le ?_
    have := (List.takeWhile_sublist (l := l.takeWhile P) Q).length_le
    rw [h] at this
    exact this
  rw [h1] at h
  exact fun b hb => ⟨List.takeWhile_eq_self_iff.mp h1 b hb, List.takeWhile_eq_self_iff.mp h b hb⟩

/-- **A header is read as it was meant exactly when it can be told from its
line.** -/
theorem fieldOk_iff (f : NameValue) : FieldOk f ↔
    nameOf (fieldLine f) = f.1 ∧ headerValue (fieldLine f) = f.2 ∧ f.2 ≠ [] := by
  constructor
  · intro h
    have hname : cstr f.1 = f.1 := cstr_of_no_nul fun b hb => (h.name_ok b hb).2
    have hcolon : ∀ b ∈ cstr f.1, b ≠ COLON := by
      rw [hname]
      exact fun b hb => (h.name_ok b hb).1
    refine ⟨?_, ?_, h.value_ne⟩
    · rw [nameOf_fieldLine, hname, List.takeWhile_eq_self_iff]
      exact fun b hb => by simpa using (h.name_ok b hb).1
    · rw [headerValue_fieldLine hcolon, cstr_of_no_nul h.value_nul]
      obtain ⟨v, vs, hv⟩ := List.exists_cons_of_ne_nil h.value_ne
      have hhead := h.value_head v (by rw [hv]; rfl)
      rw [hv, List.dropWhile_cons_of_neg (by rw [hhead]; nofun)]
  · rintro ⟨hname, hvalue, hne⟩
    rw [nameOf_fieldLine] at hname
    have hn := takeWhile_takeWhile_eq hname
    have hcstr : cstr f.1 = f.1 := cstr_of_no_nul fun b hb => by simpa using (hn b hb).1
    have hcolon : ∀ b ∈ f.1, b ≠ COLON := fun b hb => by simpa using (hn b hb).2
    rw [headerValue_fieldLine (by rw [hcstr]; exact hcolon)] at hvalue
    -- nothing is cut off at either end of the value
    have hlen := congrArg List.length hvalue
    have hdrop := ((cstr f.2).dropWhile_suffix ISSPACE).length_le
    have hcut : cstr f.2 = f.2 := (List.takeWhile_sublist _).eq_of_length_le (by
      show f.2.length ≤ (cstr f.2).length
      omega)
    refine ⟨fun b hb => ⟨hcolon b hb, by simpa using (hn b hb).1⟩, hne, ?_, ?_⟩
    · intro b hb
      have := List.takeWhile_eq_self_iff.mp hcut b hb
      simpa using this
    · intro b hb
      rw [hcut] at hvalue
      obtain ⟨vs, hv⟩ := List.head?_eq_some_iff.mp hb
      rw [hv] at hvalue
      by_contra hsp
      rw [List.dropWhile_cons_of_pos (by simpa using hsp)] at hvalue
      have := (vs.dropWhile_suffix ISSPACE).length_le
      rw [hvalue, List.length_cons] at this
      omega

theorem FieldOk.good (h : FieldOk f) (hno : NoCrlf (fieldLine f)) : GoodLine (fieldLine f) := by
  obtain ⟨-, hvalue, hne⟩ := (fieldOk_iff f).mp h
  exact ⟨hno, fieldLine_colon f, by rw [hvalue]; exact hne⟩

theorem namedCall_iff {c : Call} (h : FieldCall (fieldLine f) c) : NamedCall f c ↔ FieldOk f := by
  rw [fieldOk_iff]
  constructor
  · intro hn
    have hne : headerValue (fieldLine f) ≠ [] := fun hnil =>
      absurd hn.value.start_nonneg (Int.not_le.mpr (h.absent hnil))
    have hvalue : headerValue (fieldLine f) = f.2 :=
      (h.value hne).bytes.symm.trans hn.value.bytes
    exact ⟨h.name.bytes.symm.trans hn.name.bytes, hvalue, hvalue ▸ hne⟩
  · rintro ⟨hname, hvalue, hne⟩
    exact ⟨h.kind, hname ▸ h.name, hvalue ▸ h.value (by rw [hvalue]; exact hne)⟩

theorem namedCalls_iff {fs : List NameValue} {cs : List Call}
    (h : List.Forall₂ FieldCall (fs.map fieldLine) cs) :
    List.Forall₂ NamedCall fs cs ↔ ∀ f ∈ fs, FieldOk f := by
  induction fs generalizing cs with
  | nil =>
      cases h
      simp
  | cons f fs ih =>
      cases h with
      | cons hc hcs => rw [List.forall₂_cons, namedCall_iff hc, ih hcs, List.forall_mem_cons]

end

/-! ## A block that is one request -/

section
variable {method uri : List UInt8} {fs : List NameValue}

/-- Nothing in the block ends a word or a line before its time. -/
structure BlockOk (method uri : List UInt8) (fs : List NameValue) : Prop where
  word : ∀ b ∈ uri, ISSPACE b = false
  line : NoCrlf (requestBytes method 0 uri)
  fields : ∀ f ∈ fs, FieldOk f ∧ NoCrlf (fieldLine f)

/-- A head of as many lines has the lines of the block. -/
theorem headBlock_lines {H : RawHead} (h : H.bytes ++ crlf = headBlock method uri fs)
    (hlen : H.lines.length = fs.length) :
    NoCrlf (requestBytes method 0 uri) ∧ H.lines = fs.map fieldLine := by
  have hsplit : H.first ++ CR :: LF :: (rawLines H.lines ++ crlf) =
      requestBytes method 0 uri ++ CR :: LF :: (rawLines (fs.map fieldLine) ++ crlf) := by
    simpa [RawHead.bytes, headBlock, crlf] using h
  have hcount := congrArg crlfCount hsplit
  have hH := (crlfCount_rawLines H.lines crlf).2.mpr fun l hl => (H.lines_ok l hl).1
  obtain ⟨hle, hiff⟩ := crlfCount_rawLines (fs.map fieldLine) crlf
  rw [crlfCount_line, crlfCount_line, hH, noCrlf_iff_count.mp H.first_ok, hlen] at hcount
  rw [List.length_map] at hle hiff
  have hline : NoCrlf (requestBytes method 0 uri) := noCrlf_iff_count.mpr (by omega)
  have hfields : ∀ l ∈ fs.map fieldLine, NoCrlf l := hiff.mp (by omega)
  obtain ⟨-, hrest⟩ := line_unique H.first_ok hline hsplit
  exact ⟨hline, rawLines_unique (by rw [hlen, List.length_map]) (fun l hl => (H.lines_ok l hl).1)
    hfields hrest⟩

/-- **A block is read as the request it was meant to be exactly when nothing in
it ends a word or a line before its time.** -/
theorem headCalled_iff (pf : Platform) {cbs : Callbacks} (errno : Int) {R : Nat} {Y : List UInt8}
    {s : Stream} {reads : List Read} (hcb : cbs.Succeeding) (hmethod : method ≠ [])
    (hmethod_ok : ∀ b ∈ method, b ≠ SP ∧ b ≠ TAB) (huri : uri ≠ [])
    (hfit : ((headBlock method uri fs).length : Int) + R ≤ intMax)
    (hat : Arrives R (headBlock method uri fs ++ Y) s reads) :
    (∃ p reads', Reaches (loopStep pf parseRequestLine cbs) ⟨.top, .init s errno, reads⟩
        ⟨.dispatch, p, reads'⟩ ∧
      HeadCalled NamedCall (s.pos + (headBlock method uri fs).length - 2) uri fs p) ↔
      BlockOk method uri fs := by
  have hblock : headBlock method uri fs =
      requestBytes method 0 uri ++ crlf ++ rawLines (fs.map fieldLine) ++ crlf := rfl
  constructor
  · rintro ⟨p, reads', hreach, hcalled⟩
    obtain ⟨c, cs, hcalls, huricall, hnamed⟩ := hcalled.calls
    have h0 := hat.pos_nonneg
    -- the lines that are there
    obtain ⟨H, Z, hsplit, hend⟩ := rawHead_split (requestBytes method 0 uri)
      (rawLines (fs.map fieldLine) ++ crlf ++ Y)
    have hstream : (s.data ++ pending reads).drop s.pos.toNat = H.bytes ++ Z := by
      rw [hat.stream, ← hsplit, hblock]
      simp [crlf]
    obtain ⟨⟨uri', c', cs', hcalls', huricall', hword, hfields⟩, hblank⟩ :=
      called_lines hcb hend h0 hat.pos_le hstream hreach hcalled.state
        (by rw [hcalled.start]; exact hcalled.found)
    rw [hcalls] at hcalls'
    cases hcalls'
    cases huricall'.uri.symm.trans huricall.uri
    -- they end where the block ends
    obtain ⟨Y', rfl⟩ := hblank.blank
    have hplace := hcalled.start.symm.trans hblank.start
    have hlong : H.bytes.length + 2 = (headBlock method uri fs).length := by omega
    have htext : H.bytes ++ crlf ++ Y' = headBlock method uri fs ++ Y := by
      rw [← hat.stream, hstream]
      simp [crlf]
    have hbytes : H.bytes ++ crlf = headBlock method uri fs :=
      (List.append_inj htext (by rw [List.length_append]; exact hlong)).1
    have hlen : H.lines.length = fs.length := hfields.length_eq.trans hnamed.length_eq.symm
    obtain ⟨hline, hlines⟩ := headBlock_lines hbytes hlen
    rw [hlines] at hfields
    refine ⟨hword, hline, fun f hf => ⟨(namedCalls_iff hfields).mp hnamed f hf, ?_⟩⟩
    exact (H.lines_ok _ (by rw [hlines]; exact List.mem_map_of_mem hf)).1
  · intro hok
    have hlen : (headBlock method uri fs).length = (requestBytes method 0 uri).length + 2 +
        (rawLines (fs.map fieldLine)).length + 2 := by
      simp only [headBlock, List.length_append, crlf, List.length_cons, List.length_nil]
    have hlines : ∀ ln ∈ fs.map fieldLine, GoodLine ln ∧ (ln.length : Int) + 1 + R ≤ intMax := by
      intro ln hln
      obtain ⟨f, hf, rfl⟩ := List.mem_map.mp hln
      obtain ⟨hfield, hno⟩ := hok.fields f hf
      have hle : (fieldLine f).length ≤ (rawLines (fs.map fieldLine)).length := by
        obtain ⟨before, behind, hsplit⟩ := List.append_of_mem hln
        rw [hsplit]
        simp only [rawLines, List.flatMap_append, List.flatMap_cons, List.length_append]
        omega
      exact ⟨hfield.good hno, by omega⟩
    have hat' : Arrives R (requestBytes method 0 uri ++ crlf ++ rawLines (fs.map fieldLine) ++
        CR :: LF :: Y) s reads := by
      rw [hblock] at hat
      simpa [crlf] using hat
    obtain ⟨p, reads', hreach, hcalled⟩ := request_reaches pf hcb errno hmethod hmethod_ok huri
      (fun b hb => by simpa [ISSPACE] using hok.word b hb) hok.line (by omega) hlines hat'
    obtain ⟨c, cs, hcalls, huricall, hall⟩ := hcalled.calls
    have hb : s.pos + ((headBlock method uri fs).length : Int) - 2 =
        s.pos + (requestBytes method 0 uri ++ crlf ++ rawLines (fs.map fieldLine)).length := by
      rw [hlen]
      simp only [List.length_append, crlf, List.length_cons, List.length_nil]
      omega
    rw [hb]
    exact ⟨p, reads', hreach, hcalled.state, hcalled.start, hcalled.found, c, cs, hcalls, huricall,
      (namedCalls_iff hall).mpr fun f hf => (hok.fields f hf).1⟩

end

/-! ## URIs -/

/-- The relative part has no blank and no CR LF in it, the host does not start
with a blank and neither it nor the port has a CR LF in it, and each header of
the caller can be told from its line. -/
structure SplitFree (rel host port : List UInt8) (headers : Hash) : Prop where
  rel_word : ∀ b ∈ rel, ISSPACE b = false
  rel_line : NoCrlf rel
  host_head : ∀ b ∈ host.head?, ISSPACE b = false
  host_line : NoCrlf host
  port_line : NoCrlf port
  headers_ok : ∀ f ∈ headers, FieldOk f ∧ NoCrlf f.1 ∧ NoCrlf f.2

theorem noCrlf_between (a b : List UInt8) {x : UInt8} (hx : x ≠ LF) (hcr : x ≠ CR) :
    NoCrlf (a ++ x :: b) ↔ NoCrlf a ∧ NoCrlf b := by
  have hcons : crlfCount (x :: b) = crlfCount b := by simp [crlfCount, hcr]
  rw [noCrlf_iff_count, noCrlf_iff_count, noCrlf_iff_count,
    crlfCount_append (by simpa using hx), hcons]
  omega

theorem noCrlf_fieldLine {f : NameValue} (h : FieldOk f) :
    NoCrlf (fieldLine f) ↔ NoCrlf f.1 ∧ NoCrlf f.2 := by
  unfold fieldLine
  rw [cstr_of_no_nul fun b hb => (h.name_ok b hb).2, cstr_of_no_nul h.value_nul,
    noCrlf_between _ _ (by decide) (by decide),
    show SP :: f.2 = [] ++ SP :: f.2 from rfl, noCrlf_between _ _ (by decide) (by decide)]
  exact and_congr_right fun _ => ⟨And.right, fun h => ⟨rfl, h⟩⟩

theorem noCrlf_requestBytes (rel : List UInt8) {method tail : List UInt8}
    (hmethod : ∀ b ∈ method, b ≠ CR ∧ b ≠ LF) (htail : ∀ b ∈ tail, b ≠ CR ∧ b ≠ LF) :
    NoCrlf (requestBytes method 0 (rel ++ tail)) ↔ NoCrlf rel := by
  have hm : NoCrlf method := noCrlf_of_not_mem fun h => (hmethod CR h).1 rfl
  have ht : NoCrlf tail := noCrlf_of_not_mem fun h => (htail CR h).1 rfl
  have hhead : tail.head? ≠ some LF := fun h => (htail LF (List.mem_of_mem_head? h)).2 rfl
  have hsplit : requestBytes method 0 (rel ++ tail) =
      method ++ SP :: ((rel ++ tail) ++ SP :: ascii "HTTP/1.1") := rfl
  rw [hsplit, noCrlf_between _ _ (by decide) (by decide),
    noCrlf_between _ _ (by decide) (by decide)]
  constructor
  · exact fun h => (NoCrlf.parts h.2.1).1
  · exact fun h => ⟨hm, h.append ht hhead, by decide⟩

section
variable {H : HashLib} {K : Clock} {C : UrlCodec} {headers : Hash} {now : Int}
variable {rel host port : List UInt8}

theorem blockOk_iff (m : ApiMethod) (u : QueryUri) (hhost : host ≠ [])
    (hhost_nul : ∀ b ∈ host, b ≠ NUL) (hport_nul : ∀ b ∈ port, b ≠ NUL) :
    BlockOk m.text (rel ++ u.tail H C) (meantFields H K host port headers now) ↔
      SplitFree rel host port headers := by
  have hmethod : ∀ b ∈ m.text, b ≠ CR ∧ b ≠ LF := fun b hb =>
    ⟨(m.text_ok.2 b hb).2.2.1, (m.text_ok.2 b hb).2.2.2.1⟩
  have htail := u.tail_clean H C
  have hline := noCrlf_requestBytes rel hmethod
    fun b hb => ⟨(htail b hb).2.2.1, (htail b hb).2.2.2.1⟩
  obtain ⟨x, xs, rfl⟩ := List.exists_cons_of_ne_nil hhost
  have hiter : ∀ f, f ∈ H.iter headers ↔ f ∈ headers := fun f => (H.iter_perm headers).mem_iff
  have hdate : FieldOk (ascii "Date", K.date now) :=
    ⟨by simp only; decide, K.date_ne now, fun b hb => (K.date_ok now b hb).2.2, K.date_head now⟩
  have hdate_line : NoCrlf (fieldLine (ascii "Date", K.date now)) :=
    (noCrlf_fieldLine hdate).mpr ⟨(by decide : NoCrlf (ascii "Date")),
      noCrlf_of_not_mem fun h => (K.date_ok now CR h).1 rfl⟩
  have hhostline : NoCrlf ((x :: xs) ++ COLON :: port) ↔ NoCrlf (x :: xs) ∧ NoCrlf port :=
    noCrlf_between _ _ (by decide) (by decide)
  constructor
  · rintro ⟨hword, hreq, hfields⟩
    obtain ⟨hok, hno⟩ := hfields (ascii "Host", (x :: xs) ++ COLON :: port) (by simp [meantFields])
    have hparts := hhostline.mp ((noCrlf_fieldLine hok).mp hno).2
    refine ⟨fun b hb => hword b (List.mem_append_left _ hb), hline.mp hreq, hok.value_head,
      hparts.1, hparts.2, fun f hf => ?_⟩
    obtain ⟨hf_ok, hf_no⟩ := hfields f (by simp [meantFields, hiter, hf])
    exact ⟨hf_ok, (noCrlf_fieldLine hf_ok).mp hf_no⟩
  · rintro ⟨hrel, hrel_line, hhead, hhost_line, hport_line, hheaders⟩
    have hok : FieldOk (ascii "Host", (x :: xs) ++ COLON :: port) := by
      refine ⟨by simp only; decide, by simp, fun b hb => ?_, hhead⟩
      rcases List.mem_append.mp hb with hb | hb
      · exact hhost_nul b hb
      · rcases List.mem_cons.mp hb with rfl | hb
        · decide
        · exact hport_nul b hb
    have hno := (noCrlf_fieldLine hok).mpr
      ⟨(by decide : NoCrlf (ascii "Host")), hhostline.mpr ⟨hhost_line, hport_line⟩⟩
    refine ⟨fun b hb => ?_, hline.mpr hrel_line, fun f hf => ?_⟩
    · rcases List.mem_append.mp hb with hb | hb
      · exact hrel b hb
      · simp [ISSPACE, (htail b hb).1, (htail b hb).2.1]
    · simp only [meantFields, List.mem_cons, hiter] at hf
      rcases hf with rfl | rfl | rfl | hf
      · exact ⟨hdate, hdate_line⟩
      · exact ⟨hok, hno⟩
      · exact ⟨⟨by simp only; decide, by simp only; decide, by simp only; decide,
          by simp only; decide⟩, by decide⟩
      · obtain ⟨hf_ok, hf_no⟩ := hheaders f hf
        exact ⟨hf_ok, (noCrlf_fieldLine hf_ok).mpr hf_no⟩

end

theorem mnhttpcNew_request {Hs : Hasher} {cli cli' : Cli} {c : NewCall} {r : Request}
    (h : mnhttpcNew Hs cli c = some cli') (hreq : cli'.requests = cli.requests ++ [r]) :
    c.accepted = true ∧ r.uri = mnhttpUriParse c.uri := by
  constructor
  · by_contra hno
    unfold mnhttpcNew at h
    rw [if_neg hno] at h
    cases h
    exact absurd (congrArg List.length hreq) (by simp)
  · obtain ⟨-, rfl⟩ | ⟨-, ⟨i, x, -, -, rfl⟩ | ⟨-, rfl⟩⟩ := mnhttpcNew_cases h
    · exact absurd (congrArg List.length hreq) (by simp)
    · cases List.append_cancel_left hreq
      rfl
    · cases List.append_cancel_left hreq
      rfl

theorem not_isNullOrEmpty {b : Option (List UInt8)} (h : isNullOrEmpty b = false) :
    ∃ x, b = some x ∧ x ≠ [] := by
  cases b with
  | none => cases h
  | some x => exact ⟨x, rfl, by simpa [isNullOrEmpty] using h⟩

theorem NewCall.accepted_parts {c : NewCall} (h : c.accepted = true) :
    ∃ host port rel, (mnhttpUriParse c.uri).host = some host ∧
      (mnhttpUriParse c.uri).port = some port ∧ (mnhttpUriParse c.uri).relative = some rel ∧
      host ≠ [] := by
  unfold NewCall.accepted at h
  simp only [Bool.and_eq_true, Bool.not_eq_true'] at h
  obtain ⟨⟨⟨hhost, hport⟩, hrel⟩, -⟩ := h
  obtain ⟨host, hh, hne⟩ := not_isNullOrEmpty hhost
  obtain ⟨port, hp, -⟩ := not_isNullOrEmpty hport
  obtain ⟨rel, hr, -⟩ := not_isNullOrEmpty hrel
  exact ⟨host, port, rel, hh, hp, hr, hne⟩

/-- **Requests are not split exactly when the URI has nothing in it that ends a
word or a line.**  For every request that `mnhttpc_new` returns, every method,
query terms and headers, and every way in which the bytes reach a server. -/
theorem request_not_split_iff (Hs : Hasher) (H : HashLib) (B : Bytestream) (C : UrlCodec)
    (K : Clock) (cli cli' : Cli) (c : NewCall) (r : Request) (m : ApiMethod)
    (terms headers : Hash) (now : Int) (out : List UInt8) (hnew : mnhttpcNew Hs cli c = some cli')
    (hreq : cli'.requests = cli.requests ++ [r]) :
    ∃ host port rel uri block, r.uri.host = some host ∧ r.uri.port = some port ∧
      r.uri.relative = some rel ∧
      uri = rel ++ (addQterms H (.parse c.uri) terms).tail H C ∧
      writeHead B H C K (addQterms H (.parse c.uri) terms) m headers now out =
        some (none, out ++ block) ∧
      ∀ (pf : Platform) (cbs : Callbacks) (errno : Int) (R : Nat) (Y : List UInt8) (s : Stream)
        (reads : List Read), cbs.Succeeding → (block.length : Int) + R ≤ intMax →
        Arrives R (block ++ Y) s reads →
        ((∃ p reads', Reaches (loopStep pf parseRequestLine cbs) ⟨.top, .init s errno, reads⟩
            ⟨.dispatch, p, reads'⟩ ∧
          HeadCalled NamedCall (s.pos + block.length - 2) uri
            (meantFields H K host port headers now) p) ↔
          SplitFree rel host port headers) := by
  obtain ⟨hacc, huri⟩ := mnhttpcNew_request hnew hreq
  obtain ⟨host, port, rel, hhost, hport, hrel, hne⟩ := NewCall.accepted_parts hacc
  obtain ⟨hnul, hok⟩ := mnhttpUriParse_ok c.uri
  obtain ⟨rest, hslash⟩ := hok.slash rel hrel
  generalize hu : addQterms H (.parse c.uri) terms = u
  have hparsed : u.uri = mnhttpUriParse c.uri := by rw [← hu, addQterms_uri]; rfl
  refine ⟨host, port, rel, _, _, huri ▸ hhost, huri ▸ hport, huri ▸ hrel, rfl,
    writeHead_eq B H C K u m headers now out (hparsed ▸ hnul) (hparsed ▸ hhost) (hparsed ▸ hport)
      (hparsed ▸ hrel), ?_⟩
  intro pf cbs errno R Y s reads hcb hfit hat
  rw [headCalled_iff pf errno hcb m.text_ok.1
    (fun b hb => ⟨(m.text_ok.2 b hb).1, (m.text_ok.2 b hb).2.1⟩) (by rw [hslash]; simp) hfit hat]
  exact blockOk_iff m u hne (hnul.host host hhost) (hnul.port port hport)

/-! ### A plain URI, and one that adds a header -/

/-- The clock stands still. -/
def Clock.epoch : Clock where
  date _ := ascii "Thu, 01 Jan 1970 00:00:00 GMT"
  date_ne _ := by decide
  date_ok _ := by decide
  date_head _ := by decide

/-- Hashes that are all the same. -/
def Hasher.constant : Hasher := ⟨fun _ => 0, fun a _ => a⟩

/-- The client behind one call of `mnhttpc_new`. -/
def cliOf (uri : String) : Cli :=
  ⟨[⟨(callOf uri).key, .init (mnhttpUriParse (ascii uri)).scheme⟩], [requestOf uri 0]⟩

/-- The headers that were meant, for the host `h`. -/
def epochFields : List NameValue :=
  [(ascii "Date", ascii "Thu, 01 Jan 1970 00:00:00 GMT"), (ascii "Host", ascii "h:80"),
    (ascii "User-Agent", ascii "mnapp/0.1")]

theorem arrives_whole {text : List UInt8} (hne : text ≠ []) :
    Arrives text.length (text ++ []) ⟨[], [], 0⟩ [.bytes text []] where
  pos_nonneg := Int.le_refl 0
  pos_le := by decide
  stream := by simp [pending, Read.payload]
  delivers r hr := ⟨text, [], List.mem_singleton.mp hr, hne, Nat.le_refl _⟩
  bounded := by show (0 : Int) ≤ _; omega

/-- The headers that the parser has called `header_cb` for. -/
def headerNames : Outcome → List (List UInt8)
  | .blocked p | .returned _ p _ => (p.calls.filter fun c => c.kind = .header).map fun c =>
      c.inp.slice c.ctx.currentHeaderName

/-- The head for `http://h/p`. -/
def plainHead : List UInt8 :=
  ascii "GET /p HTTP/1.1\r\n" ++ ascii "Date: Thu, 01 Jan 1970 00:00:00 GMT\r\n" ++
    ascii "Host: h:80\r\nUser-Agent: mnapp/0.1\r\n\r\n"

theorem request_not_split_plain : ∃ p reads',
    Reaches (loopStep .keeping parseRequestLine .accepting)
      ⟨.top, .init ⟨[], [], 0⟩ 0, [.bytes plainHead []]⟩ ⟨.dispatch, p, reads'⟩ ∧
    HeadCalled NamedCall (0 + plainHead.length - 2) (ascii "/p") epochFields p := by
  have hnew : mnhttpcNew .constant .init (callOf "http://h/p") = some (cliOf "http://h/p") := rfl
  obtain ⟨host, port, rel, uri, block, hhost, hport, hrel, huri, hwrite, hiff⟩ :=
    request_not_split_iff .constant .plain .plain .percent .epoch .init (cliOf "http://h/p")
      (callOf "http://h/p") (requestOf "http://h/p" 0) .get [] [] 0 [] hnew rfl
  have hwrote : writeHead .plain .plain .percent .epoch (addQterms .plain
      (.parse (callOf "http://h/p").uri) []) .get [] 0 [] = some (none, [] ++ plainHead) := by
    decide +kernel
  obtain rfl : block = plainHead := by
    have := hwrite.symm.trans hwrote
    simpa using this
  cases hhost.symm.trans (by decide : (requestOf "http://h/p" 0).uri.host = some (ascii "h"))
  cases hport.symm.trans (by decide : (requestOf "http://h/p" 0).uri.port = some (ascii "80"))
  cases hrel.symm.trans (by decide : (requestOf "http://h/p" 0).uri.relative = some (ascii "/p"))
  cases huri
  exact (hiff .keeping .accepting 0 _ [] ⟨[], [], 0⟩ _ Callbacks.accepting_succeeding
    (by decide +kernel) (arrives_whole (by decide))).mpr
    ⟨by decide, by decide, by decide, by decide, by decide, fun f hf => absurd hf List.not_mem_nil⟩

/-- A URI with a line break in its path. -/
def splitUri : String := "http://h/ HTTP/1.1\r\nX: y"

/-- The head that is written for it. -/
def splitHead : List UInt8 :=
  ascii "GET / HTTP/1.1\r\nX: y HTTP/1.1\r\n" ++ ascii "Date: Thu, 01 Jan 1970 00:00:00 GMT\r\n" ++
    ascii "Host: h:80\r\nUser-Agent: mnapp/0.1\r\n\r\n"

/-- **A header that nobody added**: the URI is accepted, and the server is told
of a header `X`. -/
theorem request_split_header :
    mnhttpcNew .constant .init (callOf splitUri) = some (cliOf splitUri) ∧
    writeHead .plain .plain .percent .epoch (.parse (ascii splitUri)) .get [] 0 [] =
      some (none, splitHead) ∧
    (mnhttpUriParse (ascii splitUri)).relative = some (ascii "/ HTTP/1.1\r\nX: y") ∧
    ((FirstLine.request .getRoot).httpParse .keeping .accepting 40 (.init ⟨[], [], 0⟩ 0)
      [.bytes splitHead []]).map headerNames =
        some [ascii "X", ascii "Date", ascii "Host", ascii "User-Agent"] ∧
    ¬ ∃ p reads', Reaches (loopStep .keeping parseRequestLine .accepting)
        ⟨.top, .init ⟨[], [], 0⟩ 0, [.bytes splitHead []]⟩ ⟨.dispatch, p, reads'⟩ ∧
      HeadCalled NamedCall (0 + splitHead.length - 2) (ascii "/ HTTP/1.1\r\nX: y") epochFields
        p := by
  refine ⟨rfl, by decide +kernel, by decide, by decide +kernel, fun h => ?_⟩
  have hblock : splitHead = headBlock (ascii "GET") (ascii "/ HTTP/1.1\r\nX: y") epochFields := by
    decide +kernel
  rw [hblock] at h
  have hok := (headCalled_iff .keeping 0 Callbacks.accepting_succeeding (by decide) (by decide)
    (by decide) (by decide +kernel) (arrives_whole (by decide))).mp h
  exact absurd (hok.word SP (by decide)) (by decide)

end MnHttpc
