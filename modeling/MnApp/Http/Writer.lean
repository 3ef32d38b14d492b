/-
# `MnApp.Http.Writer` — what the writers write, and that the parser reads it

The functions that put a message together, `http_start_request`,
`http_start_response`, `http_add_header_field`, `http_end_of_header` and
`http_add_body`.  Each hands `bytestream_nprintf` a size it has computed from
its arguments:

    request line    strlen(method) + strlen(uri) + 16    writes 12 more
    status line     strlen(phrase) + 32                  writes at most 23 more
    header          rounded up to the next multiple of   writes 4 more
                    4096, a whole block if it is one

`bytestream_nprintf` and `bytestream_cat` are not part of this code:
`Bytestream` is any pair of functions of which the first appends the whole
text exactly when it is shorter than that size.  Sizes are `size_t`, and the
sum of the lengths of strings in memory does not overflow.

`Message.write_eq` says that all of a message is written.  Put before the
parser, it is read back as it was, unless a read ends inside the empty line
or the body is longer than an `int` can say (`written_exact_iff`).
-/
import MnApp.Http.ContentLength
import MnApp.Http.NoBody

namespace MnHttp

open CLib Loop

/-! ## The writers -/

/-- `bytestream_nprintf` and `bytestream_cat`, with the text that the format
and the arguments make: what they return, and the stream behind it. -/
structure Bytestream where
  nprintf : List UInt8 → Nat → List UInt8 → Int × List UInt8
  cat : List UInt8 → List UInt8 → Int × List UInt8
  whole : ∀ out sz text, 0 ≤ (nprintf out sz text).1 ∧ (nprintf out sz text).2 = out ++ text ↔
    text.length < sz
  cat_whole : ∀ out bs, 0 ≤ (cat out bs).1 ∧ (cat out bs).2 = out ++ bs

/-- The diagnostic classes of the writers. -/
inductive WriteDiag where
  | httpStartRequest | httpStartResponse | httpAddHeaderField | httpEndOfHeader | httpAddBody
deriving DecidableEq, Repr

/-- What a writer returns, with `none` for 0, and the stream behind it. -/
abbrev Wrote := Option WriteDiag × List UInt8

/-- A negative answer becomes the diagnostic class plus one. -/
def checked (d : WriteDiag) (w : Int × List UInt8) : Wrote :=
  (if w.1 < 0 then some d else none, w.2)

/-- `strlen`. -/
def strlen (p : List UInt8) : Nat := (cstr p).length

/-- `http_start_request`. -/
def httpStartRequest (B : Bytestream) (out method uri : List UInt8) : Wrote :=
  checked .httpStartRequest (B.nprintf out (strlen method + strlen uri + 16)
    (cstr method ++ SP :: (cstr uri ++ ascii " HTTP/1.1\r\n")))

/-- `http_start_response`. -/
def httpStartResponse (B : Bytestream) (out : List UInt8) (reason : Int) (phrase : List UInt8) :
    Wrote :=
  checked .httpStartResponse (B.nprintf out (strlen phrase + 32)
    (ascii "HTTP/1.1 " ++ (printInt reason ++ SP :: (cstr phrase ++ crlf))))

/-- `http_add_header_field`. -/
def httpAddHeaderField (B : Bytestream) (out name value : List UInt8) : Wrote :=
  let sz := strlen name + strlen value + 4
  checked .httpAddHeaderField (B.nprintf out (sz + (4096 - sz % 4096))
    (cstr name ++ COLON :: SP :: (cstr value ++ crlf)))

/-- `http_end_of_header`. -/
def httpEndOfHeader (B : Bytestream) (out : List UInt8) : Wrote :=
  checked .httpEndOfHeader (B.cat out crlf)

/-- `http_add_body`. -/
def httpAddBody (B : Bytestream) (out body : List UInt8) (sz : Nat) : Wrote :=
  checked .httpAddBody (B.cat out (body.take sz))

section
variable (B : Bytestream) (out : List UInt8)

theorem checked_nprintf (d : WriteDiag) {sz : Nat} {text : List UInt8} (h : text.length < sz) :
    checked d (B.nprintf out sz text) = (none, out ++ text) := by
  obtain ⟨hret, hout⟩ := (B.whole out sz text).mpr h
  unfold checked
  rw [if_neg (Int.not_lt.mpr hret), hout]

theorem checked_cat (d : WriteDiag) (bs : List UInt8) :
    checked d (B.cat out bs) = (none, out ++ bs) := by
  obtain ⟨hret, hout⟩ := B.cat_whole out bs
  unfold checked
  rw [if_neg (Int.not_lt.mpr hret), hout]

theorem httpStartRequest_eq (method uri : List UInt8) : httpStartRequest B out method uri =
    (none, out ++ (cstr method ++ SP :: (cstr uri ++ ascii " HTTP/1.1\r\n"))) := by
  refine checked_nprintf B out _ ?_
  have htext : (ascii " HTTP/1.1\r\n").length = 11 := by decide
  simp only [List.length_append, List.length_cons, strlen, htext]
  omega

/-- The whole status line is written, for every `int`. -/
theorem httpStartResponse_eq {reason : Int} (h₁ : -2147483648 ≤ reason) (h₂ : reason ≤ intMax)
    (phrase : List UInt8) : httpStartResponse B out reason phrase =
      (none, out ++ (ascii "HTTP/1.1 " ++ (printInt reason ++ SP :: (cstr phrase ++ crlf)))) := by
  refine checked_nprintf B out _ ?_
  have htext : (ascii "HTTP/1.1 ").length = 9 := by decide
  have hreason := printInt_length h₁ h₂
  simp only [List.length_append, List.length_cons, strlen, htext, crlf, List.length_nil]
  omega

theorem httpAddHeaderField_eq (name value : List UInt8) : httpAddHeaderField B out name value =
    (none, out ++ (cstr name ++ COLON :: SP :: (cstr value ++ crlf))) := by
  refine checked_nprintf B out _ ?_
  simp only [List.length_append, List.length_cons, strlen, crlf, List.length_nil]
  omega

end

/-! ## Messages -/

/-- The arguments of `http_start_request`. -/
structure RequestStart where
  method : Method
  token : List UInt8
  token_ok : token.map tolower = method.text.map tolower
  uri : List UInt8
  uri_ne : uri ≠ []
  uri_ok : ∀ b ∈ uri, b ≠ SP ∧ b ≠ TAB ∧ b ≠ CR ∧ b ≠ LF ∧ b ≠ NUL

/-- The arguments of `http_start_response`. -/
structure ResponseStart where
  reason : Nat
  reason_pos : 1 ≤ reason
  reason_le : reason ≤ 999
  phrase : List UInt8
  phrase_ok : NoCrlf phrase
  phrase_nul : ∀ b ∈ phrase, b ≠ NUL

inductive Start where
  | request (r : RequestStart)
  | response (r : ResponseStart)

def RequestStart.line (r : RequestStart) : RequestLine where
  method := r.method
  token := r.token
  token_ok := r.token_ok
  gap := 0
  uri := r.uri
  uri_ne := r.uri_ne
  uri_ok := fun b hb =>
    have h := r.uri_ok b hb
    ⟨h.1, h.2.1, h.2.2.1, h.2.2.2.1⟩

def ResponseStart.line (r : ResponseStart) : StatusLine where
  status := printNat r.reason
  status_digits := (printNatFuel_spec (Nat.lt_succ_self _)).2.1
  status_pos := by
    have hval : ofDigits 10 (printNat r.reason) = r.reason :=
      (printNatFuel_spec (Nat.lt_succ_self _)).2.2
    rw [hval]
    exact r.reason_pos
  status_max := by
    have hval : ofDigits 10 (printNat r.reason) = r.reason :=
      (printNatFuel_spec (Nat.lt_succ_self _)).2.2
    have := r.reason_le
    rw [hval]
    unfold intMax
    omega
  reason := r.phrase
  reason_ok := r.phrase_ok

/-- The line the arguments make. -/
def Start.line : Start → FirstLine
  | .request r => .request r.line
  | .response r => .status r.line

/-- A name and a value, as `http_add_header_field` takes them. -/
structure Field where
  name : List UInt8
  value : List UInt8
  name_ne : name ≠ []
  name_ok : ∀ b ∈ name, b ≠ COLON ∧ b ≠ CR ∧ b ≠ LF ∧ b ≠ NUL
  value_ne : value ≠ []
  value_ok : ∀ b ∈ value, b ≠ CR ∧ b ≠ LF ∧ b ≠ NUL
  value_head : ∀ b ∈ value.head?, ISSPACE b = false

/-- The header it becomes. -/
def Field.header (f : Field) : Header where
  name := f.name
  blanks := [SP]
  value := f.value
  name_ne := f.name_ne
  name_ok := f.name_ok
  blanks_ok := isspace_blank
  value_ne := f.value_ne
  value_ok := f.value_ok
  value_head := f.value_head

/-- What is to be written: a first line, headers with exactly one
`Content-Length`, which is the size of the body, and no `Transfer-Encoding`,
and the body. -/
structure Message where
  start : Start
  fields : List Field
  body : List UInt8
  length_one : ∃ pre f post, fields = pre ++ f :: post ∧
    f.header.IsContentLength body.length ∧ ∀ x ∈ pre ++ post, ¬ x.header.Named contentLength
  plain : ∀ f ∈ fields, ¬ f.header.Named transferEncoding

def Message.headers (m : Message) : List Header := m.fields.map Field.header

def Message.bytes (m : Message) : List UInt8 :=
  headBytes m.start.line m.headers ++ CR :: LF :: m.body

/-! ## Writing a message -/

/-- The next writer is called when the one before returned 0. -/
def Wrote.next (w : Wrote) (f : List UInt8 → Wrote) : Wrote :=
  match w with
  | (none, out) => f out
  | (some d, out) => (some d, out)

def Start.write (B : Bytestream) (out : List UInt8) : Start → Wrote
  | .request r => httpStartRequest B out r.token r.uri
  | .response r => httpStartResponse B out r.reason r.phrase

def writeFields (B : Bytestream) (out : List UInt8) (fs : List Field) : Wrote :=
  fs.foldl (fun w f => Wrote.next w fun out => httpAddHeaderField B out f.name f.value) (none, out)

/-- A message, written with one call after the other. -/
def Message.write (B : Bytestream) (out : List UInt8) (m : Message) : Wrote :=
  (((m.start.write B out).next fun out => writeFields B out m.fields).next
    fun out => httpEndOfHeader B out).next fun out => httpAddBody B out m.body m.body.length

section
variable (B : Bytestream) (out : List UInt8)

theorem Start.write_eq (st : Start) : st.write B out = (none, out ++ (st.line.bytes ++ crlf)) := by
  cases st with
  | request r =>
      have htoken : cstr r.token = r.token :=
        cstr_of_no_nul fun b hb => (r.line.token_clean b hb).1
      have huri : cstr r.uri = r.uri := cstr_of_no_nul fun b hb => (r.uri_ok b hb).2.2.2.2
      have hend : ascii " HTTP/1.1\r\n" = SP :: (ascii "HTTP/1.1" ++ crlf) := by decide
      show httpStartRequest B out r.token r.uri = _
      rw [httpStartRequest_eq, htoken, huri, hend]
      simp [Start.line, FirstLine.bytes, RequestLine.bytes, RequestStart.line]
  | response r =>
      have hphrase : cstr r.phrase = r.phrase := cstr_of_no_nul r.phrase_nul
      have hle := r.reason_le
      have hprint : printInt (r.reason : Int) = printNat r.reason := by
        unfold printInt
        rw [if_neg (by omega), Int.natAbs_natCast]
      have hstart : ascii "HTTP/1.1 " = ascii "HTTP/1.1" ++ [SP] := by decide
      show httpStartResponse B out r.reason r.phrase = _
      rw [httpStartResponse_eq B out (by omega) (by unfold intMax; omega), hphrase, hprint, hstart]
      simp [Start.line, FirstLine.bytes, StatusLine.bytes, ResponseStart.line]

theorem writeFields_eq (fs : List Field) :
    writeFields B out fs = (none, out ++ headerBytes (fs.map Field.header)) := by
  unfold writeFields
  induction fs generalizing out with
  | nil => simp [headerBytes]
  | cons f fs ih =>
      have hname : cstr f.name = f.name := cstr_of_no_nul fun b hb => (f.name_ok b hb).2.2.2
      have hvalue : cstr f.value = f.value := cstr_of_no_nul fun b hb => (f.value_ok b hb).2.2
      rw [List.foldl_cons]
      simp only [Wrote.next]
      rw [httpAddHeaderField_eq, hname, hvalue]
      refine (ih _).trans ?_
      simp [headerBytes, Header.bytes, Field.header]

theorem Message.write_eq (m : Message) : m.write B out = (none, out ++ m.bytes) := by
  unfold Message.write
  rw [Start.write_eq]
  simp only [Wrote.next]
  rw [writeFields_eq]
  simp only
  unfold httpEndOfHeader
  rw [checked_cat]
  simp only
  unfold httpAddBody
  rw [checked_cat, List.take_length]
  simp [Message.bytes, headBytes, Message.headers, crlf]

end

/-! ## Reading it back -/

theorem nameOf_bytes (h : Header) : nameOf h.bytes = h.name := by
  unfold nameOf Header.bytes
  rw [List.takeWhile_append_of_pos fun b hb => by simpa using (h.name_ok b hb).1]
  simp

theorem asksChunked_bytes {h : Header} (hn : ¬ h.Named transferEncoding) :
    asksChunked h.bytes = false := by
  have hcstr : cstr h.name = h.name := cstr_of_no_nul fun b hb => (h.name_ok b hb).2.2.2
  have hcmp : strcasecmpEq h.name transferEncoding = false := by
    unfold strcasecmpEq
    rw [hcstr]
    exact beq_eq_false_iff_ne.mpr hn
  unfold asksChunked isEncodingLine
  rw [nameOf_bytes, hcmp]
  simp

/-- A body that is not chunked is never read as one longer than an `int` can
say, whatever its headers are. -/
theorem ReadExactly.body_le {pf : Platform} {l : FirstLine} {cbs : Callbacks} {errno : Int}
    {s : Stream} {reads reads' : List Read} {hs : List Header} {body rest Y : List UInt8}
    {q : Parser} (hcb : cbs.body.isSome = true) (h0 : 0 ≤ s.pos) (hle : s.pos ≤ s.eod + 2)
    (hplain : ∀ h ∈ hs, ¬ h.Named transferEncoding)
    (hstream : (s.data ++ pending reads).drop s.pos.toNat = headBytes l hs ++ CR :: LF :: Y)
    (hparse : Parses l pf cbs errno s reads (.returned .ok q reads'))
    (hexact : ReadExactly l hs body rest q reads') : (body.length : Int) ≤ intMax := by
  have hat : HeadAt (rawHead l hs) (CR :: LF :: Y) (.init s errno) reads :=
    .init h0 hle (by rw [rawHead_bytes]; exact hstream)
  obtain ⟨hcrash, -⟩ | ⟨p, reads₁, hread, hcalls, hrun⟩ :=
    head_run (t := ⟨.top, .init s errno, reads⟩) (.blank Y rfl) hat
      (fun c hc => absurd hc List.not_mem_nil) (parses_iff.mp hparse) rfl
  · cases hcrash
  have hlines : ∀ ln ∈ (rawHead l hs).lines, asksChunked ln = false := by
    intro ln hln
    obtain ⟨h, hmem, rfl⟩ := List.mem_map.mp hln
    exact asksChunked_bytes (hplain h hmem)
  have hframing := hread.framing
  rw [foldl_lineFraming hlines] at hframing
  obtain ⟨-, hbody, -⟩ := plain_length hread (congrArg Framing.chunked hframing) hcalls hrun rfl
  have hsz : p.ctx.bodysz ≤ intMax := by
    have hz : p.ctx.bodysz = _ := congrArg Framing.bodysz hframing
    rw [hz]
    simp only
    cases ((rawHead l hs).lines.filter isLengthLine).getLast? with
    | none => decide
    | some ln => exact (toInt_range _).2
  -- the one call of `body_cb` is the one for the body
  obtain ⟨c, hone, hlen⟩ := hbody.given hcb
  obtain ⟨c', ⟨c₀, cs, hq, -, -⟩, hcall⟩ := hexact.calls
  have hmem : c' ∈ bodyCalls q := by
    unfold bodyCalls
    rw [hq]
    exact List.mem_filter.mpr ⟨by simp, by simpa using hcall.kind⟩
  rw [hone] at hmem
  rw [List.mem_singleton.mp hmem] at hcall
  have := hcall.range.length
  have := hlen.length
  omega

/-- **What the writers have written is read back as it was exactly when no read
ends inside the empty line and the size of the body fits in an `int`.**  All
of it is written, whatever its size is. -/
theorem written_exact_iff (pf : Platform) (cbs : Callbacks) (errno : Int) (B : Bytestream)
    (out : List UInt8) (m : Message) (R : Nat) (hcb : cbs.Succeeding)
    (hfits : HeadFits R m.start.line m.headers) :
    m.write B out = (none, out ++ m.bytes) ∧
      ∀ s reads, Arrives R m.bytes s reads →
        ((∃ q reads', Parses m.start.line pf cbs errno s reads (.returned .ok q reads') ∧
            ReadExactly m.start.line m.headers m.body [] q reads') ↔
          (m.body.length : Int) ≤ intMax ∧
            ¬ Cuts s.eod reads (s.pos + (headBytes m.start.line m.headers).length + 1)) := by
  refine ⟨m.write_eq B out, fun s reads harr => ?_⟩
  have hplain : ∀ h ∈ m.headers, ¬ h.Named transferEncoding := by
    intro h hh
    obtain ⟨f, hf, rfl⟩ := List.mem_map.mp hh
    exact m.plain f hf
  have hlen : (m.body.length : Int) ≤ intMax → HasLength m.headers m.body.length := by
    intro hle
    obtain ⟨pre, f, post, heq, hf, hother⟩ := m.length_one
    refine ⟨⟨pre.map Field.header, f.header, post.map Field.header, ?_, hf, ?_⟩, hplain, hle⟩
    · simp [Message.headers, heq]
    · intro x hx
      rw [← List.map_append] at hx
      obtain ⟨f', hf', rfl⟩ := List.mem_map.mp hx
      exact hother f' hf'
  have harr' : Arrives R (headBytes m.start.line m.headers ++ CR :: LF :: (m.body ++ [])) s
      reads := by
    rw [List.append_nil]
    exact harr
  constructor
  · rintro ⟨q, reads', hparse, hexact⟩
    have hle := hexact.body_le (by obtain ⟨f, hf, -⟩ := hcb.body; rw [hf]; rfl) harr.pos_nonneg
      harr.pos_le hplain harr.stream hparse
    exact ⟨hle, fun hcut =>
      length_lost pf errno hcb hfits (hlen hle) rfl harr' hcut hparse hexact⟩
  · rintro ⟨hle, hcut⟩
    obtain ⟨q, reads', hparse, hexact, -⟩ :=
      length_exact pf errno hcb hfits (hlen hle) rfl harr' hcut
    exact ⟨q, reads', hparse, hexact⟩

/-! ### One message, cut in two ways -/

/-- Streams that append, and refuse what is too long. -/
def Bytestream.plain : Bytestream where
  nprintf out sz text := if text.length < sz then (text.length, out ++ text) else (-1, out)
  cat out bs := (bs.length, out ++ bs)
  whole out sz text := by
    split
    · rename_i h
      exact iff_of_true ⟨by simp only; omega, rfl⟩ h
    · rename_i h
      exact iff_of_false (fun h' => by simp at h') h
  cat_whole out bs := ⟨by simp only; omega, rfl⟩

/-- `GET /` with a body of one byte. -/
def Message.getA : Message where
  start := .request ⟨.get, ascii "GET", RequestLine.getRoot.token_ok, ascii "/",
    RequestLine.getRoot.uri_ne, by decide⟩
  fields := [⟨ascii "Content-Length", ascii "1", Header.lengthOne.name_ne,
    Header.lengthOne.name_ok, Header.lengthOne.value_ne, Header.lengthOne.value_ok,
    Header.lengthOne.value_head⟩]
  body := ascii "A"
  length_one := ⟨[], _, [], rfl, ⟨by decide, by decide, by decide⟩, by simp⟩
  plain := by decide

theorem headFits_getA : HeadFits 64 Message.getA.start.line Message.getA.headers :=
  ⟨by decide, by decide⟩

theorem written_exact_iff_getA :
    Message.getA.write .plain [] =
        (none, ascii "GET / HTTP/1.1\r\nContent-Length: 1\r\n\r\nA") ∧
      ∃ q reads, Parses Message.getA.start.line .keeping .accepting 0 ⟨[], [], 0⟩
          [.bytes (ascii "GET / HTTP/1.1\r\nContent-Length: 1\r\n\r\nA") []]
          (.returned .ok q reads) ∧
        ReadExactly Message.getA.start.line Message.getA.headers (ascii "A") [] q reads := by
  obtain ⟨hwrite, hread⟩ := written_exact_iff .keeping .accepting 0 .plain [] .getA 64
    Callbacks.accepting_succeeding headFits_getA
  have hbytes : Message.getA.bytes =
      ascii "GET / HTTP/1.1\r\nContent-Length: 1\r\n\r\nA" := by decide
  refine ⟨by rw [hwrite, hbytes]; rfl, ?_⟩
  exact (hread ⟨[], [], 0⟩ _ ⟨by decide, by decide, by rw [hbytes]; decide,
    .cons (by decide) (by decide) (.nil _), by decide⟩).mpr ⟨by decide, by decide⟩

/-- What was written, cut between the CR and the LF of its empty line: it is
not read back. -/
theorem written_cut_in_blank_line :
    Message.getA.write .plain [] = (none, ascii "GET / HTTP/1.1\r\nContent-Length: 1\r\n\r" ++
        ascii "\nA") ∧
      ¬ ∃ q reads, Parses Message.getA.start.line .keeping .accepting 0 ⟨[], [], 0⟩
          [.bytes (ascii "GET / HTTP/1.1\r\nContent-Length: 1\r\n\r") [],
            .bytes (ascii "\nA") []] (.returned .ok q reads) ∧
        ReadExactly Message.getA.start.line Message.getA.headers (ascii "A") [] q reads := by
  refine ⟨by rw [Message.write_eq]; decide, ?_⟩
  rintro ⟨q, reads, hparse, hexact⟩
  refine length_lost (R := 64) (n := 1) .keeping 0 Callbacks.accepting_succeeding headFits_getA
    ⟨⟨[], _, [], rfl, ⟨by decide, by decide, by decide⟩, by simp⟩, by decide, by decide⟩ rfl
    ⟨by decide, by decide, by decide,
      .cons (by decide) (by decide) (.cons (by decide) (by decide) (.nil _)), by decide⟩
    (by decide) hparse hexact

end MnHttp
