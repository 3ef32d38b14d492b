/-
# `MnApp.Http.Message` — well-formed HTTP/1.1 messages, as bytes

What a correct peer sends: a request or status line, header lines, an empty
line, a body.  Nothing here is read off the parser.  Each part carries the
proofs of its own well-formedness, so that a malformed one cannot be
written down:

    RequestLine   method SP+ uri SP HTTP/1.1
    StatusLine    HTTP/1.1 SP status SP reason
    Header        name ':' blanks value
    Chunk         size-in-hex CRLF data CRLF

`headBytes` are those of a first line and its headers; the empty line comes behind.
-/
import MnApp.Http.Stream

namespace MnHttp

open CLib

def crlf : List UInt8 := [CR, LF]

/-! ## First lines -/

/-- The methods the parser knows by name. -/
inductive Method where
  | get | head | post | put | delete | options | connect | trace
deriving DecidableEq, Repr

def Method.text : Method → List UInt8
  | .get => ascii "GET"
  | .head => ascii "HEAD"
  | .post => ascii "POST"
  | .put => ascii "PUT"
  | .delete => ascii "DELETE"
  | .options => ascii "OPTIONS"
  | .connect => ascii "CONNECT"
  | .trace => ascii "TRACE"

/-- A request line; the letters of the method may be of either case. -/
structure RequestLine where
  method : Method
  token : List UInt8
  token_ok : token.map tolower = method.text.map tolower
  gap : Nat
  uri : List UInt8
  uri_ne : uri ≠ []
  uri_ok : ∀ b ∈ uri, b ≠ SP ∧ b ≠ TAB ∧ b ≠ CR ∧ b ≠ LF

def RequestLine.bytes (l : RequestLine) : List UInt8 :=
  l.token ++ (List.replicate (l.gap + 1) SP ++ (l.uri ++ SP :: ascii "HTTP/1.1"))

/-- A status line; the status is some decimal digits with a non-zero value. -/
structure StatusLine where
  status : List UInt8
  status_digits : ∀ b ∈ status, isDigit 10 b = true
  status_pos : 0 < ofDigits 10 status
  status_max : (ofDigits 10 status : Int) ≤ intMax
  reason : List UInt8
  reason_ok : NoCrlf reason

def StatusLine.bytes (l : StatusLine) : List UInt8 :=
  ascii "HTTP/1.1" ++ (SP :: (l.status ++ SP :: l.reason))

/-- `HTTP/1.1 200 OK` -/
def StatusLine.ok : StatusLine :=
  ⟨ascii "200", by decide, by decide, by decide, ascii "OK", by decide⟩

theorem noCrlf_statusOk : NoCrlf (ascii "HTTP/1.1 200 OK") := by decide

inductive FirstLine where
  | request (l : RequestLine)
  | status (l : StatusLine)

def FirstLine.bytes : FirstLine → List UInt8
  | .request l => l.bytes
  | .status l => l.bytes

/-! ## Headers -/

structure Header where
  name : List UInt8
  blanks : List UInt8
  value : List UInt8
  name_ne : name ≠ []
  name_ok : ∀ b ∈ name, b ≠ COLON ∧ b ≠ CR ∧ b ≠ LF ∧ b ≠ NUL
  blanks_ok : ∀ b ∈ blanks, ISSPACE b = true
  value_ne : value ≠ []
  value_ok : ∀ b ∈ value, b ≠ CR ∧ b ≠ LF ∧ b ≠ NUL
  value_head : ∀ b ∈ value.head?, ISSPACE b = false

theorem isspace_blank : ∀ b ∈ [SP], ISSPACE b = true := by decide

def Header.bytes (h : Header) : List UInt8 := h.name ++ COLON :: (h.blanks ++ h.value)

/-- The header has that name, in any letter case. -/
def Header.Named (h : Header) (name : List UInt8) : Prop := h.name.map tolower = name.map tolower

instance (h : Header) (name : List UInt8) : Decidable (h.Named name) :=
  inferInstanceAs (Decidable (_ = _))

def contentLength : List UInt8 := ascii "content-length"
def transferEncoding : List UInt8 := ascii "transfer-encoding"
def chunkedCoding : List UInt8 := ascii "chunked"

/-- `Transfer-Encoding: chunked`. -/
def Header.IsChunked (h : Header) : Prop := h.Named transferEncoding ∧ h.value = chunkedCoding

instance (h : Header) : Decidable h.IsChunked := inferInstanceAs (Decidable (_ ∧ _))

/-- `Content-Length: n`, with `n` in decimal. -/
structure Header.IsContentLength (h : Header) (n : Nat) : Prop where
  named : h.Named contentLength
  digits : ∀ b ∈ h.value, isDigit 10 b = true
  value : ofDigits 10 h.value = n

/-! ## Whole messages -/

/-- The header lines, each with its CR LF. -/
def headerBytes (hs : List Header) : List UInt8 := hs.flatMap fun h => h.bytes ++ crlf

/-- The first line and the header lines, without the empty line. -/
def headBytes (l : FirstLine) (hs : List Header) : List UInt8 :=
  l.bytes ++ crlf ++ headerBytes hs

/-- One chunk with data; its size may have leading zeros. -/
structure Chunk where
  size : List UInt8
  data : List UInt8
  size_ne : size ≠ []
  size_digits : ∀ b ∈ size, isDigit 16 b = true
  size_value : ofDigits 16 size = data.length
  data_ne : data ≠ []

def Chunk.bytes (c : Chunk) : List UInt8 := c.size ++ crlf ++ (c.data ++ crlf)

/-- The chunk that ends a chunked body. -/
def lastChunk : List UInt8 := ascii "0" ++ crlf ++ crlf

def chunkedBytes (cs : List Chunk) : List UInt8 := cs.flatMap Chunk.bytes ++ lastChunk

/-- The size of what the chunks carry. -/
def chunkedSize (cs : List Chunk) : Nat := (cs.map fun c => c.data.length).sum

/-! ## No line breaks inside a line -/

theorem noCrlf_append {a b : List UInt8} (ha : CR ∉ a) (hb : NoCrlf b) : NoCrlf (a ++ b) := by
  induction a with
  | nil => exact hb
  | cons x a ih =>
      have hx : x ≠ CR := fun h => ha (by simp [h])
      have := ih fun h => ha (List.mem_cons_of_mem _ h)
      unfold NoCrlf at this ⊢
      simp [firstCrlf, hx, this]

theorem isDigit_ne_CR {base : Nat} {b : UInt8} (h : isDigit base b = true) : b ≠ CR := by
  rintro rfl
  have := isDigit_range h
  simp [CR] at this

theorem tolower_ne {b c : UInt8} (hc : tolower c = c) (h : tolower b ≠ c) : b ≠ c := by
  rintro rfl
  exact h hc

theorem Method.text_clean (m : Method) : ∀ b ∈ m.text.map tolower,
    b ≠ NUL ∧ b ≠ TAB ∧ b ≠ LF ∧ b ≠ CR ∧ b ≠ SP := by
  cases m <;> decide

theorem RequestLine.token_clean (l : RequestLine) : ∀ b ∈ l.token,
    b ≠ NUL ∧ b ≠ TAB ∧ b ≠ LF ∧ b ≠ CR ∧ b ≠ SP := by
  intro b hb
  have hm : tolower b ∈ l.method.text.map tolower := by
    rw [← l.token_ok]
    exact List.mem_map_of_mem hb
  obtain ⟨h1, h2, h3, h4, h5⟩ := l.method.text_clean _ hm
  exact ⟨tolower_ne (by decide) h1, tolower_ne (by decide) h2, tolower_ne (by decide) h3,
    tolower_ne (by decide) h4, tolower_ne (by decide) h5⟩

theorem RequestLine.noCrlf (l : RequestLine) : NoCrlf l.bytes := by
  apply noCrlf_of_not_mem
  unfold RequestLine.bytes
  simp only [List.mem_append, List.mem_cons, not_or]
  refine ⟨fun h => (l.token_clean CR h).2.2.2.1 rfl, ?_, fun h => (l.uri_ok CR h).2.2.1 rfl,
    by decide, by decide⟩
  intro h
  exact absurd (List.eq_of_mem_replicate h) (by decide)

theorem StatusLine.noCrlf (l : StatusLine) : NoCrlf l.bytes := by
  have : l.bytes = (ascii "HTTP/1.1" ++ (SP :: (l.status ++ [SP]))) ++ l.reason := by
    simp [StatusLine.bytes]
  rw [this]
  refine noCrlf_append ?_ l.reason_ok
  simp only [List.mem_append, List.mem_cons, List.not_mem_nil, or_false, not_or]
  exact ⟨by decide, by decide, fun h => isDigit_ne_CR (l.status_digits CR h) rfl, by decide⟩

theorem FirstLine.noCrlf : ∀ l : FirstLine, NoCrlf l.bytes
  | .request l => l.noCrlf
  | .status l => l.noCrlf

theorem Header.noCrlf (h : Header) : NoCrlf h.bytes := by
  apply noCrlf_of_not_mem
  unfold Header.bytes
  simp only [List.mem_append, List.mem_cons, not_or]
  refine ⟨fun hm => (h.name_ok CR hm).2.1 rfl, by decide, ?_, fun hm => (h.value_ok CR hm).1 rfl⟩
  intro hm
  exact absurd (h.blanks_ok CR hm) (by decide)

theorem StatusLine.status_ne (l : StatusLine) : l.status ≠ [] := by
  intro h
  have := l.status_pos
  rw [h] at this
  exact absurd this (by decide)

end MnHttp
