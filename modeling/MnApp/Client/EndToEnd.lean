/-
# `MnApp.Client.EndToEnd` — what the clients ask is what a server reads

Three things that were looked at one by one, put together:

| what                                             | where                      |
| ------------------------------------------------ | -------------------------- |
| the bytes of one request                         | `MnApp.Client.Splitting`   |
| the requests on the wire, over all interleavings | `MnApp.Client.Responses`   |
| messages read one after the other                | `MnApp.Http.Pipeline`      |

An `Ask` is what a caller of `mnhttpc_request_finalize` has set up: a URI, a
method, query terms, headers and a body, with a `Content-Length` that says how
long it is.  Any number of calls share a connection, in any interleaving with
the two workers.  At the other end `http_parse_request` is called again and
again on what arrives, in any reads that end inside no empty line.  It is given
the requests of the calls, in the order of the semaphore, each with its method,
its URI with the encoded query terms, its headers and its body; and the `n`-th
response is that of the `n`-th of them (`Agreed`, `agreement`).

A `Content-Length` is needed: without one the parser does not come to the end of
a request.
-/
import MnApp.Client.Matching
import MnApp.Client.Splitting
import MnApp.Http.Pipeline

namespace MnHttpc

open MnHttp CLib Run Loop

/-! ## Headers -/

/-- A name and a value that make a header. -/
structure Writable (f : NameValue) : Prop where
  name_ne : f.1 ≠ []
  name_ok : ∀ b ∈ f.1, b ≠ COLON ∧ b ≠ CR ∧ b ≠ LF ∧ b ≠ NUL
  value_ne : f.2 ≠ []
  value_ok : ∀ b ∈ f.2, b ≠ CR ∧ b ≠ LF ∧ b ≠ NUL
  value_head : ∀ b ∈ f.2.head?, ISSPACE b = false

/-- The header it is read as. -/
def Writable.header {f : NameValue} (h : Writable f) : Header where
  name := f.1
  blanks := [SP]
  value := f.2
  name_ne := h.name_ne
  name_ok := h.name_ok
  blanks_ok := isspace_blank
  value_ne := h.value_ne
  value_ok := h.value_ok
  value_head := h.value_head

theorem Writable.bytes {f : NameValue} (h : Writable f) : h.header.bytes = fieldLine f := by
  unfold fieldLine
  rw [cstr_of_no_nul fun b hb => (h.name_ok b hb).2.2.2,
    cstr_of_no_nul fun b hb => (h.value_ok b hb).2.2]
  rfl

def headersOf (fs : List NameValue) (h : ∀ f ∈ fs, Writable f) : List Header :=
  fs.pmap (fun _ hf => Writable.header hf) h

theorem headerBytes_headersOf (fs : List NameValue) (h : ∀ f ∈ fs, Writable f) :
    headerBytes (headersOf fs h) = rawLines (fs.map fieldLine) := by
  induction fs with
  | nil => rfl
  | cons f fs ih =>
      have htail := ih fun x hx => h x (List.mem_cons_of_mem _ hx)
      have hhead := (h f List.mem_cons_self).bytes
      unfold headerBytes rawLines headersOf at *
      rw [List.pmap_cons, List.flatMap_cons, List.map_cons, List.flatMap_cons, htail, hhead]

/-- The name, in any letter case. -/
def NamedAs (f : NameValue) (name : List UInt8) : Prop := f.1.map tolower = name.map tolower

instance (f : NameValue) (name : List UInt8) : Decidable (NamedAs f name) :=
  inferInstanceAs (Decidable (_ = _))

/-- `Content-Length: n`. -/
structure LengthField (f : NameValue) (n : Nat) : Prop where
  named : NamedAs f contentLength
  digits : ∀ b ∈ f.2, isDigit 10 b = true
  value : ofDigits 10 f.2 = n

/-- The headers are those of a message with a `Content-Length`, in whatever order
the hash is walked. -/
theorem hasLength_headersOf {fs rest : List NameValue} {f : NameValue} {n : Nat}
    (hok : ∀ x ∈ fs, Writable x) (hperm : fs.Perm (f :: rest)) (hlen : LengthField f n)
    (hother : ∀ x ∈ rest, ¬ NamedAs x contentLength)
    (hplain : ∀ x ∈ fs, ¬ NamedAs x transferEncoding) (hfits : (n : Int) ≤ intMax) :
    HasLength (headersOf fs hok) n := by
  have hmem : ∀ {xs : List NameValue} {hxs : ∀ x ∈ xs, Writable x} {h : Header},
      h ∈ headersOf xs hxs → ∃ x ∈ xs, ∀ name, h.Named name ↔ NamedAs x name := by
    intro xs hxs h hh
    obtain ⟨x, hx, rfl⟩ := List.mem_pmap.mp hh
    exact ⟨x, hx, fun _ => Iff.rfl⟩
  obtain ⟨pre, post, rfl⟩ := List.append_of_mem (hperm.mem_iff.mpr List.mem_cons_self)
  have hrest : (pre ++ post).Perm rest :=
    ((List.perm_middle.symm.trans hperm).cons_inv)
  refine ⟨?_, ?_, hfits⟩
  · have hpre : ∀ x ∈ pre, Writable x := fun x hx => hok x (List.mem_append_left _ hx)
    have hpost : ∀ x ∈ post, Writable x := fun x hx =>
      hok x (List.mem_append_right _ (List.mem_cons_of_mem _ hx))
    have hf : Writable f := hok f (List.mem_append_right _ List.mem_cons_self)
    refine ⟨headersOf pre hpre, hf.header, headersOf post hpost, ?_,
      ⟨hlen.named, hlen.digits, hlen.value⟩, ?_⟩
    · unfold headersOf
      rw [List.pmap_append, List.pmap_cons]
    · intro h hh hnamed
      obtain ⟨x, hx, hiff⟩ : ∃ x ∈ pre ++ post, ∀ name, h.Named name ↔ NamedAs x name := by
        rcases List.mem_append.mp hh with hh | hh
        · obtain ⟨x, hx, hiff⟩ := hmem hh
          exact ⟨x, List.mem_append_left _ hx, hiff⟩
        · obtain ⟨x, hx, hiff⟩ := hmem hh
          exact ⟨x, List.mem_append_right _ hx, hiff⟩
      exact hother x (hrest.mem_iff.mp hx) ((hiff _).mp hnamed)
  · intro h hh hnamed
    obtain ⟨x, hx, hiff⟩ := hmem hh
    exact hplain x hx ((hiff _).mp hnamed)

/-! ## Requests -/

/-- The method the parser takes the text for; it does not know `PATCH`. -/
def ApiMethod.method : ApiMethod → Method
  | .options => .options
  | .get | .patch => .get
  | .head => .head
  | .post => .post
  | .put => .put
  | .delete => .delete
  | .trace => .trace
  | .connect => .connect

theorem ApiMethod.method_text {m : ApiMethod} (h : m ≠ .patch) : m.method.text = m.text := by
  cases m <;> first | rfl | exact absurd rfl h

/-- What a caller has set up: the string given to `mnhttpc_new` and what it is
split into, a method, `mnhttpc_request_out_qterm_addb` and
`mnhttpc_request_out_field_addb` calls, the time, and what `out_body_cb` appends.
Nothing in it ends a word or a line, and exactly one header says how long the body
is. -/
structure Ask where
  text : List UInt8
  host : List UInt8
  port : List UInt8
  rel : List UInt8
  method : ApiMethod
  terms : Hash
  headers : Hash
  now : Int
  body : List UInt8
  host_eq : (mnhttpUriParse text).host = some host
  port_eq : (mnhttpUriParse text).port = some port
  rel_eq : (mnhttpUriParse text).relative = some rel
  known : method ≠ .patch
  rel_ok : ∀ b ∈ rel, b ≠ SP ∧ b ≠ TAB ∧ b ≠ CR ∧ b ≠ LF
  host_ne : host ≠ []
  host_head : ∀ b ∈ host.head?, ISSPACE b = false
  host_ok : ∀ b ∈ host ++ port, b ≠ CR ∧ b ≠ LF
  headers_ok : ∀ f ∈ headers, Writable f
  length_one : ∃ f rest, headers.Perm (f :: rest) ∧ LengthField f body.length ∧
    ∀ x ∈ rest, ¬ NamedAs x contentLength
  plain : ∀ f ∈ headers, ¬ NamedAs f transferEncoding
  body_le : (body.length : Int) ≤ intMax

section
variable (H : HashLib) (C : UrlCodec) (K : Clock) (a : Ask)

/-- The URI with its query terms. -/
def Ask.query : QueryUri := addQterms H (.parse a.text) a.terms

/-- The URI of the request line. -/
def Ask.target : List UInt8 := a.rel ++ (a.query H).tail H C

/-- The headers of the request. -/
def Ask.fields : List NameValue := meantFields H K a.host a.port a.headers a.now

theorem Ask.query_uri : (a.query H).uri = mnhttpUriParse a.text := addQterms_uri H a.terms _

theorem Ask.host_port_nul : (∀ b ∈ a.host, b ≠ NUL) ∧ ∀ b ∈ a.port, b ≠ NUL := by
  obtain ⟨hnul, -⟩ := mnhttpUriParse_ok a.text
  exact ⟨hnul.host a.host a.host_eq, hnul.port a.port a.port_eq⟩

theorem Ask.target_ne : a.target H C ≠ [] := by
  obtain ⟨-, hok⟩ := mnhttpUriParse_ok a.text
  obtain ⟨rest, hslash⟩ := hok.slash a.rel a.rel_eq
  unfold Ask.target
  rw [hslash]
  exact List.cons_ne_nil _ _

theorem Ask.target_ok : ∀ b ∈ a.target H C, b ≠ SP ∧ b ≠ TAB ∧ b ≠ CR ∧ b ≠ LF := by
  intro b hb
  rcases List.mem_append.mp hb with hb | hb
  · exact a.rel_ok b hb
  · obtain ⟨h1, h2, h3, h4, -⟩ := (a.query H).tail_clean H C b hb
    exact ⟨h1, h2, h3, h4⟩

/-- The request line. -/
def Ask.line : RequestLine where
  method := a.method.method
  token := a.method.text
  token_ok := by rw [ApiMethod.method_text a.known]
  gap := 0
  uri := a.target H C
  uri_ne := a.target_ne H C
  uri_ok := a.target_ok H C

/-- A name that makes a header. -/
def NameOk (name : List UInt8) : Prop :=
  name ≠ [] ∧ ∀ b ∈ name, b ≠ COLON ∧ b ≠ CR ∧ b ≠ LF ∧ b ≠ NUL

theorem name_host : NameOk (ascii "Host") := ⟨by decide, by decide⟩

theorem name_date : NameOk (ascii "Date") := ⟨by decide, by decide⟩

theorem writable_host : Writable (ascii "Host", a.host ++ COLON :: a.port) := by
  obtain ⟨x, xs, hx⟩ := List.exists_cons_of_ne_nil a.host_ne
  obtain ⟨hhost, hport⟩ := a.host_port_nul
  refine ⟨name_host.1, name_host.2, List.append_ne_nil_of_left_ne_nil a.host_ne _, ?_, ?_⟩
  · intro b hb
    rcases List.mem_append.mp hb with hb | hb
    · obtain ⟨h1, h2⟩ := a.host_ok b (List.mem_append_left _ hb)
      exact ⟨h1, h2, hhost b hb⟩
    · rcases List.mem_cons.mp hb with rfl | hb
      · decide
      · obtain ⟨h1, h2⟩ := a.host_ok b (List.mem_append_right _ hb)
        exact ⟨h1, h2, hport b hb⟩
  · have hhead := a.host_head
    rw [hx] at hhead ⊢
    exact hhead

theorem Ask.fields_ok : ∀ f ∈ a.fields H K, Writable f := by
  intro f hf
  have hiter : ∀ f, f ∈ H.iter a.headers ↔ f ∈ a.headers := fun f => (H.iter_perm _).mem_iff
  simp only [Ask.fields, meantFields, List.mem_cons, hiter] at hf
  rcases hf with rfl | rfl | rfl | hf
  · exact ⟨name_date.1, name_date.2, K.date_ne a.now, K.date_ok a.now, K.date_head a.now⟩
  · exact writable_host a
  · exact ⟨by decide, by decide, by decide, by decide, by decide⟩
  · exact a.headers_ok f hf

/-- The request as a message. -/
def Ask.sent : Sent :=
  ⟨.request (a.line H C), headersOf (a.fields H K) (a.fields_ok H K), .length a.body⟩

theorem Ask.sent_bytes : (a.sent H C K).bytes =
    headBlock a.method.text (a.target H C) (a.fields H K) ++ a.body := by
  show headBytes _ _ ++ CR :: LF :: a.body = _
  unfold headBytes headBlock
  rw [Ask.sent, headerBytes_headersOf]
  simp [crlf, FirstLine.bytes, RequestLine.bytes, Ask.line, requestBytes]

/-- None of the headers that are always there says how long the body is, or that
it is chunked. -/
theorem Ask.hasLength : HasLength (a.sent H C K).headers a.body.length := by
  obtain ⟨f, rest, hperm, hlen, hother⟩ := a.length_one
  have hfixed : ∀ name, name = contentLength ∨ name = transferEncoding →
      (ascii "Date").map tolower ≠ name.map tolower ∧
        (ascii "Host").map tolower ≠ name.map tolower ∧
        (ascii "User-Agent").map tolower ≠ name.map tolower := by
    rintro name (rfl | rfl)
    · exact ⟨by decide, by decide, by decide⟩
    · exact ⟨by decide, by decide, by decide⟩
  have hmeant : (a.fields H K).Perm (f :: (ascii "Date", K.date a.now) ::
      (ascii "Host", a.host ++ COLON :: a.port) :: (ascii "User-Agent", userAgent) :: rest) := by
    have hiter := ((H.iter_perm a.headers).trans hperm)
    refine (((hiter.cons _).cons _).cons _).trans ?_
    refine (List.Perm.cons _ (List.Perm.cons _ (List.Perm.swap _ _ _))).trans ?_
    exact (List.Perm.cons _ (List.Perm.swap _ _ _)).trans (List.Perm.swap _ _ _)
  refine hasLength_headersOf (a.fields_ok H K) hmeant hlen ?_ ?_ a.body_le
  · intro x hx
    simp only [List.mem_cons] at hx
    rcases hx with rfl | rfl | rfl | hx
    · exact (hfixed _ (.inl rfl)).1
    · exact (hfixed _ (.inl rfl)).2.1
    · exact (hfixed _ (.inl rfl)).2.2
    · exact hother x hx
  · intro x hx
    have hiter : ∀ f, f ∈ H.iter a.headers ↔ f ∈ a.headers := fun f => (H.iter_perm _).mem_iff
    simp only [Ask.fields, meantFields, List.mem_cons, hiter] at hx
    rcases hx with rfl | rfl | rfl | hx
    · exact (hfixed _ (.inr rfl)).1
    · exact (hfixed _ (.inr rfl)).2.1
    · exact (hfixed _ (.inr rfl)).2.2
    · exact a.plain x hx

variable {H C K a}

theorem Ask.well {R : Nat} (h : HeadFits R (.request (a.line H C)) (a.sent H C K).headers) :
    (a.sent H C K).Well R := ⟨h, a.hasLength H C K, nofun⟩

end

/-! ## On the wire -/

/-- The bytes of a run are those of these requests. -/
structure Setting.Sends (S : Setting) (H : HashLib) (B : Bytestream) (C : UrlCodec) (K : Clock)
    (asks : ReqId → Ask) : Prop where
  head : ∀ k, writeHead B H C K ((asks k).query H) (asks k).method (asks k).headers (asks k).now
    [] = some (none, S.head k)
  body : ∀ k, (S.body k).getD [] = (asks k).body

section
variable {S : Setting} {H : HashLib} {B : Bytestream} {C : UrlCodec} {K : Clock}
variable {asks : ReqId → Ask} {R : Nat} {s : Sys}

theorem tag_bytes (k : ReqId) (off : Nat) (bs : List UInt8) :
    (tag k off bs).map OutByte.byte = bs := by
  unfold tag
  rw [List.map_map]
  exact List.zipIdx_map_fst off bs

theorem Setting.Sends.text (h : S.Sends H B C K asks) (k : ReqId) :
    (S.textOf k).map OutByte.byte = ((asks k).sent H C K).bytes := by
  obtain ⟨hnul, -⟩ := mnhttpUriParse_ok (asks k).text
  have huri := (asks k).query_uri H
  have hwrite := writeHead_eq B H C K ((asks k).query H) (asks k).method (asks k).headers
    (asks k).now [] (huri ▸ hnul) (huri ▸ (asks k).host_eq) (huri ▸ (asks k).port_eq)
    (huri ▸ (asks k).rel_eq)
  have hhead : S.head k =
      headBlock (asks k).method.text ((asks k).target H C) ((asks k).fields H K) := by
    have heq := Option.some.inj ((h.head k).symm.trans hwrite)
    rw [List.nil_append] at heq
    exact (Prod.mk.inj heq).2
  unfold Setting.textOf Setting.headOf Setting.bodyOf
  rw [List.map_append, tag_bytes, tag_bytes, h.body, hhead, Ask.sent_bytes]

/-- The bytes a server is sent. -/
def Sys.wireBytes (s : Sys) : List UInt8 := s.log.wire.map fun x => x.2.byte

variable (H C K asks) in
/-- The first `m` requests, in the order of the semaphore. -/
def Sys.asked (s : Sys) (m : Nat) : List Sent :=
  (s.log.acquired.take m).map fun k => (asks k).sent H C K

/-- What has been written begins with the requests that were written in full. -/
theorem Sys.Asked.bytes {m : Nat} (hS : S.Sends H B C K asks) (h : s.Asked S m) :
    ∃ rest, s.wireBytes = (s.asked H C K asks m).flatMap Sent.bytes ++ rest := by
  obtain ⟨more, hmore⟩ := h.2
  refine ⟨more.map OutByte.byte, ?_⟩
  have hmap : ∀ ks : List ReqId, (ks.flatMap S.textOf).map OutByte.byte =
      (ks.map fun k => (asks k).sent H C K).flatMap Sent.bytes := by
    intro ks
    induction ks with
    | nil => rfl
    | cons k ks ih =>
        rw [List.flatMap_cons, List.map_append, hS.text, ih, List.map_cons, List.flatMap_cons]
  have hwire : s.wireBytes = (s.log.wire.map Prod.snd).map OutByte.byte := by
    rw [List.map_map]
    rfl
  rw [hwire, ← hmore, List.map_append, hmap]
  rfl

variable (H C K asks R) in
/-- Client and server agree on the requests and on the responses: every request
that was answered is on the wire; all the requests that are on the wire are read
as they were asked, in order, by one call of `http_parse_request` after the
other; and the `n`-th response was given to the call whose request is the `n`-th
of them. -/
structure Agreed (E : Exchange S) (s : Sys) : Prop where
  written : s.Asked S s.log.parses.length
  read : ∀ m, s.Asked S m → ∃ rest,
    s.wireBytes = (s.asked H C K asks m).flatMap Sent.bytes ++ rest ∧
    ∀ (pf : Platform) (inp : Stream) (reads : List Read), Arrives R s.wireBytes inp reads →
      Unsplit inp reads (s.asked H C K asks m) → ReadInTurn pf (s.asked H C K asks m) rest inp reads
  answered : ∀ n x, s.log.parses[n]? = some x → ∃ k, AnsweredBy E n x k ∧
    (s.asked H C K asks s.log.parses.length)[n]? = some ((asks k).sent H C K)

theorem Inv.agreed {E : Exchange S} (hS : S.Sends H B C K asks)
    (hfits : ∀ k, HeadFits R (.request ((asks k).line H C)) ((asks k).sent H C K).headers)
    (h : Inv E s) : Agreed H C K asks R E s where
  written := h.whole
  read m hm := by
    obtain ⟨rest, hrest⟩ := hm.bytes hS
    refine ⟨rest, hrest, fun pf inp reads harr huncut => ?_⟩
    rw [hrest] at harr
    refine readInTurn_of_unsplit pf ?_ harr huncut
    intro m' hm'
    obtain ⟨k, -, rfl⟩ := List.mem_map.mp hm'
    exact Ask.well (hfits k)
  answered n x hx := by
    obtain ⟨k, hacq, hanswer, -⟩ := h.matched.answers n x hx
    refine ⟨k, hanswer, ?_⟩
    have hlt := (List.getElem?_eq_some_iff.mp hx).1
    unfold Sys.asked
    rw [List.getElem?_map, List.getElem?_take_of_lt hlt, hacq]
    rfl

end

/-- **Client and server agree.**  In every run of a connection in which nothing
fails, the server keeps to the order and no step is one that `Spared` excludes,
in every state: what is on the wire is read by `http_parse_request` as the
requests of the calls in the order of the semaphore, and the responses are given
to the calls in that order. -/
theorem agreement (S : Setting) (H : HashLib) (B : Bytestream) (C : UrlCodec) (K : Clock)
    (asks : ReqId → Ask) (R : Nat) (E : Exchange S) (scheme : Scheme) (as : List Act)
    (hS : S.Sends H B C K asks)
    (hfits : ∀ k, HeadFits R (.request ((asks k).line H C)) ((asks k).sent H C K).headers)
    (h : Meets (step S) (fun s a => Provided E s a ∧ Spared E s a) (.init scheme) as) :
    Along (step S) (Agreed H C K asks R E) (.init scheme) as :=
  along_of_meets (fun _ _ _ hinv hC hs => hinv.step hC.1 hC.2 hs)
    (fun _ hinv => hinv.agreed hS hfits) (inv_init scheme) h

/-! ### One request with a body -/

/-- `POST http://h/p` with a body of one byte. -/
def Ask.post : Ask where
  text := ascii "http://h/p"
  host := ascii "h"
  port := ascii "80"
  rel := ascii "/p"
  method := .post
  terms := []
  headers := [(ascii "Content-Length", ascii "1")]
  now := 0
  body := ascii "A"
  host_eq := by decide
  port_eq := by decide
  rel_eq := by decide
  known := nofun
  rel_ok := by decide
  host_ne := by decide
  host_head := by decide
  host_ok := by decide
  headers_ok f hf := by
    obtain rfl := List.mem_singleton.mp hf
    exact ⟨by decide, by decide, by decide, by decide, by decide⟩
  length_one := ⟨_, [], List.Perm.refl _, ⟨by decide, by decide, by decide⟩,
    fun _ hx => absurd hx List.not_mem_nil⟩
  plain := by decide
  body_le := by decide

/-- Its head. -/
def postHead : List UInt8 :=
  ascii "POST /p HTTP/1.1\r\n" ++ ascii "Date: Thu, 01 Jan 1970 00:00:00 GMT\r\n" ++
    ascii "Host: h:80\r\nUser-Agent: mnapp/0.1\r\nContent-Length: 1\r\n\r\n"

/-- Everybody asks that. -/
def Setting.asking : Setting where
  pf := ⟨.keep, -1, minus_one_neg⟩
  head _ := postHead
  head_ne _ := by decide
  body _ := some (ascii "A")
  inBodyCb _ := none

theorem postHead_written : writeHead .plain .plain .percent .epoch (Ask.post.query .plain) .post
    Ask.post.headers 0 [] = some (none, postHead) := by decide +kernel

theorem asking_sends : Setting.asking.Sends .plain .plain .percent .epoch fun _ => .post where
  head _ := postHead_written
  body _ := rfl

theorem asking_unheard : Setting.asking.Unheard := fun _ => rfl

/-- The request is written, and the response is read. -/
def oneExchange : List Act :=
  firstCall ++ [.bodyDone 0, .sendRun, .sendWrite (postHead.length + 1)] ++
    reading (.bytes xyzBytes []) 19 ++ [.wake 0]

theorem agreement_post :
    (exec (step .asking) (.init .http) oneExchange).map
        (fun t => (t.client 0, t.wireBytes, t.log.parses.length)) =
      some (.done .ok, postHead ++ ascii "A", 1) ∧
    Along (step .asking)
      (Agreed .plain .percent .epoch (fun _ => .post) 64 (.xyz .asking asking_unheard.accepts))
      (.init .http) oneExchange :=
  ⟨by decide +kernel, agreement _ _ .plain _ _ _ _ _ _ _ asking_sends
    (fun _ => ⟨by decide +kernel, by decide +kernel⟩) (by decide +kernel)⟩

end MnHttpc
