/-
# `MnApp.Http.Query` — query terms, written into a request line and read back

`mnhttp_uri_add_qterm` collects terms in a hash, `mnhttp_uri_start_request`
writes them behind the relative part of the URI, percent-encoded,

    method SP relative ['?' k '=' v { '&' k '=' v }] SP HTTP/1.1 CR LF

and `mnhttp_parse_qterms` takes such a text apart again, at the `'&'`s and at
the first `'='` of each piece (`MnApp.Http.QuerySplit`).

**The length of the line.**  `parse_request_line` hands `findcrlf` the number of
the bytes received as an `int`.  The line is accepted, with its URI, and the terms
are found in it, if and only if that number covers the line
(`qterms_survive_iff`); a line of more bytes than an `int` can count is written and
never accepted (`huge_term_refused`).

**Outside this code.**  The bytes, the hash and the percent encoding are
mncommon's.  A `mnbytes_t` is a text with a NUL behind it, and `BSZ` counts
the NUL.  What a `HashLib` does with a key it has already is not said; which
order it iterates in is not either.  A `UrlCodec` encodes into a buffer, and
is assumed to do it right when the buffer has three bytes for each byte of
the `mnbytes_t` and one more; `encsz` is chosen so that it has.

**The buffers.**  `keyenc` and `valueenc` are used for all the terms.  The
encoder leaves in `sz` what it has used, and the loop sets `sz` back before
each term but the first, for which the buffers are new: every term finds
`encsz` bytes.
-/
import MnApp.Http.QuerySplit
import MnApp.Http.Uri
import MnApp.Http.UrlEncode
import MnApp.Http.Writer

namespace MnHttp

open CLib

/-! ## What mncommon provides -/

/-- The items of a `mnhash_t`. -/
abbrev Hash := List (List UInt8 × List UInt8)

/-- `hash_set_item`, and the order of `hash_first` and `hash_next`. -/
structure HashLib where
  setItem : Hash → List UInt8 → List UInt8 → Hash
  iter : Hash → Hash
  mem_setItem : ∀ h k v t, t ∈ setItem h k v → t = (k, v) ∨ t ∈ h
  setItem_new : ∀ h k v, k ∉ h.map Prod.fst → (setItem h k v).Perm (h ++ [(k, v)])
  iter_perm : ∀ h, (iter h).Perm h

/-- `bytes_str_urlencode2` into a buffer of a given size, and
`bytes_urldecode`. -/
structure UrlCodec where
  encode : Nat → List UInt8 → List UInt8
  decode : List UInt8 → List UInt8
  inverse : ∀ sz v, BSZ v * 3 < sz → decode (encode sz v) = v
  clean : ∀ sz v, BSZ v * 3 < sz → ∀ b ∈ encode sz v, b ≠ AMP ∧ b ≠ EQUALS ∧ b ≠ HASH ∧
    b ≠ QUERY ∧ b ≠ SP ∧ b ≠ TAB ∧ b ≠ CR ∧ b ≠ LF ∧ b ≠ NUL
  decode_nil : decode [] = []

/-! ## Adding terms -/

/-- `mnhttp_uri_t`, with its terms; `qtermsz` is enough for each of them. -/
structure QueryUri where
  uri : Uri
  qterms : Hash
  qtermsz : Nat
  fits : ∀ t ∈ qterms, BSZ t.1 + BSZ t.2 ≤ qtermsz

/-- `mnhttp_uri_init` and `mnhttp_uri_parse`. -/
def QueryUri.parse (text : List UInt8) : QueryUri :=
  ⟨mnhttpUriParse text, [], 0, fun _ h => absurd h List.not_mem_nil⟩

section
variable (H : HashLib)

/-- `mnhttp_uri_add_qterm`. -/
def mnhttpUriAddQterm (u : QueryUri) (key value : List UInt8) : QueryUri where
  uri := u.uri
  qterms := H.setItem u.qterms key value
  qtermsz := u.qtermsz + BSZ key + BSZ value
  fits := by
    intro t ht
    rcases H.mem_setItem _ _ _ _ ht with rfl | ht
    · show BSZ key + BSZ value ≤ _
      omega
    · have := u.fits t ht
      omega

/-- One call after the other. -/
def addQterms (u : QueryUri) (terms : Hash) : QueryUri :=
  terms.foldl (fun u t => mnhttpUriAddQterm H u t.1 t.2) u

/-! ## The request line -/

/-- What `mnhttp_uri_start_request` returns, with `some n` for
`HTTP_START_REQUEST + n` and `none` for 0, and the stream behind it. -/
abbrev Started := Option Nat × List UInt8

def Started.next (w : Started) (f : List UInt8 → Started) : Started :=
  match w with
  | (none, out) => f out
  | (some n, out) => (some n, out)

@[simp] theorem Started.next_none (out : List UInt8) (f : List UInt8 → Started) :
    Started.next (none, out) f = f out := rfl

def startChecked (n : Nat) (w : Int × List UInt8) : Started :=
  (if w.1 < 0 then some n else none, w.2)

variable (B : Bytestream) (C : UrlCodec)

/-- One term, with what stands before it. -/
def writeTerm (encsz n : Nat) (before : List UInt8) (hit : List UInt8 × List UInt8)
    (out : List UInt8) : Started :=
  let keyenc := C.encode encsz hit.1
  let valueenc := C.encode encsz hit.2
  startChecked n (B.nprintf out (BSZ keyenc + BSZ valueenc + 8)
    (before ++ (cstr keyenc ++ EQUALS :: cstr valueenc)))

/-- `hash_first`, and then `hash_next` to the end. -/
def writeTerms (encsz : Nat) (out : List UInt8) : Hash → Started
  | [] => (none, out)
  | hit :: hits =>
      hits.foldl (fun w hit => Started.next w (writeTerm B C encsz 3 [AMP] hit))
        (writeTerm B C encsz 2 [] hit out)

/-- The `'?'`, unless the URI has a query string.  The last byte of a
`mnbytes_t` is its NUL, so the second comparison is always true. -/
def writeQuery (u : QueryUri) (rel out : List UInt8) : Started :=
  if u.uri.qstring = none ∧ (BDATA rel)[BSZ rel - 1]? ≠ some QUERY then
    startChecked 1 (B.cat out [QUERY])
  else (none, out)

/-- `mnhttp_uri_start_request`; `none` is a call that reads through a NULL
`relative`. -/
def mnhttpUriStartRequest (u : QueryUri) (out method : List UInt8) : Option Started :=
  u.uri.relative.map fun rel =>
    let sz := strlen method + BSZ rel + 16
    let encsz := u.qtermsz * 3 + 1
    ((startChecked 1 (B.nprintf out sz (cstr method ++ SP :: cstr (BDATA rel)))).next fun out =>
      if u.qterms = [] then (none, out)
      else (writeQuery B u rel out).next fun out => writeTerms B C encsz out (H.iter u.qterms)).next
        fun out => startChecked 4 (B.cat out (ascii " HTTP/1.1\r\n"))

end

/-! ## What is written -/

section
variable (C : UrlCodec) (encsz : Nat)

def termText (t : List UInt8 × List UInt8) : List UInt8 :=
  C.encode encsz t.1 ++ EQUALS :: C.encode encsz t.2

def queryText : Hash → List UInt8
  | [] => []
  | t :: ts => termText C encsz t ++ ts.flatMap fun t => AMP :: termText C encsz t

end

/-- The text behind the relative part. -/
def QueryUri.tail (H : HashLib) (C : UrlCodec) (u : QueryUri) : List UInt8 :=
  if u.qterms = [] then []
  else (if u.uri.qstring = none then [QUERY] else []) ++
    queryText C (u.qtermsz * 3 + 1) (H.iter u.qterms)

section
variable (B : Bytestream) (out : List UInt8)

theorem startChecked_nprintf (n : Nat) {sz : Nat} {text : List UInt8} (h : text.length < sz) :
    startChecked n (B.nprintf out sz text) = (none, out ++ text) := by
  obtain ⟨hret, hout⟩ := (B.whole out sz text).mpr h
  unfold startChecked
  rw [if_neg (Int.not_lt.mpr hret), hout]

theorem startChecked_cat (n : Nat) (bs : List UInt8) :
    startChecked n (B.cat out bs) = (none, out ++ bs) := by
  obtain ⟨hret, hout⟩ := B.cat_whole out bs
  unfold startChecked
  rw [if_neg (Int.not_lt.mpr hret), hout]

end

section
variable (H : HashLib) (B : Bytestream) (C : UrlCodec) {encsz : Nat}

/-- The buffers are large enough for a term. -/
def TermFits (encsz : Nat) (t : List UInt8 × List UInt8) : Prop :=
  BSZ t.1 * 3 < encsz ∧ BSZ t.2 * 3 < encsz

theorem QueryUri.termFits (u : QueryUri) {t : List UInt8 × List UInt8} (h : t ∈ u.qterms) :
    TermFits (u.qtermsz * 3 + 1) t := by
  have := u.fits t h
  constructor <;> omega

theorem writeTerm_eq (n : Nat) (before out : List UInt8) {t : List UInt8 × List UInt8}
    (hbefore : before.length ≤ 1) (h : TermFits encsz t) :
    writeTerm B C encsz n before t out = (none, out ++ (before ++ termText C encsz t)) := by
  have hk : cstr (C.encode encsz t.1) = C.encode encsz t.1 :=
    cstr_of_no_nul fun b hb => (C.clean _ _ h.1 b hb).2.2.2.2.2.2.2.2
  have hv : cstr (C.encode encsz t.2) = C.encode encsz t.2 :=
    cstr_of_no_nul fun b hb => (C.clean _ _ h.2 b hb).2.2.2.2.2.2.2.2
  unfold writeTerm
  simp only [hk, hv]
  refine startChecked_nprintf B out n ?_
  simp only [List.length_append, List.length_cons, BSZ]
  omega

theorem writeTerms_rest : ∀ (ts : Hash) (out : List UInt8), (∀ t ∈ ts, TermFits encsz t) →
    ts.foldl (fun w t => Started.next w (writeTerm B C encsz 3 [AMP] t)) (none, out) =
      (none, out ++ ts.flatMap fun t => AMP :: termText C encsz t) := by
  intro ts
  induction ts with
  | nil => simp
  | cons t ts ih =>
      intro out h
      rw [List.foldl_cons, Started.next_none,
        writeTerm_eq B C 3 [AMP] out (Nat.le_refl _) (h t List.mem_cons_self),
        ih _ fun t ht => h t (List.mem_cons_of_mem _ ht)]
      simp

theorem writeTerms_eq (out : List UInt8) {ts : Hash} (h : ∀ t ∈ ts, TermFits encsz t) :
    writeTerms B C encsz out ts = (none, out ++ queryText C encsz ts) := by
  cases ts with
  | nil => simp [writeTerms, queryText]
  | cons t ts =>
      show ts.foldl _ (writeTerm B C encsz 2 [] t out) = _
      rw [writeTerm_eq B C 2 [] out (Nat.zero_le _) (h t List.mem_cons_self),
        writeTerms_rest B C ts _ fun t ht => h t (List.mem_cons_of_mem _ ht)]
      simp [queryText]

theorem writeQuery_eq (u : QueryUri) (rel out : List UInt8) :
    writeQuery B u rel out = (none, out ++ if u.uri.qstring = none then [QUERY] else []) := by
  have hlast : (BDATA rel)[BSZ rel - 1]? ≠ some QUERY := by
    unfold BDATA BSZ
    simp [NUL, QUERY]
  unfold writeQuery
  by_cases hs : u.uri.qstring = none
  · rw [if_pos ⟨hs, hlast⟩, if_pos hs, startChecked_cat]
  · rw [if_neg fun h => hs h.1, if_neg hs, List.append_nil]

theorem termText_clean {t : List UInt8 × List UInt8} (h : TermFits encsz t) :
    ∀ b ∈ termText C encsz t, b ≠ SP ∧ b ≠ TAB ∧ b ≠ CR ∧ b ≠ LF ∧ b ≠ NUL := by
  intro b hb
  simp only [termText, List.mem_append, List.mem_cons] at hb
  rcases hb with hb | rfl | hb
  · exact (C.clean _ _ h.1 b hb).2.2.2.2
  · decide
  · exact (C.clean _ _ h.2 b hb).2.2.2.2

/-- Nothing in the terms ends a word or a line. -/
theorem QueryUri.tail_clean (u : QueryUri) :
    ∀ b ∈ u.tail H C, b ≠ SP ∧ b ≠ TAB ∧ b ≠ CR ∧ b ≠ LF ∧ b ≠ NUL := by
  have hquery : ∀ ts : Hash, (∀ t ∈ ts, TermFits (u.qtermsz * 3 + 1) t) →
      ∀ b ∈ queryText C (u.qtermsz * 3 + 1) ts,
        b ≠ SP ∧ b ≠ TAB ∧ b ≠ CR ∧ b ≠ LF ∧ b ≠ NUL := by
    intro ts h b hb
    cases ts with
    | nil => cases hb
    | cons t ts =>
        simp only [queryText, List.mem_append, List.mem_flatMap, List.mem_cons] at hb
        rcases hb with hb | ⟨x, hx, rfl | hb⟩
        · exact termText_clean C (h t List.mem_cons_self) b hb
        · decide
        · exact termText_clean C (h x (List.mem_cons_of_mem _ hx)) b hb
  intro b hb
  unfold QueryUri.tail at hb
  split at hb
  · cases hb
  · rcases List.mem_append.mp hb with hb | hb
    · split at hb
      · rw [List.mem_singleton.mp hb]
        decide
      · cases hb
    · exact hquery _ (fun t ht => u.termFits ((H.iter_perm _).mem_iff.mp ht)) b hb

/-- **The whole line is written.** -/
theorem mnhttpUriStartRequest_eq (u : QueryUri) (out method : List UInt8) {rel : List UInt8}
    (hrel : u.uri.relative = some rel) (hnul : ∀ b ∈ rel, b ≠ NUL) :
    mnhttpUriStartRequest H B C u out method = some (none,
      out ++ (cstr method ++ SP :: (rel ++ (u.tail H C ++ ascii " HTTP/1.1\r\n")))) := by
  have hcstr : cstr (BDATA rel) = rel := by
    unfold BDATA
    exact cstr_stop hnul
  have hfits : ∀ t ∈ H.iter u.qterms, TermFits (u.qtermsz * 3 + 1) t := fun t ht =>
    u.termFits ((H.iter_perm _).mem_iff.mp ht)
  have hroom : (cstr method ++ SP :: rel).length < strlen method + BSZ rel + 16 := by
    simp only [List.length_append, List.length_cons, strlen, BSZ]
    omega
  unfold mnhttpUriStartRequest
  simp only [hrel, Option.map_some, hcstr, startChecked_nprintf B out 1 hroom, Started.next_none,
    QueryUri.tail, writeQuery_eq, writeTerms_eq B C _ hfits]
  by_cases hq : u.qterms = []
  · simp [hq, startChecked_cat]
  · simp [hq, startChecked_cat]

end

/-! ## Reading it back -/

section
variable (H : HashLib) (C : UrlCodec) {ss : List UInt8}

variable {encsz : Nat}

theorem termText_no_amp {t : List UInt8 × List UInt8} (h : TermFits encsz t) :
    ∀ b ∈ termText C encsz t, b ≠ AMP := by
  intro b hb
  simp only [termText, List.mem_append, List.mem_cons] at hb
  rcases hb with hb | rfl | hb
  · exact (C.clean _ _ h.1 b hb).1
  · decide
  · exact (C.clean _ _ h.2 b hb).1

theorem pairOf_termText {t : List UInt8 × List UInt8} (ht : TermFits encsz t) (hkey : t.1 ≠ []) :
    Kvp.pairOf EQUALS (termText C encsz t) = some (C.encode encsz t.1, C.encode encsz t.2) := by
  have hne : C.encode encsz t.1 ≠ [] := fun hnil => hkey (by
    rw [← C.inverse _ _ ht.1, hnil, C.decode_nil])
  unfold termText
  rw [Kvp.pairOf_cut fun h => (C.clean _ _ ht.1 _ h).2.1 rfl, if_neg hne]

theorem amp_not_mem_termText {t : List UInt8 × List UInt8} (ht : TermFits encsz t) :
    AMP ∉ termText C encsz t := fun h => termText_no_amp C ht AMP h rfl

theorem queryText_cons (t : List UInt8 × List UInt8) (ts : Hash) :
    queryText C encsz (t :: ts) = termText C encsz t ∧ ts = [] ∨
      ∃ t' ts', ts = t' :: ts' ∧
        queryText C encsz (t :: ts) = termText C encsz t ++ AMP :: queryText C encsz ts := by
  cases ts with
  | nil => exact .inl ⟨by simp [queryText], rfl⟩
  | cons t' ts => exact .inr ⟨t', ts, rfl, by simp [queryText]⟩

theorem pairs_queryText : ∀ ts : Hash, (∀ t ∈ ts, TermFits encsz t ∧ t.1 ≠ []) →
    Kvp.pairs EQUALS AMP (queryText C encsz ts) =
      ts.map fun t => (C.encode encsz t.1, C.encode encsz t.2) := by
  intro ts
  induction ts with
  | nil =>
      intro _
      rfl
  | cons t ts ih =>
      intro hok
      obtain ⟨hfit, hkey⟩ := hok t List.mem_cons_self
      have hrest := ih fun x hx => hok x (List.mem_cons_of_mem _ hx)
      have hpair : Kvp.pairs EQUALS AMP (termText C encsz t) =
          [(C.encode encsz t.1, C.encode encsz t.2)] := by
        rw [Kvp.pairs_single (amp_not_mem_termText C hfit), pairOf_termText C hfit hkey]
        rfl
      obtain ⟨htext, rfl⟩ | ⟨t', ts', rfl, htext⟩ := queryText_cons C t ts
      · rw [htext, hpair]
        rfl
      · rw [htext, Kvp.pairs_append, hpair, hrest]
        rfl

/-- What `mnhttp_parse_qterms` makes of pairs of a text. -/
def decodePairs (ps : Hash) : Hash := ps.map fun t => (C.decode t.1, C.decode t.2)

theorem decodePairs_queryText {ts : Hash} (hok : ∀ t ∈ ts, TermFits encsz t ∧ t.1 ≠ []) :
    decodePairs C (Kvp.pairs EQUALS AMP (queryText C encsz ts)) = ts := by
  unfold decodePairs
  rw [pairs_queryText C ts hok, List.map_map]
  have : ∀ t ∈ ts, ((fun t => (C.decode t.1, C.decode t.2)) ∘
      fun t : List UInt8 × List UInt8 => (C.encode encsz t.1, C.encode encsz t.2)) t = t := by
    intro t ht
    obtain ⟨hfit, -⟩ := hok t ht
    simp only [Function.comp, C.inverse _ _ hfit.1, C.inverse _ _ hfit.2]
  conv_rhs => rw [← List.map_id ts]
  exact List.map_congr_left this

theorem setItems_perm : ∀ (ts h : Hash), (ts.map Prod.fst).Nodup →
    (∀ t ∈ ts, t.1 ∉ h.map Prod.fst) →
    (ts.foldl (fun h x => H.setItem h x.1 x.2) h).Perm (h ++ ts) := by
  intro ts
  induction ts with
  | nil =>
      intro h _ _
      simp
  | cons t ts ih =>
      intro h hnd hnew
      rw [List.map_cons, List.nodup_cons] at hnd
      have hset := H.setItem_new h t.1 t.2 (hnew t List.mem_cons_self)
      have hkeys : ∀ x ∈ ts, x.1 ∉ (H.setItem h t.1 t.2).map Prod.fst := by
        intro x hx hmem
        rw [(hset.map Prod.fst).mem_iff, List.map_append, List.mem_append] at hmem
        rcases hmem with hmem | hmem
        · exact hnew x (List.mem_cons_of_mem _ hx) hmem
        · have heq : x.1 = t.1 := List.mem_singleton.mp hmem
          exact hnd.1 (heq ▸ List.mem_map_of_mem hx)
      have := ih (H.setItem h t.1 t.2) hnd.2 hkeys
      refine this.trans ?_
      have := hset.append_right ts
      simpa using this

/-- **What was written is read back**, in the order of the hash. -/
theorem mnhttpParseQterms_queryText {ts : Hash} (hok : ∀ t ∈ ts, TermFits encsz t ∧ t.1 ≠ [])
    (hnd : (ts.map Prod.fst).Nodup) :
    ∃ h, Kvp.mnhttpParseQterms H.setItem EQUALS AMP (BDATA (queryText C encsz ts)) C.decode [] =
        some (0, h) ∧
      h.Perm ts := by
  have hstore : (Kvp.pairs EQUALS AMP (queryText C encsz ts)).foldl
      (Kvp.storePair H.setItem C.decode C.decode) [] =
      ts.foldl (fun h x => H.setItem h x.1 x.2) [] := by
    conv_rhs => rw [← decodePairs_queryText C hok, decodePairs, List.foldl_map]
    rfl
  refine ⟨_, Kvp.body_eq (by decide) _ _, ?_⟩
  rw [hstore]
  exact setItems_perm H ts [] hnd fun _ _ h => absurd h List.not_mem_nil

end

/-! ## The request line is read back -/

section
variable (H : HashLib)

theorem addQterms_uri (terms : Hash) (u : QueryUri) : (addQterms H u terms).uri = u.uri := by
  induction terms generalizing u with
  | nil => rfl
  | cons t terms ih => exact ih _

theorem addQterms_qterms (terms : Hash) (u : QueryUri) : (addQterms H u terms).qterms =
    terms.foldl (fun h t => H.setItem h t.1 t.2) u.qterms := by
  induction terms generalizing u with
  | nil => rfl
  | cons t terms ih => exact ih _

/-- The line `mnhttp_uri_start_request` writes for a target. -/
def requestLine (method target : List UInt8) : List UInt8 :=
  method ++ SP :: (target ++ ascii " HTTP/1.1\r\n")

/-- The line at `st` ends inside what `findcrlf` is told to look at: the length is
an `int`. -/
def ScanCovers (p : Parser) (st : Nat) (line : List UInt8) : Prop :=
  (line.length : Int) ≤ toInt (p.inp.eod - st)

instance (p : Parser) (st : Nat) (line : List UInt8) : Decidable (ScanCovers p st line) :=
  inferInstanceAs (Decidable (_ ≤ _))

section
variable {method uri behind : List UInt8} {p : Parser} {st : Nat}

theorem findcrlf_data {s : Stream} {line : List UInt8} (hl : NoCrlf line)
    (hdata : s.data.drop st = line ++ CR :: LF :: behind) :
    findcrlf (s.mem st) (toInt (s.eod - st)) =
      if (line.length : Int) + 2 ≤ toInt (s.eod - st) then some line.length else none := by
  have hlen := length_of_drop hdata (by simp)
  have hmem : s.mem st = line ++ CR :: LF :: (behind ++ s.slack) := by
    unfold Stream.mem
    rw [Int.toNat_natCast, List.drop_append_of_le_length (by omega), hdata]
    simp
  unfold findcrlf
  rw [hmem, firstCrlf_take hl]
  by_cases hc : (line.length : Int) + 2 ≤ toInt (s.eod - st)
  · rw [if_pos hc, if_pos (by omega)]
  · rw [if_neg hc, if_neg (by omega)]

/-- **A request line of three words is accepted if and only if the scan covers
it.** -/
theorem requestLine_eq (method uri : List UInt8) :
    requestLine method uri = requestBytes method 0 uri ++ [CR, LF] := by
  unfold requestLine
  rw [show ascii " HTTP/1.1\r\n" = SP :: (ascii "HTTP/1.1" ++ [CR, LF]) by decide]
  simp [requestBytes]

theorem noCrlf_of_words (hmethod : ∀ b ∈ method, b ≠ SP ∧ b ≠ TAB ∧ b ≠ CR)
    (huri : ∀ b ∈ uri, b ≠ SP ∧ b ≠ TAB ∧ b ≠ CR) : NoCrlf (requestBytes method 0 uri) := by
  refine noCrlf_of_not_mem fun hcr => ?_
  simp only [requestBytes, List.mem_append, List.mem_cons] at hcr
  rcases hcr with h | h | h | h | h
  · exact (hmethod CR h).2.2 rfl
  · exact absurd h (by decide)
  · exact (huri CR h).2.2 rfl
  · exact absurd h (by decide)
  · exact absurd h (by decide)

theorem parseRequestLine_iff (hmethod : method ≠ [])
    (hmethod_ok : ∀ b ∈ method, b ≠ SP ∧ b ≠ TAB ∧ b ≠ CR) (huri : uri ≠ [])
    (huri_ok : ∀ b ∈ uri, b ≠ SP ∧ b ≠ TAB ∧ b ≠ CR) (hst : p.ctx.firstLine.start = st)
    (hdata : p.inp.data.drop st = requestLine method uri ++ behind) :
    (∀ q, parseRequestLine p = (.ok, q) → ScanCovers p st (requestLine method uri)) ∧
      (ScanCovers p st (requestLine method uri) →
        ∃ q, parseRequestLine p = (.ok, q) ∧ q.ctx.requestUri = some uri) := by
  have hlength : (requestLine method uri).length = (requestBytes method 0 uri).length + 2 := by
    rw [requestLine_eq, List.length_append]
    rfl
  have hline : p.inp.data.drop st = requestBytes method 0 uri ++ CR :: LF :: behind := by
    rw [hdata, requestLine_eq]
    simp
  have hfound := findcrlf_data (s := p.inp) (noCrlf_of_words hmethod_ok huri_ok) hline
  constructor
  · intro q hq
    by_contra hnot
    have hshort : ¬ ((requestBytes method 0 uri).length : Int) + 2 ≤ toInt (p.inp.eod - st) :=
      fun hle => hnot (by unfold ScanCovers; rw [hlength]; push_cast; exact hle)
    rw [if_neg hshort] at hfound
    unfold parseRequestLine at hq
    simp only [hst, hfound] at hq
    cases hq
  · intro hcover
    unfold ScanCovers at hcover
    rw [hlength] at hcover
    push_cast at hcover
    rw [if_pos hcover] at hfound
    have hrange := (toInt_range (p.inp.eod - st)).2
    have hcomplete : (st : Int) + (requestBytes method 0 uri).length + 2 ≤ p.inp.eod := by
      have hlen := length_of_drop hline (by simp)
      rw [List.length_append] at hlen
      simp only [List.length_cons] at hlen
      unfold Stream.eod
      omega
    have hstream : (p.inp.data ++ []).drop st =
        requestBytes method 0 uri ++ CR :: LF :: behind := by rw [List.append_nil, hline]
    obtain ⟨more, hmem⟩ := mem_of_complete hstream hcomplete
    exact ⟨_, parseRequestLine_words 0 hmethod
      (fun b hb => ⟨(hmethod_ok b hb).1, (hmethod_ok b hb).2.1⟩) huri
      (fun b hb => ⟨(huri_ok b hb).1, (huri_ok b hb).2.1⟩) hst hfound hmem (by omega), rfl⟩

end

variable (B : Bytestream) (C : UrlCodec)

/-- `parse_request_line` accepts the line that `p` is at, its URI is the relative
part with the terms behind it, if there are any, and `mnhttp_parse_qterms` finds
the terms. -/
def QtermsSurvive (rel : List UInt8) (terms : Hash) (p : Parser) : Prop :=
  ∃ p' q, parseRequestLine p = (.ok, p') ∧
    p'.ctx.requestUri = some (if terms = [] then rel else rel ++ QUERY :: q) ∧
    (terms ≠ [] → ∃ h,
      Kvp.mnhttpParseQterms H.setItem EQUALS AMP (BDATA q) C.decode [] = some (0, h) ∧
        h.Perm terms)

/-- What is asked of the URI, the terms and the method. -/
structure Askable (text method rel : List UInt8) (terms : Hash) : Prop where
  rel_eq : (mnhttpUriParse text).relative = some rel
  rel_ok : ∀ b ∈ rel, b ≠ QUERY ∧ b ≠ HASH ∧ b ≠ SP ∧ b ≠ TAB ∧ b ≠ CR ∧ b ≠ LF
  keys : (terms.map Prod.fst).Nodup
  keys_ne : ∀ t ∈ terms, t.1 ≠ []
  method_ne : method ≠ []
  method_ok : ∀ b ∈ method, b ≠ SP ∧ b ≠ TAB ∧ b ≠ CR ∧ b ≠ LF ∧ b ≠ NUL

section
variable {H C} {text method rel : List UInt8} {terms : Hash}

theorem Askable.stored (h : Askable text method rel terms) :
    (addQterms H (.parse text) terms).qterms.Perm terms := by
  rw [addQterms_qterms]
  exact setItems_perm H terms [] h.keys fun _ _ h => absurd h List.not_mem_nil

theorem Askable.tail (h : Askable text method rel terms) :
    (addQterms H (.parse text) terms).tail H C = if terms = [] then [] else
      QUERY :: queryText C ((addQterms H (.parse text) terms).qtermsz * 3 + 1)
        (H.iter (addQterms H (.parse text) terms).qterms) := by
  have hstored := h.stored (H := H)
  have hq : (addQterms H (.parse text) terms).uri.qstring = none := by
    rw [addQterms_uri]
    exact ((mnhttpUriParse_ok text).2.query rel h.rel_eq).mpr fun hm => (h.rel_ok QUERY hm).1 rfl
  unfold QueryUri.tail
  by_cases hnil : terms = []
  · rw [if_pos hnil, if_pos (List.perm_nil.mp (hnil ▸ hstored))]
  · rw [if_neg hnil, if_neg (fun he => hnil (List.nil_perm.mp (by rwa [he] at hstored))),
      if_pos hq]
    rfl

theorem Askable.line (h : Askable text method rel terms) (out : List UInt8) :
    mnhttpUriStartRequest H B C (addQterms H (.parse text) terms) out method = some (none,
      out ++ requestLine method (rel ++ (addQterms H (.parse text) terms).tail H C)) := by
  have hrel : (addQterms H (.parse text) terms).uri.relative = some rel := by
    rw [addQterms_uri]
    exact h.rel_eq
  rw [mnhttpUriStartRequest_eq H B C _ out method hrel
    ((mnhttpUriParse_ok text).1.relative rel h.rel_eq),
    cstr_of_no_nul fun b hb => (h.method_ok b hb).2.2.2.2]
  simp [requestLine]

theorem Askable.accepted (h : Askable text method rel terms) {behind : List UInt8} {p : Parser}
    {st : Nat} (hst : p.ctx.firstLine.start = st)
    (hdata : p.inp.data.drop st =
      requestLine method (rel ++ (addQterms H (.parse text) terms).tail H C) ++ behind) :
    QtermsSurvive H C rel terms p ↔
      ScanCovers p st (requestLine method (rel ++ (addQterms H (.parse text) terms).tail H C)) := by
  have huri_ne : rel ++ (addQterms H (.parse text) terms).tail H C ≠ [] := by
    obtain ⟨rest, rfl⟩ := (mnhttpUriParse_ok text).2.slash rel h.rel_eq
    exact List.cons_ne_nil _ _
  have huri_ok : ∀ b ∈ rel ++ (addQterms H (.parse text) terms).tail H C,
      b ≠ SP ∧ b ≠ TAB ∧ b ≠ CR := by
    intro b hb
    rcases List.mem_append.mp hb with hb | hb
    · exact ⟨(h.rel_ok b hb).2.2.1, (h.rel_ok b hb).2.2.2.1, (h.rel_ok b hb).2.2.2.2.1⟩
    · have hclean := (addQterms H (.parse text) terms).tail_clean H C b hb
      exact ⟨hclean.1, hclean.2.1, hclean.2.2.1⟩
  obtain ⟨honly, hif⟩ := parseRequestLine_iff h.method_ne
    (fun b hb => ⟨(h.method_ok b hb).1, (h.method_ok b hb).2.1, (h.method_ok b hb).2.2.1⟩)
    huri_ne huri_ok hst hdata
  constructor
  · rintro ⟨p', q, hok, -⟩
    exact honly p' hok
  · intro hcover
    obtain ⟨p', hok, huri⟩ := hif hcover
    have hperm : (H.iter (addQterms H (.parse text) terms).qterms).Perm terms :=
      (H.iter_perm _).trans h.stored
    refine ⟨p', queryText C ((addQterms H (.parse text) terms).qtermsz * 3 + 1)
      (H.iter (addQterms H (.parse text) terms).qterms), hok, ?_, fun _ => ?_⟩
    · rw [huri, h.tail]
      split <;> simp
    · refine (mnhttpParseQterms_queryText H C (fun t ht => ?_) ?_).imp fun h' hh =>
        ⟨hh.1, hh.2.trans hperm⟩
      · exact ⟨QueryUri.termFits _ ((H.iter_perm _).mem_iff.mp ht),
          h.keys_ne t (hperm.mem_iff.mp ht)⟩
      · exact (hperm.map Prod.fst).nodup_iff.mpr h.keys

end

/-- **Query terms survive the wire if and only if the scan covers the line**, for
every parser that has come to a line that was written. -/
theorem qterms_survive_iff (text out method rel : List UInt8) (terms : Hash)
    (h : Askable text method rel terms) :
    ∃ line, mnhttpUriStartRequest H B C (addQterms H (.parse text) terms) out method =
        some (none, out ++ line) ∧
      ∀ (p : Parser) (st : Nat) (behind : List UInt8), p.ctx.firstLine.start = st →
        p.inp.data.drop st = line ++ behind →
        (QtermsSurvive H C rel terms p ↔ ScanCovers p st line) :=
  ⟨_, h.line B out, fun _ _ _ hst hdata => h.accepted hst hdata⟩

end

/-! ### Two terms -/

/-- A hash that is a list. -/
def HashLib.plain : HashLib where
  setItem h k v := h ++ [(k, v)]
  iter h := h
  mem_setItem h k v t ht := by
    rcases List.mem_append.mp ht with ht | ht
    · exact .inr ht
    · exact .inl (List.mem_singleton.mp ht)
  setItem_new _ _ _ _ := .refl _
  iter_perm _ := .refl _

/-- `%XX`, for every byte. -/
def percentByte (c : UInt8) : List UInt8 := [37, hexDigit (c >>> 4), hexDigit (c &&& 0x0f)]

def unhex (d : UInt8) : UInt8 := if d < 58 then d - 48 else d - 55

def percentDecode : List UInt8 → List UInt8
  | _ :: hi :: lo :: rest => (unhex hi <<< 4 ||| unhex lo) :: percentDecode rest
  | _ => []

theorem percentDecode_encode (v : List UInt8) : percentDecode (v.flatMap percentByte) = v := by
  have hbyte : ∀ c : UInt8,
      unhex (hexDigit (c >>> 4)) <<< 4 ||| unhex (hexDigit (c &&& 0x0f)) = c :=
    forall_byte (by decide +kernel)
  induction v with
  | nil => rfl
  | cons c v ih =>
      rw [List.flatMap_cons]
      show (_ :: percentDecode (v.flatMap percentByte)) = _
      rw [hbyte, ih]

theorem percentByte_clean (c : UInt8) : ∀ b ∈ percentByte c, b ≠ AMP ∧ b ≠ EQUALS ∧ b ≠ HASH ∧
    b ≠ QUERY ∧ b ≠ SP ∧ b ≠ TAB ∧ b ≠ CR ∧ b ≠ LF ∧ b ≠ NUL :=
  forall_byte (P := fun c => ∀ b ∈ percentByte c, b ≠ AMP ∧ b ≠ EQUALS ∧ b ≠ HASH ∧
    b ≠ QUERY ∧ b ≠ SP ∧ b ≠ TAB ∧ b ≠ CR ∧ b ≠ LF ∧ b ≠ NUL) (by decide +kernel) c

/-- A codec that escapes every byte. -/
def UrlCodec.percent : UrlCodec where
  encode _ v := v.flatMap percentByte
  decode := percentDecode
  inverse _ v _ := percentDecode_encode v
  clean _ v _ b hb := by
    obtain ⟨c, -, hc⟩ := List.mem_flatMap.mp hb
    exact percentByte_clean c b hc
  decode_nil := rfl

theorem askable_two : Askable (ascii "http://h/p") (ascii "GET") (ascii "/p")
    [(ascii "a", ascii "1"), (ascii "b", ascii "&=")] :=
  ⟨by decide, by decide, by decide, by decide, by decide, by decide⟩

/-- A parser that has received a line, and is at its first byte. -/
def Parser.atLine (line : List UInt8) : Parser :=
  ⟨{ httpCtxInit with firstLine := ⟨0, 0⟩, parserState := .line }, ⟨line, [], 0⟩, 0, []⟩

theorem qterms_survive_iff_two :
    QtermsSurvive .plain .percent (ascii "/p") [(ascii "a", ascii "1"), (ascii "b", ascii "&=")]
      (.atLine (ascii "GET /p?%61=%31&%62=%26%3D HTTP/1.1\r\n")) := by
  obtain ⟨line, hline, hiff⟩ := qterms_survive_iff .plain .plain .percent _ [] _ _ _ askable_two
  have hwritten : mnhttpUriStartRequest .plain .plain .percent
      (addQterms .plain (.parse (ascii "http://h/p"))
        [(ascii "a", ascii "1"), (ascii "b", ascii "&=")]) [] (ascii "GET") =
      some (none, ascii "GET /p?%61=%31&%62=%26%3D HTTP/1.1\r\n") := by decide +kernel
  obtain rfl : line = ascii "GET /p?%61=%31&%62=%26%3D HTTP/1.1\r\n" :=
    (Prod.mk.inj (Option.some.inj (hline.symm.trans hwritten))).2
  exact (hiff _ 0 [] rfl rfl).mpr (by decide)

/-! ### A term that is too long -/

theorem length_percent (v : List UInt8) : (v.flatMap percentByte).length = 3 * v.length := by
  induction v with
  | nil => rfl
  | cons c v ih =>
      rw [List.flatMap_cons, List.length_append, ih, List.length_cons]
      show 3 + 3 * v.length = _
      omega

theorem length_le_queryText (C : UrlCodec) (encsz : Nat) {t : List UInt8 × List UInt8} {ts : Hash}
    (h : t ∈ ts) : (C.encode encsz t.2).length ≤ (queryText C encsz ts).length := by
  have hterm : (C.encode encsz t.2).length ≤ (termText C encsz t).length := by
    simp only [termText, List.length_append, List.length_cons]
    omega
  cases ts with
  | nil => cases h
  | cons t' ts =>
      rcases List.mem_cons.mp h with rfl | h
      · exact Nat.le_trans hterm (List.prefix_append _ _).length_le
      · have hsub := (List.sublist_flatten_of_mem (List.mem_map_of_mem
          (f := fun t => AMP :: termText C encsz t) h)).length_le
        simp only [queryText, List.length_append, List.flatMap_def]
        rw [List.length_cons] at hsub
        omega

theorem askable_one (v : List UInt8) :
    Askable (ascii "http://h/p") (ascii "GET") (ascii "/p") [(ascii "a", v)] where
  rel_eq := by decide
  rel_ok := by decide
  keys := List.pairwise_singleton _ _
  keys_ne t ht := by
    rw [List.mem_singleton.mp ht]
    exact List.cons_ne_nil _ _
  method_ne := by decide
  method_ok := by decide

/-- The request line for `http://h/p` with one term is written and, whatever has been
received with it and behind it, not accepted. -/
def Refused (v : List UInt8) : Prop :=
  ∃ line, mnhttpUriStartRequest .plain .plain .percent
      (addQterms .plain (.parse (ascii "http://h/p")) [(ascii "a", v)]) [] (ascii "GET") =
        some (none, [] ++ line) ∧
    ∀ (p : Parser) (st : Nat) (behind : List UInt8), p.ctx.firstLine.start = st →
      p.inp.data.drop st = line ++ behind →
      ¬ QtermsSurvive .plain .percent (ascii "/p") [(ascii "a", v)] p

theorem refused_of_long {v : List UInt8} (h : intMax < 3 * v.length) : Refused v := by
  refine ⟨_, (askable_one v).line .plain [], fun p st behind hst hdata hsurvive => ?_⟩
  have hcover := ((askable_one v).accepted hst hdata).mp hsurvive
  have hmem : (ascii "a", v) ∈ HashLib.plain.iter
      (addQterms .plain (.parse (ascii "http://h/p")) [(ascii "a", v)]).qterms :=
    ((HashLib.plain.iter_perm _).trans (askable_one v).stored).mem_iff.mpr List.mem_cons_self
  have hle := length_le_queryText .percent
    ((addQterms .plain (.parse (ascii "http://h/p")) [(ascii "a", v)]).qtermsz * 3 + 1) hmem
  dsimp only at hle
  have hlen : (UrlCodec.percent.encode
      ((addQterms .plain (.parse (ascii "http://h/p"))
        [(ascii "a", v)]).qtermsz * 3 + 1) v).length = 3 * v.length := length_percent v
  have hrange := (toInt_range (p.inp.eod - st)).2
  unfold ScanCovers requestLine at hcover
  rw [(askable_one v).tail, if_neg (List.cons_ne_nil _ _)] at hcover
  simp only [List.length_append, List.length_cons] at hcover
  omega

/-- **A value of 2^30 bytes is written, and its line is never accepted.** -/
theorem huge_term_refused : Refused (List.replicate (2 ^ 30) 65) :=
  refused_of_long (by rw [List.length_replicate]; decide)

end MnHttp
