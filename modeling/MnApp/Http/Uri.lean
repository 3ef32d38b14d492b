/-
# `MnApp.Http.Uri` — `mnhttp_uri_parse`

A URI is split in place, at the first occurrence of each delimiter:

    scheme://  user[:password]@  host[:port]  /path[?qstring][#fragment]

The text before the first `'/'` behind the scheme is the authority; the
source has its splitting twice, once for a URI with a path and once for a
URI without, and the two differ only in where the authority stops.  For
`serial://` the rest is a path of the file system and is not split.

What is missing is filled in afterwards: a port from the scheme, then a
scheme from the port.  Every field is NULL (`none`) or a text of its own.

`uri->qterms` and `uri->qtermsz` belong to `mnhttp_uri_add_qterm` and are
not touched here.
-/
import MnApp.Lib.CLib

namespace MnHttp

open CLib

/-- `uri->scheme`. -/
inductive Scheme where
  | undef | http | https | ws | wss | tcp | udp | serial
deriving DecidableEq, Repr

/-- `mnhttp_uri_t`. -/
structure Uri where
  scheme : Scheme
  user : Option (List UInt8)
  password : Option (List UInt8)
  host : Option (List UInt8)
  port : Option (List UInt8)
  relative : Option (List UInt8)
  path : Option (List UInt8)
  qstring : Option (List UInt8)
  fragment : Option (List UInt8)
deriving DecidableEq, Repr

/-- `mnhttp_uri_init`. -/
def Uri.init : Uri where
  scheme := .undef
  user := none
  password := none
  host := none
  port := none
  relative := none
  path := none
  qstring := none
  fragment := none

/-- The prefixes, in the order in which they are tried. -/
def schemePrefixes : List (Scheme × List UInt8) :=
  [(.http, ascii "http://"), (.https, ascii "https://"), (.ws, ascii "ws://"),
   (.wss, ascii "wss://"), (.tcp, ascii "tcp://"), (.udp, ascii "udp://"),
   (.serial, ascii "serial://")]

/-- The scheme a text names, and the text behind it. -/
def splitScheme (s : List UInt8) : Scheme × List UInt8 :=
  match schemePrefixes.find? fun e => e.2.isPrefixOf s with
  | some e => (e.1, s.drop e.2.length)
  | none => (.undef, s)

/-- `strchr`, as an offset. -/
def strchr (s : List UInt8) (c : UInt8) : Option Nat := s.findIdx? (· == c)

/-- The bytes between two offsets, as `bytes_new_from_str_len` copies them. -/
def between (s : List UInt8) (start stop : Nat) : List UInt8 := (s.take stop).drop start

def AT : UInt8 := 64
def SLASH : UInt8 := 47
def QUERY : UInt8 := 63
def HASH : UInt8 := 35

/-- `host[:port]`, from `phost` up to `stop`. -/
def splitHost (p0 : List UInt8) (phost stop : Nat) (u : Uri) : Uri :=
  match strchr (p0.drop phost) COLON with
  | some n =>
      let pport := phost + n
      if pport < stop then
        { u with
          host := some (between p0 phost pport)
          port := some (between p0 (pport + 1) stop) }
      else { u with host := some (between p0 phost stop) }
  | none => { u with host := some (between p0 phost stop) }

/-- `user[:password]`, up to the `'@'` at `phost`. -/
def splitUser (p0 : List UInt8) (phost : Nat) (u : Uri) : Uri :=
  match strchr p0 COLON with
  | some puser =>
      if puser < phost then
        { u with
          user := some (between p0 0 puser)
          password := some (between p0 (puser + 1) phost) }
      else { u with user := some (between p0 0 phost) }
  | none => { u with user := some (between p0 0 phost) }

/-- The authority, which stops at `stop`. -/
def splitAuthority (p0 : List UInt8) (stop : Nat) (u : Uri) : Uri :=
  match strchr p0 AT with
  | some phost =>
      if phost < stop then splitHost p0 (phost + 1) stop (splitUser p0 phost u)
      else splitHost p0 0 stop u
  | none => splitHost p0 0 stop u

/-- `/path[?qstring][#fragment]`.  A `'?'` is looked for first, and a fragment
only behind it. -/
def splitRelative (rel : List UInt8) (u : Uri) : Uri :=
  match strchr rel QUERY with
  | some q =>
      let u := { u with relative := some rel, path := some (between rel 0 q) }
      match strchr (rel.drop (q + 1)) HASH with
      | some f =>
          { u with
            qstring := some (between rel (q + 1) (q + 1 + f))
            fragment := some (rel.drop (q + 1 + f)) }
      | none => { u with qstring := some (rel.drop (q + 1)) }
  | none =>
      match strchr rel HASH with
      | some f =>
          { u with
            relative := some rel
            path := some (between rel 0 f)
            fragment := some (rel.drop f) }
      | none => { u with relative := some rel, path := some rel }

/-- `bytes_is_null_or_empty`. -/
def isNullOrEmpty (b : Option (List UInt8)) : Bool := b.getD [] == []

/-- The port of a scheme. -/
def Scheme.defaultPort : Scheme → Option (List UInt8)
  | .https => some (ascii "443")
  | .wss => some (ascii "443")
  | .http => some (ascii "80")
  | .ws => some (ascii "80")
  | _ => none

def fillPort (u : Uri) : Uri :=
  if isNullOrEmpty u.port then { u with port := u.scheme.defaultPort } else u

def fillScheme (u : Uri) : Uri :=
  if u.scheme = .undef then
    { u with scheme := if u.port = some (ascii "443") then .https else .http }
  else u

/-- `mnhttp_uri_parse`, into a freshly initialised URI. -/
def mnhttpUriParse (uri : List UInt8) : Uri :=
  let (scheme, p0) := splitScheme (cstr uri)
  let u := { Uri.init with scheme := scheme }
  let u :=
    match strchr p0 SLASH with
    | some ppath =>
        let rel := p0.drop ppath
        splitAuthority p0 ppath
          (if scheme = .serial then { u with path := some rel } else splitRelative rel u)
    | none => splitAuthority p0 p0.length u
  fillScheme (fillPort u)

/-! ## What a URI is made of -/

/-- The fields that are written to the peer hold no NUL. -/
structure Uri.NulFree (u : Uri) : Prop where
  host : ∀ f, u.host = some f → ∀ b ∈ f, b ≠ NUL
  port : ∀ f, u.port = some f → ∀ b ∈ f, b ≠ NUL
  relative : ∀ f, u.relative = some f → ∀ b ∈ f, b ≠ NUL

/-- The relative part starts with a `'/'`, and there is a query string when it
has a `'?'`. -/
structure Uri.RelativeOk (u : Uri) : Prop where
  slash : ∀ rel, u.relative = some rel → ∃ rest, rel = SLASH :: rest
  query : ∀ rel, u.relative = some rel → (u.qstring = none ↔ QUERY ∉ rel)

/-- The second differs from the first in other fields only. -/
structure Uri.SameRelative (u v : Uri) : Prop where
  relative : v.relative = u.relative
  qstring : v.qstring = u.qstring

theorem Uri.SameRelative.ok {u v : Uri} (h : u.SameRelative v) (hu : u.RelativeOk) :
    v.RelativeOk := by
  constructor
  · rw [h.relative]
    exact hu.slash
  · rw [h.relative, h.qstring]
    exact hu.query

theorem mem_between {s : List UInt8} {a b : Nat} {x : UInt8} (h : x ∈ between s a b) : x ∈ s :=
  List.mem_of_mem_take (List.mem_of_mem_drop h)

section
variable {p0 : List UInt8} {phost stop : Nat} {u : Uri}

theorem splitHost_nulFree (h0 : ∀ b ∈ p0, b ≠ NUL) (h : u.NulFree) :
    (splitHost p0 phost stop u).NulFree := by
  have hpart : ∀ i j f, some (between p0 i j) = some f → ∀ b ∈ f, b ≠ NUL := by
    rintro i j f ⟨⟩ b hb
    exact h0 b (mem_between hb)
  unfold splitHost
  split
  · simp only
    split
    · exact ⟨hpart _ _, hpart _ _, h.relative⟩
    · exact ⟨hpart _ _, h.port, h.relative⟩
  · exact ⟨hpart _ _, h.port, h.relative⟩

theorem splitUser_nulFree (h : u.NulFree) : (splitUser p0 phost u).NulFree := by
  unfold splitUser
  split
  · split <;> exact ⟨h.host, h.port, h.relative⟩
  · exact ⟨h.host, h.port, h.relative⟩

theorem splitAuthority_nulFree (h0 : ∀ b ∈ p0, b ≠ NUL) (h : u.NulFree) :
    (splitAuthority p0 stop u).NulFree := by
  unfold splitAuthority
  split
  · split
    · exact splitHost_nulFree h0 (splitUser_nulFree h)
    · exact splitHost_nulFree h0 h
  · exact splitHost_nulFree h0 h

theorem fill_nulFree (h : u.NulFree) : (fillScheme (fillPort u)).NulFree := by
  have hport : ∀ f, u.scheme.defaultPort = some f → ∀ b ∈ f, b ≠ NUL := by
    cases u.scheme <;> rintro f ⟨⟩ <;> decide
  have hfill : (fillPort u).NulFree := by
    unfold fillPort
    split
    · exact ⟨h.host, hport, h.relative⟩
    · exact h
  unfold fillScheme
  split
  · exact ⟨hfill.host, hfill.port, hfill.relative⟩
  · exact hfill

theorem splitHost_same : u.SameRelative (splitHost p0 phost stop u) := by
  unfold splitHost
  split
  · simp only
    split <;> exact ⟨rfl, rfl⟩
  · exact ⟨rfl, rfl⟩

theorem splitUser_same : u.SameRelative (splitUser p0 phost u) := by
  unfold splitUser
  split
  · split <;> exact ⟨rfl, rfl⟩
  · exact ⟨rfl, rfl⟩

theorem splitAuthority_same : u.SameRelative (splitAuthority p0 stop u) := by
  unfold splitAuthority
  split
  · split
    · exact ⟨splitHost_same.relative.trans splitUser_same.relative,
        splitHost_same.qstring.trans splitUser_same.qstring⟩
    · exact splitHost_same
  · exact splitHost_same

theorem fill_same : u.SameRelative (fillScheme (fillPort u)) := by
  unfold fillScheme fillPort
  split <;> split <;> exact ⟨rfl, rfl⟩

theorem splitRelative_fields (rel : List UInt8) : (splitRelative rel u).relative = some rel ∧
    (splitRelative rel u).host = u.host ∧ (splitRelative rel u).port = u.port := by
  unfold splitRelative
  split
  · simp only
    split <;> exact ⟨rfl, rfl, rfl⟩
  · split <;> exact ⟨rfl, rfl, rfl⟩

theorem splitRelative_query (rel : List UInt8) (h : u.qstring = none) :
    (splitRelative rel u).qstring = none ↔ QUERY ∉ rel := by
  unfold splitRelative
  split
  · rename_i q hq
    have hmem : QUERY ∈ rel := by
      obtain ⟨hlt, hx, -⟩ := List.findIdx?_eq_some_iff_getElem.mp hq
      rw [← beq_iff_eq.mp hx]
      exact List.getElem_mem hlt
    simp only
    split
    · exact iff_of_false nofun (fun h => h hmem)
    · exact iff_of_false nofun (fun h => h hmem)
  · rename_i hq
    have hmem : QUERY ∉ rel := fun hmem => by
      have := List.findIdx?_eq_none_iff.mp hq QUERY hmem
      exact absurd this (by decide)
    split
    · exact iff_of_true h hmem
    · exact iff_of_true h hmem

end

theorem splitScheme_suffix (s : List UInt8) : ∀ b ∈ (splitScheme s).2, b ∈ s := by
  intro b hb
  unfold splitScheme at hb
  split at hb
  · exact List.mem_of_mem_drop hb
  · exact hb

theorem mnhttpUriParse_ok (text : List UInt8) :
    (mnhttpUriParse text).NulFree ∧ (mnhttpUriParse text).RelativeOk := by
  have hnul : ∀ b ∈ cstr text, b ≠ NUL := by
    intro b hb
    simpa using List.all_eq_true.mp (List.all_takeWhile (p := (· != NUL)) (l := text)) b hb
  have h0 : ∀ b ∈ (splitScheme (cstr text)).2, b ≠ NUL := fun b hb =>
    hnul b (splitScheme_suffix _ b hb)
  unfold mnhttpUriParse
  generalize splitScheme (cstr text) = split at h0
  obtain ⟨scheme, p0⟩ := split
  simp only at h0 ⊢
  have hinit : ∀ u : Uri, u.host = none → u.port = none → u.relative = none →
      u.NulFree ∧ u.RelativeOk := fun u h1 h2 h3 =>
    ⟨⟨fun f h => (by cases h1.symm.trans h), fun f h => (by cases h2.symm.trans h),
      fun f h => (by cases h3.symm.trans h)⟩,
      ⟨fun f h => (by cases h3.symm.trans h), fun f h => (by cases h3.symm.trans h)⟩⟩
  have hstart : ∀ (stop : Nat) (u : Uri), u.NulFree ∧ u.RelativeOk →
      (fillScheme (fillPort (splitAuthority p0 stop u))).NulFree ∧
        (fillScheme (fillPort (splitAuthority p0 stop u))).RelativeOk := fun stop u hu =>
    ⟨fill_nulFree (splitAuthority_nulFree h0 hu.1), fill_same.ok (splitAuthority_same.ok hu.2)⟩
  split
  · rename_i ppath hpath
    have hrel : ∃ rest, p0.drop ppath = SLASH :: rest := by
      obtain ⟨hlt, hx, -⟩ := List.findIdx?_eq_some_iff_getElem.mp hpath
      rw [List.drop_eq_getElem_cons hlt, beq_iff_eq.mp hx]
      exact ⟨_, rfl⟩
    apply hstart
    split
    · exact hinit _ rfl rfl rfl
    · obtain ⟨hr, hhost, hport⟩ := splitRelative_fields (u := { Uri.init with scheme := scheme })
        (p0.drop ppath)
      refine ⟨⟨fun f hf => (by cases hhost.symm.trans hf),
        fun f hf => (by cases hport.symm.trans hf), ?_⟩, ⟨?_, ?_⟩⟩
      · intro f hf
        cases hr.symm.trans hf
        exact fun b hb => h0 b (List.mem_of_mem_drop hb)
      · intro f hf
        cases hr.symm.trans hf
        exact hrel
      · intro f hf
        cases hr.symm.trans hf
        exact splitRelative_query _ rfl
  · exact hstart _ _ (hinit _ rfl rfl rfl)

end MnHttp
