/-
# `MnApp.Http.QueryAppend` — terms added to a URI that has a query already

`mnhttp_uri_start_request` writes `relative`, which is the URI from its path on,
and the terms right behind it.  A `'?'` is put in between if the URI has no
query string; nothing else is, so that

    /p?a=1       becomes  /p?a=1b=2        one term, and not the two
    /p?a=1#f     becomes  /p?a=1#fb=2      the new term is in the fragment
    /p?a=1&      becomes  /p?a=1&b=2       right
    /p#f         becomes  /p#f?b=2         right, if the text behind the first
                                           `'?'` is the query

`queryOf` is the query of a target and `queryTerms` what `mnhttp_parse_qterms`
stores for it.  The terms come out as those of the old query followed by the
added ones exactly for the URIs of `QueryOpen` (`query_extended_iff`): with a
query that is complete when it is extended, the terms behind it have to be
separated from it, and on a piece that is glued to another at least one pair is
missing (`length_pairs_glued`).
-/
import MnApp.Http.Query
import MnApp.Http.UriParts
import MnApp.Http.UrlDecode

namespace MnHttp

open CLib Kvp

/-! ## The query of a target -/

/-- The text between the first `'?'` and the first `'#'` behind it, or the end. -/
def queryOf (target : List UInt8) : List UInt8 :=
  Cut.before HASH ((Cut.behind QUERY target).getD [])

/-- What `mnhttp_parse_qterms` returns and stores for a query, in order. -/
def queryTerms (C : UrlCodec) (q : List UInt8) : Option (Int × Hash) :=
  Kvp.mnhttpParseQterms (fun h k v => h ++ [(k, v)]) EQUALS AMP (BDATA q) C.decode []

/-- A target is written behind the method, and its query has the terms of the
old one and the ones that were added, in the order of the hash. -/
def Extended (H : HashLib) (B : Bytestream) (C : UrlCodec) (text out method : List UInt8)
    (terms : Hash) : Prop :=
  ∃ target h0,
    mnhttpUriStartRequest H B C (addQterms H (.parse text) terms) out method = some (none,
        out ++ (cstr method ++ SP :: (target ++ ascii " HTTP/1.1\r\n"))) ∧
      queryTerms C ((mnhttpUriParse text).qstring.getD []) = some (0, h0) ∧
      queryTerms C (queryOf target) =
        some (0, h0 ++ H.iter (addQterms H (.parse text) terms).qterms)

/-- There is a relative part, and if it has a `'?'`, then what stands behind is
empty or ends in `'&'`, and no fragment follows. -/
def QueryOpen (text : List UInt8) : Prop :=
  SLASH ∈ behindScheme text ∧ schemeOf text ≠ .serial ∧
    ∀ r, Cut.behind QUERY (restOf text) = some r →
      HASH ∉ r ∧ (r = [] ∨ r.getLast? = some AMP)

/-! ## Decoded pairs -/

theorem queryTerms_eq (C : UrlCodec) (q : List UInt8) :
    queryTerms C q = some (0, decodePairs C (pairs EQUALS AMP q)) := by
  have hfold : ∀ (ps h : Hash),
      ps.foldl (storePair (fun h k v => h ++ [(k, v)]) C.decode C.decode) h =
        h ++ decodePairs C ps := by
    intro ps
    induction ps with
    | nil =>
        intro h
        simp [decodePairs]
    | cons t ps ih =>
        intro h
        rw [List.foldl_cons, ih]
        simp [storePair, decodePairs]
  unfold queryTerms Kvp.mnhttpParseQterms
  rw [body_eq (by decide), hfold, List.nil_append]

section
variable (C : UrlCodec) {encsz : Nat}

theorem hash_not_mem_queryText {ts : Hash} (hfits : ∀ t ∈ ts, TermFits encsz t) :
    HASH ∉ queryText C encsz ts := by
  have hterm : ∀ t ∈ ts, HASH ∉ termText C encsz t := by
    intro t ht h
    rcases List.mem_append.mp h with h | h
    · exact (C.clean _ _ (hfits t ht).1 _ h).2.2.1 rfl
    · rcases List.mem_cons.mp h with h | h
      · exact absurd h (by decide)
      · exact (C.clean _ _ (hfits t ht).2 _ h).2.2.1 rfl
  intro h
  cases ts with
  | nil => cases h
  | cons t ts =>
      rcases List.mem_append.mp h with h | h
      · exact hterm t List.mem_cons_self h
      · obtain ⟨x, hx, h⟩ := List.mem_flatMap.mp h
        rcases List.mem_cons.mp h with h | h
        · exact absurd h (by decide)
        · exact hterm x (List.mem_cons_of_mem _ hx) h

theorem length_pairOf_append {seg : List UInt8} (hne : seg ≠ []) (more : List UInt8) :
    (pairOf EQUALS (seg ++ more)).toList.length ≤ (pairOf EQUALS seg).toList.length := by
  obtain ⟨x, seg, rfl⟩ := List.exists_cons_of_ne_nil hne
  unfold pairOf
  by_cases hx : x = EQUALS
  · simp [hx]
  · simp [hx]

/-- Terms that are glued to a piece: a pair is missing. -/
theorem length_pairs_glued {seg : List UInt8} {ts : Hash} (hne : seg ≠ []) (hamp : AMP ∉ seg)
    (hts : ts ≠ []) (hok : ∀ t ∈ ts, TermFits encsz t ∧ t.1 ≠ []) :
    (pairs EQUALS AMP (seg ++ queryText C encsz ts)).length <
      (pairs EQUALS AMP seg).length + ts.length := by
  obtain ⟨t, ts, rfl⟩ := List.exists_cons_of_ne_nil hts
  obtain ⟨hfit, -⟩ := hok t List.mem_cons_self
  have hfree : AMP ∉ seg ++ termText C encsz t := by
    rw [List.mem_append, not_or]
    exact ⟨hamp, amp_not_mem_termText C hfit⟩
  have hpiece := length_pairOf_append hne (termText C encsz t)
  obtain ⟨htext, rfl⟩ | ⟨t', ts', rfl, htext⟩ := queryText_cons C t ts
  · rw [htext, pairs_single hfree, pairs_single hamp]
    simp only [List.length_cons, List.length_nil]
    omega
  · have hrest := pairs_queryText C (t' :: ts') fun x hx => hok x (List.mem_cons_of_mem _ hx)
    rw [htext, ← List.append_assoc, pairs_append, pairs_single hfree, pairs_single hamp, hrest]
    simp only [List.length_append, List.length_map, List.length_cons]
    omega

theorem length_pairs_extended {ts : Hash} (hts : ts ≠ [])
    (hok : ∀ t ∈ ts, TermFits encsz t ∧ t.1 ≠ []) (r : List UInt8) :
    r ≠ [] → r.getLast? ≠ some AMP →
      (pairs EQUALS AMP (r ++ queryText C encsz ts)).length <
        (pairs EQUALS AMP r).length + ts.length := by
  induction h : r.length using Nat.strong_induction_on generalizing r with
  | _ n ih =>
      intro hne hlast
      obtain hamp | ⟨a, b, rfl, -⟩ := Cut.cases AMP r
      · exact length_pairs_glued C hne hamp hts hok
      · have hb : b ≠ [] := by
          rintro rfl
          exact hlast (by simp)
        have hblast : b.getLast? ≠ some AMP := by
          intro hb'
          apply hlast
          rw [List.getLast?_append, List.getLast?_cons, hb']
          rfl
        have hlen : b.length < n := by
          rw [← h]
          simp only [List.length_append, List.length_cons]
          omega
        have hrest := ih b.length hlen b rfl hb hblast
        rw [List.append_assoc, List.cons_append, pairs_append, pairs_append, List.length_append,
          List.length_append]
        omega

theorem pairs_extended {r : List UInt8} (hr : r = [] ∨ r.getLast? = some AMP) (q : List UInt8) :
    pairs EQUALS AMP (r ++ q) = pairs EQUALS AMP r ++ pairs EQUALS AMP q := by
  rcases hr with rfl | hr
  · rfl
  · obtain ⟨a, rfl⟩ := List.getLast?_eq_some_iff.mp hr
    have hnil : pairs EQUALS AMP (a ++ [AMP]) = pairs EQUALS AMP a := by
      rw [pairs_append]
      exact List.append_nil _
    rw [hnil, List.append_assoc, List.singleton_append, pairs_append]

/-- Terms behind a query are read as terms behind the old ones exactly when it is
open. -/
theorem extended_query_iff {ts : Hash} (hts : ts ≠ [])
    (hok : ∀ t ∈ ts, TermFits encsz t ∧ t.1 ≠ []) (r : List UInt8) :
    decodePairs C (pairs EQUALS AMP (Cut.before HASH (r ++ queryText C encsz ts))) =
        decodePairs C (pairs EQUALS AMP (Cut.before HASH r)) ++ ts ↔
      HASH ∉ r ∧ (r = [] ∨ r.getLast? = some AMP) := by
  obtain hno | ⟨c, d, rfl, hc⟩ := Cut.cases HASH r
  · have hno' : HASH ∉ r ++ queryText C encsz ts := by
      rw [List.mem_append, not_or]
      exact ⟨hno, hash_not_mem_queryText C fun t ht => (hok t ht).1⟩
    rw [Cut.before_of_not_mem hno, Cut.before_of_not_mem hno']
    constructor
    · intro h
      refine ⟨hno, ?_⟩
      by_contra hclosed
      obtain ⟨hnil, hlast⟩ := not_or.mp hclosed
      have hlen := congrArg List.length h
      have hlt := length_pairs_extended C hts hok r hnil hlast
      simp only [decodePairs, List.length_map, List.length_append] at hlen
      omega
    · rintro ⟨-, hopen⟩
      rw [pairs_extended hopen, decodePairs, List.map_append]
      exact congrArg _ (decodePairs_queryText C hok)
  · -- the terms are in the fragment, and the query is the old one
    have hsplit : c ++ HASH :: d ++ queryText C encsz ts =
        c ++ HASH :: (d ++ queryText C encsz ts) := by simp
    rw [hsplit, Cut.before_append_cons hc, Cut.before_append_cons hc]
    refine iff_of_false (fun h => ?_) fun h => h.1 (by simp)
    exact hts (List.append_right_eq_self.mp h.symm)

end

/-! ## The target -/

section
variable (H : HashLib) (B : Bytestream) (C : UrlCodec) (text out method : List UInt8)
  {terms : Hash}

theorem relative_eq_none (h : ¬ (SLASH ∈ behindScheme text ∧ schemeOf text ≠ .serial)) :
    (mnhttpUriParse text).relative = none := by
  rw [mnhttpUriParse_parts, fill_fields]
  unfold partsOf Uri.withAuthority
  by_cases hslash : SLASH ∈ behindScheme text
  · have hserial : schemeOf text = .serial := by
      by_contra hne
      exact h ⟨hslash, hne⟩
    simp only [restOf_eq_nil_iff, hslash, not_true_eq_false, if_false, hserial, if_true]
    rfl
  · simp only [restOf_eq_nil_iff, hslash, not_false_eq_true, if_true]
    rfl

theorem relative_eq_some (hslash : SLASH ∈ behindScheme text) (hserial : schemeOf text ≠ .serial) :
    (mnhttpUriParse text).relative = some (restOf text) ∧
      (mnhttpUriParse text).qstring =
        (Cut.behind QUERY (restOf text)).map (Cut.before HASH) := by
  obtain ⟨hrel, -, hq, -⟩ := mnhttpUriParse_relative hslash hserial
  have heq :=
    splitRelative_eq (restOf text) (u := { Uri.init with scheme := schemeOf text }) rfl rfl
  rw [heq] at hrel hq
  rw [hrel, hq]
  cases Cut.behind QUERY (restOf text) <;> exact ⟨rfl, rfl⟩

theorem iter_perm_terms (hkeys : (terms.map Prod.fst).Nodup) :
    (H.iter (addQterms H (.parse text) terms).qterms).Perm terms := by
  refine (H.iter_perm _).trans ?_
  rw [addQterms_qterms]
  exact setItems_perm H terms [] hkeys fun _ _ h => absurd h List.not_mem_nil

variable (hterms : terms ≠ []) (hkeys : (terms.map Prod.fst).Nodup)
include hterms hkeys

theorem iter_ne_nil : H.iter (addQterms H (.parse text) terms).qterms ≠ [] := by
  intro h
  have := iter_perm_terms H text hkeys
  rw [h] at this
  exact hterms (List.nil_perm.mp this)

theorem qterms_ne_nil : (addQterms H (.parse text) terms).qterms ≠ [] := by
  intro h
  have hperm := H.iter_perm (addQterms H (.parse text) terms).qterms
  rw [h] at hperm
  exact iter_ne_nil H text hterms hkeys (h ▸ List.perm_nil.mp hperm)

theorem start_target (hslash : SLASH ∈ behindScheme text) (hserial : schemeOf text ≠ .serial) :
    ∃ encsz ts, ts = H.iter (addQterms H (.parse text) terms).qterms ∧
      (∀ t ∈ ts, TermFits encsz t) ∧
      mnhttpUriStartRequest H B C (addQterms H (.parse text) terms) out method = some (none,
        out ++ (cstr method ++ SP :: ((restOf text ++
          ((if QUERY ∈ restOf text then [] else [QUERY]) ++ queryText C encsz ts)) ++
            ascii " HTTP/1.1\r\n"))) := by
  obtain ⟨hrel, hq⟩ := relative_eq_some text hslash hserial
  have hne := qterms_ne_nil H text hterms hkeys
  generalize hu : addQterms H (.parse text) terms = u at hne ⊢
  have huri : u.uri = mnhttpUriParse text := by rw [← hu, addQterms_uri]; rfl
  refine ⟨u.qtermsz * 3 + 1, H.iter u.qterms, rfl,
    fun t ht => u.termFits ((H.iter_perm _).mem_iff.mp ht), ?_⟩
  rw [mnhttpUriStartRequest_eq H B C u out method (huri ▸ hrel)
    ((mnhttpUriParse_ok text).1.relative _ hrel)]
  have hnone : u.uri.qstring = none ↔ QUERY ∉ restOf text := by
    rw [huri, hq, Option.map_eq_none_iff, Cut.behind_eq_none_iff]
  unfold QueryUri.tail
  rw [if_neg hne]
  by_cases hmem : QUERY ∈ restOf text
  · rw [if_pos hmem, if_neg fun h => hnone.mp h hmem]
    simp
  · rw [if_neg hmem, if_pos (hnone.mpr hmem)]
    simp

end

theorem target_unique (out method : List UInt8) {a b : List UInt8}
    (h : out ++ (cstr method ++ SP :: (a ++ ascii " HTTP/1.1\r\n")) =
      out ++ (cstr method ++ SP :: (b ++ ascii " HTTP/1.1\r\n"))) : a = b := by
  have h1 := List.append_cancel_left (List.append_cancel_left h)
  rw [List.cons.injEq] at h1
  exact List.append_cancel_right h1.2

section
variable (H : HashLib) (B : Bytestream) (C : UrlCodec) (text out method : List UInt8)
  {terms : Hash}

theorem extended_iff_of_target {target : List UInt8}
    (hstart : mnhttpUriStartRequest H B C (addQterms H (.parse text) terms) out method =
      some (none, out ++ (cstr method ++ SP :: (target ++ ascii " HTTP/1.1\r\n")))) :
    Extended H B C text out method terms ↔
      decodePairs C (pairs EQUALS AMP (queryOf target)) =
        decodePairs C (pairs EQUALS AMP ((mnhttpUriParse text).qstring.getD [])) ++
          H.iter (addQterms H (.parse text) terms).qterms := by
  unfold Extended
  rw [hstart]
  simp only [queryTerms_eq, Option.some.injEq, Prod.mk.injEq, true_and]
  constructor
  · rintro ⟨target', h0, htarget, hold, hnew⟩
    rw [target_unique _ _ htarget, hold, hnew]
  · intro h
    exact ⟨_, _, rfl, rfl, h⟩

theorem not_extended_of_no_relative
    (hrel : ¬ (SLASH ∈ behindScheme text ∧ schemeOf text ≠ .serial)) :
    ¬ Extended H B C text out method terms := by
  rintro ⟨target, h0, hstart, -⟩
  have hnone : (addQterms H (.parse text) terms).uri.relative = none := by
    rw [addQterms_uri]
    exact relative_eq_none text hrel
  unfold mnhttpUriStartRequest at hstart
  rw [hnone] at hstart
  cases hstart

theorem queryOpen_iff {r : List UInt8} (hslash : SLASH ∈ behindScheme text)
    (hserial : schemeOf text ≠ .serial) (hbehind : Cut.behind QUERY (restOf text) = some r) :
    QueryOpen text ↔ HASH ∉ r ∧ (r = [] ∨ r.getLast? = some AMP) := by
  unfold QueryOpen
  rw [hbehind]
  constructor
  · intro h
    exact h.2.2 r rfl
  · intro h
    refine ⟨hslash, hserial, fun r' hr' => ?_⟩
    cases hr'
    exact h

end

/-- **Added terms extend the query exactly when** the URI has a relative part
and the query in it, if there is one, is open at its end.  The added terms are
those of the calls. -/
theorem query_extended_iff (H : HashLib) (B : Bytestream) (C : UrlCodec)
    (text out method : List UInt8) (terms : Hash) (hterms : terms ≠ [])
    (hkeys : (terms.map Prod.fst).Nodup) (hkeys_ne : ∀ t ∈ terms, t.1 ≠ []) :
    (Extended H B C text out method terms ↔ QueryOpen text) ∧
      (H.iter (addQterms H (.parse text) terms).qterms).Perm terms := by
  have hperm := iter_perm_terms H text hkeys
  refine ⟨?_, hperm⟩
  by_cases hrel : SLASH ∈ behindScheme text ∧ schemeOf text ≠ .serial
  · obtain ⟨hslash, hserial⟩ := hrel
    obtain ⟨-, hq⟩ := relative_eq_some text hslash hserial
    obtain ⟨encsz, ts, hts, hfits, hstart⟩ :=
      start_target H B C text out method hterms hkeys hslash hserial
    have hne : ts ≠ [] := hts ▸ iter_ne_nil H text hterms hkeys
    have hok : ∀ t ∈ ts, TermFits encsz t ∧ t.1 ≠ [] := fun t ht =>
      ⟨hfits t ht, hkeys_ne t (hperm.mem_iff.mp (hts ▸ ht))⟩
    rw [extended_iff_of_target H B C text out method hstart, hq, ← hts]
    unfold queryOf
    obtain habs | ⟨a, r, hr, ha⟩ := Cut.cases QUERY (restOf text)
    · -- no query: the terms are all there is behind the `'?'`
      have hbehind := Cut.behind_of_not_mem habs
      rw [if_neg habs, List.singleton_append, Cut.behind_append_cons habs, hbehind]
      simp only [Option.getD_some, Option.map_none, Option.getD_none]
      rw [Cut.before_of_not_mem (hash_not_mem_queryText C hfits), decodePairs_queryText C hok]
      refine iff_of_true rfl ⟨hslash, hserial, fun r h => ?_⟩
      rw [hbehind] at h
      cases h
    · have hmem : QUERY ∈ restOf text := by rw [hr]; simp
      have hbehind : Cut.behind QUERY (restOf text) = some r := by
        rw [hr, Cut.behind_append_cons ha]
      have htarget : Cut.behind QUERY (restOf text ++ ([] ++ queryText C encsz ts)) =
          some (r ++ queryText C encsz ts) := by
        rw [hr, List.nil_append, List.append_assoc, List.cons_append, Cut.behind_append_cons ha]
      rw [if_pos hmem, htarget, hbehind, queryOpen_iff text hslash hserial hbehind]
      exact extended_query_iff C hne hok r
  · exact iff_of_false (not_extended_of_no_relative H B C text out method hrel)
      fun h => hrel ⟨h.1, h.2.1⟩

/-! ### A query that is open, and two that are not -/

theorem pct_clean (v : List UInt8) : ∀ b ∈ pct v, b ≠ AMP ∧ b ≠ EQUALS ∧ b ≠ HASH ∧
    b ≠ QUERY ∧ b ≠ SP ∧ b ≠ TAB ∧ b ≠ CR ∧ b ≠ LF ∧ b ≠ NUL := by
  intro b hb
  obtain ⟨c, -, hc⟩ := List.mem_flatMap.mp hb
  exact forall_byte (P := fun c => ∀ b ∈ pctByte c, b ≠ AMP ∧ b ≠ EQUALS ∧ b ≠ HASH ∧
    b ≠ QUERY ∧ b ≠ SP ∧ b ≠ TAB ∧ b ≠ CR ∧ b ≠ LF ∧ b ≠ NUL) (by decide +kernel) c b hc

/-- A codec that leaves most letters alone, and texts with a wrong escape. -/
def UrlCodec.reserved : UrlCodec where
  encode _ v := pct v
  decode t := (decodeText t).getD t
  inverse _ v _ := by rw [decodeText_pct]; rfl
  clean _ v _ := pct_clean v
  decode_nil := rfl

theorem query_extended_open :
    QueryOpen (ascii "http://h/p?a=x&") ∧
      Extended .plain .plain .reserved (ascii "http://h/p?a=x&") [] (ascii "GET")
        [(ascii "b", ascii "y")] := by
  have hopen : QueryOpen (ascii "http://h/p?a=x&") := by
    refine ⟨by decide, by decide, fun r hr => ?_⟩
    have hbehind : Cut.behind QUERY (restOf (ascii "http://h/p?a=x&")) = some (ascii "a=x&") := by
      decide
    cases hbehind.symm.trans hr
    exact ⟨by decide, by decide⟩
  exact ⟨hopen, (query_extended_iff .plain .plain .reserved (ascii "http://h/p?a=x&") []
    (ascii "GET") [(ascii "b", ascii "y")] (by decide) (by decide) (by decide)).1.mpr hopen⟩

/-- A term is glued to the last one, or put into the fragment. -/
theorem query_glued :
    mnhttpUriStartRequest .plain .plain .reserved
        (addQterms .plain (.parse (ascii "http://h/p?a=x")) [(ascii "b", ascii "y")]) []
        (ascii "GET") = some (none, ascii "GET /p?a=xb=y HTTP/1.1\r\n") ∧
      ¬ Extended .plain .plain .reserved (ascii "http://h/p?a=x") [] (ascii "GET")
        [(ascii "b", ascii "y")] ∧
      mnhttpUriStartRequest .plain .plain .reserved
        (addQterms .plain (.parse (ascii "http://h/p?a=x#f")) [(ascii "b", ascii "y")]) []
        (ascii "GET") = some (none, ascii "GET /p?a=x#fb=y HTTP/1.1\r\n") ∧
      ¬ Extended .plain .plain .reserved (ascii "http://h/p?a=x#f") [] (ascii "GET")
        [(ascii "b", ascii "y")] := by
  have hglued : mnhttpUriStartRequest .plain .plain .reserved
      (addQterms .plain (.parse (ascii "http://h/p?a=x")) [(ascii "b", ascii "y")]) []
      (ascii "GET") = some (none, ascii "GET /p?a=xb=y HTTP/1.1\r\n") := by decide +kernel
  have hfragment : mnhttpUriStartRequest .plain .plain .reserved
      (addQterms .plain (.parse (ascii "http://h/p?a=x#f")) [(ascii "b", ascii "y")]) []
      (ascii "GET") = some (none, ascii "GET /p?a=x#fb=y HTTP/1.1\r\n") := by decide +kernel
  refine ⟨hglued, ?_, hfragment, ?_⟩
  · rintro ⟨target, h0, hstart, hold, hnew⟩
    have htarget : target = ascii "/p?a=xb=y" := by
      rw [hglued, Option.some.injEq, Prod.mk.injEq] at hstart
      exact target_unique [] (ascii "GET") hstart.2.symm
    rw [queryTerms_eq] at hold hnew
    cases hold
    rw [htarget] at hnew
    exact absurd hnew (by decide +kernel)
  · rintro ⟨target, h0, hstart, hold, hnew⟩
    have htarget : target = ascii "/p?a=x#fb=y" := by
      rw [hfragment, Option.some.injEq, Prod.mk.injEq] at hstart
      exact target_unique [] (ascii "GET") hstart.2.symm
    rw [queryTerms_eq] at hold hnew
    cases hold
    rw [htarget] at hnew
    exact absurd hnew (by decide +kernel)

end MnHttp
