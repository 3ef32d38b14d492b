/-
# `MnApp.Http.UriParts` — what `mnhttp_uri_parse` makes of a text

`mnhttp_uri_parse` works with unbounded `strchr` searches and offsets; the
text is described here by cuts at first delimiters.  Behind the scheme:

    authority    in front of the first '/'
    rest         from it on
    user info    in front of the first '@' of the authority
    user         in front of the first ':' of the user info
    host         in front of the first ':' of what remains

`mnhttpUriParse_parts` says that the fields are these parts, and the three
statements about them are read off it:

* nothing is lost: the text is the concatenation of its parts, each of them
  ends at the first delimiter that can end it, and no assertion fails on the
  way (`uri_parse_lossless`);
* the defaults of port and scheme are complete exactly for a text that
  names a scheme or a port (`uri_defaults_iff`): a scheme that is inferred
  comes too late for the port;
* path, query and fragment are those of RFC 3986 exactly when no `'#'` comes
  before the first `'?'` (`uri_relative_iff`).
-/
import MnApp.Lib.Cut
import MnApp.Http.Uri

namespace MnHttp

open CLib

/-! ## Parts of a text -/

/-- The scheme that is named. -/
def schemeOf (s : List UInt8) : Scheme := (splitScheme (cstr s)).1

/-- The text behind the scheme. -/
def behindScheme (s : List UInt8) : List UInt8 := (splitScheme (cstr s)).2

/-- The text in front of the first `'/'` behind the scheme. -/
def authorityOf (s : List UInt8) : List UInt8 := Cut.before SLASH (behindScheme s)

/-- The text from the first `'/'` behind the scheme on. -/
def restOf (s : List UInt8) : List UInt8 := (Cut.behind SLASH (behindScheme s)).elim [] (SLASH :: ·)

/-- The part of an authority in front of its first `'@'`. -/
def userInfo (a : List UInt8) : Option (List UInt8) :=
  (Cut.behind AT a).map fun _ => Cut.before AT a

/-- The part of an authority behind its first `'@'`, or all of it. -/
def hostPort (a : List UInt8) : List UInt8 := (Cut.behind AT a).getD a

/-- The port that a text gives, which may be empty. -/
def portOf (s : List UInt8) : Option (List UInt8) := Cut.behind COLON (hostPort (authorityOf s))

/-- The authority, stored. -/
def Uri.withAuthority (u : Uri) (a : List UInt8) : Uri :=
  { u with
    user := (userInfo a).map (Cut.before COLON)
    password := (userInfo a).bind (Cut.behind COLON)
    host := some (Cut.before COLON (hostPort a))
    port := Cut.behind COLON (hostPort a) }

theorem authority_append_rest (s : List UInt8) : behindScheme s = authorityOf s ++ restOf s :=
  Cut.before_append_behind SLASH _

theorem restOf_eq_nil_iff {s : List UInt8} : restOf s = [] ↔ SLASH ∉ behindScheme s := by
  unfold restOf
  rw [← Cut.behind_eq_none_iff]
  cases Cut.behind SLASH (behindScheme s) <;> simp

/-! ## Searches -/

@[simp] theorem strchr_of_not_mem {s : List UInt8} {c : UInt8} (h : c ∉ s) : strchr s c = none :=
  Cut.findIdx?_of_not_mem h

@[simp] theorem strchr_append_cons {a : List UInt8} {c : UInt8} (h : c ∉ a) (b : List UInt8) :
    strchr (a ++ c :: b) c = some a.length := Cut.findIdx?_append_cons h b

theorem between_eq {s x m t : List UInt8} {i j : Nat} (hs : s = x ++ m ++ t) (hi : i = x.length)
    (hj : j = x.length + m.length) : between s i j = m := by
  subst hs hi hj
  unfold between
  rw [← List.length_append, List.take_left, List.drop_left]

/-- A search behind `x` that may run past the part it is meant for. -/
theorem strchr_outside {m t : List UInt8} {c : UInt8} {n : Nat} (h : c ∉ m)
    (hn : strchr (m ++ t) c = some n) : m.length ≤ n := Cut.length_le_of_findIdx? h hn

/-! ## The authority -/

section
variable {u : Uri}

theorem splitHost_eq (x m t : List UInt8) (hport : u.port = none) :
    splitHost (x ++ m ++ t) x.length (x.length + m.length) u =
      { u with host := some (Cut.before COLON m), port := Cut.behind COLON m } := by
  have hdrop : (x ++ m ++ t).drop x.length = m ++ t := by rw [List.append_assoc, List.drop_left]
  have hall : between (x ++ m ++ t) x.length (x.length + m.length) = m := between_eq rfl rfl rfl
  unfold splitHost
  rw [hdrop]
  obtain h | ⟨host, port, rfl, h⟩ := Cut.cases COLON m
  · -- no `':'` in this part; one behind it is not taken
    have hsame : ({ u with host := some m } : Uri) =
        { u with host := some m, port := none } := by rw [← hport]
    rw [Cut.before_of_not_mem h, Cut.behind_of_not_mem h]
    split
    · rename_i n hn
      have hle := strchr_outside h hn
      simp only
      rw [if_neg (by omega), hall]
      exact hsame
    · rw [hall]
      exact hsame
  · have hfound : strchr (host ++ COLON :: port ++ t) COLON = some host.length := by
      rw [List.append_assoc, List.cons_append]
      exact strchr_append_cons h _
    have hlt : x.length + host.length < x.length + (host ++ COLON :: port).length := by simp
    rw [hfound, Cut.before_append_cons h, Cut.behind_append_cons h]
    simp only [hlt, if_true]
    congr 2
    · exact between_eq (x := x) (t := COLON :: port ++ t) (by simp) rfl rfl
    · exact between_eq (x := x ++ host ++ [COLON]) (t := t) (by simp) (by simp; omega)
        (by simp; omega)

theorem splitUser_eq (m t : List UInt8) (hpass : u.password = none) :
    splitUser (m ++ t) m.length u =
      { u with user := some (Cut.before COLON m), password := Cut.behind COLON m } := by
  have hall : between (m ++ t) 0 m.length = m := between_eq (x := []) rfl rfl (by simp)
  unfold splitUser
  obtain h | ⟨user, password, rfl, h⟩ := Cut.cases COLON m
  · have hsame : ({ u with user := some m } : Uri) =
        { u with user := some m, password := none } := by rw [← hpass]
    rw [Cut.before_of_not_mem h, Cut.behind_of_not_mem h]
    split
    · rename_i n hn
      have hle := strchr_outside h hn
      rw [if_neg (by omega), hall]
      exact hsame
    · rw [hall]
      exact hsame
  · have hfound : strchr (user ++ COLON :: password ++ t) COLON = some user.length := by
      rw [List.append_assoc, List.cons_append]
      exact strchr_append_cons h _
    have hlt : user.length < (user ++ COLON :: password).length := by simp
    rw [hfound, Cut.before_append_cons h, Cut.behind_append_cons h]
    simp only [hlt, if_true]
    congr 2
    · exact between_eq (x := []) (t := COLON :: password ++ t) (by simp) rfl (by simp)
    · exact between_eq (x := user ++ [COLON]) (t := t) (by simp) (by simp) (by simp; omega)

theorem splitAuthority_eq (a t : List UInt8) (hpass : u.password = none) (huser : u.user = none)
    (hport : u.port = none) : splitAuthority (a ++ t) a.length u = u.withAuthority a := by
  have hplain : splitHost (a ++ t) 0 a.length u =
      { u with host := some (Cut.before COLON a), port := Cut.behind COLON a } := by
    have := splitHost_eq (u := u) [] a t hport
    simpa using this
  unfold splitAuthority Uri.withAuthority userInfo hostPort
  obtain h | ⟨info, host, rfl, h⟩ := Cut.cases AT a
  · have hsame : ({ u with
        host := some (Cut.before COLON a), port := Cut.behind COLON a } : Uri) =
        { u with
          user := none, password := none
          host := some (Cut.before COLON a), port := Cut.behind COLON a } := by
      rw [huser, hpass]
    rw [Cut.behind_of_not_mem h]
    split
    · rename_i n hn
      have hle := strchr_outside h hn
      rw [if_neg (by omega), hplain]
      exact hsame
    · rw [hplain]
      exact hsame
  · have hfound : strchr (info ++ AT :: host ++ t) AT = some info.length := by
      rw [List.append_assoc, List.cons_append]
      exact strchr_append_cons h _
    have hlt : info.length < (info ++ AT :: host).length := by simp
    have huser' : splitUser (info ++ AT :: host ++ t) info.length u =
        { u with user := some (Cut.before COLON info), password := Cut.behind COLON info } := by
      rw [List.append_assoc]
      exact splitUser_eq info (AT :: host ++ t) hpass
    have htext : info ++ AT :: host ++ t = info ++ [AT] ++ host ++ t := by simp
    have hstop : (info ++ AT :: host).length = (info ++ [AT]).length + host.length := by
      simp
      omega
    rw [hfound, Cut.before_append_cons h, Cut.behind_append_cons h]
    simp only [hlt, if_true]
    rw [huser', htext, hstop, show info.length + 1 = (info ++ [AT]).length by simp]
    exact splitHost_eq (info ++ [AT]) host t hport

end

/-! ## The parse -/

/-- The fields, before the defaults. -/
def partsOf (s : List UInt8) : Uri :=
  let u := { Uri.init with scheme := schemeOf s }
  let u :=
    if restOf s = [] then u
    else if schemeOf s = .serial then { u with path := some (restOf s) }
    else splitRelative (restOf s) u
  u.withAuthority (authorityOf s)

theorem splitRelative_authority (rel : List UInt8) (u : Uri) :
    (splitRelative rel u).user = u.user ∧ (splitRelative rel u).password = u.password ∧
      (splitRelative rel u).port = u.port ∧ (splitRelative rel u).scheme = u.scheme := by
  unfold splitRelative
  split
  · simp only
    split <;> exact ⟨rfl, rfl, rfl, rfl⟩
  · split <;> exact ⟨rfl, rfl, rfl, rfl⟩

/-- What `mnhttp_uri_parse` makes of the text behind the scheme, before the
defaults are filled in. -/
def splitText (scheme : Scheme) (p0 : List UInt8) : Uri :=
  let u := { Uri.init with scheme := scheme }
  match strchr p0 SLASH with
  | some ppath =>
      let rel := p0.drop ppath
      splitAuthority p0 ppath
        (if scheme = .serial then { u with path := some rel } else splitRelative rel u)
  | none => splitAuthority p0 p0.length u

theorem mnhttpUriParse_eq (s : List UInt8) :
    mnhttpUriParse s = fillScheme (fillPort (splitText (schemeOf s) (behindScheme s))) := rfl

/-- **`mnhttp_uri_parse` stores the parts of its text.** -/
theorem mnhttpUriParse_parts (s : List UInt8) :
    mnhttpUriParse s = fillScheme (fillPort (partsOf s)) := by
  have htext : behindScheme s = authorityOf s ++ restOf s := authority_append_rest s
  rw [mnhttpUriParse_eq]
  unfold splitText partsOf
  obtain h | ⟨a, b, hab, h⟩ := Cut.cases SLASH (behindScheme s)
  · have hrest : restOf s = [] := restOf_eq_nil_iff.mpr h
    have hauth : authorityOf s = behindScheme s := Cut.before_of_not_mem h
    have hsplit := splitAuthority_eq (u := { Uri.init with scheme := schemeOf s })
      (behindScheme s) [] rfl rfl rfl
    rw [List.append_nil] at hsplit
    rw [strchr_of_not_mem h, hrest, hauth]
    simp only [if_true]
    rw [hsplit]
  · have hauth : authorityOf s = a := by
      unfold authorityOf
      rw [hab]
      exact Cut.before_append_cons h b
    have hrest : restOf s = SLASH :: b := by
      unfold restOf
      rw [hab, Cut.behind_append_cons h]
      rfl
    rw [hauth, hrest, hab, strchr_append_cons h]
    simp only [List.drop_left, reduceCtorEq, if_false]
    split
    · rw [splitAuthority_eq (u := { Uri.init with
        scheme := schemeOf s, path := some (SLASH :: b) }) a (SLASH :: b) rfl rfl rfl]
    · obtain ⟨huser, hpass, hport, -⟩ := splitRelative_authority (SLASH :: b)
        { Uri.init with scheme := schemeOf s }
      rw [splitAuthority_eq a (SLASH :: b) hpass huser hport]

theorem fill_fields (u : Uri) :
    fillScheme (fillPort u) = { u with
      scheme := if u.scheme = .undef then
          if u.port = some (ascii "443") then .https else .http
        else u.scheme
      port := if isNullOrEmpty u.port then u.scheme.defaultPort else u.port } := by
  have hempty : isNullOrEmpty u.port = true → u.port ≠ some (ascii "443") := fun h hp => by
    rw [hp] at h
    revert h
    decide
  unfold fillScheme fillPort
  by_cases hp : isNullOrEmpty u.port = true
  · simp only [hp, if_true]
    by_cases hs : u.scheme = .undef
    · simp only [hs, if_true, if_neg (hempty hp), Scheme.defaultPort]
      rfl
    · simp only [hs, if_false]
  · simp only [hp]
    by_cases hs : u.scheme = .undef
    · simp only [hs, if_true, Bool.false_eq_true, if_false]
    · simp only [hs, Bool.false_eq_true, if_false]

theorem partsOf_scheme (s : List UInt8) : (partsOf s).scheme = schemeOf s := by
  unfold partsOf Uri.withAuthority
  simp only
  split
  · rfl
  · split
    · rfl
    · exact (splitRelative_authority _ _).2.2.2

theorem partsOf_port (s : List UInt8) : (partsOf s).port = portOf s := rfl

theorem mnhttpUriParse_scheme (s : List UInt8) : (mnhttpUriParse s).scheme =
    if schemeOf s = .undef then if portOf s = some (ascii "443") then .https else .http
    else schemeOf s := by
  rw [mnhttpUriParse_parts, fill_fields, ← partsOf_scheme, ← partsOf_port]

theorem mnhttpUriParse_user (s : List UInt8) :
    (mnhttpUriParse s).user = (userInfo (authorityOf s)).map (Cut.before COLON) ∧
      (mnhttpUriParse s).password = (userInfo (authorityOf s)).bind (Cut.behind COLON) := by
  rw [mnhttpUriParse_parts, fill_fields]
  exact ⟨rfl, rfl⟩

theorem mnhttpUriParse_host (s : List UInt8) :
    (mnhttpUriParse s).host = some (Cut.before COLON (hostPort (authorityOf s))) := by
  rw [mnhttpUriParse_parts, fill_fields]
  rfl

theorem mnhttpUriParse_port (s : List UInt8) : (mnhttpUriParse s).port =
    if isNullOrEmpty (portOf s) then (schemeOf s).defaultPort else portOf s := by
  rw [mnhttpUriParse_parts, fill_fields, ← partsOf_scheme, ← partsOf_port]

/-! ## Defaults -/

/-- The scheme is always known: it is the one that is named, or the one that the
port tells; and where no port is given, it is that of the scheme. -/
structure Uri.DefaultsComplete (u : Uri) (s : List UInt8) : Prop where
  scheme : u.scheme ≠ .undef
  inferred : schemeOf s = .undef →
    u.scheme = if portOf s = some (ascii "443") then .https else .http
  port : (portOf s).getD [] = [] → ∀ p, u.scheme.defaultPort = some p → u.port = some p

theorem isNullOrEmpty_iff {b : Option (List UInt8)} : isNullOrEmpty b = true ↔ b.getD [] = [] :=
  beq_iff_eq

/-- **The defaults are complete exactly when the text names a scheme or a
port.** -/
theorem uri_defaults_iff (s : List UInt8) :
    (mnhttpUriParse s).DefaultsComplete s ↔
      schemeOf s ≠ .undef ∨ (portOf s).getD [] ≠ [] := by
  have hscheme := mnhttpUriParse_scheme s
  have hport := mnhttpUriParse_port s
  constructor
  · intro h
    by_contra hnot
    obtain ⟨hundef, hempty⟩ := not_or.mp hnot
    have hundef := not_not.mp hundef
    have hempty := not_not.mp hempty
    -- the scheme becomes http, and the port stays NULL
    have hnone : (mnhttpUriParse s).port = none := by
      rw [hport, if_pos (isNullOrEmpty_iff.mpr hempty), hundef]
      rfl
    have hnot443 : portOf s ≠ some (ascii "443") := fun h443 => by
      rw [h443] at hempty
      revert hempty
      decide
    have hhttp : (mnhttpUriParse s).scheme = .http := by
      rw [hscheme, if_pos hundef, if_neg hnot443]
    have hset := h.port hempty (ascii "80") (by rw [hhttp]; rfl)
    cases hnone.symm.trans hset
  · intro h
    refine ⟨?_, fun hundef => ?_, fun hempty p hp => ?_⟩
    · rw [hscheme]
      split
      · split <;> nofun
      · exact ‹_›
    · rw [hscheme, if_pos hundef]
    · have hnamed := h.resolve_right (not_not.mpr hempty)
      rw [hscheme, if_neg hnamed] at hp
      rw [hport, if_pos (isNullOrEmpty_iff.mpr hempty)]
      exact hp

/-- **A text with neither gets no port**, although its scheme is known in the
end. -/
theorem localhost_without_port :
    (mnhttpUriParse (ascii "localhost")).scheme = .http ∧
      (mnhttpUriParse (ascii "localhost")).port = none ∧
      ¬ (mnhttpUriParse (ascii "localhost")).DefaultsComplete (ascii "localhost") := by
  refine ⟨by decide, by decide, fun h => ?_⟩
  have hset := h.port (by decide) (ascii "80") (by decide)
  revert hset
  decide

/-! ## Path, query and fragment -/

/-- `splitRelative`, in cuts: the query is looked for first. -/
theorem splitRelative_eq (rel : List UInt8) {u : Uri} (hq : u.qstring = none)
    (hf : u.fragment = none) :
    splitRelative rel u = match Cut.behind QUERY rel with
      | some b => { u with
          relative := some rel
          path := some (Cut.before QUERY rel)
          qstring := some (Cut.before HASH b)
          fragment := (Cut.behind HASH b).map (HASH :: ·) }
      | none => { u with
          relative := some rel
          path := some (Cut.before HASH rel)
          qstring := none
          fragment := (Cut.behind HASH rel).map (HASH :: ·) } := by
  unfold splitRelative
  obtain h | ⟨a, b, rfl, h⟩ := Cut.cases QUERY rel
  · rw [strchr_of_not_mem h, Cut.behind_of_not_mem h]
    obtain hh | ⟨c, d, rfl, hh⟩ := Cut.cases HASH rel
    · simp [hh, hq, hf]
    · have hpath : between (c ++ HASH :: d) 0 c.length = c :=
        between_eq (x := []) (t := HASH :: d) (by simp) rfl (by simp)
      simp [hh, hq, hpath]
  · have hpath : between (a ++ QUERY :: b) 0 a.length = a :=
      between_eq (x := []) (t := QUERY :: b) (by simp) rfl (by simp)
    have hdrop : (a ++ QUERY :: b).drop (a.length + 1) = b := by simp
    rw [strchr_append_cons h, Cut.behind_append_cons h, Cut.before_append_cons h]
    simp only [hpath, hdrop]
    obtain hh | ⟨c, d, rfl, hh⟩ := Cut.cases HASH b
    · simp [hh, hf]
    · have hquery : between (a ++ QUERY :: (c ++ HASH :: d)) (a.length + 1)
          (a.length + 1 + c.length) = c :=
        between_eq (x := a ++ [QUERY]) (t := HASH :: d) (by simp) (by simp) (by simp)
      have hfrag : (a ++ QUERY :: (c ++ HASH :: d)).drop (a.length + 1 + c.length) =
          HASH :: d := by
        rw [← List.drop_drop, hdrop, List.drop_left]
      simp [hh, hquery, hfrag]

/-- Path, query and fragment as RFC 3986 has them: the fragment is everything from
the first `'#'` on, the query string what stands between the first `'?'` in front
of it and the fragment, and the path the rest. -/
structure Uri.Rfc3986 (u : Uri) (rel : List UInt8) : Prop where
  relative : u.relative = some rel
  fragment : u.fragment ≠ none ↔ HASH ∈ rel
  fragment_from : ∀ f, u.fragment = some f → ∃ a t, rel = a ++ f ∧ HASH ∉ a ∧ f = HASH :: t
  qstring : u.qstring ≠ none ↔ QUERY ∈ Cut.before HASH rel
  qstring_between : ∀ q, u.qstring = some q →
    ∃ a, rel = a ++ QUERY :: q ++ u.fragment.getD [] ∧ QUERY ∉ a
  path : ∃ p, u.path = some p ∧ QUERY ∉ p ∧ HASH ∉ p ∧
    rel = p ++ u.qstring.elim [] (QUERY :: ·) ++ u.fragment.getD []

theorem rfc3986_without_query {u : Uri} {rel : List UInt8} (h : QUERY ∉ rel)
    (hrel : u.relative = some rel) (hpath : u.path = some (Cut.before HASH rel))
    (hq : u.qstring = none) (hf : u.fragment = (Cut.behind HASH rel).map (HASH :: ·)) :
    u.Rfc3986 rel := by
  have hquery : QUERY ∉ Cut.before HASH rel := fun hm => h (Cut.mem_of_mem_before hm)
  have htext : rel = Cut.before HASH rel ++ u.fragment.getD [] := by
    conv_lhs => rw [Cut.before_append_behind HASH rel]
    rw [hf]
    cases Cut.behind HASH rel <;> rfl
  refine ⟨hrel, ?_, ?_, ?_, ?_, ?_⟩
  · rw [hf, ne_eq, Option.map_eq_none_iff, Cut.behind_eq_none_iff, not_not]
  · intro f hsome
    refine ⟨_, f.tail, ?_, Cut.not_mem_before HASH rel, ?_⟩
    · rw [hsome] at htext
      exact htext
    · obtain ⟨t, -, rfl⟩ := Option.map_eq_some_iff.mp (hf.symm.trans hsome)
      rfl
  · exact iff_of_false (fun hne => hne hq) hquery
  · intro q hsome
    cases hq.symm.trans hsome
  · refine ⟨_, hpath, hquery, Cut.not_mem_before HASH rel, ?_⟩
    rw [hq]
    simpa using htext

theorem rfc3986_with_query {u : Uri} {a b : List UInt8} (h : QUERY ∉ a) (hhash : HASH ∉ a)
    (hrel : u.relative = some (a ++ QUERY :: b)) (hpath : u.path = some a)
    (hq : u.qstring = some (Cut.before HASH b))
    (hf : u.fragment = (Cut.behind HASH b).map (HASH :: ·)) : u.Rfc3986 (a ++ QUERY :: b) := by
  have hne : HASH ≠ QUERY := by decide
  have htext : b = Cut.before HASH b ++ u.fragment.getD [] := by
    conv_lhs => rw [Cut.before_append_behind HASH b]
    rw [hf]
    cases Cut.behind HASH b <;> rfl
  refine ⟨hrel, ?_, ?_, ?_, ?_, ?_⟩
  · rw [hf, ne_eq, Option.map_eq_none_iff, Cut.behind_eq_none_iff, not_not]
    simp [hhash, hne]
  · intro f hsome
    refine ⟨a ++ QUERY :: Cut.before HASH b, f.tail, ?_, ?_, ?_⟩
    · rw [hsome] at htext
      rw [List.append_assoc, List.cons_append]
      exact congrArg (fun t => a ++ QUERY :: t) htext
    · have := Cut.not_mem_before HASH b
      simp [hhash, this, hne]
    · obtain ⟨t, -, rfl⟩ := Option.map_eq_some_iff.mp (hf.symm.trans hsome)
      rfl
  · refine iff_of_true (by rw [hq]; nofun) ?_
    -- the `'?'` stands in front of the first `'#'`
    have hmem : QUERY ∈ Cut.before HASH (a ++ QUERY :: b) := by
      obtain hb | ⟨c, d, rfl, hc⟩ := Cut.cases HASH b
      · rw [Cut.before_of_not_mem (by simp [hhash, hb, hne])]
        simp
      · have hsplit : a ++ QUERY :: (c ++ HASH :: d) = (a ++ QUERY :: c) ++ HASH :: d := by simp
        rw [hsplit, Cut.before_append_cons (by simp [hhash, hc, hne])]
        simp
    exact hmem
  · intro q hsome
    cases hq.symm.trans hsome
    refine ⟨a, ?_, h⟩
    rw [List.append_assoc, List.cons_append, ← htext]
  · refine ⟨a, hpath, h, hhash, ?_⟩
    rw [hq]
    show a ++ QUERY :: b = a ++ QUERY :: Cut.before HASH b ++ u.fragment.getD []
    rw [List.append_assoc, List.cons_append, ← htext]

theorem mnhttpUriParse_relative {s : List UInt8} (hslash : SLASH ∈ behindScheme s)
    (hserial : schemeOf s ≠ .serial) :
    let v := splitRelative (restOf s) { Uri.init with scheme := schemeOf s }
    (mnhttpUriParse s).relative = v.relative ∧ (mnhttpUriParse s).path = v.path ∧
      (mnhttpUriParse s).qstring = v.qstring ∧ (mnhttpUriParse s).fragment = v.fragment := by
  have hrest : restOf s ≠ [] := fun h => restOf_eq_nil_iff.mp h hslash
  have hparts : partsOf s = (splitRelative (restOf s)
      { Uri.init with scheme := schemeOf s }).withAuthority (authorityOf s) := by
    unfold partsOf
    simp only [hrest, hserial, if_false]
  rw [mnhttpUriParse_parts, fill_fields, hparts]
  exact ⟨rfl, rfl, rfl, rfl⟩

/-- **Path, query and fragment follow RFC 3986 exactly when no `'#'` comes before
the first `'?'`.** -/
theorem uri_relative_iff (s : List UInt8) (hslash : SLASH ∈ behindScheme s)
    (hserial : schemeOf s ≠ .serial) :
    (mnhttpUriParse s).Rfc3986 (restOf s) ↔
      (QUERY ∈ restOf s → HASH ∉ Cut.before QUERY (restOf s)) := by
  obtain ⟨hrel, hpath, hq, hf⟩ := mnhttpUriParse_relative hslash hserial
  have heq := splitRelative_eq (restOf s) (u := { Uri.init with scheme := schemeOf s }) rfl rfl
  generalize restOf s = rel at *
  generalize mnhttpUriParse s = u at *
  rw [heq] at hrel hpath hq hf
  obtain h | ⟨a, b, rfl, h⟩ := Cut.cases QUERY rel
  · rw [Cut.behind_of_not_mem h] at hrel hpath hq hf
    exact iff_of_true (rfc3986_without_query h hrel hpath hq hf) fun hm => absurd hm h
  · rw [Cut.behind_append_cons h, Cut.before_append_cons h] at hrel hpath hq hf
    rw [Cut.before_append_cons h]
    constructor
    · intro hrfc _
      obtain ⟨p, hp, -, hno, -⟩ := hrfc.path
      cases hpath.symm.trans hp
      exact hno
    · intro hcond
      exact rfc3986_with_query h (hcond (by simp)) hrel hpath hq hf

theorem uri_relative_iff_query :
    SLASH ∈ behindScheme (ascii "localhost/a?b#c") ∧
      (mnhttpUriParse (ascii "localhost/a?b#c")).Rfc3986 (ascii "/a?b#c") := by
  have hrest : restOf (ascii "localhost/a?b#c") = ascii "/a?b#c" := by decide
  refine ⟨by decide, hrest ▸ (uri_relative_iff _ (by decide) (by decide)).mpr fun _ => ?_⟩
  rw [hrest]
  decide

/-- **A `'?'` inside the fragment is taken for a query.** -/
theorem query_in_fragment :
    (mnhttpUriParse (ascii "localhost/a#b?c")).path = some (ascii "/a#b") ∧
      (mnhttpUriParse (ascii "localhost/a#b?c")).qstring = some (ascii "c") ∧
      (mnhttpUriParse (ascii "localhost/a#b?c")).fragment = none ∧
      ¬ (mnhttpUriParse (ascii "localhost/a#b?c")).Rfc3986 (ascii "/a#b?c") := by
  refine ⟨by decide, by decide, by decide, fun h => ?_⟩
  exact h.fragment.mpr (by decide) (by decide)

/-! ## Assertions -/

/-- `assert(field == NULL)`, and the assignment behind it; `none` when the assertion
fails. -/
def assertNull (field : Option (List UInt8)) (u : Uri) : Option Uri :=
  if field = none then some u else none

/-- `splitHost`, with its assertions. -/
def storeHost (p0 : List UInt8) (phost stop : Nat) (u : Uri) : Option Uri :=
  match strchr (p0.drop phost) COLON with
  | some n =>
      let pport := phost + n
      if pport < stop then do
        let u ← assertNull u.host { u with host := some (between p0 phost pport) }
        assertNull u.port { u with port := some (between p0 (pport + 1) stop) }
      else assertNull u.host { u with host := some (between p0 phost stop) }
  | none => assertNull u.host { u with host := some (between p0 phost stop) }

/-- `splitUser`, with its assertions. -/
def storeUser (p0 : List UInt8) (phost : Nat) (u : Uri) : Option Uri :=
  match strchr p0 COLON with
  | some puser =>
      if puser < phost then do
        let u ← assertNull u.user { u with user := some (between p0 0 puser) }
        assertNull u.password { u with password := some (between p0 (puser + 1) phost) }
      else assertNull u.user { u with user := some (between p0 0 phost) }
  | none => assertNull u.user { u with user := some (between p0 0 phost) }

/-- `splitAuthority`, with its assertions. -/
def storeAuthority (p0 : List UInt8) (stop : Nat) (u : Uri) : Option Uri :=
  match strchr p0 AT with
  | some phost =>
      if phost < stop then do
        let u ← storeUser p0 phost u
        storeHost p0 (phost + 1) stop u
      else storeHost p0 0 stop u
  | none => storeHost p0 0 stop u

/-- `splitRelative`, with its assertions, in the order of the source. -/
def storeRelative (rel : List UInt8) (u : Uri) : Option Uri := do
  let u ← assertNull u.relative { u with relative := some rel }
  match strchr rel QUERY with
  | some q =>
      let u ← match strchr (rel.drop (q + 1)) HASH with
        | some f => do
            let u ← assertNull u.qstring
              { u with qstring := some (between rel (q + 1) (q + 1 + f)) }
            assertNull u.fragment { u with fragment := some (rel.drop (q + 1 + f)) }
        | none => assertNull u.qstring { u with qstring := some (rel.drop (q + 1)) }
      assertNull u.path { u with path := some (between rel 0 q) }
  | none =>
      match strchr rel HASH with
      | some f => do
          let u ← assertNull u.fragment { u with fragment := some (rel.drop f) }
          assertNull u.path { u with path := some (between rel 0 f) }
      | none => assertNull u.path { u with path := some rel }

/-- `fillPort`, with its assertions: the port is dropped first. -/
def storePort (u : Uri) : Option Uri :=
  if isNullOrEmpty u.port then
    let u := { u with port := none }
    match u.scheme.defaultPort with
    | some p => assertNull u.port { u with port := some p }
    | none => some u
  else some u

/-- `mnhttp_uri_parse` into any URI: `none` when an assertion fails. -/
def mnhttpUriParseInto (uri : Uri) (s : List UInt8) : Option Uri := do
  let (scheme, p0) := splitScheme (cstr s)
  let u := { uri with scheme := if scheme = .undef then uri.scheme else scheme }
  let u ← match strchr p0 SLASH with
    | some ppath => do
        let rel := p0.drop ppath
        let u ← if u.scheme = .serial then some { u with path := some rel }
          else storeRelative rel u
        storeAuthority p0 ppath u
    | none => storeAuthority p0 p0.length u
  let u ← storePort u
  some (fillScheme u)

section
variable {p0 : List UInt8} {phost stop : Nat} {u : Uri}

theorem storeHost_eq (hhost : u.host = none) (hport : u.port = none) :
    storeHost p0 phost stop u = some (splitHost p0 phost stop u) := by
  unfold storeHost splitHost
  cases strchr (p0.drop phost) COLON with
  | none => simp [assertNull, hhost]
  | some n =>
      simp only
      split
      · simp [assertNull, hhost, hport]
      · simp [assertNull, hhost]

theorem storeUser_eq (huser : u.user = none) (hpass : u.password = none) :
    storeUser p0 phost u = some (splitUser p0 phost u) := by
  unfold storeUser splitUser
  cases strchr p0 COLON with
  | none => simp [assertNull, huser]
  | some n =>
      simp only
      split
      · simp [assertNull, huser, hpass]
      · simp [assertNull, huser]

theorem splitUser_fields : (splitUser p0 phost u).host = u.host ∧
    (splitUser p0 phost u).port = u.port := by
  unfold splitUser
  split
  · split <;> exact ⟨rfl, rfl⟩
  · exact ⟨rfl, rfl⟩

theorem storeAuthority_eq (huser : u.user = none) (hpass : u.password = none)
    (hhost : u.host = none) (hport : u.port = none) :
    storeAuthority p0 stop u = some (splitAuthority p0 stop u) := by
  unfold storeAuthority splitAuthority
  cases strchr p0 AT with
  | none => exact storeHost_eq hhost hport
  | some n =>
      simp only
      split
      · obtain ⟨hhost', hport'⟩ : (splitUser p0 n u).host = u.host ∧
            (splitUser p0 n u).port = u.port := splitUser_fields
        rw [storeUser_eq huser hpass, Option.bind_eq_bind, Option.bind_some]
        exact storeHost_eq (hhost'.trans hhost) (hport'.trans hport)
      · exact storeHost_eq hhost hport

theorem storeRelative_eq {rel : List UInt8} (hrel : u.relative = none) (hq : u.qstring = none)
    (hf : u.fragment = none) (hpath : u.path = none) :
    storeRelative rel u = some (splitRelative rel u) := by
  unfold storeRelative splitRelative
  simp only [assertNull, hrel, if_true, Option.bind_eq_bind, Option.bind_some]
  cases strchr rel QUERY with
  | none =>
      simp only
      cases strchr rel HASH with
      | none => simp [hpath]
      | some f => simp [hf, hpath]
  | some q =>
      simp only
      cases strchr (rel.drop (q + 1)) HASH with
      | none => simp [hq, hpath]
      | some f => simp [hq, hf, hpath]

theorem storePort_eq : storePort u = some (fillPort u) := by
  unfold storePort fillPort
  split
  · simp only
    split
    · rename_i hp
      simp [assertNull, hp]
    · rename_i hp
      rw [hp]
  · rfl

end

/-- No assertion fails on a fresh URI. -/
theorem mnhttpUriParseInto_init (s : List UInt8) :
    mnhttpUriParseInto .init s = some (mnhttpUriParse s) := by
  unfold mnhttpUriParseInto mnhttpUriParse
  generalize splitScheme (cstr s) = split
  obtain ⟨scheme, p0⟩ := split
  have hscheme : (if scheme = .undef then Uri.init.scheme else scheme) = scheme := by
    split
    · rename_i h
      exact h.symm
    · rfl
  simp only [hscheme]
  cases strchr p0 SLASH with
  | none =>
      simp only [storeAuthority_eq (u := { Uri.init with scheme := scheme }) rfl rfl rfl rfl,
        storePort_eq, Option.bind_eq_bind, Option.bind_some]
  | some ppath =>
      simp only
      split
      · simp only [storeAuthority_eq (u := { Uri.init with
          scheme := scheme, path := some (p0.drop ppath) }) rfl rfl rfl rfl, storePort_eq,
          Option.bind_eq_bind, Option.bind_some]
      · obtain ⟨huser, hpass, hport, -⟩ := splitRelative_authority (p0.drop ppath)
          { Uri.init with scheme := scheme }
        have hhost := (splitRelative_fields (u := { Uri.init with scheme := scheme })
          (p0.drop ppath)).2.1
        simp only [storeRelative_eq (u := { Uri.init with scheme := scheme }) rfl rfl rfl rfl,
          storeAuthority_eq huser hpass hhost hport, storePort_eq, Option.bind_eq_bind,
          Option.bind_some]

/-! ## Nothing is lost -/

/-- A scheme that was recognised, or nothing. -/
inductive SchemePart (u : Uri) (s : List UInt8) : List UInt8 → Prop
  | none : (∀ e ∈ schemePrefixes, ¬ e.2 <+: s) → SchemePart u s []
  | named {pre : List UInt8} : (u.scheme, pre) ∈ schemePrefixes → SchemePart u s pre

/-- `user@`, `user:password@`, or nothing. -/
inductive UserPart (u : Uri) : List UInt8 → Prop
  | none : u.user = none → u.password = none → UserPart u []
  | user {x : List UInt8} : u.user = some x → u.password = .none → UserPart u (x ++ [AT])
  | password {x y : List UInt8} : u.user = some x → u.password = some y →
      UserPart u (x ++ COLON :: y ++ [AT])

/-- `:port`; without one, the stored port is the default of the scheme or NULL. -/
inductive PortPart (u : Uri) : List UInt8 → Prop
  | none : u.port = none ∨ u.port = u.scheme.defaultPort → PortPart u []
  | empty : u.port = .none ∨ u.port = u.scheme.defaultPort → PortPart u [COLON]
  | port {x : List UInt8} : x ≠ [] → u.port = some x → PortPart u (COLON :: x)

/-- `/path?qstring#fragment`, a path of the file system, or nothing. -/
inductive RestPart (u : Uri) : List UInt8 → Prop
  | none : u.relative = none → u.path = none → RestPart u []
  | serial {rest : List UInt8} : u.scheme = .serial → u.path = some (SLASH :: rest) →
      RestPart u (SLASH :: rest)
  | relative {rest path : List UInt8} : u.scheme ≠ .serial → u.relative = some (SLASH :: rest) →
      u.path = some path →
      SLASH :: rest = path ++ u.qstring.elim [] (QUERY :: ·) ++ u.fragment.getD [] →
      RestPart u (SLASH :: rest)

/-- The delimiters that the fields do not hold. -/
structure Uri.Confined (u : Uri) : Prop where
  user : ∀ x, u.user = some x → SLASH ∉ x ∧ COLON ∉ x ∧ AT ∉ x
  password : ∀ x, u.password = some x → SLASH ∉ x ∧ AT ∉ x
  host : ∀ x, u.host = some x → SLASH ∉ x ∧ COLON ∉ x
  port : ∀ x, u.port = some x → SLASH ∉ x

/-- A path, the query string behind the first `'?'`, and from the first `'#'` behind that
on the fragment. -/
def cutRelative (rel : List UInt8) : List UInt8 × Option (List UInt8) × Option (List UInt8) :=
  match Cut.behind QUERY rel with
  | some b => (Cut.before QUERY rel, some (Cut.before HASH b), (Cut.behind HASH b).map (HASH :: ·))
  | none => (Cut.before HASH rel, none, (Cut.behind HASH rel).map (HASH :: ·))

/-- **Every field ends at the first delimiter that can end it.**  The text `t` stands
behind the scheme: the authority ends at its first `'/'`, the user info at the first
`'@'` of the authority, user and host at the first `':'` of what they are cut from. -/
structure Uri.Leftmost (u : Uri) (t : List UInt8) : Prop where
  user : u.user = (userInfo (Cut.before SLASH t)).map (Cut.before COLON)
  password : u.password = (userInfo (Cut.before SLASH t)).bind (Cut.behind COLON)
  host : u.host = some (Cut.before COLON (hostPort (Cut.before SLASH t)))
  port : ∀ x ≠ [], Cut.behind COLON (hostPort (Cut.before SLASH t)) = some x → u.port = some x
  serial : u.scheme = .serial → u.path = (Cut.behind SLASH t).map (SLASH :: ·) ∧
    u.relative = none ∧ u.qstring = none ∧ u.fragment = none
  relative : u.scheme ≠ .serial → u.relative = (Cut.behind SLASH t).map (SLASH :: ·)
  path : u.scheme ≠ .serial → u.path = u.relative.map fun rel => (cutRelative rel).1
  qstring : u.qstring = u.relative.bind fun rel => (cutRelative rel).2.1
  fragment : u.fragment = u.relative.bind fun rel => (cutRelative rel).2.2

/-- A text is the concatenation of the parts that a URI stores of it, and they are cut
at the leftmost delimiters. -/
structure Uri.Splits (u : Uri) (s : List UInt8) : Prop where
  text : ∃ pre info host port rest, s = pre ++ info ++ host ++ port ++ rest ∧
    SchemePart u s pre ∧ UserPart u info ∧ u.host = some host ∧ PortPart u port ∧
    RestPart u rest ∧ (rest = [] ↔ SLASH ∉ info ++ host ++ port ++ rest) ∧
    u.Leftmost (info ++ host ++ port ++ rest)
  confined : u.Confined

/-- What stands in front of the authority's host. -/
def userText (a : List UInt8) : List UInt8 := (userInfo a).elim [] (· ++ [AT])

theorem userText_append_hostPort (a : List UInt8) : a = userText a ++ hostPort a := by
  unfold userText userInfo hostPort
  obtain h | ⟨x, y, rfl, h⟩ := Cut.cases AT a
  · rw [Cut.behind_of_not_mem h]
    rfl
  · rw [Cut.behind_append_cons h, Cut.before_append_cons h]
    simp

theorem splitScheme_cases (s : List UInt8) :
    ((∀ e ∈ schemePrefixes, ¬ e.2 <+: s) ∧ splitScheme s = (.undef, s)) ∨
      ∃ e ∈ schemePrefixes, s = e.2 ++ (splitScheme s).2 ∧ (splitScheme s).1 = e.1 := by
  unfold splitScheme
  split
  · rename_i e he
    have hpre := List.find?_some (p := fun e : Scheme × List UInt8 => e.2.isPrefixOf s) he
    obtain ⟨t, rfl⟩ := List.isPrefixOf_iff_prefix.mp hpre
    refine .inr ⟨e, List.mem_of_find?_eq_some he, ?_, rfl⟩
    rw [List.drop_left]
  · rename_i hnone
    refine .inl ⟨fun e he hpre => ?_, rfl⟩
    exact List.find?_eq_none.mp hnone e he (List.isPrefixOf_iff_prefix.mpr hpre)

theorem schemePrefixes_named : ∀ e ∈ schemePrefixes, e.1 ≠ .undef := by decide

theorem mnhttpUriParse_named {s : List UInt8} (h : schemeOf s ≠ .undef) :
    (mnhttpUriParse s).scheme = schemeOf s := by
  rw [mnhttpUriParse_scheme, if_neg h]

section
variable {s : List UInt8}

theorem parse_schemePart (h : ∀ b ∈ s, b ≠ NUL) : ∃ pre, s = pre ++ behindScheme s ∧
    SchemePart (mnhttpUriParse s) s pre := by
  unfold behindScheme
  have hscheme : schemeOf s = (splitScheme s).1 := by unfold schemeOf; rw [cstr_of_no_nul h]
  rw [cstr_of_no_nul h]
  obtain ⟨hnone, heq⟩ | ⟨e, he, htext, hfst⟩ := splitScheme_cases s
  · exact ⟨[], by rw [heq]; rfl, .none hnone⟩
  · refine ⟨e.2, htext, .named ?_⟩
    have hnamed : schemeOf s = e.1 := hscheme.trans hfst
    rw [mnhttpUriParse_named (by rw [hnamed]; exact schemePrefixes_named e he), hnamed]
    exact he

theorem parse_userPart (s : List UInt8) :
    UserPart (mnhttpUriParse s) (userText (authorityOf s)) := by
  obtain ⟨huser, hpass⟩ := mnhttpUriParse_user s
  unfold userText
  cases hinfo : userInfo (authorityOf s) with
  | none =>
      rw [hinfo] at huser hpass
      exact .none huser hpass
  | some info =>
      rw [hinfo] at huser hpass
      show UserPart _ (info ++ [AT])
      rw [Cut.before_append_behind COLON info]
      cases hbehind : Cut.behind COLON info with
      | none =>
          rw [Option.bind_some, hbehind] at hpass
          rw [Option.elim_none, List.append_nil]
          exact .user huser hpass
      | some y =>
          rw [Option.bind_some, hbehind] at hpass
          exact .password huser hpass

theorem parse_portPart (s : List UInt8) :
    PortPart (mnhttpUriParse s) ((portOf s).elim [] (COLON :: ·)) := by
  have hport := mnhttpUriParse_port s
  have hdefault : isNullOrEmpty (portOf s) = true → (mnhttpUriParse s).port = none ∨
      (mnhttpUriParse s).port = (mnhttpUriParse s).scheme.defaultPort := fun hempty => by
    rw [if_pos hempty] at hport
    by_cases hundef : schemeOf s = .undef
    · rw [hundef] at hport
      exact .inl hport
    · rw [mnhttpUriParse_named hundef]
      exact .inr hport
  cases hgiven : portOf s with
  | none => exact .none (hdefault (by rw [hgiven]; rfl))
  | some x =>
      by_cases hx : x = []
      · subst hx
        exact .empty (hdefault (by rw [hgiven]; rfl))
      · refine .port hx ?_
        have hfull : ¬ isNullOrEmpty (some x) = true := fun h => hx (isNullOrEmpty_iff.mp h)
        rw [hport, hgiven, if_neg hfull]

theorem cutRelative_text (rel : List UInt8) : rel = (cutRelative rel).1 ++
    (cutRelative rel).2.1.elim [] (QUERY :: ·) ++ (cutRelative rel).2.2.getD [] := by
  unfold cutRelative
  obtain h | ⟨a, b, rfl, h⟩ := Cut.cases QUERY rel
  · rw [Cut.behind_of_not_mem h]
    conv_lhs => rw [Cut.before_append_behind HASH rel]
    cases Cut.behind HASH rel <;> simp
  · rw [Cut.behind_append_cons h, Cut.before_append_cons h]
    show a ++ QUERY :: b =
      a ++ QUERY :: Cut.before HASH b ++ ((Cut.behind HASH b).map (HASH :: ·)).getD []
    conv_lhs => rw [Cut.before_append_behind HASH b]
    cases Cut.behind HASH b <;> simp

theorem Uri.Leftmost.restPart {u : Uri} {t : List UInt8} (h : u.Leftmost t) :
    RestPart u ((Cut.behind SLASH t).elim [] (SLASH :: ·)) := by
  by_cases hserial : u.scheme = .serial
  · obtain ⟨hpath, hrel, -, -⟩ := h.serial hserial
    cases hbehind : Cut.behind SLASH t with
    | none =>
        rw [hbehind] at hpath
        exact .none hrel hpath
    | some rest =>
        rw [hbehind] at hpath
        exact .serial hserial hpath
  · have hrel := h.relative hserial
    have hpath := h.path hserial
    have hq := h.qstring
    have hf := h.fragment
    cases hbehind : Cut.behind SLASH t with
    | none =>
        rw [hbehind] at hrel
        rw [hrel] at hpath
        exact .none hrel hpath
    | some rest =>
        rw [hbehind] at hrel
        rw [hrel] at hpath hq hf
        refine .relative hserial hrel hpath ?_
        rw [hq, hf]
        exact cutRelative_text (SLASH :: rest)

theorem splitRelative_cut (rel : List UInt8) {u : Uri} (hq : u.qstring = none)
    (hf : u.fragment = none) : splitRelative rel u = { u with
      relative := some rel
      path := some (cutRelative rel).1
      qstring := (cutRelative rel).2.1
      fragment := (cutRelative rel).2.2 } := by
  rw [splitRelative_eq rel hq hf, cutRelative]
  cases Cut.behind QUERY rel <;> rfl

theorem mnhttpUriParse_serial_iff (s : List UInt8) :
    (mnhttpUriParse s).scheme = .serial ↔ schemeOf s = .serial := by
  rw [mnhttpUriParse_scheme]
  split
  · rename_i hundef
    rw [hundef]
    split <;> exact iff_of_false nofun nofun
  · exact Iff.rfl

theorem parse_leftmost (s : List UInt8) : (mnhttpUriParse s).Leftmost (behindScheme s) := by
  obtain ⟨huser, hpass⟩ := mnhttpUriParse_user s
  have hport : ∀ x ≠ [], portOf s = some x → (mnhttpUriParse s).port = some x := by
    intro x hx hgiven
    have hfull : ¬ isNullOrEmpty (some x) = true := fun h => hx (isNullOrEmpty_iff.mp h)
    rw [mnhttpUriParse_port, hgiven, if_neg hfull]
  have hserial := mnhttpUriParse_serial_iff s
  by_cases hslash : SLASH ∈ behindScheme s
  · obtain ⟨a, b, hab, h⟩ := List.eq_append_cons_of_mem hslash
    have hbehind : Cut.behind SLASH (behindScheme s) = some b := by
      rw [hab, Cut.behind_append_cons h]
    have hrest : restOf s = SLASH :: b := by
      unfold restOf
      rw [hbehind]
      rfl
    by_cases hs : schemeOf s = .serial
    · have hfields : (mnhttpUriParse s).path = some (restOf s) ∧
          (mnhttpUriParse s).relative = none ∧ (mnhttpUriParse s).qstring = none ∧
          (mnhttpUriParse s).fragment = none := by
        rw [mnhttpUriParse_parts, fill_fields]
        simp only [partsOf, Uri.withAuthority, hs, hrest, reduceCtorEq, if_false, if_true]
        exact ⟨trivial, rfl, rfl, rfl⟩
      obtain ⟨hpath, hrel, hq, hf⟩ := hfields
      have hyes := hserial.mpr hs
      refine ⟨huser, hpass, mnhttpUriParse_host s, hport, fun _ => ⟨?_, hrel, hq, hf⟩,
        fun hno => absurd hyes hno, fun hno => absurd hyes hno, by rw [hq, hrel]; rfl,
        by rw [hf, hrel]; rfl⟩
      rw [hpath, hrest, hbehind]
      rfl
    · obtain ⟨hrel, hpath, hq, hf⟩ := mnhttpUriParse_relative hslash hs
      rw [splitRelative_cut _ rfl rfl] at hrel hpath hq hf
      simp only at hrel hpath hq hf
      refine ⟨huser, hpass, mnhttpUriParse_host s, hport, fun hyes => absurd (hserial.mp hyes) hs,
        fun _ => ?_, fun _ => by rw [hpath, hrel]; rfl, by rw [hq, hrel]; rfl,
        by rw [hf, hrel]; rfl⟩
      rw [hrel, hrest, hbehind]
      rfl
  · have hnil := restOf_eq_nil_iff.mpr hslash
    have hfields : (mnhttpUriParse s).relative = none ∧ (mnhttpUriParse s).path = none ∧
        (mnhttpUriParse s).qstring = none ∧ (mnhttpUriParse s).fragment = none := by
      rw [mnhttpUriParse_parts, fill_fields]
      simp only [partsOf, Uri.withAuthority, hnil, if_true]
      exact ⟨rfl, rfl, rfl, rfl⟩
    obtain ⟨hrel, hpath, hq, hf⟩ := hfields
    have hbehind : Cut.behind SLASH (behindScheme s) = none := Cut.behind_eq_none_iff.mpr hslash
    exact ⟨huser, hpass, mnhttpUriParse_host s, hport,
      fun _ => ⟨by rw [hpath, hbehind]; rfl, hrel, hq, hf⟩,
      fun _ => by rw [hrel, hbehind]; rfl, fun _ => by rw [hpath, hrel]; rfl,
      by rw [hq, hrel]; rfl, by rw [hf, hrel]; rfl⟩

theorem mem_userInfo {a info : List UInt8} (h : userInfo a = some info) :
    AT ∉ info ∧ ∀ b ∈ info, b ∈ a := by
  obtain ⟨_, -, rfl⟩ := Option.map_eq_some_iff.mp h
  exact ⟨Cut.not_mem_before AT a, fun b hb => Cut.mem_of_mem_before hb⟩

theorem mem_hostPort {a : List UInt8} {b : UInt8} (h : b ∈ hostPort a) : b ∈ a := by
  unfold hostPort at h
  cases hb : Cut.behind AT a with
  | none =>
      rw [hb] at h
      exact h
  | some t =>
      rw [hb] at h
      exact Cut.mem_of_mem_behind hb h

theorem parse_confined (s : List UInt8) : (mnhttpUriParse s).Confined := by
  have hslash : SLASH ∉ authorityOf s := Cut.not_mem_before SLASH _
  obtain ⟨huser, hpass⟩ := mnhttpUriParse_user s
  refine ⟨fun x hx => ?_, fun x hx => ?_, fun x hx => ?_, fun x hx => ?_⟩
  · obtain ⟨info, hinfo, rfl⟩ := Option.map_eq_some_iff.mp (huser.symm.trans hx)
    obtain ⟨hat, hsub⟩ := mem_userInfo hinfo
    exact ⟨fun h => hslash (hsub _ (Cut.mem_of_mem_before h)), Cut.not_mem_before COLON info,
      fun h => hat (Cut.mem_of_mem_before h)⟩
  · obtain ⟨info, hinfo, hbehind⟩ := Option.bind_eq_some_iff.mp (hpass.symm.trans hx)
    obtain ⟨hat, hsub⟩ := mem_userInfo hinfo
    exact ⟨fun h => hslash (hsub _ (Cut.mem_of_mem_behind hbehind h)),
      fun h => hat (Cut.mem_of_mem_behind hbehind h)⟩
  · cases (mnhttpUriParse_host s).symm.trans hx
    exact ⟨fun h => hslash (mem_hostPort (Cut.mem_of_mem_before h)), Cut.not_mem_before COLON _⟩
  · have hport := (mnhttpUriParse_port s).symm.trans hx
    split at hport
    · intro hm
      have hall : ∀ scheme : Scheme, ∀ p, scheme.defaultPort = some p → SLASH ∉ p := by
        intro scheme p hp
        cases scheme <;> cases hp <;> decide
      exact hall _ x hport hm
    · exact fun h => hslash (mem_hostPort (Cut.mem_of_mem_behind hport h))

end

/-- **`mnhttp_uri_parse` loses nothing, and splits at the leftmost delimiters.** -/
theorem uri_parse_lossless (s : List UInt8) (h : ∀ b ∈ s, b ≠ NUL) :
    ∃ u, mnhttpUriParseInto .init s = some u ∧ u.Splits s := by
  refine ⟨_, mnhttpUriParseInto_init s, ?_, parse_confined s⟩
  obtain ⟨pre, htext, hpre⟩ := parse_schemePart h
  have hauth : authorityOf s = userText (authorityOf s) ++
      Cut.before COLON (hostPort (authorityOf s)) ++ (portOf s).elim [] (COLON :: ·) := by
    rw [List.append_assoc]
    conv_lhs => rw [userText_append_hostPort (authorityOf s)]
    exact congrArg _ (Cut.before_append_behind COLON _)
  have hparts : userText (authorityOf s) ++ Cut.before COLON (hostPort (authorityOf s)) ++
      (portOf s).elim [] (COLON :: ·) ++ restOf s = behindScheme s := by
    rw [← hauth]
    exact (authority_append_rest s).symm
  refine ⟨pre, _, _, _, restOf s, ?_, hpre, parse_userPart s, mnhttpUriParse_host s,
    parse_portPart s, (parse_leftmost s).restPart, ?_, ?_⟩
  · conv_lhs => rw [htext, ← hparts]
    simp
  · rw [hparts]
    exact restOf_eq_nil_iff
  · rw [hparts]
    exact parse_leftmost s

theorem uri_parse_lossless_full :
    (∀ b ∈ ascii "http://me:pw@host:80/p?q#f", b ≠ NUL) ∧
      ∃ u, mnhttpUriParseInto .init (ascii "http://me:pw@host:80/p?q#f") = some u ∧
        u.Splits (ascii "http://me:pw@host:80/p?q#f") := by
  have hnul : ∀ b ∈ ascii "http://me:pw@host:80/p?q#f", b ≠ NUL := by decide
  exact ⟨hnul, uri_parse_lossless _ hnul⟩

end MnHttp
