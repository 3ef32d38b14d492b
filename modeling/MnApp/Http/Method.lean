/-
# `MnApp.Http.Method` — the method of a request line

`parse_method` compares the word in front of the first blank with eight names,
and each comparison is as long as the word.  A name is recognised in any case
of its letters; but so are

    a proper beginning of a name     "G", "PO" and, of no length at all, ""
    a name and a NUL behind it       `strncasecmp` stops at the NUL of both

and PATCH, which has a number and a name in the header, is not one of the
eight.  `Misread` collects the words that come out wrong, `methodOf` is the
number a word has by `MNHTTP_MSTR`, and on a word that is not empty the two
differ exactly on `Misread` (`parseMethod_exact_iff`).

The empty word is taken for GET, so that the test for `sz == 0` is never
reached.  A line with no method is refused only if something else is wrong
with it, which is `RequestAt.Accepted`: a target, a version, and what `strtol`
makes of it.  `method_exact_iff` puts the two together for
`parse_request_line`.
-/
import MnApp.Http.LineText
import MnApp.Lib.Cut

namespace MnHttp

open CLib

/-! ## The names -/

def MPATCH : Int := 9

/-- `MNHTTP_MSTR`. -/
def mstr (m : Int) : List UInt8 :=
  if m = MOPTIONS then ascii "OPTIONS"
  else if m = MGET then ascii "GET"
  else if m = MHEAD then ascii "HEAD"
  else if m = MPOST then ascii "POST"
  else if m = MPUT then ascii "PUT"
  else if m = MDELETE then ascii "DELETE"
  else if m = MTRACE then ascii "TRACE"
  else if m = MCONNECT then ascii "CONNECT"
  else if m = MPATCH then ascii "PATCH"
  else ascii "<ext>"

/-- The methods with a name of their own. -/
def namedMethods : List Int :=
  [MOPTIONS, MGET, MHEAD, MPOST, MPUT, MDELETE, MTRACE, MCONNECT, MPATCH]

/-- The methods `parse_method` looks for, in its order. -/
def testedMethods : List Int := [MGET, MHEAD, MPOST, MPUT, MDELETE, MOPTIONS, MCONNECT, MTRACE]

/-- The method a word names, letter case ignored. -/
def methodOf (token : List UInt8) : Int :=
  (namedMethods.find? fun m => SameLetters token (mstr m)).getD MEXT

theorem named_of_tested : ∀ m ∈ testedMethods, m ∈ namedMethods := by decide

theorem patch_of_not_tested : ∀ m ∈ namedMethods, m ∉ testedMethods → m = MPATCH := by decide

theorem nul_not_mem_mstr : ∀ m ∈ namedMethods, NUL ∉ mstr m := by decide

/-- No name is a beginning of another one; in particular they are different. -/
theorem mstr_free : ∀ m ∈ namedMethods, ∀ k ∈ namedMethods,
    (mstr m).map tolower <+: (mstr k).map tolower → m = k := by decide

theorem mext_not_named : MEXT ∉ namedMethods := by decide

section
variable {token rest : List UInt8} {m : Int}

theorem methodOf_named (hm : m ∈ namedMethods) (h : SameLetters token (mstr m)) :
    methodOf token = m := by
  unfold methodOf
  cases hfind : namedMethods.find? fun m => SameLetters token (mstr m) with
  | none =>
      rw [List.find?_eq_none] at hfind
      exact absurd (decide_eq_true h) (hfind m hm)
  | some k =>
      have hk : SameLetters token (mstr k) := by
        have := List.find?_some hfind
        simpa using this
      exact mstr_free k (List.mem_of_find?_eq_some hfind) m hm
        (SameLetters.lower_begins (hk.symm.trans h))

theorem methodOf_other (h : ∀ m ∈ namedMethods, ¬ SameLetters token (mstr m)) :
    methodOf token = MEXT := by
  unfold methodOf
  rw [List.find?_eq_none.mpr fun m hm => by simpa using h m hm]
  rfl

theorem sameLetters_of_methodOf (h : methodOf token = m) (hm : m ∈ namedMethods) :
    SameLetters token (mstr m) := by
  by_cases hex : ∃ k ∈ namedMethods, SameLetters token (mstr k)
  · obtain ⟨k, hk, hsame⟩ := hex
    rw [methodOf_named hk hsame] at h
    exact h ▸ hsame
  · rw [methodOf_other fun k hk hsame => hex ⟨k, hk, hsame⟩] at h
    exact absurd (h ▸ hm) mext_not_named

/-! ## What one comparison takes for a name -/

/-- The word is shorter than the name, and the name begins with it. -/
def Abbreviates (token name : List UInt8) : Prop :=
  token.map tolower <+: name.map tolower ∧ token.length < name.length

/-- The word has a NUL, and the name in front of it. -/
def NulBehind (token name : List UInt8) : Prop := NUL ∈ token ∧ SameLetters (cstr token) name

instance (token name : List UInt8) : Decidable (Abbreviates token name) :=
  inferInstanceAs (Decidable (_ ∧ _))

instance (token name : List UInt8) : Decidable (NulBehind token name) :=
  inferInstanceAs (Decidable (_ ∧ _))

theorem strncasecmpEq_name {name : List UInt8} (hname : NUL ∉ name) :
    strncasecmpEq (token ++ rest) name token.length = true ↔
      SameLetters token name ∨ Abbreviates token name ∨ NulBehind token name := by
  rw [strncasecmpEq_word hname]
  constructor
  · rintro (⟨-, h⟩ | h)
    · have hle := h.length_le
      rw [List.length_map, List.length_map] at hle
      obtain hlt | heq := Nat.lt_or_eq_of_le hle
      · exact .inr (.inl ⟨h, hlt⟩)
      · exact .inl (h.eq_of_length (by rw [List.length_map, List.length_map, heq]))
    · exact .inr (.inr h)
  · rintro (h | h | h)
    · have hpre := h.lower_begins
      exact .inl ⟨fun hnul => hname (nul_mem_of_tolower hpre hnul), hpre⟩
    · exact .inl ⟨fun hnul => hname (nul_mem_of_tolower h.1 hnul), h.1⟩
    · exact .inr h

/-- The words `parse_method` has a wrong number for. -/
def Misread (token : List UInt8) : Prop :=
  SameLetters token (mstr MPATCH) ∨
    ∃ m ∈ testedMethods, Abbreviates token (mstr m) ∨ NulBehind token (mstr m)

instance (token : List UInt8) : Decidable (Misread token) := inferInstanceAs (Decidable (_ ∨ _))

/-! ## `parse_method` -/

theorem parseMethod_eq (s : List UInt8) (sz : Nat) :
    parseMethod s sz = (testedMethods.find? fun m => strncasecmpEq s (mstr m) sz).getD
      (if sz = 0 then -1 else MEXT) := by
  have htable : testedMethods.map mstr =
      [ascii "GET", ascii "HEAD", ascii "POST", ascii "PUT", ascii "DELETE", ascii "OPTIONS",
        ascii "CONNECT", ascii "TRACE"] := by decide
  simp only [testedMethods, List.map_cons, List.map_nil, List.cons.injEq, and_true] at htable
  obtain ⟨h1, h2, h3, h4, h5, h6, h7, h8⟩ := htable
  simp only [parseMethod, testedMethods, List.find?_cons, List.find?_nil, h1, h2, h3, h4, h5, h6,
    h7, h8]
  repeat' split
  all_goals simp_all

theorem parseMethod_cases (token rest : List UInt8) :
    (∃ m ∈ testedMethods, (SameLetters token (mstr m) ∨ Abbreviates token (mstr m) ∨
        NulBehind token (mstr m)) ∧ parseMethod (token ++ rest) token.length = m) ∨
      (∀ m ∈ testedMethods, ¬ (SameLetters token (mstr m) ∨ Abbreviates token (mstr m) ∨
        NulBehind token (mstr m))) ∧
        parseMethod (token ++ rest) token.length = if token.length = 0 then -1 else MEXT := by
  have hname : ∀ m ∈ testedMethods, NUL ∉ mstr m :=
    fun m hm => nul_not_mem_mstr m (named_of_tested m hm)
  rw [parseMethod_eq]
  cases hfind : testedMethods.find? fun m =>
      strncasecmpEq (token ++ rest) (mstr m) token.length with
  | none =>
      rw [List.find?_eq_none] at hfind
      exact .inr ⟨fun m hm h => hfind m hm ((strncasecmpEq_name (hname m hm)).mpr h), rfl⟩
  | some m =>
      have hm := List.mem_of_find?_eq_some hfind
      have heq := List.find?_some hfind
      exact .inl ⟨m, hm, (strncasecmpEq_name (hname m hm)).mp heq, rfl⟩

theorem misread_not_same (h : ∃ m ∈ testedMethods, Abbreviates token (mstr m) ∨
    NulBehind token (mstr m)) {k : Int} (hk : k ∈ namedMethods) : ¬ SameLetters token (mstr k) := by
  intro hsame
  have hsame' : token.map tolower = (mstr k).map tolower := hsame
  obtain ⟨m, hm, ⟨hpre, hlt⟩ | ⟨hnul, -⟩⟩ := h
  · -- the word is a whole name and the beginning of one: then it is not shorter
    have heq : k = m := mstr_free k hk m (named_of_tested m hm) (hsame' ▸ hpre)
    subst heq
    have hlen := congrArg List.length hsame'
    rw [List.length_map, List.length_map] at hlen
    omega
  · exact nul_not_mem_mstr k hk (nul_mem_of_tolower hsame.lower_begins hnul)

theorem parseMethod_exact_iff (hne : token ≠ []) (rest : List UInt8) :
    parseMethod (token ++ rest) token.length = methodOf token ↔ ¬ Misread token := by
  have hlen : token.length ≠ 0 := fun h => hne (List.length_eq_zero_iff.mp h)
  constructor
  · rintro heq (hpatch | hbad)
    · have hm : methodOf token = MPATCH := methodOf_named (by decide) hpatch
      rw [hm] at heq
      obtain ⟨m, hm, -, hcode⟩ | ⟨-, hcode⟩ := parseMethod_cases token rest
      · rw [← hcode, heq] at hm
        exact absurd hm (by decide)
      · rw [if_neg hlen, heq] at hcode
        exact absurd hcode (by decide)
    · obtain ⟨m, hm, -, hcode⟩ | ⟨hnone, -⟩ := parseMethod_cases token rest
      · have hm' := named_of_tested m hm
        exact misread_not_same hbad hm' (sameLetters_of_methodOf (heq ▸ hcode) hm')
      · obtain ⟨m, hm, h⟩ := hbad
        exact hnone m hm (.inr h)
  · intro hok
    obtain ⟨m, hm, hsame | h, hcode⟩ | ⟨hnone, hcode⟩ := parseMethod_cases token rest
    · rw [hcode, methodOf_named (named_of_tested m hm) hsame]
    · exact absurd (.inr ⟨m, hm, h⟩) hok
    · rw [hcode, if_neg hlen]
      refine (methodOf_other fun m hm hsame => ?_).symm
      by_cases htested : m ∈ testedMethods
      · exact hnone m htested (.inl hsame)
      · exact hok (.inl (patch_of_not_tested m hm htested ▸ hsame))

/-- The empty word is a beginning of every name, and GET is looked for first. -/
theorem parseMethod_empty (s : List UInt8) : parseMethod s 0 = MGET := by
  simp [parseMethod, strncasecmpEq]

end

/-! ## The line -/

/-- A request line whose CR LF has come, cut at its first blank. -/
structure RequestAt (p : Parser) where
  st : Nat
  n : Nat
  token : List UInt8
  blank : UInt8
  rest : List UInt8
  start : p.ctx.firstLine.start = st
  found : p.inp.scan st = some n
  line : (p.inp.mem st).take n = token ++ blank :: rest
  token_ok : ∀ b ∈ token, ISSPACE b = false
  blank_ok : ISSPACE blank = true

namespace RequestAt

variable {p : Parser} (L : RequestAt p)

/-- The line from the version on: behind the blanks, the target and blanks
again. -/
def version : List UInt8 :=
  ((L.rest.dropWhile ISSPACE).dropWhile fun b => !ISSPACE b).dropWhile ISSPACE

/-- There is a target and a version, and nothing is wrong with the version. -/
def Accepted : Prop :=
  L.version ≠ [] ∧
    ∃ k, (versionText ((p.inp.mem L.st).drop (L.n - L.version.length)) p.errno).res = .ok k

/-- The method came out as `MNHTTP_MSTR` has it, and the lack of one is an
error. -/
def Exact : Prop :=
  if L.token = [] then ∃ k, (parseRequestLine p).1 = .diag .httpParseMessage k
  else (parseRequestLine p).2.ctx.code = methodOf L.token

/-- The method is not one of those misread, and a line without one has another
fault. -/
def Clear : Prop := if L.token = [] then ¬ L.Accepted else ¬ Misread L.token

theorem mem_eq :
    p.inp.mem L.st = (L.token ++ L.blank :: L.rest) ++ (p.inp.mem L.st).drop L.n := by
  rw [← L.line, List.take_append_drop]

theorem length_eq : (L.token ++ L.blank :: L.rest).length = L.n := by
  obtain ⟨rest, -, hlen, -⟩ := firstCrlf_eq_some L.found
  rw [← L.line]
  rw [List.take_take, List.length_take] at hlen
  rw [List.length_take]
  omega

theorem fits : (((L.token ++ L.blank :: L.rest).length : Nat) : Int) ≤ intMax := by
  rw [L.length_eq]
  exact Int.le_trans (Int.le_add_of_nonneg_right (by decide)) (scan_room L.found)

theorem findsp_token : findsp (p.inp.mem L.st) (toInt L.n) = some L.token.length := by
  have hfits := L.fits
  have hlt : L.token.length < L.n := by
    have := L.length_eq
    rw [List.length_append, List.length_cons] at this
    omega
  rw [L.length_eq] at hfits
  rw [toInt_of_le (Int.natCast_nonneg _) hfits, L.mem_eq, List.append_assoc, List.cons_append]
  refine findsp_eq (fun x hx => ?_) L.blank_ok (Int.ofNat_lt.mpr hlt)
  have := L.token_ok x hx
  simpa [ISSPACE] using this

theorem parseMethod_token_nonneg : ¬ parseMethod (p.inp.mem L.st) L.token.length < 0 := by
  by_cases hne : L.token.length = 0
  · rw [hne, parseMethod_empty]
    decide
  · exact Int.not_lt.mpr (parseMethod_nonneg _ hne)

theorem words_code : (requestWords (p.inp.mem L.st) L.n).code =
    some (parseMethod (p.inp.mem L.st) L.token.length) := by
  rw [requestWords, L.findsp_token]
  simp only
  rw [if_neg L.parseMethod_token_nonneg]
  repeat' split
  all_goals rfl

theorem words_version : (requestWords (p.inp.mem L.st) L.n).version =
    if L.version = [] then none else some (L.n - L.version.length) := by
  have hnon : (fun b => !!ISSPACE b) = ISSPACE := funext fun b => Bool.not_not _
  have hlen := L.length_eq
  have hfits := L.fits
  have hfirst : (L.token ++ L.blank :: L.rest).drop L.token.length = L.blank :: L.rest :=
    List.drop_left
  generalize hline : L.token ++ L.blank :: L.rest = line at hlen hfits hfirst
  have hsz : L.token.length ≤ line.length := by rw [← hline]; simp
  have ht1 : (L.blank :: L.rest).dropWhile ISSPACE = L.rest.dropWhile ISSPACE := by
    rw [List.dropWhile_cons, if_pos L.blank_ok]
  rw [requestWords, L.findsp_token]
  simp only
  rw [if_neg L.parseMethod_token_nonneg]
  unfold version
  rw [L.mem_eq, hline, ← hlen]
  generalize (p.inp.mem L.st).drop line.length = X
  rw [findnosp_line hsz hfits, hfirst, Cut.findIdx?_eq_dropWhile, hnon, ht1]
  generalize h1 : L.rest.dropWhile ISSPACE = t1 at ht1 ⊢
  have hk := Cut.drop_eq_dropWhile ISSPACE (L.blank :: L.rest)
  rw [ht1, ← hfirst, List.drop_drop, hfirst] at hk
  by_cases he1 : t1 = []
  · simp [he1]
  rw [if_neg he1]
  generalize (L.blank :: L.rest).length - t1.length = k at hk ⊢
  have hsk : L.token.length + k ≤ line.length := by
    have := congrArg List.length hk
    have := List.length_pos_iff.mpr he1
    rw [List.length_drop] at *
    omega
  simp only
  rw [findsp_line hsk hfits, hk, Cut.findIdx?_eq_dropWhile]
  have hm := Cut.drop_eq_dropWhile (fun b => !ISSPACE b) t1
  generalize h2 : t1.dropWhile (fun b => !ISSPACE b) = t2 at hm ⊢
  by_cases he2 : t2 = []
  · simp [he2]
  rw [if_neg he2]
  generalize t1.length - t2.length = m at hm ⊢
  rw [← hk, List.drop_drop] at hm
  have hskm : L.token.length + k + m ≤ line.length := by
    have := congrArg List.length hm
    have := List.length_pos_iff.mpr he2
    rw [List.length_drop] at *
    omega
  simp only
  rw [findnosp_line hskm hfits, hm, Cut.findIdx?_eq_dropWhile, hnon]
  have hj := Cut.drop_eq_dropWhile ISSPACE t2
  generalize h3 : t2.dropWhile ISSPACE = t3 at hj ⊢
  by_cases he3 : t3 = []
  · simp [he3]
  rw [if_neg he3, if_neg he3]
  have hle : t3.length ≤ t2.length := by rw [← h3]; exact (List.dropWhile_sublist _).length_le
  have hlen2 := congrArg List.length hm
  rw [List.length_drop] at hlen2
  simp only [Option.some.injEq]
  omega

/-- The outcome of a line: the method is written in any case, and what is behind
it decides whether the line is refused. -/
theorem parse_cases :
    (parseRequestLine p).2.ctx.code = parseMethod (p.inp.mem L.st) L.token.length ∧
      ((parseRequestLine p).1 = .ok ∧ L.Accepted ∨
        (∃ k, (parseRequestLine p).1 = .diag .httpParseMessage k) ∧ ¬ L.Accepted) := by
  have hcode := L.words_code
  have hversion := L.words_version
  rw [parseRequestLine_words_text L.start L.found rfl]
  generalize requestWords (p.inp.mem L.st) L.n = w at hcode hversion ⊢
  by_cases hv : L.version = []
  · rw [if_pos hv] at hversion
    simp only [hversion, Words.write, hcode, Option.getD_some, true_and]
    exact .inr ⟨⟨1, rfl⟩, fun h => h.1 hv⟩
  · rw [if_neg hv] at hversion
    simp only [hversion, parseVersion_text]
    have hmem : p.inp.mem ((L.st + (L.n - L.version.length) : Nat) : Int) =
        (p.inp.mem L.st).drop (L.n - L.version.length) := by
      rw [Int.natCast_add, mem_add]
    rw [hmem]
    cases hres : (versionText ((p.inp.mem L.st).drop (L.n - L.version.length)) p.errno).res with
    | error r =>
        obtain ⟨k, rfl, -, -⟩ := versionText_error hres
        simp only [Except.map, Words.write, hcode, Option.getD_some, true_and]
        refine .inr ⟨⟨k, rfl⟩, fun h => ?_⟩
        obtain ⟨j, hj⟩ := h.2
        rw [hres] at hj
        cases hj
    | ok k =>
        simp only [Except.map, Words.write, hcode, Option.getD_some, Parser.lineDone, true_and]
        exact .inl ⟨hv, k, hres⟩

theorem code_eq (L : RequestAt p) : (parseRequestLine p).2.ctx.code =
    parseMethod (L.token ++ (L.blank :: L.rest ++ (p.inp.mem L.st).drop L.n)) L.token.length := by
  rw [L.parse_cases.1]
  conv_lhs => rw [L.mem_eq, List.append_assoc]

theorem exact_iff_clear : L.Exact ↔ L.Clear := by
  unfold Exact Clear
  by_cases hne : L.token = []
  · rw [if_pos hne, if_pos hne]
    obtain ⟨-, ⟨hok, hacc⟩ | ⟨herr, hacc⟩⟩ := L.parse_cases
    · refine iff_of_false (fun h => ?_) (fun h => h hacc)
      obtain ⟨k, hk⟩ := h
      rw [hok] at hk
      cases hk
    · exact iff_of_true herr hacc
  · rw [if_neg hne, if_neg hne, L.code_eq]
    exact parseMethod_exact_iff hne _

theorem sameLetters_of_code (hne : L.token ≠ []) (h : L.Exact)
    (hext : (parseRequestLine p).2.ctx.code ≠ MEXT) :
    SameLetters L.token (mstr (parseRequestLine p).2.ctx.code) := by
  unfold Exact at h
  rw [if_neg hne] at h
  rw [h] at hext ⊢
  by_cases hex : ∃ m ∈ namedMethods, SameLetters L.token (mstr m)
  · obtain ⟨m, hm, hsame⟩ := hex
    rwa [methodOf_named hm hsame]
  · exact absurd (methodOf_other fun m hm hsame => hex ⟨m, hm, hsame⟩) hext

end RequestAt

/-- **The method of a request line is recognised exactly when** its word is not
one of those misread or, for a line that has none, something else is wrong with
the line.  Two such lines with the same method other than `MNHTTP_MEXT` have
the same word. -/
theorem method_exact_iff {p : Parser} (L : RequestAt p) :
    (L.Exact ↔ L.Clear) ∧
      ∀ {q : Parser} (K : RequestAt q), L.token ≠ [] → K.token ≠ [] → L.Clear → K.Clear →
        (parseRequestLine p).2.ctx.code = (parseRequestLine q).2.ctx.code →
        (parseRequestLine p).2.ctx.code ≠ MEXT → SameLetters L.token K.token := by
  refine ⟨L.exact_iff_clear, fun K hL hK hLc hKc hcode hext => ?_⟩
  have h1 := L.sameLetters_of_code hL (L.exact_iff_clear.mpr hLc) hext
  have h2 := K.sameLetters_of_code hK (K.exact_iff_clear.mpr hKc) (hcode ▸ hext)
  rw [hcode] at h1
  exact h1.trans h2.symm

/-! ### Four lines -/

/-- A fresh parser whose buffer holds one line. -/
def lineArrived (line : List UInt8) : Parser := Parser.init ⟨line ++ [CR, LF], [], 0⟩ 0

def targetOne : List UInt8 := ascii "/ HTTP/1.1"

/-- The line of a parser that holds a method, a blank and `/ HTTP/1.1`. -/
def RequestAt.root (token : List UInt8)
    (found : (lineArrived (token ++ SP :: targetOne)).inp.scan 0 =
      some (token ++ SP :: targetOne).length)
    (token_ok : ∀ b ∈ token, ISSPACE b = false) :
    RequestAt (lineArrived (token ++ SP :: targetOne)) where
  st := 0
  n := (token ++ SP :: targetOne).length
  token := token
  blank := SP
  rest := targetOne
  start := rfl
  found := found
  line := by
    unfold lineArrived Parser.init Stream.mem
    rw [Int.toNat_natCast, List.drop_zero, List.append_assoc, List.take_left]
  token_ok := token_ok
  blank_ok := rfl

def getLine : RequestAt (lineArrived (ascii "get" ++ SP :: targetOne)) :=
  .root (ascii "get") (by decide) (by decide)

def shortLine : RequestAt (lineArrived (ascii "G" ++ SP :: targetOne)) :=
  .root (ascii "G") (by decide) (by decide)

def patchLine : RequestAt (lineArrived (ascii "PATCH" ++ SP :: targetOne)) :=
  .root (ascii "PATCH") (by decide) (by decide)

def bareLine : RequestAt (lineArrived (ascii "" ++ SP :: targetOne)) :=
  .root (ascii "") (by decide) (by decide)

theorem method_exact_get : getLine.Clear ∧ getLine.Exact := by
  have hclear : getLine.Clear := by
    unfold RequestAt.Clear
    rw [if_neg (by decide)]
    decide
  exact ⟨hclear, (method_exact_iff getLine).1.mpr hclear⟩

/-- `G` is taken for GET, PATCH is none of the methods, and a line that starts
with a blank is a GET and accepted. -/
theorem method_abbreviated : ¬ shortLine.Exact ∧ ¬ patchLine.Exact ∧ ¬ bareLine.Exact ∧
    (parseRequestLine (lineArrived (ascii "G" ++ SP :: targetOne))).2.ctx.code =
      (parseRequestLine (lineArrived (ascii "get" ++ SP :: targetOne))).2.ctx.code ∧
    (parseRequestLine (lineArrived (ascii "G" ++ SP :: targetOne))).2.ctx.code ≠ MEXT ∧
    ¬ SameLetters shortLine.token getLine.token := by
  refine ⟨?_, ?_, ?_, by decide, by decide, by decide⟩
  · unfold RequestAt.Exact
    rw [if_neg (by decide)]
    decide
  · unfold RequestAt.Exact
    rw [if_neg (by decide)]
    decide
  · unfold RequestAt.Exact
    rw [if_pos (by decide)]
    rintro ⟨k, hk⟩
    have hok : (parseRequestLine (lineArrived (ascii "" ++ SP :: targetOne))).1 = .ok := by decide
    rw [hok] at hk
    cases hk

end MnHttp
