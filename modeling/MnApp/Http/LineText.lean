/-
# `MnApp.Http.LineText` — the first line as a function of its text

`parse_request_line` and `parse_status_line` walk the buffer with pointers
and write the context as they go.  Once the end of the line is found, all
they depend on is the memory `M` from the start of the line on, the length
`n` of the line and `errno`; `FirstLine.text` is that function, and
`FirstLine.parse_text` says that the parsers compute it.

**Numbers.**  The version and the status are read by `strtol`, which does
not know where the line ends.  `FirstLine.numbers` lists the places where a
clean call reads one, and the number it reads there.  What is read is a
matter of the line alone exactly when each of these places has a byte other
than white space before the CR LF (`first_line_confined_iff`): the CR and
the LF are white space to `strtol`, which goes on behind them otherwise.
-/
import MnApp.Http.Iteration

namespace MnHttp

open CLib

/-! ## Numbers -/

/-- A number of the first line: its value as an `int`, the bytes it takes, and
`errno` behind it. -/
structure Number where
  val : Int
  len : Nat
  errno : Int
deriving DecidableEq, Repr

/-- The number at a pointer. -/
def number (M : List UInt8) (e : Int) : Number :=
  let r := strtol M 10
  ⟨toInt r.val, r.len, if r.erange then ERANGE else e⟩

/-- The check behind each number. -/
def Number.refused (x : Number) : Bool := zeroErrno x.val x.errno

/-! ## The text of a line -/

/-- The words in front of the version: where it starts, and what was written. -/
structure Words where
  version : Option Nat
  code : Option Int
  uri : Option (List UInt8)
deriving DecidableEq, Repr

def requestWords (M : List UInt8) (n : Int) : Words :=
  match findsp M (toInt n) with
  | none => ⟨none, none, none⟩
  | some sz =>
      let code := parseMethod M sz
      if code < 0 then ⟨none, some code, none⟩
      else
        match findnosp (M.drop sz) (toInt (n - sz)) with
        | none => ⟨none, some code, none⟩
        | some k =>
            match findsp (M.drop (sz + k)) (toInt (n - (sz + k : Nat))) with
            | none => ⟨none, some code, none⟩
            | some m =>
                let uri := (M.drop (sz + k)).take m
                match findnosp (M.drop (sz + k + m)) (toInt (n - (sz + k + m : Nat))) with
                | none => ⟨none, some code, some uri⟩
                | some j => ⟨some (sz + k + m + j), some code, some uri⟩

def statusWords (M : List UInt8) (n : Int) : Words := ⟨findnosp M (toInt n), none, none⟩

def FirstLine.words : FirstLine → List UInt8 → Int → Words
  | .request _ => requestWords
  | .status _ => statusWords

/-- `HTTP/major.minor`: the bytes it takes or the error, and what was written. -/
structure VersionOut where
  res : Except Res Nat
  major : Option Int
  minor : Option Int
  errno : Int

def versionText (M : List UInt8) (e : Int) : VersionOut :=
  if !strncasecmpEq M (ascii "HTTP/") 5 then
    ⟨.error (.diag .httpParseMessage 2), none, none, e⟩
  else
    let a := number (M.drop 5) e
    if a.refused then ⟨.error (.diag .httpParseMessage 3), some a.val, none, a.errno⟩
    else if (M.drop (5 + a.len)).head? ≠ some 46 then
      ⟨.error (.diag .httpParseMessage 4), some a.val, none, a.errno⟩
    else
      let b := number (M.drop (5 + a.len + 1)) a.errno
      if b.refused then ⟨.error (.diag .httpParseMessage 5), some a.val, some b.val, b.errno⟩
      else ⟨.ok (5 + a.len + 1 + b.len), some a.val, some b.val, b.errno⟩

/-- What the parse of a first line returns and writes; `none` is not written. -/
structure LineOut where
  res : Res
  code : Option Int
  uri : Option (List UInt8)
  major : Option Int
  minor : Option Int
  errno : Int
deriving DecidableEq, Repr

/-- Behind the version: nothing is read of a request line, and the status of a
status line. -/
def FirstLine.restText : FirstLine → List UInt8 → Int → LineOut → LineOut
  | .request _, _, _, o => o
  | .status _, M, n, o =>
      match findnosp M (toInt n) with
      | none => { o with res := .diag .httpParseMessage 6 }
      | some k =>
          let a := number (M.drop k) o.errno
          { o with
            res := if a.refused then .diag .httpParseMessage 7 else .ok
            code := some a.val
            errno := a.errno }

/-- The first line, as a function of the memory from its start on, its length
and `errno`. -/
def FirstLine.text (l : FirstLine) (M : List UInt8) (n e : Int) : LineOut :=
  let w := l.words M n
  match w.version with
  | none => ⟨.diag .httpParseMessage 1, w.code, w.uri, none, none, e⟩
  | some off =>
      let v := versionText (M.drop off) e
      match v.res with
      | .error r => ⟨r, w.code, w.uri, v.major, v.minor, v.errno⟩
      | .ok k => l.restText (M.drop (off + k)) (n - (off + k : Nat))
          ⟨.ok, w.code, w.uri, v.major, v.minor, v.errno⟩

/-- The context with what was written. -/
def LineOut.write (o : LineOut) (c : Ctx) : Ctx :=
  { c with
    code := o.code.getD c.code
    requestUri := o.uri.or c.requestUri
    versionMajor := o.major.getD c.versionMajor
    versionMinor := o.minor.getD c.versionMinor }

/-- The call that parsed the line at `st`. -/
def LineOut.finish (o : LineOut) (p : Parser) (st : Int) (n : Nat) : Res × Parser :=
  let q := { p with
    ctx := o.write { p.ctx with firstLine := ⟨st, st + n⟩ }
    errno := o.errno }
  (o.res, if o.res = .ok then q.lineDone (st + n) else q)

/-! ## The parsers compute it -/

section
variable {p : Parser} {st n : Nat}

theorem mem_behind (s : Stream) (st k j : Nat) :
    s.mem (((st + k : Nat) : Int) + j) = (s.mem st).drop (k + j) := by
  rw [← mem_add]
  congr 1
  omega

theorem offset_sub (st k : Int) : st + k - st = k := by omega

theorem offset_add (st : Int) (a b : Nat) : st + a + b = st + ((a + b : Nat) : Int) := by omega

theorem number_noteErrno (q : Parser) (M : List UInt8) :
    q.noteErrno (strtol M 10) = { q with errno := (number M q.errno).errno } := by
  unfold Parser.noteErrno number
  simp only
  split <;> rfl

theorem parseVersion_text (p : Parser) (t : Nat) :
    parseVersion p t =
      let v := versionText (p.inp.mem t) p.errno
      (v.res.map fun k => ((t + k : Nat) : Int), { p with
        ctx := { p.ctx with
          versionMajor := v.major.getD p.ctx.versionMajor
          versionMinor := v.minor.getD p.ctx.versionMinor }
        errno := v.errno }) := by
  have h5 : p.inp.mem ((t : Int) + 5) = (p.inp.mem t).drop 5 := mem_add p.inp t 5
  have hmajor : ∀ k : Nat, p.inp.mem ((t : Int) + 5 + k) = (p.inp.mem t).drop (5 + k) :=
    fun k => mem_behind p.inp t 5 k
  have hminor : ∀ k : Nat, p.inp.mem ((t : Int) + 5 + k + 1) = (p.inp.mem t).drop (5 + k + 1) := by
    intro k
    have := mem_behind p.inp t (5 + k) 1
    rw [← this]
    congr 1
    omega
  unfold parseVersion versionText
  by_cases hhttp : strncasecmpEq (p.inp.mem t) (ascii "HTTP/") 5 = true
  · simp only [hhttp, Bool.not_true, Bool.false_eq_true, if_false, h5, number_noteErrno, hmajor,
      hminor]
    generalize (p.inp.mem t).drop 5 = T
    have hval : toInt (strtol T 10).val = (number T p.errno).val := rfl
    have hlen : (strtol T 10).len = (number T p.errno).len := rfl
    rw [hval, hlen]
    generalize number T p.errno = a
    by_cases ha : a.refused = true
    · have ha' : zeroErrno a.val a.errno = true := ha
      rw [if_pos ha', if_pos ha]
      rfl
    have ha' : ¬ zeroErrno a.val a.errno = true := ha
    rw [if_neg ha', if_neg ha]
    by_cases hdot : ((p.inp.mem t).drop (5 + a.len)).head? ≠ some 46
    · rw [if_pos hdot, if_pos hdot]
      rfl
    rw [if_neg hdot, if_neg hdot]
    generalize (p.inp.mem t).drop (5 + a.len + 1) = W
    have hval : toInt (strtol W 10).val = (number W a.errno).val := rfl
    have hlen : (strtol W 10).len = (number W a.errno).len := rfl
    rw [hval, hlen]
    generalize number W a.errno = b
    by_cases hb : b.refused = true
    · have hb' : zeroErrno b.val b.errno = true := hb
      rw [if_pos hb', if_pos hb]
      rfl
    have hb' : ¬ zeroErrno b.val b.errno = true := hb
    rw [if_neg hb', if_neg hb]
    have hend : (t : Int) + 5 + a.len + 1 + b.len =
        ((t + (5 + a.len + 1 + b.len) : Nat) : Int) := by omega
    rw [hend]
    rfl
  · simp only [Bool.eq_false_iff.mpr hhttp, Bool.not_false, if_true]
    rfl

/-- The context with the words of the line that starts at `st`. -/
def Words.write (w : Words) (c : Ctx) (st : Int) (n : Nat) : Ctx :=
  { c with
    firstLine := ⟨st, st + n⟩
    code := w.code.getD c.code
    requestUri := w.uri.or c.requestUri }

theorem parseRequestLine_words_text {w : Words} (hst : p.ctx.firstLine.start = st)
    (hscan : p.inp.scan st = some n) (hw : requestWords (p.inp.mem st) n = w) :
    parseRequestLine p =
      match w.version with
      | none => (.diag .httpParseMessage 1, { p with ctx := w.write p.ctx st n })
      | some off =>
          match parseVersion { p with ctx := w.write p.ctx st n } ((st + off : Nat) : Int) with
          | (.error e, q) => (e, q)
          | (.ok _, q) => (.ok, q.lineDone ((st : Int) + n)) := by
  have hfound : findcrlf (p.inp.mem st) (toInt (p.inp.eod - st)) = some n := hscan
  rw [parseRequestLine]
  simp only [hst, hfound, offset_sub]
  rw [requestWords] at hw
  cases hsz : findsp (p.inp.mem st) (toInt n) with
  | none =>
      simp only [hsz] at hw
      subst hw
      rfl
  | some sz =>
      simp only [hsz] at hw ⊢
      by_cases hcode : parseMethod (p.inp.mem st) sz < 0
      · rw [if_pos hcode] at hw ⊢
        subst hw
        rfl
      rw [if_neg hcode] at hw ⊢
      rw [mem_add]
      cases hk : findnosp ((p.inp.mem st).drop sz) (toInt (n - sz)) with
      | none =>
          simp only [hk] at hw
          subst hw
          rfl
      | some k =>
          simp only [hk] at hw
          simp only [offset_add, offset_sub, mem_add]
          cases hm : findsp ((p.inp.mem st).drop (sz + k)) (toInt (n - (sz + k : Nat))) with
          | none =>
              simp only [hm] at hw
              subst hw
              rfl
          | some m =>
              simp only [hm] at hw
              cases hj : findnosp ((p.inp.mem st).drop (sz + k + m))
                  (toInt (n - (sz + k + m : Nat))) with
              | none =>
                  simp only [hj] at hw ⊢
                  subst hw
                  rfl
              | some j =>
                  simp only [hj] at hw ⊢
                  subst hw
                  rw [← Int.natCast_add]
                  rfl

theorem FirstLine.text_none {l : FirstLine} {M : List UInt8} {n e : Int} {w : Words}
    (hw : l.words M n = w) (hv : w.version = none) :
    l.text M n e = ⟨.diag .httpParseMessage 1, w.code, w.uri, none, none, e⟩ := by
  rw [FirstLine.text, hw, hv]

theorem FirstLine.text_error {l : FirstLine} {M : List UInt8} {n e : Int} {w : Words} {off : Nat}
    {r : Res} (hw : l.words M n = w) (hv : w.version = some off)
    (hr : (versionText (M.drop off) e).res = .error r) :
    l.text M n e = ⟨r, w.code, w.uri, (versionText (M.drop off) e).major,
      (versionText (M.drop off) e).minor, (versionText (M.drop off) e).errno⟩ := by
  rw [FirstLine.text, hw]
  simp only [hv, hr]

theorem FirstLine.text_ok {l : FirstLine} {M : List UInt8} {n e : Int} {w : Words} {off k : Nat}
    (hw : l.words M n = w) (hv : w.version = some off)
    (hr : (versionText (M.drop off) e).res = .ok k) :
    l.text M n e = l.restText (M.drop (off + k)) (n - (off + k : Nat))
      ⟨.ok, w.code, w.uri, (versionText (M.drop off) e).major,
        (versionText (M.drop off) e).minor, (versionText (M.drop off) e).errno⟩ := by
  rw [FirstLine.text, hw]
  simp only [hv, hr]

theorem versionText_error {M : List UInt8} {e : Int} {r : Res}
    (h : (versionText M e).res = .error r) :
    ∃ k, r = .diag .httpParseMessage k ∧ 2 ≤ k ∧ k ≤ 5 := by
  unfold versionText at h
  split at h
  · cases h
    exact ⟨2, rfl, by decide, by decide⟩
  simp only at h
  split at h
  · cases h
    exact ⟨3, rfl, by decide, by decide⟩
  split at h
  · cases h
    exact ⟨4, rfl, by decide, by decide⟩
  split at h
  · cases h
    exact ⟨5, rfl, by decide, by decide⟩
  · cases h

theorem parseRequestLine_text (l : RequestLine) (hst : p.ctx.firstLine.start = st)
    (hscan : p.inp.scan st = some n) :
    parseRequestLine p = ((FirstLine.request l).text (p.inp.mem st) n p.errno).finish p st n := by
  obtain ⟨w, hw⟩ : ∃ w, requestWords (p.inp.mem st) n = w := ⟨_, rfl⟩
  have hw' : (FirstLine.request l).words (p.inp.mem st) n = w := hw
  rw [parseRequestLine_words_text hst hscan hw]
  cases hv : w.version with
  | none =>
      rw [FirstLine.text_none hw' hv]
      rfl
  | some off =>
      have hmem : p.inp.mem ((st + off : Nat) : Int) = (p.inp.mem st).drop off := by
        rw [Int.natCast_add, mem_add]
      simp only [parseVersion_text, hmem]
      cases hr : (versionText ((p.inp.mem st).drop off) p.errno).res with
      | error r =>
          obtain ⟨i, rfl, -⟩ := versionText_error hr
          rw [FirstLine.text_error hw' hv hr]
          rfl
      | ok k =>
          rw [FirstLine.text_ok hw' hv hr]
          rfl

theorem parseStatusLine_text (l : StatusLine) (hst : p.ctx.firstLine.start = st)
    (hscan : p.inp.scan st = some n) :
    parseStatusLine p = ((FirstLine.status l).text (p.inp.mem st) n p.errno).finish p st n := by
  have hfound : findcrlf (p.inp.mem st) (toInt (p.inp.eod - st)) = some n := hscan
  obtain ⟨w, hw⟩ : ∃ w, (FirstLine.status l).words (p.inp.mem st) n = w := ⟨_, rfl⟩
  have hwv : w = ⟨findnosp (p.inp.mem st) (toInt n), none, none⟩ := hw.symm
  rw [parseStatusLine]
  simp only [hst, hfound, offset_sub]
  cases hk : findnosp (p.inp.mem st) (toInt n) with
  | none =>
      rw [hk] at hwv
      rw [FirstLine.text_none hw (by rw [hwv]), hwv]
      rfl
  | some off =>
      rw [hk] at hwv
      have hv : w.version = some off := by rw [hwv]
      have hmem : p.inp.mem ((st + off : Nat) : Int) = (p.inp.mem st).drop off := by
        rw [Int.natCast_add, mem_add]
      have hoff : (st : Int) + off = ((st + off : Nat) : Int) := by omega
      simp only [hoff, parseVersion_text, hmem]
      cases hr : (versionText ((p.inp.mem st).drop off) p.errno).res with
      | error r =>
          obtain ⟨i, rfl, -⟩ := versionText_error hr
          rw [FirstLine.text_error hw hv hr, hwv]
          rfl
      | ok k =>
          have hoff : ((st + off + k : Nat) : Int) = st + ((off + k : Nat) : Int) := by omega
          have hlen : (st : Int) + n - (st + ((off + k : Nat) : Int)) =
              n - ((off + k : Nat) : Int) := by omega
          rw [FirstLine.text_ok hw hv hr, hwv]
          simp only [Except.map, hoff, hlen, mem_add, FirstLine.restText]
          cases hj : findnosp ((p.inp.mem st).drop (off + k))
              (toInt (n - ((off + k : Nat) : Int))) with
          | none => rfl
          | some j =>
              simp only [offset_add, mem_add, number_noteErrno, List.drop_drop]
              generalize (p.inp.mem st).drop (off + k + j) = T
              generalize (versionText ((p.inp.mem st).drop off) p.errno).errno = e
              have hval : toInt (strtol T 10).val = (number T e).val := rfl
              rw [hval]
              generalize number T e = a
              by_cases ha : a.refused = true
              · have ha' : zeroErrno a.val a.errno = true := ha
                simp only [if_pos ha, if_pos ha']
                rfl
              · have ha' : ¬ zeroErrno a.val a.errno = true := ha
                simp only [if_neg ha, if_neg ha']
                rfl

/-- **The parse of a first line whose end is found is the reading of its text.** -/
theorem FirstLine.parse_text (l : FirstLine) (hst : p.ctx.firstLine.start = st)
    (hscan : p.inp.scan st = some n) :
    l.parse p = (l.text (p.inp.mem st) n p.errno).finish p st n := by
  cases l with
  | request l => exact parseRequestLine_text l hst hscan
  | status l => exact parseStatusLine_text l hst hscan

end

/-! ## Where the numbers stand -/

/-- The numbers of a version, by place, as a call with a clean `errno` reads
them. -/
def versionNumbers (M : List UInt8) : List (Nat × Number) :=
  if !strncasecmpEq M (ascii "HTTP/") 5 then []
  else
    let a := number (M.drop 5) 0
    if a.refused = true ∨ (M.drop (5 + a.len)).head? ≠ some 46 then [(5, a)]
    else [(5, a), (5 + a.len + 1, number (M.drop (5 + a.len + 1)) a.errno)]

/-- The numbers behind the version. -/
def FirstLine.restNumbers : FirstLine → List UInt8 → Int → Int → List (Nat × Number)
  | .request _, _, _, _ => []
  | .status _, M, n, e =>
      match findnosp M (toInt n) with
      | none => []
      | some k => [(k, number (M.drop k) e)]

/-- Numbers that are counted from another place. -/
def shift (off : Nat) (xs : List (Nat × Number)) : List (Nat × Number) :=
  xs.map fun x => (off + x.1, x.2)

/-- The numbers of a first line. -/
def FirstLine.numbers (l : FirstLine) (M : List UInt8) (n : Int) : List (Nat × Number) :=
  match (l.words M n).version with
  | none => []
  | some off =>
      let v := versionText (M.drop off) 0
      shift off (versionNumbers (M.drop off)) ++
        match v.res with
        | .error _ => []
        | .ok k => shift (off + k) (l.restNumbers (M.drop (off + k)) (n - (off + k : Nat)) v.errno)

/-! ## What does not depend on what is behind the line -/

section
variable {L T X : List UInt8} {off : Nat}

theorem take_line (h : off ≤ L.length) (hmax : (L.length : Int) ≤ intMax) :
    ((L ++ X).drop off).take (toInt (L.length - off : Int)).toNat = L.drop off := by
  rw [toInt_of_le (by omega) (by omega), List.drop_append_of_le_length h]
  have : ((L.length : Int) - off).toNat = (L.drop off).length := by
    rw [List.length_drop]
    omega
  rw [this, List.take_left]

theorem findsp_line (h : off ≤ L.length) (hmax : (L.length : Int) ≤ intMax) :
    findsp ((L ++ X).drop off) (toInt (L.length - off : Int)) = (L.drop off).findIdx? ISSPACE := by
  unfold findsp
  rw [take_line h hmax]

theorem findnosp_line (h : off ≤ L.length) (hmax : (L.length : Int) ≤ intMax) :
    findnosp ((L ++ X).drop off) (toInt (L.length - off : Int)) =
      (L.drop off).findIdx? fun b => !ISSPACE b := by
  unfold findnosp
  rw [take_line h hmax]

theorem findIdx?_lt {q : UInt8 → Bool} {k : Nat} (h : off ≤ L.length)
    (hk : (L.drop off).findIdx? q = some k) : off + k < L.length := by
  have := (List.findIdx?_eq_some_iff_findIdx_eq.mp hk).1
  rw [List.length_drop] at this
  omega

theorem strncasecmpEq_take (p q : List UInt8) (n : Nat) :
    strncasecmpEq (p.take n) q n = strncasecmpEq p q n := by
  have h : ∀ (p : List UInt8) (n : Nat), (cstr (p.take n)).take n = (cstr p).take n := by
    intro p
    induction p with
    | nil => intro n; simp [cstr]
    | cons b p ih =>
        intro n
        cases n with
        | zero => simp
        | succ n =>
            unfold cstr at ih ⊢
            by_cases hb : (b != NUL) = true
            · simp only [List.take_succ_cons, List.takeWhile_cons, hb, if_true, ih]
            · simp [hb]
  unfold strncasecmpEq
  rw [h]

theorem parseMethod_line {sz : Nat} (h : sz ≤ L.length) :
    parseMethod (L ++ X) sz = parseMethod L sz := by
  have htake : (L ++ X).take sz = L.take sz := List.take_append_of_le_length h
  unfold parseMethod
  simp only [← strncasecmpEq_take (L ++ X) _ sz, htake, strncasecmpEq_take]

theorem requestWords_line (X : List UInt8) (hmax : (L.length : Int) ≤ intMax) :
    requestWords (L ++ X) L.length = requestWords (L ++ []) L.length ∧
      ∀ off, (requestWords (L ++ []) L.length).version = some off → off < L.length := by
  have hsp : ∀ {X : List UInt8}, findsp (L ++ X) (toInt L.length) = L.findIdx? ISSPACE := by
    intro X
    have := findsp_line (X := X) (Nat.zero_le L.length) hmax
    simpa using this
  rw [requestWords, requestWords]
  simp only [hsp]
  cases hsz : L.findIdx? ISSPACE with
  | none => exact ⟨rfl, nofun⟩
  | some sz =>
      have hsz' : (L.drop 0).findIdx? ISSPACE = some sz := hsz
      have hlt : sz < L.length := by simpa using findIdx?_lt (Nat.zero_le _) hsz'
      simp only [parseMethod_line (Nat.le_of_lt hlt), findnosp_line (Nat.le_of_lt hlt) hmax]
      split
      · exact ⟨rfl, nofun⟩
      cases hk : (L.drop sz).findIdx? fun b => !ISSPACE b with
      | none => exact ⟨rfl, nofun⟩
      | some k =>
          have hlt := findIdx?_lt (Nat.le_of_lt hlt) hk
          simp only [findsp_line (Nat.le_of_lt hlt) hmax]
          cases hm : (L.drop (sz + k)).findIdx? ISSPACE with
          | none => exact ⟨rfl, nofun⟩
          | some m =>
              have huri : ∀ X, ((L ++ X).drop (sz + k)).take m = (L.drop (sz + k)).take m := by
                intro X
                have := (List.findIdx?_eq_some_iff_findIdx_eq.mp hm).1
                rw [List.drop_append_of_le_length (Nat.le_of_lt hlt),
                  List.take_append_of_le_length (Nat.le_of_lt this)]
              have hlt := findIdx?_lt (Nat.le_of_lt hlt) hm
              simp only [findnosp_line (Nat.le_of_lt hlt) hmax, huri]
              cases hj : (L.drop (sz + k + m)).findIdx? fun b => !ISSPACE b with
              | none => exact ⟨trivial, nofun⟩
              | some j =>
                  refine ⟨trivial, fun off hoff => ?_⟩
                  cases hoff
                  exact findIdx?_lt (Nat.le_of_lt hlt) hj

theorem FirstLine.words_line (l : FirstLine) (X : List UInt8) (hmax : (L.length : Int) ≤ intMax) :
    l.words (L ++ X) L.length = l.words (L ++ []) L.length ∧
      ∀ off, (l.words (L ++ []) L.length).version = some off → off < L.length := by
  cases l with
  | request l =>
      simp only [FirstLine.words]
      exact requestWords_line X hmax
  | status l =>
      have hnosp : ∀ X, findnosp (L ++ X) (toInt L.length) = L.findIdx? fun b => !ISSPACE b := by
        intro X
        have := findnosp_line (X := X) (Nat.zero_le L.length) hmax
        simpa using this
      simp only [FirstLine.words, statusWords, hnosp]
      refine ⟨trivial, fun off hoff => ?_⟩
      have := findIdx?_lt (L := L) (Nat.zero_le _) (by simpa using hoff)
      omega

/-! ### The version -/

theorem http_in_line (h : strncasecmpEq (T ++ CR :: X) (ascii "HTTP/") 5 = true) :
    5 ≤ T.length := by
  by_contra hlt
  unfold strncasecmpEq at h
  have heq := eq_of_beq h
  have hlen := congrArg List.length heq
  rw [List.length_map, List.length_map, List.length_take] at hlen
  have h5 : ((cstr (ascii "HTTP/")).take 5).length = 5 := by decide
  have hcstr : (cstr (T ++ CR :: X)).take 5 = (T ++ CR :: X).take 5 := by
    have hp : cstr (T ++ CR :: X) <+: T ++ CR :: X := List.takeWhile_prefix _
    rw [List.prefix_iff_eq_take.mp hp, List.take_take, Nat.min_eq_left (by omega)]
  have hmem : CR ∈ (T ++ CR :: X).take 5 := by
    rw [List.take_append, List.mem_append]
    right
    obtain ⟨k, hk⟩ : ∃ k, 5 - T.length = k + 1 := ⟨4 - T.length, by omega⟩
    rw [hk]
    exact List.mem_cons_self
  rw [hcstr] at heq
  have : tolower CR ∈ ((cstr (ascii "HTTP/")).take 5).map tolower :=
    heq ▸ List.mem_map_of_mem hmem
  revert this
  decide

theorem http_line (X : List UInt8) :
    strncasecmpEq (T ++ CR :: LF :: X) (ascii "HTTP/") 5 =
      strncasecmpEq (T ++ CR :: LF :: []) (ascii "HTTP/") 5 := by
  by_cases h : 5 ≤ T.length
  · rw [← strncasecmpEq_take, List.take_append_of_le_length h, ← strncasecmpEq_take (T ++ _),
      List.take_append_of_le_length h]
  · have hno : ∀ Y, strncasecmpEq (T ++ CR :: LF :: Y) (ascii "HTTP/") 5 = false := fun Y =>
      Bool.eq_false_iff.mpr fun hY => h (http_in_line hY)
    rw [hno, hno]

theorem number_line (hT : ∃ b ∈ T, isspace b = false) (X : List UInt8) (e : Int) :
    number (T ++ CR :: LF :: X) e = number (T ++ CR :: LF :: []) e ∧
      (number (T ++ CR :: LF :: []) e).len ≤ T.length := by
  obtain ⟨heq, hlen⟩ := strtol_line hT (by decide : isDigit 10 CR = false)
    (by decide : isDigit 10 CR = false) [LF] (LF :: X)
  refine ⟨?_, hlen⟩
  unfold number
  rw [heq]

theorem Number.refused_clean {M : List UInt8} {e e₀ : Int} (he : e₀ = e ∨ e₀ = 0)
    (h : (number M e).refused = false) : (number M e₀).refused = false := by
  rcases he with rfl | rfl
  · exact h
  have h0 : ∀ v, zeroErrno v 0 = false := fun v => by
    unfold zeroErrno
    cases v == 0 <;> decide
  unfold number Number.refused at *
  simp only at *
  cases herange : (strtol M 10).erange with
  | true =>
      rw [herange] at h
      exact h
  | false => exact h0 _

theorem number_clean {e e₀ : Int} (M : List UInt8) (he : e₀ = e ∨ e₀ = 0) :
    (number M e₀).errno = (number M e).errno ∨ (number M e₀).errno = 0 := by
  unfold number
  simp only
  split
  · exact .inl rfl
  · exact he

theorem mem_versionNumbers_major {M : List UInt8}
    (hhttp : strncasecmpEq M (ascii "HTTP/") 5 = true) :
    (5, number (M.drop 5) 0) ∈ versionNumbers M := by
  unfold versionNumbers
  simp only [hhttp, Bool.not_true, Bool.false_eq_true, if_false]
  split <;> exact List.mem_cons_self

theorem mem_versionNumbers_minor {M : List UInt8} {a : Number}
    (hhttp : strncasecmpEq M (ascii "HTTP/") 5 = true) (ha : number (M.drop 5) 0 = a)
    (hok : a.refused = false) (hdot : (M.drop (5 + a.len)).head? = some 46) :
    (5 + a.len + 1, number (M.drop (5 + a.len + 1)) a.errno) ∈ versionNumbers M := by
  unfold versionNumbers
  simp only [hhttp, ha, hok, hdot, Bool.not_true, Bool.false_eq_true, if_false, ne_eq, not_true,
    or_self]
  exact List.mem_cons_of_mem _ List.mem_cons_self

theorem byte_line {i : Nat} (X : List UInt8) (h : i ≤ T.length) :
    ((T ++ CR :: LF :: X).drop i).head? = ((T ++ CR :: LF :: []).drop i).head? ∧
      (((T ++ CR :: LF :: []).drop i).head? = some 46 → i < T.length) := by
  rw [List.drop_append_of_le_length h, List.drop_append_of_le_length h]
  cases hT : T.drop i with
  | nil => exact ⟨rfl, fun hdot => absurd hdot (by decide)⟩
  | cons b T' =>
      refine ⟨rfl, fun _ => ?_⟩
      have := congrArg List.length hT
      rw [List.length_drop, List.length_cons] at this
      omega

theorem versionText_line (X : List UInt8) (e : Int)
    (h : ∀ x ∈ versionNumbers (T ++ CR :: LF :: []), ∃ b ∈ T.drop x.1, isspace b = false) :
    versionText (T ++ CR :: LF :: X) e = versionText (T ++ CR :: LF :: []) e ∧
      ∀ k, (versionText (T ++ CR :: LF :: []) e).res = .ok k → k ≤ T.length := by
  unfold versionText
  simp only [http_line X]
  by_cases hhttp : strncasecmpEq (T ++ CR :: LF :: []) (ascii "HTTP/") 5 = true
  · have h5 := http_in_line hhttp
    have hmajor := h _ (mem_versionNumbers_major hhttp)
    obtain ⟨hnum, hlen⟩ := number_line hmajor X e
    simp only [← List.drop_append_of_le_length h5] at hnum hlen
    simp only [hhttp, Bool.not_true, Bool.false_eq_true, if_false, hnum]
    have hclean : (number ((T ++ CR :: LF :: []).drop 5) e).refused = false →
        (number ((T ++ CR :: LF :: []).drop 5) 0).refused = false := Number.refused_clean (.inr rfl)
    have hlen0 : (number ((T ++ CR :: LF :: []).drop 5) 0).len =
        (number ((T ++ CR :: LF :: []).drop 5) e).len := rfl
    generalize number ((T ++ CR :: LF :: []).drop 5) e = a at *
    rw [List.length_drop] at hlen
    by_cases ha : a.refused = true
    · rw [if_pos ha, if_pos ha]
      exact ⟨rfl, nofun⟩
    rw [if_neg ha, if_neg ha]
    obtain ⟨hhead, hin⟩ := byte_line X (show 5 + a.len ≤ T.length by omega)
    rw [hhead]
    by_cases hdot : ((T ++ CR :: LF :: []).drop (5 + a.len)).head? = some 46
    · have hlt := hin hdot
      have hminor := h _ (mem_versionNumbers_minor hhttp rfl (hclean (Bool.eq_false_iff.mpr ha))
        (by rw [hlen0]; exact hdot))
      rw [hlen0] at hminor
      obtain ⟨hnum, hlen⟩ := number_line hminor X a.errno
      simp only [← List.drop_append_of_le_length (show 5 + a.len + 1 ≤ T.length by omega)]
        at hnum hlen
      rw [if_neg (not_not_intro hdot), if_neg (not_not_intro hdot), hnum]
      generalize number ((T ++ CR :: LF :: []).drop (5 + a.len + 1)) a.errno = b at *
      rw [List.length_drop] at hlen
      by_cases hb : b.refused = true
      · rw [if_pos hb]
        exact ⟨rfl, nofun⟩
      · rw [if_neg hb]
        refine ⟨rfl, fun k hk => ?_⟩
        cases hk
        omega
    · rw [if_pos hdot, if_pos hdot]
      exact ⟨rfl, nofun⟩
  · simp only [Bool.eq_false_iff.mpr hhttp, Bool.not_false, if_true]
    exact ⟨trivial, nofun⟩

theorem versionText_clean {M : List UInt8} {e : Int} {k : Nat}
    (h : (versionText M e).res = .ok k) : (versionText M 0).res = .ok k := by
  unfold versionText at *
  simp only at *
  split at h
  · cases h
  rename_i hhttp
  rw [if_neg hhttp]
  split at h
  · cases h
  rename_i ha
  rw [if_neg (Bool.eq_false_iff.mp (Number.refused_clean (.inr rfl) (Bool.eq_false_iff.mpr ha)))]
  split at h
  · cases h
  rename_i hdot
  have hlen : (number (M.drop 5) 0).len = (number (M.drop 5) e).len := rfl
  rw [hlen, if_neg hdot]
  split at h
  · cases h
  rename_i hb
  have hb' := Number.refused_clean (number_clean (M.drop 5) (.inr rfl)) (Bool.eq_false_iff.mpr hb)
  rw [if_neg (Bool.eq_false_iff.mp hb')]
  exact h

theorem FirstLine.mem_numbers_version {l : FirstLine} {M : List UInt8} {n : Int}
    {x : Nat × Number} (hv : (l.words M n).version = some off)
    (hx : x ∈ versionNumbers (M.drop off)) : (off + x.1, x.2) ∈ l.numbers M n := by
  rw [FirstLine.numbers, hv]
  exact List.mem_append_left _ (List.mem_map_of_mem hx)

theorem FirstLine.mem_numbers_rest {l : FirstLine} {M : List UInt8} {n : Int} {k : Nat}
    {x : Nat × Number} (hv : (l.words M n).version = some off)
    (hk : (versionText (M.drop off) 0).res = .ok k)
    (hx : x ∈ l.restNumbers (M.drop (off + k)) (n - (off + k : Nat))
      (versionText (M.drop off) 0).errno) : (off + k + x.1, x.2) ∈ l.numbers M n := by
  rw [FirstLine.numbers, hv]
  simp only [hk]
  exact List.mem_append_right _ (List.mem_map_of_mem hx)

/-- **A line whose numbers start in it is read off the line.** -/
theorem FirstLine.text_line (l : FirstLine) (X : List UInt8) (e : Int)
    (hmax : (L.length : Int) ≤ intMax)
    (h : ∀ x ∈ l.numbers (L ++ CR :: LF :: []) L.length, ∃ b ∈ L.drop x.1, isspace b = false) :
    l.text (L ++ CR :: LF :: X) L.length e = l.text (L ++ CR :: LF :: []) L.length e := by
  obtain ⟨hwX, hlt⟩ := l.words_line (CR :: LF :: X) hmax
  obtain ⟨hw, -⟩ := l.words_line (CR :: LF :: []) hmax
  generalize l.words (L ++ []) L.length = w at hwX hw hlt
  cases hv : w.version with
  | none => rw [FirstLine.text_none hwX hv, FirstLine.text_none hw hv]
  | some off =>
      have hle := Nat.le_of_lt (hlt off hv)
      have hv' : (l.words (L ++ CR :: LF :: []) L.length).version = some off := by rw [hw, hv]
      have hdrop : ∀ Z, (L ++ Z).drop off = L.drop off ++ Z := fun Z =>
        List.drop_append_of_le_length hle
      obtain ⟨hver, hk⟩ := versionText_line (T := L.drop off) X e fun x hx => by
        have := h _ (FirstLine.mem_numbers_version hv' (by rw [hdrop]; exact hx))
        rwa [List.drop_drop]
      rw [← hdrop, ← hdrop] at hver
      rw [← hdrop] at hk
      cases hr : (versionText ((L ++ CR :: LF :: []).drop off) e).res with
      | error r =>
          rw [FirstLine.text_error hw hv hr, FirstLine.text_error hwX hv (by rw [hver, hr]), hver]
      | ok k =>
          have hle : off + k ≤ L.length := by
            have := hk k hr
            rw [List.length_drop] at this
            omega
          rw [FirstLine.text_ok hw hv hr, FirstLine.text_ok hwX hv (by rw [hver, hr]), hver]
          cases l with
          | request l => rfl
          | status l =>
              simp only [FirstLine.restText, findnosp_line hle hmax]
              cases hj : (L.drop (off + k)).findIdx? fun b => !ISSPACE b with
              | none => rfl
              | some j =>
                  have hlt := findIdx?_lt hle hj
                  have hnum := h _ (FirstLine.mem_numbers_rest hv' (versionText_clean hr)
                    (x := (j, number (((L ++ CR :: LF :: []).drop (off + k)).drop j) _))
                    (by simp only [FirstLine.restNumbers, findnosp_line hle hmax, hj]
                        exact List.mem_cons_self))
                  simp only [List.drop_drop, List.drop_append_of_le_length (Nat.le_of_lt hlt)]
                  obtain ⟨hnum, -⟩ := number_line hnum X
                    (versionText ((L ++ CR :: LF :: []).drop off) e).errno
                  rw [hnum]

/-! ### A number that starts behind the line -/

/-- Behind white space `strtol` finds what stands behind the CR LF. -/
theorem number_blank (hT : ∀ b ∈ T, isspace b = true) (e : Int) :
    (number (T ++ CR :: LF :: ascii "1 ") e).val = 1 ∧
      (number (T ++ CR :: LF :: ascii "x") e).val = 0 := by
  have hcrlf : ∀ b ∈ [CR, LF], isspace b = true := by decide
  have hspace : ∀ b ∈ T ++ [CR, LF], isspace b = true := fun b hb =>
    (List.mem_append.mp hb).elim (hT b) (hcrlf b)
  have hskip : ∀ X, (strtol (T ++ CR :: LF :: X) 10).val = (strtol X 10).val := fun X => by
    simpa using strtol_space hspace X 10
  unfold number
  simp only [hskip]
  exact ⟨by decide, by decide⟩

theorem FirstLine.restText_major (l : FirstLine) (M : List UInt8) (n : Int) (o : LineOut) :
    (l.restText M n o).major = o.major ∧ (l.restText M n o).minor = o.minor := by
  cases l with
  | request l => exact ⟨rfl, rfl⟩
  | status l =>
      simp only [FirstLine.restText]
      split <;> exact ⟨rfl, rfl⟩

theorem FirstLine.text_version {l : FirstLine} {M : List UInt8} {n e : Int}
    (hv : (l.words M n).version = some off) :
    (l.text M n e).major = (versionText (M.drop off) e).major ∧
      (l.text M n e).minor = (versionText (M.drop off) e).minor := by
  cases hr : (versionText (M.drop off) e).res with
  | error r =>
      rw [FirstLine.text_error rfl hv hr]
      exact ⟨rfl, rfl⟩
  | ok k =>
      rw [FirstLine.text_ok rfl hv hr]
      exact l.restText_major _ _ _

theorem versionText_major {M : List UInt8} (e : Int)
    (hhttp : strncasecmpEq M (ascii "HTTP/") 5 = true) :
    (versionText M e).major = some (number (M.drop 5) e).val := by
  unfold versionText
  simp only [hhttp, Bool.not_true, Bool.false_eq_true, if_false]
  split
  · rfl
  split
  · rfl
  split <;> rfl

theorem versionText_minor {M : List UInt8} {a : Number} {e : Int}
    (hhttp : strncasecmpEq M (ascii "HTTP/") 5 = true) (ha : number (M.drop 5) e = a)
    (hok : a.refused = false) (hdot : (M.drop (5 + a.len)).head? = some 46) :
    (versionText M e).minor = some (number (M.drop (5 + a.len + 1)) a.errno).val := by
  unfold versionText
  simp only [hhttp, ha, hok, hdot, Bool.not_true, Bool.false_eq_true, if_false, ne_eq, not_true]
  split <;> rfl

/-- Two texts behind the line that a number of the version cannot tell apart:
its numbers start in the line. -/
theorem versionNumbers_in
    (hmajor : (versionText (T ++ CR :: LF :: ascii "1 ") 0).major.getD 0 =
      (versionText (T ++ CR :: LF :: ascii "x") 0).major.getD 0)
    (hminor : (versionText (T ++ CR :: LF :: ascii "1 ") 0).minor.getD 0 =
      (versionText (T ++ CR :: LF :: ascii "x") 0).minor.getD 0) :
    ∀ x ∈ versionNumbers (T ++ CR :: LF :: []), ∃ b ∈ T.drop x.1, isspace b = false := by
  have hblank : ∀ {A : List UInt8}, (¬ ∃ b ∈ A, isspace b = false) → ∀ b ∈ A, isspace b = true :=
    fun h b hb => Bool.of_not_eq_false fun hf => h ⟨b, hb, hf⟩
  intro x hx
  by_cases hhttp : strncasecmpEq (T ++ CR :: LF :: []) (ascii "HTTP/") 5 = true
  swap
  · simp only [versionNumbers, Bool.eq_false_iff.mpr hhttp, Bool.not_false, if_true] at hx
    cases hx
  have hhttp' : ∀ X, strncasecmpEq (T ++ CR :: LF :: X) (ascii "HTTP/") 5 = true := fun X => by
    rw [http_line X, hhttp]
  have h5 := http_in_line hhttp
  have hin : ∃ b ∈ T.drop 5, isspace b = false := by
    by_contra hno
    obtain ⟨h1, h0⟩ := number_blank (hblank hno) 0
    simp only [← List.drop_append_of_le_length h5] at h1 h0
    rw [versionText_major 0 (hhttp' _), versionText_major 0 (hhttp' _), h1, h0] at hmajor
    cases hmajor
  obtain ⟨-, hlen⟩ := number_line hin [] 0
  have hnum : ∀ X, number ((T ++ CR :: LF :: X).drop 5) 0 =
      number ((T ++ CR :: LF :: []).drop 5) 0 := fun X => by
    rw [List.drop_append_of_le_length h5, List.drop_append_of_le_length h5]
    exact (number_line hin X 0).1
  rw [← List.drop_append_of_le_length h5] at hlen
  unfold versionNumbers at hx
  simp only [hhttp, Bool.not_true, Bool.false_eq_true, if_false] at hx
  generalize number ((T ++ CR :: LF :: []).drop 5) 0 = a at *
  rw [List.length_drop] at hlen
  split at hx
  · rw [List.mem_singleton.mp hx]
    exact hin
  rename_i hgo
  obtain ⟨hok, hdot⟩ := not_or.mp hgo
  have hdot := not_not.mp hdot
  rcases List.mem_cons.mp hx with rfl | hx
  · exact hin
  rw [List.mem_singleton.mp hx]
  have hlt := (byte_line [] (show 5 + a.len ≤ T.length by omega)).2 hdot
  by_contra hno
  obtain ⟨h1, h0⟩ := number_blank (hblank hno) a.errno
  simp only [← List.drop_append_of_le_length (show 5 + a.len + 1 ≤ T.length by omega)] at h1 h0
  have hdot' : ∀ X, ((T ++ CR :: LF :: X).drop (5 + a.len)).head? = some 46 := fun X => by
    rw [(byte_line X (Nat.le_of_lt hlt)).1, hdot]
  rw [versionText_minor (hhttp' _) (hnum _) (Bool.eq_false_iff.mpr hok) (hdot' _),
    versionText_minor (hhttp' _) (hnum _) (Bool.eq_false_iff.mpr hok) (hdot' _), h1, h0] at hminor
  cases hminor

end

/-! ## First-line confinement -/

/-- The number fields of the line start in it. -/
def FirstLine.NumbersIn (l : FirstLine) (L : List UInt8) : Prop :=
  ∀ x ∈ l.numbers (L ++ [CR, LF]) L.length, ∃ b ∈ L.drop x.1, isspace b = false

instance (l : FirstLine) (L : List UInt8) : Decidable (l.NumbersIn L) :=
  inferInstanceAs (Decidable (∀ x ∈ _, _))

/-- `L` is the first line, its CR LF has arrived and is found. -/
structure LineStands (L : List UInt8) (p : Parser) : Prop where
  start : 0 ≤ p.ctx.firstLine.start
  line : ∃ behind, p.inp.data.drop p.ctx.firstLine.start.toNat = L ++ CR :: LF :: behind
  found : p.inp.scan p.ctx.firstLine.start = some L.length

/-- What a first line leaves in the context. -/
structure LineFields where
  code : Int
  requestUri : Option (List UInt8)
  versionMajor : Int
  versionMinor : Int
deriving DecidableEq, Repr

def Ctx.lineFields (c : Ctx) : LineFields :=
  ⟨c.code, c.requestUri, c.versionMajor, c.versionMinor⟩

section
variable {L : List UInt8} {p : Parser}

theorem LineStands.fits (h : LineStands L p) : (L.length : Int) + 2 ≤ intMax := scan_room h.found

theorem LineStands.start_lt (h : LineStands L p) :
    p.ctx.firstLine.start.toNat < p.inp.data.length := by
  obtain ⟨behind, hline⟩ := h.line
  have := congrArg List.length hline
  rw [List.length_drop, List.length_append, List.length_cons] at this
  omega

theorem LineStands.noCrlf (h : LineStands L p) : NoCrlf L := by
  have hlt := h.start_lt
  obtain ⟨behind, hline⟩ := h.line
  obtain ⟨-, line, behind', heq, hno, hlen⟩ :=
    scan_some h.start (by unfold Stream.eod; omega) h.found
  rw [hline] at heq
  rw [(List.append_inj heq hlen.symm).1]
  exact hno

/-- The parse of the line is the reading of the line and what stands behind it. -/
theorem LineStands.parse (h : LineStands L p) (l : FirstLine) :
    ∃ X, l.parse p = (l.text (L ++ CR :: LF :: X) L.length p.errno).finish p
      p.ctx.firstLine.start L.length := by
  have hlt := h.start_lt
  obtain ⟨st, hst⟩ := Int.eq_ofNat_of_zero_le h.start
  obtain ⟨behind, hline⟩ := h.line
  have hmem : p.inp.mem st = L ++ CR :: LF :: (behind ++ p.inp.slack) := by
    rw [hst, Int.toNat_natCast] at hline hlt
    unfold Stream.mem
    rw [Int.toNat_natCast, List.drop_append_of_le_length (Nat.le_of_lt hlt), hline]
    simp
  refine ⟨behind ++ p.inp.slack, ?_⟩
  rw [← hmem, hst]
  exact l.parse_text hst (hst ▸ h.found)

theorem LineOut.finish_fields (o : LineOut) (p : Parser) (st : Int) (n : Nat) :
    (o.finish p st n).1 = o.res ∧ (o.finish p st n).2.ctx.lineFields =
      ⟨o.code.getD p.ctx.code, o.uri.or p.ctx.requestUri, o.major.getD p.ctx.versionMajor,
        o.minor.getD p.ctx.versionMinor⟩ := by
  unfold LineOut.finish
  simp only
  split <;> exact ⟨trivial, rfl⟩

end

/-- A parser that has received just the line, with `X` in the memory behind it. -/
def lineOnly (L X : List UInt8) : Parser where
  ctx := { httpCtxInit with parserState := .line }
  inp := ⟨L ++ [CR, LF], X, 0⟩
  errno := 0
  calls := []

theorem lineOnly_stands {L : List UInt8} (hno : NoCrlf L) (hfit : (L.length : Int) + 2 ≤ intMax)
    (X : List UInt8) : LineStands L (lineOnly L X) where
  start := Int.le_refl _
  line := ⟨[], rfl⟩
  found := by
    have heod : (lineOnly L X).inp.eod = L.length + 2 := by simp [Stream.eod, lineOnly]
    have hmem : (lineOnly L X).inp.mem 0 = L ++ CR :: LF :: X := by
      simp [Stream.mem, lineOnly]
    show findcrlf ((lineOnly L X).inp.mem 0) (toInt ((lineOnly L X).inp.eod - 0)) = _
    rw [hmem, heod, toInt_of_le (by omega) (by omega), findcrlf, firstCrlf_take hno,
      if_pos (by omega)]

theorem lineOnly_fields {L : List UInt8} (hno : NoCrlf L) (hfit : (L.length : Int) + 2 ≤ intMax)
    (l : FirstLine) (X : List UInt8) :
    (l.parse (lineOnly L X)).2.ctx.lineFields =
      let o := l.text (L ++ CR :: LF :: X) L.length 0
      ⟨o.code.getD 0, o.uri.or none, o.major.getD 0, o.minor.getD 0⟩ := by
  have hmem : (lineOnly L X).inp.mem (0 : Nat) = L ++ CR :: LF :: X := by
    simp [Stream.mem, lineOnly]
  have hstart : (lineOnly L X).ctx.firstLine.start = (0 : Nat) := rfl
  rw [l.parse_text hstart (lineOnly_stands hno hfit X).found, hmem]
  exact (LineOut.finish_fields _ _ _ _).2

/-- Two texts behind the line that the parse of the line cannot tell apart: its
numbers start in the line. -/
theorem FirstLine.numbersIn_of {l : FirstLine} {L : List UInt8}
    (hmax : (L.length : Int) ≤ intMax)
    (hcode : (l.text (L ++ CR :: LF :: ascii "1 ") L.length 0).code.getD 0 =
      (l.text (L ++ CR :: LF :: ascii "x") L.length 0).code.getD 0)
    (hmajor : (l.text (L ++ CR :: LF :: ascii "1 ") L.length 0).major.getD 0 =
      (l.text (L ++ CR :: LF :: ascii "x") L.length 0).major.getD 0)
    (hminor : (l.text (L ++ CR :: LF :: ascii "1 ") L.length 0).minor.getD 0 =
      (l.text (L ++ CR :: LF :: ascii "x") L.length 0).minor.getD 0) : l.NumbersIn L := by
  have hw : ∀ X, l.words (L ++ X) L.length = l.words (L ++ []) L.length := fun X =>
    (l.words_line X hmax).1
  have hlt := (l.words_line [] hmax).2
  generalize l.words (L ++ []) L.length = w at hw hlt
  intro x hx
  rw [FirstLine.numbers, hw] at hx
  cases hv : w.version with
  | none =>
      rw [hv] at hx
      cases hx
  | some off =>
      have hle := Nat.le_of_lt (hlt off hv)
      have hdrop : ∀ Z, (L ++ Z).drop off = L.drop off ++ Z := fun Z =>
        List.drop_append_of_le_length hle
      have hv' : ∀ X, (l.words (L ++ X) L.length).version = some off := fun X => by rw [hw, hv]
      rw [(text_version (hv' _)).1, (text_version (hv' _)).1, hdrop, hdrop] at hmajor
      rw [(text_version (hv' _)).2, (text_version (hv' _)).2, hdrop, hdrop] at hminor
      have hversion := versionNumbers_in hmajor hminor
      simp only [hv, hdrop] at hx
      rcases List.mem_append.mp hx with hx | hx
      · obtain ⟨y, hy, rfl⟩ := List.mem_map.mp hx
        have := hversion y hy
        rwa [List.drop_drop] at this
      -- the status
      have hsame := fun X => (versionText_line (T := L.drop off) X 0 hversion).1
      cases hr : (versionText (L.drop off ++ [CR, LF]) 0).res with
      | error r =>
          rw [hr] at hx
          cases hx
      | ok k =>
          have hle : off + k ≤ L.length := by
            have := (versionText_line (T := L.drop off) [] 0 hversion).2 k hr
            rw [List.length_drop] at this
            omega
          cases l with
          | request l =>
              rw [hr] at hx
              cases hx
          | status l =>
              simp only [hr, FirstLine.restNumbers, findnosp_line hle hmax] at hx
              cases hj : (L.drop (off + k)).findIdx? fun b => !ISSPACE b with
              | none =>
                  rw [hj] at hx
                  cases hx
              | some j =>
                  have hlt := findIdx?_lt hle hj
                  rw [hj] at hx
                  obtain ⟨y, hy, rfl⟩ := List.mem_map.mp hx
                  rw [List.mem_singleton.mp hy]
                  by_contra hno
                  have hread : ∀ X,
                      ((FirstLine.status l).text (L ++ CR :: LF :: X) L.length 0).code =
                      some (number (L.drop (off + k + j) ++ CR :: LF :: X)
                        (versionText (L.drop off ++ [CR, LF]) 0).errno).val := by
                    intro X
                    rw [FirstLine.text_ok (hw _) hv (by rw [hdrop, hsame X]; exact hr), hdrop,
                      hsame X]
                    simp only [FirstLine.restText, findnosp_line hle hmax, hj, List.drop_drop,
                      List.drop_append_of_le_length (Nat.le_of_lt hlt)]
                  obtain ⟨h1, h0⟩ := number_blank (fun b hb => Bool.of_not_eq_false fun hf =>
                    hno ⟨b, hb, hf⟩) (versionText (L.drop off ++ [CR, LF]) 0).errno
                  rw [hread, hread, h1, h0] at hcode
                  cases hcode

/-- **What the parse of a first line returns and leaves in the context is a
matter of the line alone if and only if each of its number fields has a byte
other than white space before the CR LF.**  Whatever stands behind the line,
however much of it has arrived, and whatever the memory behind the received
bytes holds. -/
theorem first_line_confined_iff (l : FirstLine) (L : List UInt8) (hL : ∃ p, LineStands L p) :
    (∀ p p', LineStands L p → LineStands L p' → p.errno = p'.errno →
      p.ctx.lineFields = p'.ctx.lineFields →
      (l.parse p).1 = (l.parse p').1 ∧
        (l.parse p).2.ctx.lineFields = (l.parse p').2.ctx.lineFields) ↔ l.NumbersIn L := by
  obtain ⟨p₀, h₀⟩ := hL
  have hfit := h₀.fits
  have hmax : (L.length : Int) ≤ intMax := by omega
  constructor
  · intro hsame
    have hpair := hsame _ _ (lineOnly_stands h₀.noCrlf hfit (ascii "1 "))
      (lineOnly_stands h₀.noCrlf hfit (ascii "x")) rfl rfl
    have hfields := hpair.2
    rw [lineOnly_fields h₀.noCrlf hfit, lineOnly_fields h₀.noCrlf hfit] at hfields
    simp only [LineFields.mk.injEq] at hfields
    exact FirstLine.numbersIn_of hmax hfields.1 hfields.2.2.1 hfields.2.2.2
  · intro hin p p' hp hp' herrno hfields
    obtain ⟨X, hX⟩ := hp.parse l
    obtain ⟨X', hX'⟩ := hp'.parse l
    rw [hX, hX', l.text_line X _ hmax hin, l.text_line X' _ hmax hin, herrno]
    generalize l.text (L ++ CR :: LF :: []) L.length p'.errno = o
    obtain ⟨h1, h2⟩ := o.finish_fields p p.ctx.firstLine.start L.length
    obtain ⟨h1', h2'⟩ := o.finish_fields p' p'.ctx.firstLine.start L.length
    refine ⟨h1.trans h1'.symm, ?_⟩
    unfold Ctx.lineFields at hfields
    simp only [LineFields.mk.injEq] at hfields
    obtain ⟨hcode, huri, hmajor, hminor⟩ := hfields
    rw [h2, h2', hcode, huri, hmajor, hminor]

theorem first_line_confined_ok :
    (∃ p, LineStands (ascii "HTTP/1.1 200 OK") p) ∧
    ∀ p p', LineStands (ascii "HTTP/1.1 200 OK") p → LineStands (ascii "HTTP/1.1 200 OK") p' →
      p.errno = p'.errno → p.ctx.lineFields = p'.ctx.lineFields →
      (parseStatusLine p).1 = (parseStatusLine p').1 ∧
        (parseStatusLine p).2.ctx.lineFields = (parseStatusLine p').2.ctx.lineFields := by
  have hL : ∃ p, LineStands (ascii "HTTP/1.1 200 OK") p :=
    ⟨_, lineOnly_stands (by decide) (by decide) []⟩
  exact ⟨hL, (first_line_confined_iff (.status .ok) _ hL).mpr (by decide +kernel)⟩

/-- A parser that has received these bytes and is about to parse a first line. -/
def atLine (data : List UInt8) : Parser where
  ctx := { httpCtxInit with parserState := .line }
  inp := ⟨data, [], 0⟩
  errno := 0
  calls := []

/-- **The line `GET / HTTP/` takes its version from the next line**, if that has
arrived and starts with one. -/
theorem version_from_next_line :
    LineStands (ascii "GET / HTTP/") (atLine (ascii "GET / HTTP/\r\n1.1\r\n\r\n")) ∧
    LineStands (ascii "GET / HTTP/") (atLine (ascii "GET / HTTP/\r\nHost: a\r\n\r\n")) ∧
    (parseRequestLine (atLine (ascii "GET / HTTP/\r\n1.1\r\n\r\n"))).1 = .ok ∧
    (parseRequestLine (atLine (ascii "GET / HTTP/\r\nHost: a\r\n\r\n"))).1 =
      .diag .httpParseMessage 4 :=
  ⟨⟨by decide, ⟨_, rfl⟩, by decide +kernel⟩, ⟨by decide, ⟨_, rfl⟩, by decide +kernel⟩,
    by decide +kernel, by decide +kernel⟩

end MnHttp
