/-
# `MnApp.Http.FirstLine` — a complete first line is read as it was written

`parse_request_line` and `parse_status_line` on a well-formed line whose CR
LF has arrived.  Both walk the line with pointers; here each pointer is the
start of the line plus what was skipped, and `mem_add` says what stands
there.
-/
import MnApp.Http.Scan
import MnApp.Http.Message

namespace MnHttp

open CLib

/-- The number the parser gives a method. -/
def Method.code : Method → Int
  | .get => MGET
  | .head => MHEAD
  | .post => MPOST
  | .put => MPUT
  | .delete => MDELETE
  | .options => MOPTIONS
  | .connect => MCONNECT
  | .trace => MTRACE

/-- The function that parses a first line of this kind. -/
def FirstLine.parse : FirstLine → Parser → Res × Parser
  | .request _ => parseRequestLine
  | .status _ => parseStatusLine

def FirstLine.code : FirstLine → Int
  | .request l => l.method.code
  | .status l => ofDigits 10 l.status

def FirstLine.uri : FirstLine → Option (List UInt8) → Option (List UInt8)
  | .request l, _ => some l.uri
  | .status _, u => u

/-- The context after a first line that starts at `st`. -/
def FirstLine.apply (l : FirstLine) (c : Ctx) (st : Int) : Ctx :=
  { c with
    firstLine := ⟨st, st + l.bytes.length⟩
    versionMajor := 1
    versionMinor := 1
    code := l.code
    requestUri := l.uri c.requestUri
    parserState := .headerFieldIn }

/-! ## Pointers -/

theorem mem_add (s : Stream) (st k : Nat) : s.mem ((st : Int) + k) = (s.mem st).drop k := by
  unfold Stream.mem
  rw [List.drop_drop]
  congr 1

theorem mem_skip {s : Stream} {st : Nat} {a b : List UInt8} (h : s.mem st = a ++ b) :
    s.mem ((st + a.length : Nat) : Int) = b := by
  have := mem_add s st a.length
  rw [h, List.drop_left] at this
  simpa using this

theorem findsp_eq {a rest : List UInt8} {b : UInt8} {n : Int}
    (ha : ∀ x ∈ a, x ≠ SP ∧ x ≠ TAB) (hb : ISSPACE b = true) (hn : (a.length : Int) < n) :
    findsp (a ++ b :: rest) n = some a.length := by
  unfold findsp
  refine findIdx?_stop rest (fun x hx => ?_) hb (by omega)
  obtain ⟨h1, h2⟩ := ha x hx
  simp [ISSPACE, h1, h2]

theorem findnosp_eq {a rest : List UInt8} {b : UInt8} {n : Int}
    (ha : ∀ x ∈ a, ISSPACE x = true) (hb : ISSPACE b = false) (hn : (a.length : Int) < n) :
    findnosp (a ++ b :: rest) n = some a.length := by
  unfold findnosp
  exact findIdx?_stop rest (fun x hx => by simp [ha x hx]) (by simp [hb]) (by omega)

/-! ## Method and version -/

theorem parseMethod_token (l : RequestLine) (rest : List UInt8) :
    parseMethod (l.token ++ rest) l.token.length = l.method.code := by
  have hn : ∀ x ∈ l.token, x ≠ NUL := fun x hx => (l.token_clean x hx).1
  have hlen : l.token.length = l.method.text.length := by
    simpa using congrArg List.length l.token_ok
  unfold parseMethod
  simp only [strncasecmpEq_token hn]
  rw [l.token_ok, hlen]
  cases l.method <;> decide

theorem parseVersion_eq {p : Parser} {t : Nat} {b : UInt8} {r : List UInt8}
    (h : p.inp.mem t = ascii "HTTP/1.1" ++ b :: r) (hb : isDigit 10 b = false)
    (hx : tolower b ≠ 120) :
    parseVersion p t = (.ok ((t + 8 : Nat) : Int),
      { p with ctx := { p.ctx with versionMajor := 1, versionMinor := 1 } }) := by
  have h5 : p.inp.mem ((t : Int) + 5) = ascii "1" ++ 46 :: (ascii "1" ++ b :: r) := by
    have := mem_add p.inp t 5
    rw [h] at this
    exact this
  have h6 : p.inp.mem ((t : Int) + 5 + (1 : Nat)) = 46 :: (ascii "1" ++ b :: r) := by
    have := mem_add p.inp t 6
    rw [h] at this
    exact this
  have h7 : p.inp.mem ((t : Int) + 5 + (1 : Nat) + 1) = ascii "1" ++ b :: r := by
    have := mem_add p.inp t 7
    rw [h] at this
    exact this
  have hh : strncasecmpEq (p.inp.mem t) (ascii "HTTP/") 5 = true := by
    rw [h]
    have : ascii "HTTP/1.1" ++ b :: r = ascii "HTTP/" ++ (ascii "1.1" ++ b :: r) := rfl
    rw [this, show (5 : Nat) = (ascii "HTTP/").length from rfl, strncasecmpEq_token (by decide)]
    decide
  have hmajor : strtol (ascii "1" ++ 46 :: (ascii "1" ++ b :: r)) 10 = ⟨1, 1, false⟩ :=
    strtol_digits _ (by decide) (by decide) (by decide) (by decide) (by decide)
  have hminor : strtol (ascii "1" ++ b :: r) 10 = ⟨1, 1, false⟩ :=
    strtol_digits _ (by decide) (by decide) hb hx (by decide)
  have h1 : toInt 1 = 1 := rfl
  have hz : ((1 : Int) == 0) = false := rfl
  have hend : ((t + 8 : Nat) : Int) = (t : Int) + 5 + (1 : Nat) + 1 + (1 : Nat) := by omega
  simp only [parseVersion, hh, Bool.not_true, Bool.false_eq_true, if_false, h5, hmajor,
    Parser.noteErrno, h6, h7, hminor, zeroErrno, h1, hz, Bool.false_and, List.head?_cons,
    ne_eq, not_true, hend]

/-! ## The two lines -/

theorem isDigit_not_ISSPACE {base : Nat} {b : UInt8} (h : isDigit base b = true) :
    ISSPACE b = false := by
  have := isDigit_range h
  have h1 : b ≠ SP := by rintro rfl; simp [SP] at this
  have h2 : b ≠ TAB := by rintro rfl; simp [TAB] at this
  simp [ISSPACE, h1, h2]

section
variable {p : Parser} {st : Nat} {behind : List UInt8}

/-- A method of some length is never taken for none. -/
theorem parseMethod_nonneg (s : List UInt8) {sz : Nat} (h : sz ≠ 0) : 0 ≤ parseMethod s sz := by
  unfold parseMethod
  rw [if_neg h]
  repeat' split
  all_goals decide

/-- The words of a request line, with `gap + 1` blanks before the second. -/
def requestBytes (token : List UInt8) (gap : Nat) (uri : List UInt8) : List UInt8 :=
  token ++ (List.replicate (gap + 1) SP ++ (uri ++ SP :: ascii "HTTP/1.1"))

theorem parseRequestLine_words {token uri : List UInt8} (gap : Nat) (htoken : token ≠ [])
    (htoken_ok : ∀ x ∈ token, x ≠ SP ∧ x ≠ TAB) (huri : uri ≠ [])
    (huri_ok : ∀ x ∈ uri, x ≠ SP ∧ x ≠ TAB) (hst : p.ctx.firstLine.start = st)
    (hfound : findcrlf (p.inp.mem st) (toInt (p.inp.eod - st)) =
      some (requestBytes token gap uri).length)
    (hmem : p.inp.mem st = requestBytes token gap uri ++ CR :: LF :: behind)
    (hfit : ((requestBytes token gap uri).length : Int) ≤ intMax) :
    parseRequestLine p = (.ok, { p with
      ctx := { p.ctx with
        firstLine := ⟨st, st + (requestBytes token gap uri).length⟩
        versionMajor := 1
        versionMinor := 1
        code := parseMethod (p.inp.mem st) token.length
        requestUri := some uri
        parserState := .headerFieldIn }
      inp := p.inp.advance
        ((st : Int) + (requestBytes token gap uri).length - p.inp.pos + 2) }) := by
  generalize hn : (requestBytes token gap uri).length = n at hfound hfit ⊢
  have hlen : n = token.length + (gap + 1) + uri.length + 9 := by
    rw [← hn]
    simp only [requestBytes, List.length_append, List.length_replicate, List.length_cons]
    have : (ascii "HTTP/1.1").length = 8 := rfl
    omega
  have htpos : 0 < token.length := List.length_pos_iff.mpr htoken
  have hupos : 0 < uri.length := List.length_pos_iff.mpr huri
  -- what stands at each pointer
  have m0 : p.inp.mem st = token ++ (List.replicate (gap + 1) SP ++
      (uri ++ SP :: (ascii "HTTP/1.1" ++ CR :: LF :: behind))) := by
    rw [hmem]; simp [requestBytes]
  have m1 := mem_skip m0
  have m2 := mem_skip m1
  have m3 := mem_skip m2
  have m4 : p.inp.mem ((st + token.length + (List.replicate (gap + 1) SP).length +
      uri.length + 1 : Nat) : Int) = ascii "HTTP/1.1" ++ CR :: LF :: behind :=
    mem_skip (a := [SP]) m3
  rw [List.length_replicate] at m2 m3 m4
  -- what each scan finds
  have f0 : findsp (p.inp.mem st) (toInt ((st : Int) + n - st)) = some token.length := by
    rw [toInt_of_le (by omega) (by omega), m0, List.replicate_succ, List.cons_append]
    exact findsp_eq htoken_ok rfl (by omega)
  have f1 : findnosp (p.inp.mem ((st + token.length : Nat) : Int))
      (toInt ((st : Int) + n - st - token.length)) = some (gap + 1) := by
    obtain ⟨u, us, hu⟩ := List.exists_cons_of_ne_nil huri
    have hsp : ISSPACE u = false := by
      obtain ⟨h1, h2⟩ := huri_ok u (by rw [hu]; exact List.mem_cons_self)
      simp [ISSPACE, h1, h2]
    rw [toInt_of_le (by omega) (by omega), m1, hu, List.cons_append, findnosp_eq _ hsp]
    · rw [List.length_replicate]
    · rw [List.length_replicate]; omega
    · intro x hx
      rw [List.eq_of_mem_replicate hx]
      rfl
  have f2 : findsp (p.inp.mem ((st + token.length + (gap + 1) : Nat) : Int))
      (toInt ((st : Int) + n - st -
        (((st + token.length + (gap + 1) : Nat) : Int) - st))) = some uri.length := by
    rw [toInt_of_le (by omega) (by omega), m2]
    exact findsp_eq huri_ok rfl (by omega)
  have f3 : findnosp (p.inp.mem ((st + token.length + (gap + 1) + uri.length : Nat) : Int))
      (toInt ((st : Int) + n - st -
        (((st + token.length + (gap + 1) + uri.length : Nat) : Int) - st))) = some 1 := by
    rw [toInt_of_le (by omega) (by omega), m3]
    exact findnosp_eq (a := [SP]) (by decide) (by decide) (by simp; omega)
  have hcode : ¬ parseMethod (p.inp.mem st) token.length < 0 :=
    Int.not_lt.mpr (parseMethod_nonneg _ (by omega))
  have c1 : (st : Int) + token.length = ((st + token.length : Nat) : Int) := by omega
  have c2 : ((st + token.length : Nat) : Int) + ((gap + 1 : Nat) : Int) =
      ((st + token.length + (gap + 1) : Nat) : Int) := by omega
  have c3 : ((st + token.length + (gap + 1) : Nat) : Int) + uri.length =
      ((st + token.length + (gap + 1) + uri.length : Nat) : Int) := by omega
  have c4 : ((st + token.length + (gap + 1) + uri.length : Nat) : Int) + ((1 : Nat) : Int) =
      ((st + token.length + (gap + 1) + uri.length + 1 : Nat) : Int) := by omega
  have hu : (p.inp.mem ((st + token.length + (gap + 1) : Nat) : Int)).take uri.length = uri := by
    rw [m2, List.take_left]
  unfold parseRequestLine
  simp only [hst, hfound, f0, if_neg hcode, c1, f1, c2, f2, c3, hu, f3, c4]
  rw [parseVersion_eq (b := CR) (r := LF :: behind) ?_ (by decide) (by decide)]
  · rfl
  · exact m4

theorem parseRequestLine_complete (l : RequestLine) (hst : p.ctx.firstLine.start = st)
    (hfound : findcrlf (p.inp.mem st) (toInt (p.inp.eod - st)) = some l.bytes.length)
    (hmem : p.inp.mem st = l.bytes ++ CR :: LF :: behind)
    (hfit : (l.bytes.length : Int) ≤ intMax) :
    parseRequestLine p = (.ok, { p with
      ctx := (FirstLine.request l).apply p.ctx st
      inp := p.inp.advance ((st : Int) + l.bytes.length - p.inp.pos + 2) }) := by
  have htoken : l.token ≠ [] := by
    have hlen := congrArg List.length l.token_ok
    rw [List.length_map, List.length_map] at hlen
    intro h
    rw [h] at hlen
    cases hm : l.method <;> rw [hm] at hlen <;> exact absurd hlen (by decide)
  have hmethod : parseMethod (p.inp.mem st) l.token.length = l.method.code := by
    rw [hmem, show l.bytes = l.token ++ _ from rfl, List.append_assoc]
    exact parseMethod_token l _
  rw [parseRequestLine_words l.gap htoken
    (fun x hx => ⟨(l.token_clean x hx).2.2.2.2, (l.token_clean x hx).2.1⟩) l.uri_ne
    (fun x hx => ⟨(l.uri_ok x hx).1, (l.uri_ok x hx).2.1⟩) hst hfound hmem hfit, hmethod]
  rfl

theorem parseStatusLine_complete (l : StatusLine) (hst : p.ctx.firstLine.start = st)
    (hfound : findcrlf (p.inp.mem st) (toInt (p.inp.eod - st)) = some l.bytes.length)
    (hmem : p.inp.mem st = l.bytes ++ CR :: LF :: behind)
    (hfit : (l.bytes.length : Int) ≤ intMax) :
    parseStatusLine p = (.ok, { p with
      ctx := (FirstLine.status l).apply p.ctx st
      inp := p.inp.advance ((st : Int) + l.bytes.length - p.inp.pos + 2) }) := by
  have hlen : l.bytes.length = 8 + 1 + l.status.length + 1 + l.reason.length := by
    simp only [StatusLine.bytes, List.length_append, List.length_cons]
    have : (ascii "HTTP/1.1").length = 8 := rfl
    omega
  have hstatus : 0 < l.status.length := List.length_pos_iff.mpr l.status_ne
  have m0 : p.inp.mem st = ascii "HTTP/1.1" ++
      SP :: (l.status ++ SP :: (l.reason ++ CR :: LF :: behind)) := by
    rw [hmem]; simp [StatusLine.bytes]
  have m1 : p.inp.mem ((st + 8 : Nat) : Int) =
      SP :: (l.status ++ SP :: (l.reason ++ CR :: LF :: behind)) := mem_skip m0
  have m2 : p.inp.mem ((st + 8 + 1 : Nat) : Int) =
      l.status ++ SP :: (l.reason ++ CR :: LF :: behind) := mem_skip (a := [SP]) m1
  have f0 : findnosp (p.inp.mem st) (toInt ((st : Int) + l.bytes.length - st)) = some 0 := by
    rw [toInt_of_le (by omega) (by omega), m0]
    exact findnosp_eq (a := []) (by simp) (by decide) (by simp; omega)
  have f1 : findnosp (p.inp.mem ((st + 8 : Nat) : Int))
      (toInt ((st : Int) + l.bytes.length - ((st + 8 : Nat) : Int))) = some 1 := by
    obtain ⟨d, ds, hd⟩ := List.exists_cons_of_ne_nil l.status_ne
    have hdig := l.status_digits d (by rw [hd]; exact List.mem_cons_self)
    rw [toInt_of_le (by omega) (by omega), m1, hd]
    exact findnosp_eq (a := [SP]) (by decide) (isDigit_not_ISSPACE hdig) (by simp; omega)
  have c1 : ((st + 8 : Nat) : Int) + ((1 : Nat) : Int) = ((st + 8 + 1 : Nat) : Int) := by omega
  have hnum : strtol (p.inp.mem ((st + 8 + 1 : Nat) : Int)) 10 =
      ⟨ofDigits 10 l.status, l.status.length, false⟩ := by
    rw [m2]
    have hmax := l.status_max
    refine strtol_digits _ l.status_ne l.status_digits (by decide) (by decide) ?_
    unfold intMax longMax at *
    omega
  have hcode : toInt (ofDigits 10 l.status : Int) = ofDigits 10 l.status :=
    toInt_of_le (by omega) l.status_max
  have hpos : ((ofDigits 10 l.status : Int) == 0) = false := by
    have := l.status_pos
    simp only [beq_eq_false_iff_ne]
    omega
  unfold parseStatusLine
  simp only [hst, hfound, f0, Int.natCast_zero, Int.add_zero]
  rw [parseVersion_eq (b := SP) (r := l.status ++ SP :: (l.reason ++ CR :: LF :: behind))
    ?_ (by decide) (by decide)]
  · simp only [f1, c1, hnum, hcode, Parser.noteErrno, zeroErrno, hpos, Bool.false_and,
      Bool.false_eq_true, if_false]
    rfl
  · exact m0

theorem FirstLine.parse_complete (l : FirstLine) (hst : p.ctx.firstLine.start = st)
    (hfound : findcrlf (p.inp.mem st) (toInt (p.inp.eod - st)) = some l.bytes.length)
    (hmem : p.inp.mem st = l.bytes ++ CR :: LF :: behind)
    (hfit : (l.bytes.length : Int) ≤ intMax) :
    l.parse p = (.ok, { p with
      ctx := l.apply p.ctx st
      inp := p.inp.advance ((st : Int) + l.bytes.length - p.inp.pos + 2) }) := by
  cases l with
  | request l => exact parseRequestLine_complete l hst hfound hmem hfit
  | status l => exact parseStatusLine_complete l hst hfound hmem hfit

theorem FirstLine.parse_wait (l : FirstLine) (hst : p.ctx.firstLine.start = st)
    (hnone : findcrlf (p.inp.mem st) (toInt (p.inp.eod - st)) = none) :
    l.parse p = (.needMore, p.toEod) := by
  cases l with
  | request l => simp only [FirstLine.parse, parseRequestLine, hst, hnone]
  | status l => simp only [FirstLine.parse, parseStatusLine, hst, hnone]

end

end MnHttp
