/-
# `MnApp.Http.Lines` — the lines of any head, one iteration after the other

Any text is a first line, header lines, and an end: the empty line, or a line
that has not come to its CR LF (`lines_split`).  `LinesAt` says how far the
parser is in them.  `LinesStep` lists what an iteration can do there and
`LinesAt.iteration` says that there is nothing else:

    same      nothing is read, or a line is not complete
    line      the first line is parsed, and `line_cb` is called
    header    a line with a `':'` is given to `process_header` and `header_cb`

or the parser is at the empty line, or the call ends.  Nothing is asked of
the lines, and the reads may cut them anywhere.
-/
import Mathlib.Data.List.TakeWhile
import MnApp.Http.HeaderRanges
import MnApp.Http.ChunkText

namespace MnHttp

open CLib Loop

/-! ## The value of a line -/

/-- The value of a header line. -/
def headerValue (line : List UInt8) : List UInt8 := (behindColon line).dropWhile ISSPACE

theorem headerValue_ne_nil {line : List UInt8} :
    headerValue line ≠ [] ↔ ∃ b ∈ behindColon line, ISSPACE b = false := by
  unfold headerValue
  rw [ne_eq, List.dropWhile_eq_nil_iff]
  simp only [not_forall, Bool.not_eq_true, exists_prop]

section
variable {p : Parser} {st : Nat} {line behind : List UInt8} {c : Nat}

theorem headerLine_mem (nullOff : Int) (hst : p.ctx.currentHeaderName.start = st)
    (hdata : p.inp.data.drop st = line ++ CR :: LF :: behind)
    (hcolon : line.findIdx? (· == COLON) = some c) (hmax : (line.length : Int) ≤ intMax) :
    let r := headerLine nullOff ((st : Int) + line.length) ((st : Int) + (nameOf line).length) p
    (∃ more, r.inp.mem r.ctx.currentHeaderName.start = nameOf line ++ NUL :: more) ∧
      (headerValue line ≠ [] → 0 ≤ r.ctx.currentHeaderValue.start ∧
        ∃ more, r.inp.mem r.ctx.currentHeaderValue.start = headerValue line ++ NUL :: more) ∧
      (headerValue line = [] → r.ctx.currentHeaderValue.start = nullOff) := by
  obtain ⟨hsplit, -⟩ := split_colon hcolon
  have hlen : line.length = (nameOf line).length + 1 + (behindColon line).length := by
    conv_lhs => rw [hsplit]
    simp only [List.length_append, List.length_cons]
    omega
  have hdata' : p.inp.data.drop st =
      nameOf line ++ COLON :: (behindColon line ++ CR :: LF :: behind) := by
    rw [hdata]
    conv_lhs => rw [hsplit]
    simp
  obtain ⟨hd, -, hn, hv⟩ := headerLine_line nullOff hst hdata' (by omega)
  have hcast : (st : Int) + line.length =
      (st : Int) + ((nameOf line).length + 1 + (behindColon line).length) := by omega
  simp only [hcast]
  generalize headerLine nullOff _ _ p = r at hd hn hv
  refine ⟨?_, fun hval => ?_, fun hval => ?_⟩
  · rw [hn, mem_eq_of_drop hd (by simp), List.append_assoc]
    exact ⟨_, rfl⟩
  · rw [if_pos (headerValue_ne_nil.mp hval)] at hv
    have hle : ((behindColon line).takeWhile ISSPACE).length ≤ (behindColon line).length :=
      (List.takeWhile_sublist _).length_le
    have hskip : r.inp.data.drop
        (st + ((nameOf line).length + 1 + ((behindColon line).takeWhile ISSPACE).length)) =
          headerValue line ++ NUL :: LF :: behind := by
      rw [← List.drop_drop, hd, ← List.drop_drop, ← List.drop_drop, List.drop_left, List.drop_one,
        List.tail_cons, List.drop_append_of_le_length hle, drop_takeWhile]
      rfl
    have hmem := mem_eq_of_drop hskip (by simp)
    have hstart : r.ctx.currentHeaderValue.start = ((st + ((nameOf line).length + 1 +
        ((behindColon line).takeWhile ISSPACE).length) : Nat) : Int) := by
      rw [hv]
      simp only
      omega
    rw [hstart, hmem, List.append_assoc]
    exact ⟨by omega, _, rfl⟩
  · rw [if_neg fun h => headerValue_ne_nil.mpr h hval] at hv
    rw [hv]

end

/-! ## The lines of a text -/

/-- How many lines end in the text. -/
def crlfCount : List UInt8 → Nat
  | [] => 0
  | b :: bs => (if b = CR ∧ bs.head? = some LF then 1 else 0) + crlfCount bs

theorem noCrlf_iff_count {l : List UInt8} : NoCrlf l ↔ crlfCount l = 0 := by
  induction l with
  | nil => exact iff_of_true rfl rfl
  | cons b l ih =>
      unfold NoCrlf at ih ⊢
      rw [firstCrlf, crlfCount]
      split
      · simp
      · rw [Option.map_eq_none_iff, ih, Nat.zero_add]

/-- A CR LF does not come about where two texts meet, unless the second starts
with a LF. -/
theorem crlfCount_append {a b : List UInt8} (h : b.head? ≠ some LF) :
    crlfCount (a ++ b) = crlfCount a + crlfCount b := by
  induction a with
  | nil => simp [crlfCount]
  | cons x a ih =>
      have hhead : (a ++ b).head? = some LF ↔ a.head? = some LF := by
        cases a with
        | nil => exact iff_of_false h nofun
        | cons y a => rfl
      rw [List.cons_append, crlfCount, crlfCount, ih, Nat.add_assoc]
      simp only [hhead]

theorem crlfCount_line (a b : List UInt8) :
    crlfCount (a ++ CR :: LF :: b) = crlfCount a + 1 + crlfCount b := by
  have hb : crlfCount (CR :: LF :: b) = 1 + crlfCount b := by simp [crlfCount, CR, LF]
  rw [crlfCount_append (by simp [CR, LF]), hb, Nat.add_assoc]

theorem NoCrlf.append {a b : List UInt8} (ha : NoCrlf a) (hb : NoCrlf b)
    (h : b.head? ≠ some LF) : NoCrlf (a ++ b) := by
  rw [noCrlf_iff_count] at *
  rw [crlfCount_append h, ha, hb]

theorem crlfCount_le_append (a b : List UInt8) :
    crlfCount a + crlfCount b ≤ crlfCount (a ++ b) := by
  induction a with
  | nil => simp [crlfCount]
  | cons x a ih =>
      have hhead : a.head? = some LF → (a ++ b).head? = some LF := by
        cases a with
        | nil => nofun
        | cons y a => exact id
      rw [List.cons_append, crlfCount, crlfCount]
      split
      · rename_i hx
        rw [if_pos ⟨hx.1, hhead hx.2⟩]
        omega
      · omega

theorem NoCrlf.parts {a b : List UInt8} (h : NoCrlf (a ++ b)) : NoCrlf a ∧ NoCrlf b := by
  rw [noCrlf_iff_count] at h ⊢
  rw [noCrlf_iff_count]
  have := crlfCount_le_append a b
  omega

theorem crlfCount_rawLines (ls : List (List UInt8)) (Z : List UInt8) :
    ls.length + crlfCount Z ≤ crlfCount (rawLines ls ++ Z) ∧
      (crlfCount (rawLines ls ++ Z) = ls.length + crlfCount Z ↔ ∀ l ∈ ls, NoCrlf l) := by
  induction ls with
  | nil => simp [rawLines]
  | cons l ls ih =>
      obtain ⟨hle, hiff⟩ := ih
      have hcons : rawLines (l :: ls) ++ Z = l ++ CR :: LF :: (rawLines ls ++ Z) := by
        simp [rawLines, crlf]
      rw [hcons, crlfCount_line, List.length_cons, List.forall_mem_cons, ← hiff, noCrlf_iff_count]
      omega

theorem rawLines_unique : ∀ {a b : List (List UInt8)} {X Y : List UInt8}, a.length = b.length →
    (∀ l ∈ a, NoCrlf l) → (∀ l ∈ b, NoCrlf l) → rawLines a ++ X = rawLines b ++ Y → a = b := by
  intro a
  induction a with
  | nil =>
      intro b X Y hlen _ _ _
      exact (List.length_eq_zero_iff.mp hlen.symm).symm
  | cons l a ih =>
      intro b X Y hlen ha hb h
      cases b with
      | nil => cases hlen
      | cons l' b =>
          have hsplit : l ++ CR :: LF :: (rawLines a ++ X) =
              l' ++ CR :: LF :: (rawLines b ++ Y) := by
            simpa [rawLines, crlf] using h
          obtain ⟨rfl, hrest⟩ :=
            line_unique (ha l List.mem_cons_self) (hb l' List.mem_cons_self) hsplit
          rw [ih (Nat.succ.inj hlen) (fun x hx => ha x (List.mem_cons_of_mem _ hx))
            (fun x hx => hb x (List.mem_cons_of_mem _ hx)) hrest]

/-- What stands behind the header lines: the empty line, or a line that has
not come to its end. -/
inductive HeadEnd (Z : List UInt8) : Prop
  | blank (Y : List UInt8) (eq : Z = CR :: LF :: Y)
  | short (none : firstCrlf Z = none)

/-- Any text is lines, up to an empty one or to one that has no end. -/
theorem lines_split : ∀ (n : Nat) (text : List UInt8), text.length ≤ n →
    ∃ (ls : List (List UInt8)) (Z : List UInt8), text = rawLines ls ++ Z ∧
      (∀ l ∈ ls, NoCrlf l ∧ l ≠ []) ∧ HeadEnd Z := by
  intro n
  induction n with
  | zero =>
      intro text h
      rw [List.length_eq_zero_iff.mp (Nat.le_zero.mp h)]
      exact ⟨[], [], rfl, fun _ h => absurd h List.not_mem_nil, .short rfl⟩
  | succ n ih =>
      intro text h
      cases hfirst : firstCrlf text with
      | none => exact ⟨[], text, rfl, fun _ h => absurd h List.not_mem_nil, .short hfirst⟩
      | some m =>
          obtain ⟨rest, heq, hlen, hno⟩ := firstCrlf_eq_some hfirst
          generalize text.take m = line at heq hlen hno
          subst heq
          by_cases hline : line = []
          · subst hline
            exact ⟨[], _, rfl, fun _ h => absurd h List.not_mem_nil, .blank rest rfl⟩
          · simp only [List.length_append, List.length_cons] at h
            obtain ⟨ls, Z, rfl, hok, hend⟩ := ih rest (by omega)
            refine ⟨line :: ls, Z, by simp [rawLines, crlf], fun l hl => ?_, hend⟩
            rcases List.mem_cons.mp hl with rfl | hl
            · exact ⟨hno, hline⟩
            · exact hok l hl

theorem rawHead_split (line rest : List UInt8) :
    ∃ (H : RawHead) (Z : List UInt8), line ++ CR :: LF :: rest = H.bytes ++ Z ∧ HeadEnd Z := by
  generalize htext : line ++ CR :: LF :: rest = text
  cases hfirst : firstCrlf text with
  | none =>
      have hcount := noCrlf_iff_count.mp hfirst
      rw [← htext, crlfCount_line] at hcount
      omega
  | some m =>
      obtain ⟨rest', heq, -, hno⟩ := firstCrlf_eq_some hfirst
      generalize text.take m = first at heq hno
      obtain ⟨ls, Z, rfl, hok, hend⟩ := lines_split _ rest' (Nat.le_refl _)
      exact ⟨⟨first, ls, hno, hok⟩, Z, by simp [heq, RawHead.bytes, crlf], hend⟩

section
variable {Z : List UInt8} {reads : List Read}

theorem HeadEnd.line {ls : List (List UInt8)} {line rest : List UInt8} (h : HeadEnd Z)
    (hls : ∀ l ∈ ls, NoCrlf l ∧ l ≠ []) (hl : NoCrlf line)
    (heq : rawLines ls ++ Z = line ++ CR :: LF :: rest) :
    (line = [] ∧ ls = [] ∧ Z = CR :: LF :: rest) ∨
      ∃ ls', ls = line :: ls' ∧ rest = rawLines ls' ++ Z := by
  cases ls with
  | nil =>
      have hZ : Z = line ++ CR :: LF :: rest := heq
      cases h with
      | blank Y eq =>
          obtain ⟨rfl, -⟩ := line_unique (l := []) rfl hl (eq.symm.trans hZ)
          exact .inl ⟨rfl, rfl, hZ⟩
      | short hnone =>
          rw [hZ, firstCrlf_line hl] at hnone
          cases hnone
  | cons ln ls =>
      have hsplit : ln ++ CR :: LF :: (rawLines ls ++ Z) = line ++ CR :: LF :: rest := by
        rw [← heq]
        simp [rawLines, crlf]
      obtain ⟨rfl, hrest⟩ := line_unique (hls ln List.mem_cons_self).1 hl hsplit
      exact .inr ⟨ls, rfl, hrest.symm⟩

theorem stream_next {s s' : Stream} {st : Nat} {line rest : List UInt8}
    (h : (s.data ++ pending reads).drop st = line ++ CR :: LF :: rest)
    (hle : (st : Int) + line.length + 2 ≤ s.eod) (heod : s'.eod = s.eod)
    (hdrop : s'.data.drop (st + line.length + 2) = s.data.drop (st + line.length + 2)) :
    (s'.data ++ pending reads).drop (st + line.length + 2) = rest := by
  unfold Stream.eod at *
  rw [List.drop_append_of_le_length (by omega), hdrop, ← List.drop_append_of_le_length (by omega),
    Nat.add_assoc, ← List.drop_drop, h, ← List.drop_drop, List.drop_left]
  rfl

end

/-! ## How far the parser is -/

/-- How far in the head the parser is: in its first line (`none`), or behind
the header lines `seen`.  What is left of the head ends at `b`. -/
inductive LinesAt (H : RawHead) (Z : List UInt8) (b : Nat) (p : Parser) (reads : List Read) :
    Option (List (List UInt8)) → Prop
  | first (st : Nat)
      (state : p.ctx.parserState = .start ∧ p.inp.pos = st ∨
        p.ctx.parserState = .line ∧ p.ctx.firstLine.start = st)
      (le : (st : Int) ≤ p.inp.eod + 2)
      (stream : (p.inp.data ++ pending reads).drop st = H.bytes ++ Z)
      (place : st + H.bytes.length = b) : LinesAt H Z b p reads none
  | field (st : Nat) (seen ls : List (List UInt8)) (split : H.lines = seen ++ ls)
      (state : p.ctx.parserState = .headerFieldIn ∧ p.inp.pos = st ∨
        p.ctx.parserState = .headerFieldOut ∧ p.ctx.currentHeaderName.start = st)
      (le : (st : Int) ≤ p.inp.eod)
      (stream : (p.inp.data ++ pending reads).drop st = rawLines ls ++ Z)
      (place : st + (rawLines ls).length = b) : LinesAt H Z b p reads (some seen)

/-- The parser is at a complete header line, which starts at `st`. -/
structure LineNow (st : Nat) (line behind : List UInt8) (p : Parser) : Prop where
  start : p.ctx.currentHeaderName.start = st
  data : p.inp.data.drop st = line ++ CR :: LF :: behind
  colon : ∃ c, line.findIdx? (· == COLON) = some c
  fits : (line.length : Int) ≤ intMax

/-- The parser that `process_header` is given then. -/
def atHeader (nullOff : Int) (st : Nat) (line : List UInt8) (p : Parser) : Parser :=
  headerLine nullOff ((st : Int) + line.length) ((st : Int) + (nameOf line).length) p

/-- What an iteration does in the head when the loop goes round again. -/
inductive LinesStep (pf : Platform) (l : FirstLine) (cbs : Callbacks) (p q : Parser) :
    Option (List (List UInt8)) → Option (List (List UInt8)) → Prop
  | same (k : Option (List (List UInt8))) (calls : q.calls = p.calls)
      (framing : q.ctx.framing = p.ctx.framing) : LinesStep pf l cbs p q k k
  | line (r : Parser) (parsed : l.parse p = (.ok, r)) (eq : q = (r.callback .line cbs.line).2) :
      LinesStep pf l cbs p q none (some [])
  | header (seen : List (List UInt8)) (st : Nat) (line behind : List UInt8) (y : Parser)
      (now : LineNow st line behind p)
      (processed : processHeader (atHeader pf.nullOff st line p) = (.needMore, y))
      (calls : q.calls = (y.callback .header cbs.header).2.calls)
      (framing : q.ctx.framing = y.ctx.framing) :
      LinesStep pf l cbs p q (some seen) (some (seen ++ [line]))

/-- What can end the call there: not a 0, and a crash only in `process_header`. -/
structure LinesRet (pf : Platform) (H : RawHead) (p : Parser) (r : Res) : Prop where
  not_ok : r ≠ .ok
  crash : r = .crash → ∃ st line behind, line ∈ H.lines ∧ LineNow st line behind p ∧
    (processHeader (atHeader pf.nullOff st line p)).1 = .crash

/-- The parser is at the empty line. -/
structure BlankAt (Z : List UInt8) (b : Nat) (p : Parser) : Prop where
  state : p.ctx.parserState = .headerFieldOut
  start : p.ctx.currentHeaderName.start = b
  found : p.inp.scan b = some 0
  blank : ∃ Y, Z = CR :: LF :: Y

section
variable {pf : Platform} {l : FirstLine} {cbs : Callbacks} {H : RawHead} {Z : List UInt8}
variable {b : Nat} {p q : Parser} {reads : List Read} {k : Option (List (List UInt8))}

theorem LinesAt.consume {bs slack : List UInt8}
    (h : LinesAt H Z b p (.bytes bs slack :: reads) k) :
    LinesAt H Z b { p with inp := p.inp.consume bs slack } reads k := by
  have heod : (p.inp.consume bs slack).eod = p.inp.eod + bs.length := Stream.eod_consume _ _ _
  have hdata : (p.inp.consume bs slack).data ++ pending reads =
      p.inp.data ++ pending (.bytes bs slack :: reads) := by simp [Read.payload]
  cases h with
  | first st state le stream place =>
      exact .first st state (by simp only [heod]; omega) (by rw [hdata]; exact stream) place
  | field st seen ls split state le stream place =>
      exact .field st seen ls split state (by simp only [heod]; omega)
        (by rw [hdata]; exact stream) place

theorem parse_ne_crash (l : FirstLine) (p : Parser) : (l.parse p).1 ≠ .crash := by
  have hversion : ∀ {p q : Parser} {t : Int} {e : Except Res Int},
      parseVersion p t = (e, q) → e ≠ .error .crash := by
    intro p q t e h
    unfold parseVersion at h
    simp only at h
    repeat' split at h
    all_goals (cases h; simp)
  cases l with
  | request _ =>
      show (parseRequestLine p).1 ≠ _
      unfold parseRequestLine
      simp only
      repeat' split
      all_goals first
        | (intro h; cases h; done)
        | (rename_i heq; intro h; cases h; exact hversion heq rfl)
  | status _ =>
      show (parseStatusLine p).1 ≠ _
      unfold parseStatusLine
      simp only
      repeat' split
      all_goals first
        | (intro h; cases h; done)
        | (rename_i heq; intro h; cases h; exact hversion heq rfl)

theorem LinesAt.line {st : Nat} (state : p.ctx.parserState = .line)
    (start : p.ctx.firstLine.start = st) (le : (st : Int) ≤ p.inp.eod + 2)
    (stream : (p.inp.data ++ pending reads).drop st = H.bytes ++ Z)
    (place : st + H.bytes.length = b) :
    (∀ q, dispatch pf l.parse cbs p = .again q →
      ∃ k', LinesAt H Z b q reads k' ∧ LinesStep pf l cbs p q none k') ∧
      ∀ r q, dispatch pf l.parse cbs p = .ret r q → LinesRet pf H p r := by
  have hframe := l.parse_frame p
  have hcrash := parse_ne_crash l p
  unfold dispatch
  simp only [state]
  split
  · -- not complete yet
    rename_i r heq
    rw [heq] at hframe
    obtain ⟨hr, -⟩ := hframe.wait rfl
    refine ⟨?_, fun _ _ h => (by cases h)⟩
    rintro q hq
    cases hq
    rw [show r = p.toEod from hr]
    exact ⟨none, .first st (.inr ⟨state, start⟩) le stream place, .same none rfl rfl⟩
  · rename_i r heq
    rw [heq] at hframe
    obtain ⟨n, hfound, hstate, hpos⟩ := hframe.ok rfl
    simp only at hstate hpos
    obtain ⟨hctx, hinp⟩ := callback_frame (p := r) .line cbs.line
    split
    · refine ⟨fun _ h => (by cases h), ?_⟩
      rintro e q hq
      cases hq
      exact ⟨nofun, nofun⟩
    · refine ⟨?_, fun _ _ h => (by cases h)⟩
      rintro q hq
      cases hq
      have hstream : (p.inp.data ++ pending reads).drop st =
          H.first ++ CR :: LF :: (rawLines H.lines ++ Z) := by
        rw [stream]
        simp [RawHead.bytes, crlf]
      have hdata : r.inp.data = p.inp.data := hframe.data
      have heod : r.inp.eod = p.inp.eod := by unfold Stream.eod; rw [hdata]
      rw [start] at hfound hpos
      obtain ⟨hn, hcomplete⟩ := findcrlf_some H.first_ok hstream le hfound
      refine ⟨some [], .field (st + H.first.length + 2) [] H.lines rfl (.inl ⟨?_, ?_⟩) ?_ ?_ ?_,
        .line r heq rfl⟩
      · rw [hctx]
        exact hstate
      · rw [hinp, hpos, hn]
        omega
      · rw [hinp, heod]
        omega
      · rw [hinp]
        exact stream_next hstream hcomplete heod (by rw [hdata])
      · simp only [RawHead.bytes, List.length_append, crlf, List.length_cons,
          List.length_nil] at place
        omega
  · rename_i e r hok heq
    refine ⟨fun _ h => (by cases h), ?_⟩
    rintro e' q hq
    cases hq
    rw [heq] at hcrash
    exact ⟨hok, fun h => absurd h hcrash⟩

theorem LinesAt.header {st : Nat} {seen ls : List (List UInt8)} (hend : HeadEnd Z)
    (split : H.lines = seen ++ ls) (state : p.ctx.parserState = .headerFieldOut)
    (start : p.ctx.currentHeaderName.start = st) (le : (st : Int) ≤ p.inp.eod)
    (stream : (p.inp.data ++ pending reads).drop st = rawLines ls ++ Z)
    (place : st + (rawLines ls).length = b)
    {line : List UInt8} {x : Parser} (hcall : headerCall pf p = some (line, x)) :
    (∀ q, dispatch pf l.parse cbs p = .again q →
      ∃ k', LinesAt H Z b q reads k' ∧ LinesStep pf l cbs p q (some seen) k') ∧
      ∀ r q, dispatch pf l.parse cbs p = .ret r q → LinesRet pf H p r := by
  obtain ⟨behind, c, hdata, hno, hcolon, hmax, hx⟩ := headerCall_line start (by omega) hcall
  have hlen := length_of_drop hdata (by simp)
  simp only [List.length_append, List.length_cons] at hlen
  have hcomplete : (st : Int) + line.length + 2 ≤ p.inp.eod := by unfold Stream.eod; omega
  have hstream : (p.inp.data ++ pending reads).drop st =
      line ++ CR :: LF :: (behind ++ pending reads) := by
    rw [List.drop_append_of_le_length (by omega), hdata]
    simp
  -- the line is the next one of the head
  obtain ⟨hnil, -⟩ | ⟨ls', rfl, hrest⟩ := hend.line
      (fun l hl => H.lines_ok l (by rw [split]; exact List.mem_append_right _ hl)) hno
      (stream.symm.trans hstream)
  · rw [hnil] at hcolon
    cases hcolon
  have hmem : line ∈ H.lines := by rw [split]; exact List.mem_append_right _ List.mem_cons_self
  have hnow : LineNow st line behind p := ⟨start, hdata, ⟨c, hcolon⟩, hmax⟩
  obtain ⟨n, hfound, hdisp⟩ := dispatch_headerCall l.parse cbs state hcall
  rw [start] at hfound hdisp
  obtain ⟨hn, -⟩ := findcrlf_some hno hstream (by omega) hfound
  obtain ⟨hinp, -, -, hok⟩ := processHeader_frame x
  obtain ⟨e, y, hproc⟩ : ∃ e y, processHeader x = (e, y) := ⟨_, _, rfl⟩
  have hproc' : processHeader (atHeader pf.nullOff st line p) = (e, y) := by
    rw [← hproc, hx]
    rfl
  rw [hproc] at hinp hok
  simp only [hproc] at hdisp
  by_cases he : e = .needMore
  · subst he
    simp only at hdisp hinp
    obtain ⟨hctx, hcb⟩ := callback_frame (p := y) .header cbs.header
    rw [hdisp]
    split
    · refine ⟨fun _ h => (by cases h), ?_⟩
      rintro r q hq
      cases hq
      exact ⟨nofun, nofun⟩
    refine ⟨?_, fun _ _ h => (by cases h)⟩
    rintro q hq
    cases hq
    have heod : y.inp.eod = p.inp.eod := by rw [hinp, hx]; simp [headerLine]
    have hcast : ((st + line.length + 2 : Nat) : Int) = (st : Int) + (n + 1) + 2 := by omega
    refine ⟨some (seen ++ [line]), .field (st + line.length + 2) (seen ++ [line]) ls'
      (by rw [split]; simp) (.inl ⟨rfl, ?_⟩) ?_ ?_ ?_,
      .header seen st line behind y hnow hproc' rfl ?_⟩
    · rw [hcast]
      simp only [Stream.pos_advance]
      omega
    · rw [Stream.eod_advance, hcb, heod]
      omega
    · rw [Stream.data_advance, hcb, ← hrest]
      refine stream_next hstream hcomplete heod ?_
      rw [hinp, hx]
      have hclt := (List.findIdx?_eq_some_iff_getElem.mp hcolon).1
      have hname := (split_colon hcolon).2
      exact headerLine_behind pf.nullOff p (by omega) (by omega)
    · simp only [rawLines, List.flatMap_cons, List.length_append, crlf, List.length_cons,
        List.length_nil] at place ⊢
      omega
    · show (y.callback .header cbs.header).2.ctx.framing = _
      rw [hctx]
  · have hdisp' : dispatch pf l.parse cbs p = .ret e y := by
      rw [hdisp]
      cases e <;> first | rfl | exact absurd rfl he
    rw [hdisp']
    refine ⟨fun _ h => (by cases h), ?_⟩
    rintro r q hq
    cases hq
    exact ⟨hok, fun hcrash => ⟨st, line, behind, hmem, hnow, by rw [hproc']; exact hcrash⟩⟩

theorem LinesAt.blank (h : LinesAt H Z b p reads k) (hend : HeadEnd Z)
    (state : p.ctx.parserState = .headerFieldOut)
    (found : p.inp.scan p.ctx.currentHeaderName.start = some 0) :
    k = some H.lines ∧ BlankAt Z b p := by
  cases h with
  | first _ state' =>
      rcases state' with ⟨state', -⟩ | ⟨state', -⟩ <;> cases state.symm.trans state'
  | field st seen ls split state' le stream place =>
      obtain ⟨state', -⟩ | ⟨-, start⟩ := state'
      · cases state.symm.trans state'
      rw [start] at found
      obtain ⟨hcomplete, line, behind, hdata, hno, hlen⟩ := scan_some (by omega) (by omega) found
      rw [Int.toNat_natCast] at hdata
      unfold Stream.eod at hcomplete
      have hstream : (p.inp.data ++ pending reads).drop st =
          line ++ CR :: LF :: (behind ++ pending reads) := by
        rw [List.drop_append_of_le_length (by omega), hdata]
        simp
      obtain ⟨-, rfl, hZ⟩ | ⟨ls', rfl, -⟩ := hend.line
        (fun l hl => H.lines_ok l (by rw [split]; exact List.mem_append_right _ hl)) hno
        (stream.symm.trans hstream)
      · rw [List.append_nil] at split
        have hb : st = b := place
        subst hb
        exact ⟨by rw [split], state, start, found, ⟨_, hZ⟩⟩
      · have hne := (H.lines_ok line (by rw [split]; simp)).2
        exact absurd (List.length_eq_zero_iff.mp hlen) hne

variable (pf l cbs) in
/-- **One iteration in the head.** -/
theorem LinesAt.iteration (h : LinesAt H Z b p reads k) (hend : HeadEnd Z) :
    (k = some H.lines ∧ BlankAt Z b p) ∨
      (∀ q, dispatch pf l.parse cbs p = .again q →
        ∃ k', LinesAt H Z b q reads k' ∧ LinesStep pf l cbs p q k k') ∧
      ∀ r q, dispatch pf l.parse cbs p = .ret r q → LinesRet pf H p r := by
  cases h with
  | first st state le stream place =>
      right
      obtain ⟨state, pos⟩ | ⟨state, start⟩ := state
      · unfold dispatch
        simp only [state]
        refine ⟨?_, fun _ _ h => (by cases h)⟩
        rintro q hq
        cases hq
        exact ⟨none, .first st (.inr ⟨rfl, pos⟩) le stream place, .same none rfl rfl⟩
      · exact LinesAt.line state start le stream place
  | field st seen ls split state le stream place =>
      obtain ⟨state, pos⟩ | ⟨state, start⟩ := state
      · right
        unfold dispatch
        simp only [state]
        refine ⟨?_, fun _ _ h => (by cases h)⟩
        rintro q hq
        cases hq
        exact ⟨some seen, .field st seen ls split (.inr ⟨rfl, pos⟩) le stream place,
          .same _ rfl rfl⟩
      cases hscan : p.inp.scan p.ctx.currentHeaderName.start with
      | none =>
          right
          have hdisp : dispatch pf l.parse cbs p = .again p.toEod := by
            unfold Stream.scan at hscan
            unfold dispatch headerFieldOut
            simp only [state, hscan]
          rw [hdisp]
          refine ⟨?_, fun _ _ h => (by cases h)⟩
          rintro q hq
          cases hq
          exact ⟨some seen, .field st seen ls split (.inr ⟨state, start⟩) le stream place,
            .same _ rfl rfl⟩
      | some n =>
          cases n with
          | zero =>
              have hat : LinesAt H Z b p reads (some seen) :=
                .field st seen ls split (.inr ⟨state, start⟩) le stream place
              exact .inl (hat.blank hend state hscan)
          | succ n =>
              right
              cases hcall : headerCall pf p with
              | some x =>
                  exact LinesAt.header hend split state start le stream place hcall
              | none =>
                  have hcolon : ((p.inp.mem p.ctx.currentHeaderName.start).take
                      (n + 1)).findIdx? (· == COLON) = none := by
                    unfold headerCall at hcall
                    simp only [hscan] at hcall
                    exact Option.map_eq_none_iff.mp hcall
                  unfold Stream.scan at hscan
                  unfold dispatch headerFieldOut
                  simp only [state, hscan, hcolon]
                  refine ⟨fun _ h => (by cases h), ?_⟩
                  rintro r q hq
                  cases hq
                  exact ⟨nofun, nofun⟩

theorem LinesAt.state_ne (h : LinesAt H Z b p reads k) : p.ctx.parserState ≠ .body := by
  cases h with
  | first _ state | field _ _ _ _ state =>
      rcases state with ⟨state, -⟩ | ⟨state, -⟩ <;> (rw [state]; nofun)

/-- **The rule for the head of a call that returns 0.**  What every step in the
head keeps holds when the empty line is complete, and the call goes on from
there. -/
theorem LinesAt.run {J : Parser → Option (List (List UInt8)) → Prop} {t : LoopState}
    {reads' : List Read}
    (hread : ∀ p bs slack k, J p k → J { p with inp := p.inp.consume bs slack } k)
    (hstep : ∀ p q k k', J p k → LinesStep pf l cbs p q k k' → J q k') (hend : HeadEnd Z)
    (hat : LinesAt H Z b t.par t.reads k) (hJ : J t.par k)
    (hret : Returns (loopStep pf l.parse cbs) t (.returned .ok q reads')) :
    ∃ p reads, BlankAt Z b p ∧ J p (some H.lines) ∧
      Returns (loopStep pf l.parse cbs) ⟨.dispatch, p, reads⟩ (.returned .ok q reads') := by
  have hkeep : ∀ t t' : LoopState, (∃ k, LinesAt H Z b t.par t.reads k ∧ J t.par k) →
      ¬ (t.pc = .dispatch ∧ BlankAt Z b t.par) → loopStep pf l.parse cbs t = .again t' →
      ∃ k, LinesAt H Z b t'.par t'.reads k ∧ J t'.par k := by
    rintro t t' ⟨k, hat, hJ⟩ hnot hs
    cases loopStep_again_iff.mp hs with
    | read => exact ⟨k, hat.consume, hread _ _ _ _ hJ⟩
    | look => exact ⟨k, hat, hJ⟩
    | pass hd =>
        rcases hat.iteration pf l cbs hend with ⟨-, hblank⟩ | ⟨hagain, -⟩
        · exact absurd ⟨rfl, hblank⟩ hnot
        · obtain ⟨k', hat', hs'⟩ := hagain _ hd
          exact ⟨k', hat', hstep _ _ _ _ hJ hs'⟩
  rcases hret.until hkeep ⟨k, hat, hJ⟩ with ⟨⟨pc, p, reads⟩, ⟨k, hat, hJ⟩, ⟨rfl, hblank⟩, hrun⟩ |
    ⟨t, ⟨k, hat, -⟩, hnot, hdone⟩
  · have hfound : p.inp.scan p.ctx.currentHeaderName.start = some 0 := by
      rw [hblank.start]
      exact hblank.found
    obtain ⟨rfl, -⟩ := hat.blank hend hblank.state hfound
    exact ⟨p, reads, hblank, hJ, hrun⟩
  · generalize hres : Res.ok = r at hdone
    cases loopStep_done_iff.mp hdone with
    | fail => split at hres <;> cases hres
    | ret hd =>
        rcases hat.iteration pf l cbs hend with ⟨-, hblank⟩ | ⟨-, hno⟩
        · exact absurd ⟨rfl, hblank⟩ hnot
        · exact absurd hres.symm (hno _ _ hd).not_ok

/-- **The rule for the states of a run in the head.**  What every step in the head
keeps, with where it is made, holds as long as the run has not come into the body. -/
theorem LinesAt.reaches_at {J : Parser → Option (List (List UInt8)) → Prop} {t t' : LoopState}
    (hread : ∀ p bs slack k, J p k → J { p with inp := p.inp.consume bs slack } k)
    (hstep : ∀ p q reads k k', LinesAt H Z b p reads k → dispatch pf l.parse cbs p = .again q →
      J p k → LinesStep pf l cbs p q k k' → J q k') (hend : HeadEnd Z)
    (hat : LinesAt H Z b t.par t.reads k) (hJ : J t.par k)
    (h : Reaches (loopStep pf l.parse cbs) t t') :
    t'.par.ctx.parserState = .body ∨
      ∃ k, LinesAt H Z b t'.par t'.reads k ∧ J t'.par k := by
  refine h.invariant (I := fun t => t.par.ctx.parserState = .body ∨
    ∃ k, LinesAt H Z b t.par t.reads k ∧ J t.par k) ?_ (.inr ⟨k, hat, hJ⟩)
  intro t t' ht hs
  cases loopStep_again_iff.mp hs with
  | read =>
      rcases ht with ht | ⟨k, hat, hJ⟩
      · exact .inl ht
      · exact .inr ⟨k, hat.consume, hread _ _ _ _ hJ⟩
  | look => exact ht
  | pass hd =>
      rcases ht with ht | ⟨k, hat, hJ⟩
      · rw [dispatch_body ht] at hd
        exact .inl (bodyIter_state hd)
      · rcases hat.iteration pf l cbs hend with ⟨rfl, hblank⟩ | ⟨hagain, -⟩
        · left
          have hstart := hblank.start
          cases dispatch_again hd with
          | blank _ _ state' => exact state'
          | fieldWait _ none =>
              rw [hstart, hblank.found] at none
              cases none
          | header _ _ found =>
              rw [hstart, hblank.found] at found
              cases found
          | start s' | lineWait s' | line _ s' | fieldIn s' | bodyIn s' | body s' =>
              cases hblank.state.symm.trans s'
        · obtain ⟨k', hat', hs'⟩ := hagain _ hd
          exact .inr ⟨k', hat', hstep _ _ _ _ _ hat hd hJ hs'⟩

/-- The rule for what is kept wherever the step is made. -/
theorem LinesAt.reaches {J : Parser → Option (List (List UInt8)) → Prop} {t t' : LoopState}
    (hread : ∀ p bs slack k, J p k → J { p with inp := p.inp.consume bs slack } k)
    (hstep : ∀ p q k k', J p k → LinesStep pf l cbs p q k k' → J q k') (hend : HeadEnd Z)
    (hat : LinesAt H Z b t.par t.reads k) (hJ : J t.par k)
    (h : Reaches (loopStep pf l.parse cbs) t t') :
    t'.par.ctx.parserState = .body ∨
      ∃ k, LinesAt H Z b t'.par t'.reads k ∧ J t'.par k :=
  LinesAt.reaches_at hread (fun p q _ k k' _ _ => hstep p q k k') hend hat hJ h

end

end MnHttp
