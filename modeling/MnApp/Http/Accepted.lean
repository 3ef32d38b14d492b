/-
# `MnApp.Http.Accepted` — whatever the parser accepts is a message

A call of `http_parse_request` or `http_parse_response` has returned 0.  Nothing
else is known: not the bytes, not how they came, not what the callbacks do.  The
stream, from where the call found it, is then

| the text                              | what was told                         |
| ------------------------------------- | ------------------------------------- |
| a first line                          | one `line_cb`, with its words         |
|                                       | (`LineTold`)                          |
| header lines, a `':'` in each         | one `header_cb` for each, in order    |
|                                       | (`FieldCall`)                         |
| an empty line                         |                                       |
| as many bytes as the last             | one `body_cb`, for just these bytes   |
| `Content-Length` says                 | (`BodyTold.sized`)                    |
| or pieces, each a size line and data  | one `body_cb` for the data of each    |
| of that size, up to an empty one      | (`BodyTold.chunked`)                  |

and the stream is left just behind it.  Two flaws of the source are in the
statement, since they are in what it accepts: a read that ended inside the empty
line costs the first byte of the body, and a negative `Content-Length` gives a
body that ends before it starts (`BodyTold.negative`).

**How.**  `head_comes` is the run up to the empty line; what was told on the way
is an invariant of it (`Told`); from there on the text is read to its end, by
`blank_decodes` if it is chunked and by `plain_sound` if it is not.
-/
import MnApp.Http.ChunkedFraming
import MnApp.Http.HeadCalls
import MnApp.Http.LineText

namespace MnHttp

open CLib Loop

/-! ## The words of a first line -/

/-- Nothing but blanks. -/
def AllBlank (bs : List UInt8) : Prop := ∀ b ∈ bs, ISSPACE b = true

/-- No blank. -/
def NoBlank (bs : List UInt8) : Prop := ∀ b ∈ bs, ISSPACE b = false

/-- A request line, taken apart.  The method may be empty. -/
structure RequestText (line method uri version : List UInt8) : Prop where
  parts : ∃ gap gap', line = method ++ (gap ++ (uri ++ (gap' ++ version))) ∧
    gap ≠ [] ∧ AllBlank gap ∧ gap' ≠ [] ∧ AllBlank gap'
  method : NoBlank method
  uri : NoBlank uri ∧ uri ≠ []
  http : strncasecmpEq version (ascii "HTTP/") 5 = true

/-- What `line_cb` is told of the words in front of the numbers. -/
def WordsTold : FirstLine → List UInt8 → Ctx → Prop
  | .request _, line, c => ∃ method uri version, RequestText line method uri version ∧
      c.code = parseMethod method method.length ∧ c.requestUri = some uri
  | .status _, line, _ => ∃ gap version, line = gap ++ version ∧ AllBlank gap ∧
      strncasecmpEq version (ascii "HTTP/") 5 = true

/-- The call of `line_cb` for a line: its range, its words, and the numbers that
`strtol` reads from the line on. -/
structure LineTold (l : FirstLine) (line : List UInt8) (c : Call) : Prop where
  kind : c.kind = .line
  range : Addresses c.inp c.ctx.firstLine line
  words : WordsTold l line c.ctx
  numbers : ∃ behind e, let o := l.text (line ++ CR :: LF :: behind) line.length e
    o.res = .ok ∧ o.major = some c.ctx.versionMajor ∧ o.minor = some c.ctx.versionMinor ∧
      o.code = some c.ctx.code

section
variable {L X : List UInt8} {k off : Nat}

theorem findIdx?_cut {q : UInt8 → Bool} (h : L.findIdx? q = some k) :
    (∀ y ∈ L.take k, q y = false) ∧ ∃ x r, L.drop k = x :: r ∧ q x = true := by
  obtain ⟨hlt, hx, hno⟩ := List.findIdx?_eq_some_iff_getElem.mp h
  refine ⟨fun y hy => ?_, L[k], L.drop (k + 1), (List.getElem_cons_drop ..).symm, hx⟩
  obtain ⟨i, hi, rfl⟩ := List.mem_iff_getElem.mp hy
  rw [List.length_take] at hi
  rw [List.getElem_take]
  exact Bool.eq_false_iff.mpr (hno i (by omega))

theorem take_ne_nil {q : UInt8 → Bool} {x : UInt8} {r : List UInt8} (hx : q x = false)
    (hL : L = x :: r) (h : L.findIdx? q = some k) : L.take k ≠ [] := by
  subst hL
  cases k with
  | zero =>
      obtain ⟨-, y, r', heq, hy⟩ := findIdx?_cut h
      cases heq
      cases hx.symm.trans hy
  | succ k => simp

theorem requestWords_cuts {w : Words} (hmax : (L.length : Int) ≤ intMax)
    (hw : requestWords (L ++ X) L.length = w) (h : w.version = some off) :
    ∃ sz k m j, L.findIdx? ISSPACE = some sz ∧
      ((L.drop sz).findIdx? fun b => !ISSPACE b) = some k ∧
      (L.drop (sz + k)).findIdx? ISSPACE = some m ∧
      ((L.drop (sz + k + m)).findIdx? fun b => !ISSPACE b) = some j ∧
      off = sz + k + m + j ∧ w.code = some (parseMethod L sz) ∧
      w.uri = some ((L.drop (sz + k)).take m) := by
  have hsp : findsp (L ++ X) (toInt L.length) = L.findIdx? ISSPACE := by
    have := findsp_line (X := X) (Nat.zero_le L.length) hmax
    simpa using this
  rw [requestWords] at hw
  simp only [hsp] at hw
  cases hsz : L.findIdx? ISSPACE with
  | none =>
      simp only [hsz] at hw
      subst hw
      cases h
  | some sz =>
      have hlt₁ : sz < L.length := by
        simpa using findIdx?_lt (L := L) (Nat.zero_le _) (by simpa using hsz)
      simp only [hsz, parseMethod_line (Nat.le_of_lt hlt₁), findnosp_line (Nat.le_of_lt hlt₁) hmax]
        at hw
      split at hw
      · subst hw
        cases h
      cases hk : (L.drop sz).findIdx? fun b => !ISSPACE b with
      | none =>
          simp only [hk] at hw
          subst hw
          cases h
      | some k =>
          have hlt₂ := findIdx?_lt (Nat.le_of_lt hlt₁) hk
          simp only [hk, findsp_line (Nat.le_of_lt hlt₂) hmax] at hw
          cases hm : (L.drop (sz + k)).findIdx? ISSPACE with
          | none =>
              simp only [hm] at hw
              subst hw
              cases h
          | some m =>
              have hlt₃ := findIdx?_lt (Nat.le_of_lt hlt₂) hm
              have huri : ((L ++ X).drop (sz + k)).take m = (L.drop (sz + k)).take m := by
                rw [List.drop_append_of_le_length (Nat.le_of_lt hlt₂),
                  List.take_append_of_le_length (by rw [List.length_drop]; omega)]
              simp only [hm, huri, findnosp_line (Nat.le_of_lt hlt₃) hmax] at hw
              cases hj : (L.drop (sz + k + m)).findIdx? fun b => !ISSPACE b with
              | none =>
                  simp only [hj] at hw
                  subst hw
                  cases h
              | some j =>
                  simp only [hj] at hw
                  subst hw
                  cases h
                  exact ⟨sz, k, m, j, rfl, hk, hm, hj, rfl, rfl, rfl⟩

theorem requestWords_text {w : Words} (hmax : (L.length : Int) ≤ intMax)
    (hw : requestWords (L ++ X) L.length = w) (h : w.version = some off) :
    ∃ method gap uri gap', L = method ++ (gap ++ (uri ++ (gap' ++ L.drop off))) ∧
      NoBlank method ∧ (gap ≠ [] ∧ AllBlank gap) ∧ (uri ≠ [] ∧ NoBlank uri) ∧
      (gap' ≠ [] ∧ AllBlank gap') ∧ w.code = some (parseMethod method method.length) ∧
      w.uri = some uri := by
  obtain ⟨sz, k, m, j, hsz, hk, hm, hj, rfl, hcode, huri⟩ := requestWords_cuts hmax hw h
  -- a word that is cut off ends where the next one begins, so none of the four is empty
  obtain ⟨hmethod, x₁, r₁, hx₁, hsp₁⟩ := findIdx?_cut hsz
  obtain ⟨hgap, x₂, r₂, hx₂, hsp₂⟩ := findIdx?_cut hk
  obtain ⟨hword, x₃, r₃, hx₃, hsp₃⟩ := findIdx?_cut hm
  obtain ⟨hgap', -⟩ := findIdx?_cut hj
  rw [List.drop_drop] at hx₂ hx₃
  refine ⟨L.take sz, (L.drop sz).take k, (L.drop (sz + k)).take m, (L.drop (sz + k + m)).take j,
    ?_, hmethod, ⟨take_ne_nil (by simp [hsp₁]) hx₁ hk, fun b hb => by simpa using hgap b hb⟩,
    ⟨take_ne_nil (by simpa using hsp₂) hx₂ hm, hword⟩,
    ⟨take_ne_nil (by simp [hsp₃]) hx₃ hj, fun b hb => by simpa using hgap' b hb⟩, ?_, huri⟩
  · have hcut : ∀ i n, (L.drop i).take n ++ L.drop (i + n) = L.drop i := by
      intro i n
      rw [← List.drop_drop, List.take_append_drop]
    rw [hcut, hcut, hcut, List.take_append_drop]
  · have hlt : sz < L.length := by
      simpa using findIdx?_lt (L := L) (Nat.zero_le _) (by simpa using hsz)
    have hlen : (L.take sz).length = sz := List.length_take_of_le (Nat.le_of_lt hlt)
    have hline := parseMethod_line (X := L.drop sz) (Nat.le_of_eq hlen.symm)
    rw [List.take_append_drop] at hline
    rw [hcode, hlen, hline]

end

theorem http_of_line {T X : List UInt8}
    (h : strncasecmpEq (T ++ CR :: X) (ascii "HTTP/") 5 = true) :
    strncasecmpEq T (ascii "HTTP/") 5 = true := by
  have hlen := http_in_line h
  rw [← strncasecmpEq_take, List.take_append_of_le_length hlen, strncasecmpEq_take] at h
  exact h

theorem versionText_ok {M : List UInt8} {e : Int} {k : Nat} (h : (versionText M e).res = .ok k) :
    strncasecmpEq M (ascii "HTTP/") 5 = true ∧ (∃ v, (versionText M e).major = some v) ∧
      ∃ v, (versionText M e).minor = some v := by
  unfold versionText at h ⊢
  split at h
  · cases h
  rename_i hhttp
  rw [if_neg hhttp]
  simp only at h ⊢
  split at h
  · cases h
  rename_i hmajor
  rw [if_neg hmajor]
  split at h
  · cases h
  rename_i hdot
  rw [if_neg hdot]
  split at h
  · cases h
  rename_i hminor
  rw [if_neg hminor]
  exact ⟨by simpa using hhttp, ⟨_, rfl⟩, _, rfl⟩

/-- **A first line that is accepted has its words**, and they are written to the
context with the numbers. -/
theorem text_told {l : FirstLine} {L X : List UInt8} {e : Int} {o : LineOut}
    (hmax : (L.length : Int) ≤ intMax) (ho : l.text (L ++ CR :: LF :: X) L.length e = o)
    (hok : o.res = .ok) (c : Ctx) :
    WordsTold l L (o.write c) ∧ o.major = some (o.write c).versionMajor ∧
      o.minor = some (o.write c).versionMinor ∧ o.code = some (o.write c).code := by
  obtain ⟨w, hw⟩ : ∃ w, l.words (L ++ CR :: LF :: X) L.length = w := ⟨_, rfl⟩
  have hoff := (l.words_line (CR :: LF :: X) hmax).2
  rw [← (l.words_line (CR :: LF :: X) hmax).1, hw] at hoff
  cases hv : w.version with
  | none =>
      rw [FirstLine.text_none hw hv] at ho
      subst ho
      cases hok
  | some off =>
      have hle : off ≤ L.length := Nat.le_of_lt (hoff off hv)
      have hdrop : (L ++ CR :: LF :: X).drop off = L.drop off ++ CR :: LF :: X :=
        List.drop_append_of_le_length hle
      cases hr : (versionText ((L ++ CR :: LF :: X).drop off) e).res with
      | error r =>
          rw [FirstLine.text_error hw hv hr] at ho
          subst ho
          obtain ⟨n, hn, -⟩ := versionText_error hr
          cases hn.symm.trans hok
      | ok k =>
          obtain ⟨hhttp, ⟨a, ha⟩, b, hb⟩ := versionText_ok hr
          rw [hdrop] at hhttp
          rw [FirstLine.text_ok hw hv hr, ha, hb] at ho
          cases l with
          | request x =>
              simp only [FirstLine.words] at hw
              obtain ⟨method, gap, uri, gap', heq, hmethod, hgap, huri, hgap', hcode, hwuri⟩ :=
                requestWords_text hmax hw hv
              subst ho
              simp only [FirstLine.restText, LineOut.write, hcode, hwuri]
              exact ⟨⟨method, uri, L.drop off, ⟨⟨gap, gap', heq, hgap.1, hgap.2, hgap'.1, hgap'.2⟩,
                hmethod, ⟨huri.2, huri.1⟩, http_of_line hhttp⟩, rfl, rfl⟩, rfl, rfl, rfl⟩
          | status x =>
              have hblank : AllBlank (L.take off) := by
                have hfind := findnosp_line (X := CR :: LF :: X) (Nat.zero_le L.length) hmax
                simp only [List.drop_zero, Int.natCast_zero, Int.sub_zero] at hfind
                simp only [FirstLine.words, statusWords, hfind] at hw
                subst hw
                intro y hy
                simpa using (findIdx?_cut hv).1 y hy
              unfold FirstLine.restText at ho
              simp only at ho
              split at ho
              · subst ho
                cases hok
              · subst ho
                exact ⟨⟨L.take off, L.drop off, (List.take_append_drop _ _).symm, hblank,
                  http_of_line hhttp⟩, rfl, rfl, rfl⟩

/-! ## The head -/

/-- All three callbacks are there, whatever they answer. -/
structure Callbacks.Given (cbs : Callbacks) : Prop where
  line : cbs.line.isSome = true
  header : cbs.header.isSome = true
  body : cbs.body.isSome = true

theorem callback_calls {p : Parser} {cb : Option Callback} (kind : CallKind)
    (h : cb.isSome = true) :
    (p.callback kind cb).2.calls = p.calls ++ [⟨kind, p.ctx, p.inp⟩] := by
  obtain ⟨f, rfl⟩ := Option.isSome_iff_exists.mp h
  rfl

/-- What has been told of the lines that have been read. -/
def Told (l : FirstLine) (H : RawHead) (p : Parser) : Option (List (List UInt8)) → Prop
  | none => p.calls = []
  | some seen => (∀ line ∈ seen, COLON ∈ line) ∧ ∃ c cs, p.calls = c :: cs ∧
      LineTold l H.first c ∧ List.Forall₂ FieldCall seen cs

section
variable {pf : Platform} {l : FirstLine} {cbs : Callbacks} {H : RawHead} {Y Z : List UInt8}
variable {b R : Nat} {p q r : Parser} {reads reads' : List Read}
variable {k k' : Option (List (List UInt8))}

theorem line_told {st : Nat} (start : p.ctx.firstLine.start = st)
    (le : (st : Int) ≤ p.inp.eod + 2)
    (stream : (p.inp.data ++ pending reads).drop st = H.bytes ++ Z)
    (parsed : l.parse p = (.ok, r)) : LineTold l H.first ⟨.line, r.ctx, r.inp⟩ := by
  have hframe := l.parse_frame p
  rw [parsed] at hframe
  obtain ⟨n, hfound, -⟩ := hframe.ok rfl
  rw [start] at hfound
  have hstream : (p.inp.data ++ pending reads).drop st =
      H.first ++ CR :: LF :: (rawLines H.lines ++ Z) := by
    rw [stream]
    simp [RawHead.bytes, crlf]
  obtain ⟨rfl, hcomplete⟩ := findcrlf_some H.first_ok hstream le hfound
  obtain ⟨behind, hdata, -⟩ := data_of_complete hstream hcomplete
  have hmem : p.inp.mem st = H.first ++ CR :: LF :: (behind ++ p.inp.slack) := by
    rw [mem_eq_of_drop hdata (by simp)]
    simp
  have hmax := scan_room hfound
  have htext := l.parse_text start hfound
  rw [hmem, parsed] at htext
  obtain ⟨o, ho⟩ : ∃ o, l.text (H.first ++ CR :: LF :: (behind ++ p.inp.slack)) H.first.length
      p.errno = o := ⟨_, rfl⟩
  rw [ho] at htext
  have hok : o.res = .ok := (congrArg Prod.fst htext).symm
  have hr : r = _ := (congrArg Prod.snd htext).trans (if_pos hok)
  obtain ⟨hwords, hmajor, hminor, hcode⟩ := text_told (by omega) ho hok
    { p.ctx with firstLine := ⟨st, st + H.first.length⟩ }
  subst hr
  refine ⟨rfl, addresses_of_drop hdata, ?_, behind ++ p.inp.slack, p.errno, ?_⟩
  · cases l <;> exact hwords
  · rw [ho]
    exact ⟨hok, hmajor, hminor, hcode⟩

/-- **What is told follows the lines.** -/
theorem Told.step (hcbs : cbs.Given) (hat : LinesAt H Z b p reads k)
    (hd : dispatch pf l.parse cbs p = .again q) (h : Told l H p k)
    (hs : LinesStep pf l cbs p q k k') : Told l H q k' := by
  cases hs with
  | same _ calls =>
      unfold Told at *
      rw [calls]
      exact h
  | line r parsed eq =>
      have hframe := l.parse_frame p
      rw [parsed] at hframe
      have hr : r.calls = p.calls := hframe.calls
      have hnone : p.calls = [] := h
      have hcalls : q.calls = [⟨.line, r.ctx, r.inp⟩] := by
        rw [eq, callback_calls .line hcbs.line, hr, hnone]
        rfl
      cases hat with
      | first st state le stream =>
          obtain ⟨state, -⟩ | ⟨-, start⟩ := state
          · -- nothing is parsed there, and there is no call
            unfold dispatch at hd
            simp only [state] at hd
            cases hd
            rw [show _ = _ from hcalls] at hnone
            cases hnone
          · exact ⟨fun _ hl => absurd hl List.not_mem_nil, _, [], hcalls,
              line_told start le stream parsed, .nil⟩
  | header seen st line behind y now processed calls framing =>
      obtain ⟨hcolons, c, cs, hcalls, hline, hall⟩ := h
      have hy : y.calls = p.calls := by
        have := (processHeader_frame (atHeader pf.nullOff st line p)).2.1
        rw [processed] at this
        exact this
      refine ⟨fun l hl => ?_, c, cs ++ [⟨.header, y.ctx, y.inp⟩], ?_, hline,
        List.rel_append hall (.cons (now.call processed) .nil)⟩
      · rcases List.mem_append.mp hl with hl | hl
        · exact hcolons l hl
        · obtain ⟨i, hi⟩ := now.colon
          rw [List.mem_singleton.mp hl]
          have hmem : COLON ∈ nameOf line ++ COLON :: behindColon line := by simp
          rw [← (split_colon hi).1] at hmem
          exact hmem
      · rw [calls, callback_calls .header hcbs.header, hy, hcalls]
        rfl

/-- **The run up to the empty line.** -/
theorem head_comes {F : Framing → Prop} {tight cut : Prop} {t : LoopState}
    (hkeep : KeepsFraming F H.lines) (hfit : tight → H.Fits R)
    (h : HeadInv H Y b R F tight cut t)
    (hret : Returns (loopStep pf l.parse cbs) t (.returned .ok q reads')) :
    ∃ p reads, BlankNow Y b R F tight cut p reads ∧
      Reaches (loopStep pf l.parse cbs) t ⟨.dispatch, p, reads⟩ ∧
      Returns (loopStep pf l.parse cbs) ⟨.dispatch, p, reads⟩ (.returned .ok q reads') := by
  have hstay : ∀ u u' : LoopState,
      (HeadInv H Y b R F tight cut u ∧ Reaches (loopStep pf l.parse cbs) t u) →
      ¬ (u.pc = .dispatch ∧ BlankNow Y b R F tight cut u.par u.reads) →
      loopStep pf l.parse cbs u = .again u' →
      HeadInv H Y b R F tight cut u' ∧ Reaches (loopStep pf l.parse cbs) t u' := by
    rintro ⟨pc, p, reads⟩ u' ⟨hinv, hrun⟩ hnot hs
    refine ⟨?_, hrun.trans (.single hs)⟩
    cases pc with
    | top => exact ((head_top pf l cbs hinv).1 u' hs).2
    | dispatch =>
        rcases head_dispatch pf l cbs hkeep hfit hinv with hblank | ⟨hagain, -⟩
        · exact absurd ⟨rfl, hblank⟩ hnot
        · cases loopStep_again_iff.mp hs with
          | pass hd => exact hagain _ hd
  rcases hret.until hstay ⟨h, .refl t⟩ with ⟨⟨pc, p, reads⟩, ⟨-, hrun⟩, ⟨rfl, hblank⟩, hret'⟩ |
    ⟨⟨pc, p, reads⟩, ⟨hinv, -⟩, hnot, hdone⟩
  · exact ⟨p, reads, hblank, hrun, hret'⟩
  exfalso
  cases pc with
  | top => exact (head_top pf l cbs hinv).2 q reads' hdone
  | dispatch =>
      rcases head_dispatch pf l cbs hkeep hfit hinv with hblank | ⟨-, hno⟩
      · exact hnot ⟨rfl, hblank⟩
      · cases loopStep_done_iff.mp hdone with
        | ret hd => exact hno _ hd

end

/-! ## A body of a known size -/

section
variable {pf : Platform} {parseLine : Parser → Res × Parser} {cbs : Callbacks} {f : Callback}
variable {b n : Nat} {p q : Parser} {reads reads' : List Read}

theorem plain_iter (rc : Recycler) (k : Nat) (h : PlainAt b n p) :
    (∀ q, bodyIter rc (some f) k p = .again q →
      PlainAt b n q ∧ q.inp.data = p.inp.data ∧ q.calls = p.calls) ∧
    ∀ q, bodyIter rc (some f) k p = .ret .ok q → ∃ c, PlainCall b n c ∧
      q.calls = p.calls ++ [c] ∧ c.inp.data = p.inp.data ∧ q.inp = rc.apply c.inp 512 b := by
  by_cases hlt : p.inp.eod < b + n
  · obtain ⟨q', hit, hq', -, hinp, hcalls⟩ := bodyIter_more rc (some f) h hlt k
    rw [hit]
    refine ⟨?_, fun _ hq => (by cases hq)⟩
    rintro q hq
    cases hq
    exact ⟨hq', by rw [hinp]; rfl, hcalls⟩
  · have hpos := h.pos_le
    have hmin : min (p.inp.eod - p.inp.pos) ((n : Int) - (p.inp.pos - b)) =
        (b : Int) + n - p.inp.pos := by omega
    have hstop : p.inp.pos + ((b : Int) + n - p.inp.pos) = (b : Int) + n := by omega
    have hacc : ¬ ((b : Int) + n - (b : Int) < n) := by omega
    unfold bodyIter processBody processPlainBody
    simp only [h.plain, h.bodysz, h.start, h.stop, h.chunk, hmin, hstop, hacc, if_false,
      Bool.false_eq_true, Parser.callback]
    split
    · rename_i heq
      split at heq <;> cases heq
    · rename_i heq
      split at heq
      · cases heq
      · cases heq
        refine ⟨fun _ hq => (by cases hq), ?_⟩
        rintro q hq
        cases hq
        exact ⟨_, ⟨rfl, rfl, rfl, hstop, by show (b : Int) + n ≤ p.inp.eod; omega⟩, rfl, rfl, rfl⟩
    · exact ⟨fun _ hq => (by cases hq), fun _ hq => (by cases hq)⟩

/-- **A call that returns 0 on a body of a known size has all of it.** -/
theorem plain_sound (hcb : cbs.body = some f) (hp : PlainAt b n (blankLine p))
    (hdisp : dispatch pf parseLine cbs p = bodyIter pf.recycler cbs.body 12 (blankLine p))
    (hret : Returns (loopStep pf parseLine cbs) ⟨.dispatch, p, reads⟩ (.returned .ok q reads')) :
    ∃ c, PlainDone pf b n (p.inp.data ++ pending reads) p.calls q reads' c := by
  rw [hcb] at hdisp
  have hkeep : ∀ t t' : LoopState,
      (PlainAt b n t.par ∧ t.par.ctx.parserState = .body ∧
        t.par.inp.data ++ pending t.reads = p.inp.data ++ pending reads ∧
        t.par.calls = p.calls) → loopStep pf parseLine cbs t = .again t' →
      PlainAt b n t'.par ∧ t'.par.ctx.parserState = .body ∧
        t'.par.inp.data ++ pending t'.reads = p.inp.data ++ pending reads ∧
        t'.par.calls = p.calls := by
    rintro t t' ⟨hat, hst, hstream, hcalls⟩ hs
    cases loopStep_again_iff.mp hs with
    | read =>
        refine ⟨⟨hat.plain, hat.bodysz, hat.start, hat.chunk, hat.stop, hat.pos_le⟩, hst, ?_,
          hcalls⟩
        rw [← hstream]
        simp [Read.payload]
    | look => exact ⟨hat, hst, hstream, hcalls⟩
    | pass hd =>
        rw [dispatch_body hst, hcb] at hd
        obtain ⟨hat', hdata, hcalls'⟩ := (plain_iter _ _ hat).1 _ hd
        exact ⟨hat', bodyIter_state hd, by rw [hdata]; exact hstream, hcalls'.trans hcalls⟩
  cases hit : bodyIter pf.recycler (some f) 12 (blankLine p) with
  | ret r q' =>
      cases hret.unique (.of_done (loopStep_ret (hdisp.trans hit)))
      obtain ⟨c, hcall, hcalls, hdata, hinp⟩ := (plain_iter _ _ hp).2 _ hit
      exact ⟨c, hcall, hcalls, by rw [hdata]; rfl, hinp⟩
  | again q' =>
      obtain ⟨hat, hdata, hcalls⟩ := (plain_iter _ _ hp).1 _ hit
      have hstep : loopStep pf parseLine cbs ⟨.dispatch, p, reads⟩ = .again ⟨.top, q', reads⟩ :=
        loopStep_again (hdisp.trans hit)
      have hrun := (Reaches.single hstep).returns_iff.mp hret
      obtain ⟨t, ⟨hat', hst, hstream, hcalls'⟩, hdone⟩ :=
        hrun.invariant hkeep ⟨hat, bodyIter_state hit, by rw [hdata]; rfl, hcalls⟩
      generalize hok : Res.ok = r at hdone
      cases loopStep_done_iff.mp hdone with
      | fail => split at hok <;> cases hok
      | ret hd =>
          subst hok
          rw [dispatch_body hst, hcb] at hd
          obtain ⟨c, hcall, hc, hdata', hinp⟩ := (plain_iter _ _ hat').2 _ hd
          exact ⟨c, hcall, hc.trans (by rw [hcalls']), by rw [hdata', hstream], hinp⟩

end

/-! ## The message -/

/-- What `body_cb` was told of the text behind the empty line, and where the call
has left the stream. -/
inductive BodyTold (fr : Framing) (text : List UInt8) (calls : List Call) (q : Parser)
    (reads : List Read) : Prop
  | sized (body tail : List UInt8) (c : Call) (plain : fr.chunked = false)
      (size : fr.bodysz = body.length) (eq : text = body ++ tail) (one : calls = [c])
      (call : BodyCall body c) (stands : StandsAt tail q.inp reads)
  | negative (c : Call) (plain : fr.chunked = false) (size : fr.bodysz < 0) (one : calls = [c])
      (call : BodyOf fr.bodysz c)
  | chunked (ps : List Piece) (tail : List UInt8) (flag : fr.chunked = true)
      (decoded : Decoded text ps tail)
      (each : List.Forall₂ ChunkCall (ps.map Piece.data) calls)
      (stands : StandsAt tail q.inp reads)

/-- The callbacks were told this head and this text, in order and nothing else. -/
structure MessageTold (l : FirstLine) (H : RawHead) (text : List UInt8) (q : Parser)
    (reads : List Read) : Prop where
  colons : ∀ line ∈ H.lines, COLON ∈ line
  values : ∀ line ∈ H.lines, readsValue line = true → headerValue line ≠ []
  calls : ∃ c cs more, q.calls = c :: (cs ++ more) ∧ LineTold l H.first c ∧
    List.Forall₂ FieldCall H.lines cs ∧
    BodyTold (H.lines.foldl lineFraming .unset) text more q reads

/-- The text behind the empty line, as the parser takes it. -/
def textBehind (cut : Bool) (Y : List UInt8) : List UInt8 := if cut then Y.drop 1 else Y

section
variable {pf : Platform} {l : FirstLine} {cbs : Callbacks} {H : RawHead} {Y Z : List UInt8}
variable {b R : Nat} {cut : Bool} {p q : Parser} {reads reads' : List Read}

theorem BlankNow.text_at {F : Framing → Prop} (h : BlankNow Y b R F True (cut = true) p reads) :
    ∃ b' : Nat, p.inp.pos + 2 = b' ∧ (p.inp.data ++ pending reads).drop b' = textBehind cut Y := by
  rcases h.pos trivial with ⟨hpos, hcut⟩ | ⟨hpos, rfl⟩
  · refine ⟨b + 2, by omega, ?_⟩
    rw [Bool.eq_false_iff.mpr hcut]
    exact h.stream
  · refine ⟨b + 2 + 1, by omega, ?_⟩
    rw [← List.drop_drop, h.stream]
    rfl

theorem sized_told {F : Framing → Prop} {n : Nat} (hcbs : cbs.Given)
    (hblank : BlankNow Y b R F True (cut = true) p reads) (hplain : p.ctx.framing.chunked = false)
    (hsize : p.ctx.framing.bodysz = n)
    (hret : Returns (loopStep pf l.parse cbs) ⟨.dispatch, p, reads⟩ (.returned .ok q reads')) :
    ∃ more, q.calls = p.calls ++ more ∧
      BodyTold p.ctx.framing (textBehind cut Y) more q reads' := by
  obtain ⟨b', hb', hstream⟩ := hblank.text_at
  obtain ⟨f, hf⟩ := Option.isSome_iff_exists.mp hcbs.body
  have hat : PlainAt b' n (blankLine p) :=
    ⟨hplain, hsize, hb', hb', rfl, by show p.inp.pos + 2 ≤ _; omega⟩
  obtain ⟨c, hdone⟩ := plain_sound hf hat
    (dispatch_blank hblank.state hblank.start hblank.found) hret
  -- all of it is there
  have hlen : ((textBehind cut Y).take n).length = n := by
    have hcomplete := hdone.call.complete
    have htotal := congrArg List.length hdone.stream
    rw [← hstream, List.length_take, List.length_drop]
    rw [List.length_append] at htotal
    unfold Stream.eod at hcomplete
    omega
  rw [← List.take_append_drop n (textBehind cut Y)] at hstream
  obtain ⟨hcall, hstands⟩ := hdone.exact hstream hlen
  exact ⟨[c], hdone.calls, .sized _ _ c hplain (by rw [hsize, hlen])
    (List.take_append_drop n _).symm rfl hcall hstands⟩

theorem negative_told {F : Framing → Prop} (hcbs : cbs.Given)
    (hblank : BlankNow Y b R F True (cut = true) p reads) (hread : HeadRead H Z p)
    (hplain : p.ctx.framing.chunked = false) (hsize : p.ctx.framing.bodysz < 0)
    (hret : Returns (loopStep pf l.parse cbs) ⟨.dispatch, p, reads⟩ (.returned .ok q reads')) :
    ∃ more, q.calls = p.calls ++ more ∧
      BodyTold p.ctx.framing (textBehind cut Y) more q reads' := by
  obtain ⟨-, hbody, -⟩ := plain_length hread hplain hblank.calls hret rfl
  obtain ⟨c, hc, hof⟩ := hbody.given hcbs.body
  obtain ⟨more, hmore, hkind⟩ : q.Extends p :=
    blank_invariant (I := fun q => q.Extends p) (fun _ _ _ h => h)
      (fun x h => (processBody_calls _ _ x).trans h) (fun _ h => h)
      (dispatch_blank hblank.state hblank.start hblank.found) (.refl rfl) hret
  have hone : more = [c] := by
    rw [← hc, bodyCalls, hmore, List.filter_append,
      List.filter_eq_nil_iff.mpr fun c hc => by simpa using hblank.calls c hc,
      List.filter_eq_self.mpr fun c hc => by simpa using hkind c hc, List.nil_append]
  exact ⟨more, hmore, .negative c hplain hsize hone hof⟩

theorem chunks_behind (hR : (R : Int) ≤ intMax) (hfit : LinesFit R Y)
    (hblank : BlankNow Y b R ChunkedReady True (cut = true) p reads) (hread : HeadRead H Z p)
    (hch : p.ctx.flagChunked = true)
    (hret : Returns (loopStep pf l.parse cbs) ⟨.dispatch, p, reads⟩ (.returned .ok q reads')) :
    Ends cbs.body q reads' p.calls (textBehind cut Y) := by
  obtain ⟨text, htext, hends⟩ :=
    blank_decodes hR hfit hblank hret (chunked_flag hread hch hret rfl)
  rcases htext with ⟨rfl, hcut⟩ | ⟨rfl, hcut⟩
  · rw [Bool.eq_false_iff.mpr hcut]
    exact hends
  · rw [hcut]
    exact hends

/-- **What is told of the body**, whatever frames it. -/
theorem body_told (hcbs : cbs.Given) (hR : (R : Int) ≤ intMax) (hfit : LinesFit R Y)
    (hblank : BlankNow Y b R ChunkedReady True (cut = true) p reads) (hread : HeadRead H Z p)
    (hret : Returns (loopStep pf l.parse cbs) ⟨.dispatch, p, reads⟩ (.returned .ok q reads')) :
    ∃ more, q.calls = p.calls ++ more ∧
      BodyTold p.ctx.framing (textBehind cut Y) more q reads' := by
  cases hch : p.ctx.framing.chunked with
  | true =>
      obtain ⟨ps, tail, more, hdec, hcalls, hall, hstands, -⟩ :=
        chunks_behind hR hfit hblank hread hch hret
      rw [made, if_pos hcbs.body] at hcalls
      exact ⟨more, hcalls, .chunked ps tail hch hdec hall hstands⟩
  | false =>
      rcases Int.lt_or_le p.ctx.framing.bodysz 0 with hneg | hnonneg
      · exact negative_told hcbs hblank hread hch hneg hret
      · exact sized_told hcbs hblank hch (Int.toNat_of_nonneg hnonneg).symm hret

theorem LinesFit.head (h : LinesFit R (H.bytes ++ CR :: LF :: Y)) : H.Fits R := by
  intro ln hln
  rcases List.mem_cons.mp hln with rfl | hln
  · exact h H.bytes [] Y rfl rfl
  rcases List.mem_cons.mp hln with rfl | hln
  · exact h [] _ (rawLines H.lines ++ CR :: LF :: Y) (by simp [RawHead.bytes, crlf]) H.first_ok
  · obtain ⟨ls, ls', hls⟩ := List.append_of_mem hln
    exact h (H.first ++ crlf ++ rawLines ls) ln (rawLines ls' ++ CR :: LF :: Y)
      (by simp [RawHead.bytes, hls, rawLines, crlf]) (H.lines_ok ln hln).1

theorem LinesFit.le_intMax (h : LinesFit R (H.bytes ++ CR :: LF :: Y)) : (R : Int) ≤ intMax := by
  have := h.head [] List.mem_cons_self
  simp only [List.length_nil] at this
  omega

theorem LinesFit.behind (h : LinesFit R (H.bytes ++ CR :: LF :: Y)) : LinesFit R Y := by
  rw [show H.bytes ++ CR :: LF :: Y = (H.bytes ++ [CR, LF]) ++ Y by simp] at h
  exact h.suffix

/-- **A call that returns 0 has come to the empty line**, and stands in front of it or
inside it. -/
theorem empty_line_comes {errno : Int} {s : Stream} (h0 : 0 ≤ s.pos) (hle : s.pos ≤ s.eod + 2)
    (hbuf : s.eod - s.pos ≤ R) (hsmall : SmallReads R reads)
    (heq : (s.data ++ pending reads).drop s.pos.toNat = H.bytes ++ CR :: LF :: Y)
    (hfit : LinesFit R (H.bytes ++ CR :: LF :: Y))
    (hcut : decide (Cuts s.eod reads (s.pos + H.bytes.length + 1)) = cut)
    (hparse : Parses l pf cbs errno s reads (.returned .ok q reads')) :
    ∃ p reads₁,
      BlankNow Y (s.pos.toNat + H.bytes.length) R ChunkedReady True (cut = true) p reads₁ ∧
      Reaches (loopStep pf l.parse cbs) ⟨.top, .init s errno, reads⟩ ⟨.dispatch, p, reads₁⟩ ∧
      Returns (loopStep pf l.parse cbs) ⟨.dispatch, p, reads₁⟩ (.returned .ok q reads') := by
  have hinv : HeadInv H Y (s.pos.toNat + H.bytes.length) R ChunkedReady True (cut = true)
      ⟨.top, .init s errno, reads⟩ := by
    refine ⟨.start s.pos.toNat rfl (by show s.pos = _; omega) (by show _ ≤ s.eod + 2; omega)
      ⟨heq, rfl⟩ (fun _ => by show s.eod - _ ≤ _; omega), nofun,
      fun c hc => absurd hc List.not_mem_nil, fun _ => hsmall, fun _ _ => ?_⟩
    have hplace : ((s.pos.toNat + H.bytes.length : Nat) : Int) + 1 =
        s.pos + H.bytes.length + 1 := by
      omega
    show Cuts s.eod reads _ ↔ _
    rw [hplace, ← hcut, decide_eq_true_iff]
  exact head_comes (keepsFraming_ready _) (fun _ => hfit.head) hinv (parses_iff.mp hparse)

end

/-- **Whatever is accepted is a message, and the callbacks were told just that.**
For any stream and any reads, requests and responses alike. -/
theorem accepted_is_message (pf : Platform) (l : FirstLine) (cbs : Callbacks) (errno : Int)
    (s : Stream) (reads reads' : List Read) (q : Parser) (R : Nat) (hcbs : cbs.Given)
    (h0 : 0 ≤ s.pos) (hle : s.pos ≤ s.eod + 2) (hbuf : s.eod - s.pos ≤ R)
    (hsmall : SmallReads R reads)
    (hfit : LinesFit R ((s.data ++ pending reads).drop s.pos.toNat))
    (hparse : Parses l pf cbs errno s reads (.returned .ok q reads')) :
    ∃ (H : RawHead) (Y : List UInt8),
      (s.data ++ pending reads).drop s.pos.toNat = H.bytes ++ CR :: LF :: Y ∧
      MessageTold l H
        (textBehind (decide (Cuts s.eod reads (s.pos + H.bytes.length + 1))) Y) q reads' := by
  obtain ⟨H, Y, heq⟩ := head_exists h0 hle (parses_iff.mp hparse)
  refine ⟨H, Y, heq, ?_⟩
  rw [heq] at hfit
  generalize hcut : decide (Cuts s.eod reads (s.pos + H.bytes.length + 1)) = cut
  obtain ⟨p, reads₁, hblank, hrun, hret₁⟩ :=
    empty_line_comes h0 hle hbuf hsmall heq hfit hcut hparse
  generalize hb : s.pos.toNat + H.bytes.length = b at hblank
  -- what was told on the way, and how the lines frame the body
  have hend : HeadEnd (CR :: LF :: Y) := .blank Y rfl
  have hat : LinesAt H (CR :: LF :: Y) b (Parser.init s errno) reads none :=
    .first s.pos.toNat (.inl ⟨rfl, by show s.pos = _; omega⟩) (by show _ ≤ s.eod + 2; omega) heq hb
  have hinit : Told l H (Parser.init s errno) none ∧ FramingAt (Parser.init s errno) none :=
    ⟨rfl, rfl⟩
  rcases LinesAt.reaches_at (t := ⟨.top, .init s errno, reads⟩)
      (J := fun p k => Told l H p k ∧ FramingAt p k) (fun p bs slack k h => by cases k <;> exact h)
      (fun p q reads k k' hat hd h hs => ⟨h.1.step hcbs hat hd hs, h.2.step hs⟩)
      hend hat hinit hrun with hbody | ⟨k, hat', htold, hframing⟩
  · cases hblank.state.symm.trans hbody
  have hfound : p.inp.scan p.ctx.currentHeaderName.start = some 0 := by
    rw [hblank.start]
    exact hblank.found
  obtain ⟨rfl, -⟩ := hat'.blank hend hblank.state hfound
  obtain ⟨hcolons, c, cs, hcalls, hline, hall⟩ := htold
  have hread : HeadRead H (CR :: LF :: Y) p := ⟨hblank.state, hfound, ⟨Y, rfl⟩, hframing⟩
  obtain ⟨more, hmore, hbody⟩ :=
    body_told hcbs hfit.le_intMax hfit.behind hblank hread hret₁
  rw [hframing.1] at hbody
  exact ⟨hcolons, hframing.2, c, cs, more, by rw [hmore, hcalls]; rfl, hline, hall, hbody⟩

/-- A request in two reads, with more behind it. -/
def postInTwo : List Read :=
  [.bytes (ascii "POST /x HTTP/1.1\r\nContent-") [],
    .bytes (ascii "Length: 3\r\n\r\nabcGET") []]

theorem accepted_is_message_post :
    ∃ q reads', Parses (.request .getRoot) .keeping .accepting 0 ⟨[], [], 0⟩ postInTwo
        (.returned .ok q reads') ∧
      ∃ (H : RawHead) (Y : List UInt8), pending postInTwo = H.bytes ++ CR :: LF :: Y ∧
        MessageTold (.request .getRoot) H
          (textBehind (decide (Cuts 0 postInTwo (0 + H.bytes.length + 1))) Y) q reads' := by
  obtain ⟨q, reads', hparse, -⟩ := parses_bodysz 40 (r := .ok) (z := 3) postInTwo
    (by decide +kernel)
  have hsmall : SmallReads 64 postInTwo := by
    intro r hr
    rcases List.mem_cons.mp hr with rfl | hr
    · decide
    · cases List.mem_singleton.mp hr
      decide
  exact ⟨q, reads', hparse, accepted_is_message .keeping (.request .getRoot) .accepting 0
    ⟨[], [], 0⟩ postInTwo reads' q 64 ⟨rfl, rfl, rfl⟩ (by decide) (by decide) (by decide) hsmall
    (linesFit_of_length (by decide)) hparse⟩

end MnHttp
