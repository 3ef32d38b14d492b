/-
# `MnApp.Http.HeaderRanges` — what `process_header` and `header_cb` are given

On a complete header line with a `':'` the loop computes two ranges from
pointers: the name from the start of the line to the `':'`, the value from
`findnosp` behind it to the CR.  `findnosp` gives NULL when there is nothing
but blanks, and the offset of NULL is stored as the start of the value.

`headerCall` is the line and the parser at the call of `process_header`.  On
any stream, cut in any way, in any state the loop can be in there, the two
ranges lie in the line and are its name and its value exactly when something
other than a blank stands behind the `':'` (`header_ranges_iff`).
-/
import MnApp.Http.Framing
import MnApp.Http.Iteration

namespace MnHttp

open CLib Loop

/-! ## The call -/

/-- The header line that `PS_HEADER_FIELD_OUT` has found, as it was received,
and the parser that `process_header` is called with. -/
def headerCall (pf : Platform) (p : Parser) : Option (List UInt8 × Parser) :=
  let start := p.ctx.currentHeaderName.start
  match p.inp.scan start with
  | some (n + 1) =>
      (((p.inp.mem start).take (n + 1)).findIdx? (· == COLON)).map fun c : Nat =>
        ((p.inp.data.drop start.toNat).take (n + 1),
          headerLine pf.nullOff (start + (n + 1)) (start + c) p)
  | _ => none

/-- The calls that have been made when an iteration ends. -/
def Iter.calls : Iter → List Call
  | .again p => p.calls
  | .ret _ p => p.calls

/-- The iteration is the call of `process_header`, and the call of `header_cb`
behind it. -/
theorem dispatch_headerCall {pf : Platform} (parseLine : Parser → Res × Parser) (cbs : Callbacks)
    {p q : Parser} {line : List UInt8} (hst : p.ctx.parserState = .headerFieldOut)
    (h : headerCall pf p = some (line, q)) :
    ∃ n : Nat, p.inp.scan p.ctx.currentHeaderName.start = some (n + 1) ∧
      dispatch pf parseLine cbs p =
      match processHeader q with
      | (.needMore, q) =>
          let (r, q) := q.callback .header cbs.header
          if r ≠ 0 then .ret (.diag .httpParseMessage 11) q
          else .again { q with
            ctx := { q.ctx with parserState := .headerFieldIn }
            inp := q.inp.advance (p.ctx.currentHeaderName.start + (n + 1) - q.inp.pos + 2) }
      | (e, q) => .ret e q := by
  unfold Stream.scan
  unfold headerCall Stream.scan at h
  simp only at h
  split at h
  · rename_i n hn
    obtain ⟨c, hc, heq⟩ := Option.map_eq_some_iff.mp h
    cases heq
    refine ⟨n, hn, ?_⟩
    unfold dispatch headerFieldOut
    generalize hres : processHeader (headerLine pf.nullOff _ _ p) = res
    obtain ⟨r, q⟩ := res
    cases r <;> simp only [hst, hn, hc, hres]
  · cases h

/-! ## Ranges -/

/-- The text before the first `':'`. -/
def nameOf (line : List UInt8) : List UInt8 := line.takeWhile (· != COLON)

/-- The text behind the first `':'`. -/
def behindColon (line : List UInt8) : List UInt8 := (line.dropWhile (· != COLON)).tail

/-- The ranges are inside the received bytes, in order, and address the name
and the value of the line. -/
structure RangesIn (line : List UInt8) (c : Ctx) (s : Stream) : Prop where
  name_lo : 0 ≤ c.currentHeaderName.start
  name_le : c.currentHeaderName.start ≤ c.currentHeaderName.stop
  name_lt : c.currentHeaderName.stop < c.currentHeaderValue.start
  value_le : c.currentHeaderValue.start ≤ c.currentHeaderValue.stop
  value_hi : c.currentHeaderValue.stop ≤ s.eod
  name : s.slice c.currentHeaderName = nameOf line
  value : s.slice c.currentHeaderValue = (behindColon line).dropWhile ISSPACE

section
variable {s : Stream} {st : Nat} {pre post behind : List UInt8}

theorem split_colon {line : List UInt8} {c : Nat}
    (h : line.findIdx? (· == COLON) = some c) :
    line = nameOf line ++ COLON :: behindColon line ∧ (nameOf line).length = c := by
  induction line generalizing c with
  | nil => cases h
  | cons b line ih =>
      rw [List.findIdx?_cons] at h
      cases hb : b == COLON with
      | true =>
          obtain rfl := eq_of_beq hb
          rw [hb, if_pos rfl] at h
          cases h
          exact ⟨rfl, rfl⟩
      | false =>
          rw [hb, if_neg nofun] at h
          obtain ⟨m, hm, rfl⟩ := Option.map_eq_some_iff.mp h
          obtain ⟨heq, hlen⟩ := ih hm
          have hne : (b != COLON) = true := by rw [bne, hb]; rfl
          have hname : nameOf (b :: line) = b :: nameOf line := by
            unfold nameOf
            rw [List.takeWhile_cons, if_pos hne]
          have hbehind : behindColon (b :: line) = behindColon line := by
            unfold behindColon
            rw [List.dropWhile_cons, if_pos hne]
          rw [hname, hbehind, List.cons_append, ← heq, List.length_cons, hlen]
          exact ⟨rfl, rfl⟩

theorem findnosp_all (text rest : List UInt8) (n : Int) (hn : n = text.length) :
    findnosp (text ++ rest) n =
      if ∃ b ∈ text, ISSPACE b = false then some (text.takeWhile ISSPACE).length else none := by
  subst hn
  unfold findnosp
  rw [Int.toNat_natCast, List.take_left]
  induction text with
  | nil => rfl
  | cons b text ih =>
      rw [List.findIdx?_cons, List.takeWhile_cons]
      cases hb : ISSPACE b with
      | false => simp [hb]
      | true =>
          simp only [Bool.not_true, Bool.false_eq_true, if_false, if_true, ih, List.mem_cons,
            exists_eq_or_imp, hb, Bool.true_eq_false, false_or, List.length_cons]
          split <;> rfl

theorem drop_takeWhile (f : UInt8 → Bool) (l : List UInt8) :
    l.drop (l.takeWhile f).length = l.dropWhile f := by
  calc l.drop (l.takeWhile f).length
      = (l.takeWhile f ++ l.dropWhile f).drop (l.takeWhile f).length := by
        rw [List.takeWhile_append_dropWhile]
    _ = l.dropWhile f := List.drop_left

/-- `headerLine` on any line with a `':'`: what is left of the buffer, and
where the ranges are. -/
theorem headerLine_line (nullOff : Int) {p : Parser} (hst : p.ctx.currentHeaderName.start = st)
    (hdata : p.inp.data.drop st = pre ++ COLON :: (post ++ CR :: LF :: behind))
    (hfit : (post.length : Int) ≤ intMax) :
    let q := headerLine nullOff ((st : Int) + (pre.length + 1 + post.length))
      ((st : Int) + pre.length) p
    q.inp.data.drop st = pre ++ NUL :: (post ++ NUL :: LF :: behind) ∧
      q.inp.eod = p.inp.eod ∧
      q.ctx.currentHeaderName = ⟨st, (st : Int) + pre.length⟩ ∧
      q.ctx.currentHeaderValue =
        ⟨if ∃ b ∈ post, ISSPACE b = false then
            (st : Int) + pre.length + 1 + (post.takeWhile ISSPACE).length else nullOff,
          (st : Int) + (pre.length + 1 + post.length)⟩ := by
  have d1 := zero_drop hdata
  have e1 : (p.inp.zero ((st : Int) + pre.length)).data.drop (st + pre.length + 1) =
      post ++ CR :: LF :: behind := by
    refine drop_of_drop (a := [NUL]) (drop_of_drop ?_)
    rw [d1]
    rfl
  have hfind : findnosp ((p.inp.zero ((st : Int) + pre.length)).mem ((st : Int) + pre.length + 1))
      (toInt ((st : Int) + (pre.length + 1 + post.length) - ((st : Int) + pre.length + 1))) =
        if ∃ b ∈ post, ISSPACE b = false then some (post.takeWhile ISSPACE).length else none := by
    have hmem := mem_eq_of_drop e1 (by simp)
    have hcast : ((st + pre.length + 1 : Nat) : Int) = (st : Int) + pre.length + 1 := by omega
    rw [hcast] at hmem
    rw [hmem, toInt_of_le (by omega) (by omega), List.append_assoc]
    exact findnosp_all post _ _ (by omega)
  have d2 : ((p.inp.zero ((st : Int) + pre.length)).zero
      ((st : Int) + (pre.length + 1 + post.length))).data.drop st =
        pre ++ NUL :: (post ++ NUL :: LF :: behind) := by
    have d1' : (p.inp.zero ((st : Int) + pre.length)).data.drop st =
        (pre ++ NUL :: post) ++ CR :: LF :: behind := by rw [d1]; simp
    have hz := zero_drop d1'
    have hlen : ((pre ++ NUL :: post).length : Int) = pre.length + 1 + post.length := by
      simp only [List.length_append, List.length_cons]
      omega
    rw [hlen] at hz
    rw [hz]
    simp
  refine ⟨d2, by simp [headerLine], by simp only [headerLine, hst], ?_⟩
  unfold headerLine
  simp only [hfind]
  split
  · rename_i k hk
    split at hk
    · rename_i hex
      cases hk
      rw [if_pos hex]
    · cases hk
  · rename_i hk
    split at hk
    · cases hk
    · rename_i hno
      rw [if_neg hno]

theorem rangesIn_iff {line : List UInt8} {c : Ctx} {nullOff : Int} (hnull : nullOff < 0)
    (hline : nameOf line = pre) (hbehind : behindColon line = post)
    (hdata : s.data.drop st = pre ++ NUL :: (post ++ NUL :: LF :: behind))
    (hname : c.currentHeaderName = ⟨st, (st : Int) + pre.length⟩)
    (hvalue : c.currentHeaderValue =
      ⟨if ∃ b ∈ post, ISSPACE b = false then
          (st : Int) + pre.length + 1 + (post.takeWhile ISSPACE).length else nullOff,
        (st : Int) + (pre.length + 1 + post.length)⟩) :
    RangesIn line c s ↔ ∃ b ∈ behindColon line, ISSPACE b = false := by
  rw [hbehind]
  constructor
  · intro h
    by_contra hblank
    have hlt := h.name_lt
    rw [hname, hvalue, if_neg hblank] at hlt
    simp only at hlt
    omega
  · intro hex
    rw [if_pos hex] at hvalue
    have hlen := length_of_drop hdata (by simp)
    simp only [List.length_append, List.length_cons] at hlen
    have hle : (post.takeWhile ISSPACE).length ≤ post.length := (List.takeWhile_sublist _).length_le
    refine ⟨?_, ?_, ?_, ?_, ?_, ?_, ?_⟩
    · rw [hname]; simp only; omega
    · rw [hname]; simp only; omega
    · rw [hname, hvalue]; simp only; omega
    · rw [hvalue]; simp only; omega
    · rw [hvalue]; unfold Stream.eod; simp only; omega
    · have hnat : ((st : Int) + pre.length - st).toNat = pre.length := by omega
      rw [hname, hline, Stream.slice]
      simp only
      rw [hnat, Int.toNat_natCast, hdata, List.take_left]
    · have hstart : ((st : Int) + pre.length + 1 + (post.takeWhile ISSPACE).length).toNat =
          st + (pre.length + 1 + (post.takeWhile ISSPACE).length) := by omega
      have hsize : ((st : Int) + (pre.length + 1 + post.length) -
          ((st : Int) + pre.length + 1 + (post.takeWhile ISSPACE).length)).toNat =
            (post.dropWhile ISSPACE).length := by
        rw [← drop_takeWhile, List.length_drop]
        omega
      have hskip : (pre ++ NUL :: (post ++ NUL :: LF :: behind)).drop
          (pre.length + 1 + (post.takeWhile ISSPACE).length) =
            post.dropWhile ISSPACE ++ NUL :: LF :: behind := by
        rw [← List.drop_drop, ← List.drop_drop, List.drop_left, List.drop_one, List.tail_cons,
          List.drop_append_of_le_length hle, drop_takeWhile]
      rw [hvalue, hbehind, Stream.slice]
      simp only
      rw [hstart, hsize, ← List.drop_drop, hdata, hskip, List.take_left]

end

/-! ## On any input -/

section
variable {pf : Platform} {l : FirstLine} {cbs : Callbacks}

theorem placed_reaches {errno : Int} {s : Stream} {reads : List Read} {t : LoopState}
    (h0 : 0 ≤ s.pos) (hle : s.pos ≤ s.eod + 2)
    (h : Reaches (loopStep pf l.parse cbs) ⟨.top, .init s errno, reads⟩ t) :
    Placed (fun _ => True) t.par := by
  refine h.invariant (I := fun t => Placed (fun _ => True) t.par) ?_ (placed_init errno h0 hle)
  intro t t' ht hs
  cases loopStep_again_iff.mp hs with
  | read => exact ht.consume id
  | look => exact ht
  | pass hagain =>
      exact ht.pass (dispatch_again hagain) (fun _ _ _ _ _ _ => trivial) fun _ _ _ => trivial

theorem headerCall_line {p q : Parser} {st : Nat} {line : List UInt8}
    (hstart : p.ctx.currentHeaderName.start = st) (hle : (st : Int) ≤ p.inp.eod + 2)
    (h : headerCall pf p = some (line, q)) :
    ∃ (behind : List UInt8) (c : Nat), p.inp.data.drop st = line ++ CR :: LF :: behind ∧
      NoCrlf line ∧ line.findIdx? (· == COLON) = some c ∧ (line.length : Int) ≤ intMax ∧
      q = headerLine pf.nullOff ((st : Int) + line.length) ((st : Int) + (nameOf line).length)
        p := by
  unfold headerCall at h
  simp only [hstart] at h
  split at h
  · rename_i n hn
    obtain ⟨c, hc, heq⟩ := Option.map_eq_some_iff.mp h
    obtain ⟨hend, text, behind, hdata, hno, hlen⟩ := scan_some (by omega) hle hn
    rw [Int.toNat_natCast] at hdata heq
    have hroom := scan_room hn
    have htake : (p.inp.data.drop st).take (n + 1) = text := by
      rw [hdata, List.take_left' hlen]
    have hmem : (p.inp.mem st).take (n + 1) = text := by
      rw [mem_eq_of_drop hdata (by simp), List.append_assoc, List.take_left' hlen]
    rw [hmem] at hc
    cases heq
    rw [htake]
    obtain ⟨-, hcolon⟩ := split_colon hc
    have hcast : (st : Int) + ((n : Int) + 1) = (st : Int) + text.length := by omega
    refine ⟨behind, c, hdata, hno, hc, by omega, ?_⟩
    rw [hcast, hcolon]
  · cases h

theorem placed_field {p : Parser} (h : Placed (fun _ => True) p)
    (hst : p.ctx.parserState = .headerFieldOut) :
    ∃ st : Nat, p.ctx.currentHeaderName.start = st ∧ (st : Int) ≤ p.inp.eod := by
  cases h with
  | start s' | line s' | fieldIn s' | body s' => cases hst.symm.trans s'
  | fieldOut _ lo le hi =>
      obtain ⟨st, hstart⟩ := Int.eq_ofNat_of_zero_le lo
      exact ⟨st, hstart, by rw [← hstart]; exact Int.le_trans le hi⟩

theorem processHeader_ranges (p : Parser) :
    (processHeader p).2.ctx.currentHeaderName = p.ctx.currentHeaderName ∧
      (processHeader p).2.ctx.currentHeaderValue = p.ctx.currentHeaderValue := by
  unfold processHeader
  simp only
  split
  · split <;> exact ⟨rfl, rfl⟩
  · split
    · split
      · exact ⟨rfl, rfl⟩
      · split <;> exact ⟨rfl, rfl⟩
    · exact ⟨rfl, rfl⟩

theorem RangesIn.same {line : List UInt8} {c c' : Ctx} {s : Stream} (h : RangesIn line c s)
    (hname : c'.currentHeaderName = c.currentHeaderName)
    (hvalue : c'.currentHeaderValue = c.currentHeaderValue) : RangesIn line c' s := by
  obtain ⟨h1, h2, h3, h4, h5, h6, h7⟩ := h
  exact ⟨by rw [hname]; exact h1, by rw [hname]; exact h2, by rw [hname, hvalue]; exact h3,
    by rw [hvalue]; exact h4, by rw [hvalue]; exact h5, by rw [hname]; exact h6,
    by rw [hvalue]; exact h7⟩

theorem headerCall_calls {p q : Parser} {line : List UInt8} {c : Call}
    (hst : p.ctx.parserState = .headerFieldOut) (h : headerCall pf p = some (line, q))
    (hc : (dispatch pf l.parse cbs p).calls = p.calls ++ [c]) :
    c = ⟨.header, (processHeader q).2.ctx, q.inp⟩ := by
  have hcalls : q.calls = p.calls := by
    unfold headerCall at h
    simp only at h
    split at h
    · obtain ⟨_, -, heq⟩ := Option.map_eq_some_iff.mp h
      cases heq
      rfl
    · cases h
  obtain ⟨hinp, hsame, -, -⟩ := processHeader_frame q
  rw [hcalls] at hsame
  obtain ⟨n, -, hdisp⟩ := dispatch_headerCall l.parse cbs hst h
  rw [hdisp] at hc
  generalize processHeader q = res at hc hinp hsame
  obtain ⟨r, q'⟩ := res
  simp only at hinp hsame hc ⊢
  have hnone : q'.calls ≠ p.calls ++ [c] := by
    rw [hsame]
    exact fun heq => absurd (congrArg List.length heq) (by simp)
  cases r with
  | needMore =>
      cases hcb : cbs.header with
      | none =>
          rw [hcb] at hc
          exact absurd hc hnone
      | some f =>
          rw [hcb] at hc
          have hadd : q'.calls ++ [⟨.header, q'.ctx, q'.inp⟩] = p.calls ++ [c] := by
            simp only at hc
            split at hc <;> exact hc
          rw [hsame] at hadd
          have hlast := List.append_cancel_left hadd
          cases hlast
          rw [hinp]
  | _ => exact absurd hc hnone

/-- **The ranges that `process_header` and `header_cb` are given lie in the
received line, and are its name and its value, exactly when something other
than a blank stands behind the `':'`.**  On any stream, cut in any way. -/
theorem header_ranges_iff (pf : Platform) (l : FirstLine) (cbs : Callbacks) (errno : Int)
    (s : Stream) (reads rest : List Read) (p q : Parser) (line : List UInt8) (h0 : 0 ≤ s.pos)
    (hle : s.pos ≤ s.eod + 2)
    (hreach : Reaches (loopStep pf l.parse cbs) ⟨.top, .init s errno, reads⟩ ⟨.dispatch, p, rest⟩)
    (hst : p.ctx.parserState = .headerFieldOut) (hcall : headerCall pf p = some (line, q)) :
    (∃ behind, p.inp.data.drop p.ctx.currentHeaderName.start.toNat =
      line ++ CR :: LF :: behind ∧ NoCrlf line) ∧
    ((RangesIn line q.ctx q.inp ∧
      ∀ c, (dispatch pf l.parse cbs p).calls = p.calls ++ [c] → RangesIn line c.ctx c.inp) ↔
      ∃ b ∈ behindColon line, ISSPACE b = false) := by
  have hplaced : Placed (fun _ => True) p := placed_reaches h0 hle hreach
  obtain ⟨st, hstart, hrecv⟩ := placed_field hplaced hst
  obtain ⟨behind, c, hdata, hno, hcolon, hmax, hq⟩ :=
    headerCall_line hstart (by omega) hcall
  obtain ⟨hsplit, hname⟩ := split_colon hcolon
  refine ⟨⟨behind, by rw [hstart, Int.toNat_natCast]; exact hdata, hno⟩, ?_⟩
  have hlen : line.length = (nameOf line).length + 1 + (behindColon line).length := by
    conv_lhs => rw [hsplit]
    simp only [List.length_append, List.length_cons]
    omega
  have hdata' : p.inp.data.drop st =
      nameOf line ++ COLON :: (behindColon line ++ CR :: LF :: behind) := by
    rw [hdata]
    conv_lhs => rw [hsplit]
    simp
  obtain ⟨hd, -, hn, hv⟩ := headerLine_line pf.nullOff hstart hdata' (by omega)
  have hcast : (st : Int) + line.length =
      (st : Int) + ((nameOf line).length + 1 + (behindColon line).length) := by omega
  rw [hcast] at hq
  rw [← hq] at hd hn hv
  have hiff : RangesIn line q.ctx q.inp ↔ ∃ b ∈ behindColon line, ISSPACE b = false :=
    rangesIn_iff pf.nullOff_neg rfl rfl hd hn hv
  rw [← hiff]
  refine ⟨fun h => h.1, fun h => ⟨h, fun c hc => ?_⟩⟩
  rw [headerCall_calls hst hcall hc]
  obtain ⟨hpn, hpv⟩ := processHeader_ranges q
  exact h.same hpn hpv

end

/-! ### One header with a value, and one without -/

/-- A request with one header line, in one read. -/
def headerRequest (line : List UInt8) : List Read :=
  [.bytes (ascii "GET / HTTP/1.1\r\n" ++ line ++ crlf ++ crlf) []]

/-- What is looked at of the loop at a header line: the line, and the ranges
that are computed. -/
def LoopState.ranges (t : LoopState) : Option (List UInt8 × Range × Range) :=
  if t.pc = .dispatch ∧ t.par.ctx.parserState = .headerFieldOut then
    (headerCall .keeping t.par).map fun x =>
      (x.1, x.2.ctx.currentHeaderName, x.2.ctx.currentHeaderValue)
  else none

/-- The seventh step of the loop is the one on the header line. -/
theorem reaches_header (line : List UInt8) (name value : Range)
    (h : (steps (loopStep .keeping (FirstLine.request .getRoot).parse .accepting) 7
      ⟨.top, .init ⟨[], [], 0⟩ 0, headerRequest line⟩).bind LoopState.ranges =
        some (line, name, value)) :
    ∃ p q rest, Reaches (loopStep .keeping (FirstLine.request .getRoot).parse .accepting)
        ⟨.top, .init ⟨[], [], 0⟩ 0, headerRequest line⟩ ⟨.dispatch, p, rest⟩ ∧
      p.ctx.parserState = .headerFieldOut ∧ headerCall .keeping p = some (line, q) ∧
      q.ctx.currentHeaderName = name ∧ q.ctx.currentHeaderValue = value := by
  obtain ⟨⟨pc, p, rest⟩, hsteps, hobs⟩ := Option.bind_eq_some_iff.mp h
  unfold LoopState.ranges at hobs
  split at hobs
  · rename_i hat
    obtain ⟨rfl, hst⟩ := hat
    obtain ⟨⟨ln, q⟩, hcall, heq⟩ := Option.map_eq_some_iff.mp hobs
    cases heq
    exact ⟨p, q, rest, reaches_of_steps hsteps, hst, hcall, rfl, rfl⟩
  · cases hobs

theorem header_ranges_iff_value : ∃ p q rest,
    Reaches (loopStep .keeping (FirstLine.request .getRoot).parse .accepting)
        ⟨.top, .init ⟨[], [], 0⟩ 0, headerRequest (ascii "A: b")⟩ ⟨.dispatch, p, rest⟩ ∧
      p.ctx.parserState = .headerFieldOut ∧ headerCall .keeping p = some (ascii "A: b", q) ∧
      RangesIn (ascii "A: b") q.ctx q.inp := by
  obtain ⟨p, q, rest, hreach, hst, hcall, -, -⟩ :=
    reaches_header (ascii "A: b") ⟨16, 17⟩ ⟨19, 20⟩ (by decide +kernel)
  refine ⟨p, q, rest, hreach, hst, hcall, ?_⟩
  exact ((header_ranges_iff .keeping (.request .getRoot) .accepting 0 ⟨[], [], 0⟩ _ rest p q _
    (by decide) (by decide) hreach hst hcall).2.mpr ⟨98, by decide, by decide⟩).1

/-- **The value of a header with nothing behind its `':'` starts before the
buffer.** -/
theorem header_range_null : ∃ p q rest,
    Reaches (loopStep .keeping (FirstLine.request .getRoot).parse .accepting)
        ⟨.top, .init ⟨[], [], 0⟩ 0, headerRequest (ascii "A:")⟩ ⟨.dispatch, p, rest⟩ ∧
      p.ctx.parserState = .headerFieldOut ∧ headerCall .keeping p = some (ascii "A:", q) ∧
      q.ctx.currentHeaderValue = ⟨-1, 18⟩ ∧ ¬ RangesIn (ascii "A:") q.ctx q.inp := by
  obtain ⟨p, q, rest, hreach, hst, hcall, hname, hvalue⟩ :=
    reaches_header (ascii "A:") ⟨16, 17⟩ ⟨-1, 18⟩ (by decide +kernel)
  refine ⟨p, q, rest, hreach, hst, hcall, hvalue, fun h => ?_⟩
  have := h.name_lt
  rw [hname, hvalue] at this
  exact absurd this (by decide)

end MnHttp
