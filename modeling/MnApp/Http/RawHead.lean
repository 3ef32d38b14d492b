/-
# `MnApp.Http.RawHead` — the head of any stream that parses

`MnApp.Http.Head` follows a message that is known to be well formed.  Here
nothing is known of the lines but where they end: a first line, non-empty
lines, an empty line.  If a call returns 0 at all, it has come to that empty
line (`head_passes`), and on the way

  * the framing kept whatever property the lines of this head keep,
  * `body_cb` was not called,
  * and, for a stream of at most `INT_MAX` bytes, `pos` is at the start of
    the empty line unless a read ended inside it.

No bound is put on the lines or the reads for the first two: a length that
does not fit in an `int` only makes a scan fail.
-/
import MnApp.Http.Head

namespace MnHttp

open CLib Loop

/-! ## What the functions leave alone -/

/-- What a function that parses a first line does besides: nothing to the
calls, the framing or the data. -/
structure LineFrame (p : Parser) (r : Res) (q : Parser) : Prop where
  calls : q.calls = p.calls
  framing : q.ctx.framing = p.ctx.framing
  data : q.inp.data = p.inp.data
  ok : r = .ok → ∃ n,
    findcrlf (p.inp.mem p.ctx.firstLine.start) (toInt (p.inp.eod - p.ctx.firstLine.start)) =
      some n ∧
    q.ctx.parserState = .headerFieldIn ∧ q.inp.pos = p.ctx.firstLine.start + n + 2
  wait : r = .needMore → q = p.toEod ∧
    findcrlf (p.inp.mem p.ctx.firstLine.start) (toInt (p.inp.eod - p.ctx.firstLine.start)) = none

theorem parseVersion_frame {p q : Parser} {t : Int} {e : Except Res Int}
    (h : parseVersion p t = (e, q)) :
    q.calls = p.calls ∧ q.inp = p.inp ∧ q.ctx.framing = p.ctx.framing ∧
      ∀ r, e = .error r → r ≠ .ok ∧ r ≠ .needMore := by
  unfold parseVersion at h
  simp only at h
  split at h
  · cases h
    exact ⟨rfl, rfl, rfl, fun r hr => by cases hr; simp⟩
  · have h₁ := noteErrno_same p (strtol (p.inp.mem (t + 5)) 10)
    split at h
    · cases h
      exact ⟨h₁.1, h₁.2, rfl, fun r hr => by cases hr; simp⟩
    · split at h
      · cases h
        exact ⟨h₁.1, h₁.2, rfl, fun r hr => by cases hr; simp⟩
      · split at h
        · cases h
          exact ⟨(noteErrno_same _ _).1.trans h₁.1, (noteErrno_same _ _).2.trans h₁.2, rfl,
            fun r hr => by cases hr; simp⟩
        · cases h
          exact ⟨(noteErrno_same _ _).1.trans h₁.1, (noteErrno_same _ _).2.trans h₁.2, rfl,
            fun _ hr => (by cases hr)⟩

theorem LineFrame.done {p q : Parser} {n : Nat} (hcalls : q.calls = p.calls)
    (hframing : q.ctx.framing = p.ctx.framing) (hinp : q.inp = p.inp)
    (hn : findcrlf (p.inp.mem p.ctx.firstLine.start)
      (toInt (p.inp.eod - p.ctx.firstLine.start)) = some n) :
    LineFrame p .ok (q.lineDone (p.ctx.firstLine.start + n)) := by
  have hdata : q.inp.data = p.inp.data := congrArg Stream.data hinp
  refine ⟨hcalls, hframing, hdata, fun _ => ⟨n, hn, rfl, ?_⟩, fun h => (by cases h)⟩
  simp only [Parser.lineDone, Stream.pos_advance]
  omega

theorem LineFrame.refused {p q : Parser} {r : Res} (hok : r ≠ .ok) (hmore : r ≠ .needMore)
    (hcalls : q.calls = p.calls) (hframing : q.ctx.framing = p.ctx.framing)
    (hinp : q.inp = p.inp) : LineFrame p r q :=
  ⟨hcalls, hframing, congrArg Stream.data hinp, fun h => absurd h hok, fun h => absurd h hmore⟩

theorem LineFrame.waits {p : Parser}
    (hnone : findcrlf (p.inp.mem p.ctx.firstLine.start)
      (toInt (p.inp.eod - p.ctx.firstLine.start)) = none) : LineFrame p .needMore p.toEod :=
  ⟨rfl, rfl, rfl, fun h => (by cases h), fun _ => ⟨rfl, hnone⟩⟩

theorem parseRequestLine_frame (p : Parser) :
    LineFrame p (parseRequestLine p).1 (parseRequestLine p).2 := by
  unfold parseRequestLine
  simp only
  split
  · rename_i hnone
    exact .waits hnone
  rename_i n hn
  iterate 5
    split
    · exact .refused (by simp) (by simp) rfl rfl rfl
  split
  · rename_i heq
    obtain ⟨h1, h2, h3, h4⟩ := parseVersion_frame heq
    obtain ⟨hok, hmore⟩ := h4 _ rfl
    exact .refused hok hmore h1 h3 h2
  · rename_i heq
    obtain ⟨h1, h2, h3, -⟩ := parseVersion_frame heq
    exact .done h1 h3 h2 hn

theorem parseStatusLine_frame (p : Parser) :
    LineFrame p (parseStatusLine p).1 (parseStatusLine p).2 := by
  unfold parseStatusLine
  simp only
  split
  · rename_i hnone
    exact .waits hnone
  rename_i n hn
  split
  · exact .refused (by simp) (by simp) rfl rfl rfl
  split
  · rename_i heq
    obtain ⟨h1, h2, h3, h4⟩ := parseVersion_frame heq
    obtain ⟨hok, hmore⟩ := h4 _ rfl
    exact .refused hok hmore h1 h3 h2
  rename_i heq
  obtain ⟨h1, h2, h3, -⟩ := parseVersion_frame heq
  split
  · exact .refused (by simp) (by simp) h1 h3 h2
  · -- the status is a number too
    rename_i q _ k _
    obtain ⟨h4, h5⟩ := noteErrno_same q (strtol (q.inp.mem _) 10)
    split
    · exact .refused (by simp) (by simp) (h4.trans h1) h3 (h5.trans h2)
    · exact .done (h4.trans h1) h3 (h5.trans h2) hn

theorem FirstLine.parse_frame (l : FirstLine) (p : Parser) :
    LineFrame p (l.parse p).1 (l.parse p).2 := by
  cases l with
  | request _ => exact parseRequestLine_frame p
  | status _ => exact parseStatusLine_frame p

theorem processHeader_frame (p : Parser) :
    (processHeader p).2.inp = p.inp ∧ (processHeader p).2.calls = p.calls ∧
      (processHeader p).2.ctx.currentHeaderName = p.ctx.currentHeaderName ∧
      (processHeader p).1 ≠ .ok := by
  unfold processHeader
  simp only
  split
  · split
    · exact ⟨rfl, rfl, rfl, fun h => (by cases h)⟩
    · exact ⟨(noteErrno_same _ _).2, (noteErrno_same _ _).1, rfl, fun h => (by cases h)⟩
  · split
    · split
      · exact ⟨rfl, rfl, rfl, fun h => (by cases h)⟩
      · split <;> exact ⟨rfl, rfl, rfl, fun h => (by cases h)⟩
    · exact ⟨rfl, rfl, rfl, fun h => (by cases h)⟩

theorem headerLine_behind (nullOff : Int) (p : Parser) {st n c k : Nat} (hc : c ≤ n)
    (hk : st + n < k) :
    (headerLine nullOff ((st : Int) + n) ((st : Int) + c) p).inp.data.drop k =
      p.inp.data.drop k := by
  have h1 : ((st : Int) + n).toNat = st + n := by omega
  have h2 : ((st : Int) + c).toNat = st + c := by omega
  simp only [headerLine]
  rw [Stream.data_zero, Stream.data_zero, h1, h2, List.drop_set_of_lt (by omega),
    List.drop_set_of_lt (by omega)]

theorem findcrlf_le {s : Stream} {st n : Nat} (hlo : (st : Int) ≤ s.eod + 2)
    (hf : findcrlf (s.mem st) (toInt (s.eod - st)) = some n) : (st : Int) ≤ s.eod := by
  by_contra hlt
  have hneg : toInt (s.eod - st) = s.eod - st := toInt_of_le (by omega) (by unfold intMax; omega)
  have hzero : (s.eod - st).toNat = 0 := by omega
  rw [hneg] at hf
  unfold findcrlf at hf
  rw [hzero, List.take_zero] at hf
  cases hf

/-- A scan that finds a CR LF finds the right one, whatever its length was
narrowed to. -/
theorem findcrlf_some {s : Stream} {st n : Nat} {more line rest : List UInt8} (hl : NoCrlf line)
    (h : (s.data ++ more).drop st = line ++ CR :: LF :: rest) (hlo : (st : Int) ≤ s.eod + 2)
    (hf : findcrlf (s.mem st) (toInt (s.eod - st)) = some n) :
    n = line.length ∧ (st : Int) + line.length + 2 ≤ s.eod := by
  have hlo := findcrlf_le hlo hf
  have hle : toInt (s.eod - st) ≤ s.eod - st := toInt_le (by omega)
  have hnat : (s.eod - st).toNat = s.data.length - st := by unfold Stream.eod; omega
  have hst : st ≤ s.data.length := by unfold Stream.eod at hlo; omega
  have hwin : (s.mem st).take (toInt (s.eod - st)).toNat =
      (line ++ CR :: LF :: rest).take (toInt (s.eod - st)).toNat := by
    have hk : (toInt (s.eod - st)).toNat ≤ s.data.length - st := by omega
    calc (s.mem st).take (toInt (s.eod - st)).toNat
        = ((s.mem st).take (s.data.length - st)).take (toInt (s.eod - st)).toNat := by
          rw [List.take_take, Nat.min_eq_left hk]
      _ = ((line ++ CR :: LF :: rest).take (s.data.length - st)).take
            (toInt (s.eod - st)).toNat := by
          rw [mem_take hst, drop_eq_take h]
      _ = _ := by rw [List.take_take, Nat.min_eq_left hk]
  unfold findcrlf at hf
  rw [hwin, firstCrlf_take hl] at hf
  split at hf
  · rename_i hc
    cases hf
    exact ⟨rfl, by omega⟩
  · cases hf

/-! ## The phases of the head -/

/-- Lines with their CR LF. -/
def rawLines (ls : List (List UInt8)) : List UInt8 := ls.flatMap fun l => l ++ crlf

/-- A first line and non-empty lines. -/
structure RawHead where
  first : List UInt8
  lines : List (List UInt8)
  first_ok : NoCrlf first
  lines_ok : ∀ l ∈ lines, NoCrlf l ∧ l ≠ []

/-- Its bytes, without the empty line. -/
def RawHead.bytes (H : RawHead) : List UInt8 := H.first ++ crlf ++ rawLines H.lines

/-- Every line leaves room for a read of `R` bytes behind it in an `int`. -/
def RawHead.Fits (R : Nat) (H : RawHead) : Prop :=
  ∀ l ∈ [] :: H.first :: H.lines, (l.length : Int) + 1 + R ≤ intMax

/-- From `st` on the stream holds `text`, the empty line at `b`, and `Y`. -/
structure Mark (text Y : List UInt8) (b st : Nat) (s : Stream) (reads : List Read) : Prop where
  stream : (s.data ++ pending reads).drop st = text ++ CR :: LF :: Y
  place : st + text.length = b

/-- A line of `n` bytes is awaited at `st`, and at most one read reaches beyond
it. -/
structure Room (R n st : Nat) (s : Stream) : Prop where
  pos_le : s.pos - st ≤ n + 1
  eod_le : s.eod - st ≤ n + 1 + R

/-- The line that is next. -/
def nextLine (ls : List (List UInt8)) : List UInt8 := ls.head?.getD []

/-- Where in the head the parser is.  What is known of `pos` is known only if
the lengths are `tight`: then `pos` is at the start of the empty line or, if
a read has `cut` it, behind its CR. -/
inductive Phase (H : RawHead) (Y : List UInt8) (b R : Nat) (tight cut : Prop) (p : Parser)
    (reads : List Read) : Prop
  | start (st : Nat) (state : p.ctx.parserState = .start) (pos : p.inp.pos = st)
      (le : (st : Int) ≤ p.inp.eod + 2) (mark : Mark H.bytes Y b st p.inp reads)
      (room : tight → p.inp.eod - st ≤ R)
  | line (st : Nat) (state : p.ctx.parserState = .line) (start : p.ctx.firstLine.start = st)
      (le : (st : Int) ≤ p.inp.eod + 2) (mark : Mark H.bytes Y b st p.inp reads)
      (room : tight → Room R H.first.length st p.inp)
  | fieldIn (st : Nat) (ls : List (List UInt8)) (sub : ∀ l ∈ ls, l ∈ H.lines)
      (state : p.ctx.parserState = .headerFieldIn) (pos : p.inp.pos = st)
      (le : (st : Int) ≤ p.inp.eod) (mark : Mark (rawLines ls) Y b st p.inp reads)
      (room : tight → p.inp.eod - st ≤ R)
  | fieldOut (st : Nat) (ls : List (List UInt8)) (sub : ∀ l ∈ ls, l ∈ H.lines)
      (state : p.ctx.parserState = .headerFieldOut)
      (start : p.ctx.currentHeaderName.start = st)
      (le : (st : Int) ≤ p.inp.eod) (mark : Mark (rawLines ls) Y b st p.inp reads)
      (room : tight → Room R (nextLine ls).length st p.inp)
      (pos : tight → ls = [] →
        p.inp.pos = st ∨ (p.inp.pos = st + 1 ∧ (st : Int) + 1 ≤ p.inp.eod ∧ cut))

/-- The framing property is kept by every header line of the head. -/
def KeepsFraming (F : Framing → Prop) (ls : List (List UInt8)) : Prop :=
  ∀ l ∈ ls, ∀ (nullOff : Int) (p q : Parser) (st c : Nat) (behind : List UInt8),
    p.ctx.currentHeaderName.start = st → p.inp.data.drop st = l ++ CR :: LF :: behind →
    l.findIdx? (· == COLON) = some c → F p.ctx.framing →
    processHeader (headerLine nullOff ((st : Int) + l.length) ((st : Int) + c) p) = (.needMore, q) →
    F q.ctx.framing

/-- No read is longer than `R`. -/
def SmallReads (R : Nat) (reads : List Read) : Prop := ∀ r ∈ reads, r.payload.length ≤ R

/-- The invariant of the head. -/
structure HeadInv (H : RawHead) (Y : List UInt8) (b R : Nat) (F : Framing → Prop)
    (tight cut : Prop) (t : LoopState) : Prop where
  phase : Phase H Y b R tight cut t.par t.reads
  framing : F t.par.ctx.framing
  calls : ∀ c ∈ t.par.calls, c.kind ≠ .body
  small : tight → SmallReads R t.reads
  cuts : tight → t.par.inp.pos ≤ b → (Cuts t.par.inp.eod t.reads ((b : Int) + 1) ↔ cut)

/-- The loop is about to leave the head: its empty line is complete. -/
structure BlankNow (Y : List UInt8) (b R : Nat) (F : Framing → Prop) (tight cut : Prop)
    (p : Parser) (reads : List Read) : Prop where
  state : p.ctx.parserState = .headerFieldOut
  start : p.ctx.currentHeaderName.start = b
  found : findcrlf (p.inp.mem b) (toInt (p.inp.eod - b)) = some 0
  complete : (b : Int) + 2 ≤ p.inp.eod
  stream : (p.inp.data ++ pending reads).drop (b + 2) = Y
  framing : F p.ctx.framing
  calls : ∀ c ∈ p.calls, c.kind ≠ .body
  small : tight → SmallReads R reads
  bounded : tight → p.inp.eod - b ≤ 1 + R
  pos : tight → (p.inp.pos = b ∧ ¬ cut) ∨ (p.inp.pos = b + 1 ∧ cut)

section
variable {text Y : List UInt8} {b st R n : Nat} {s : Stream} {reads : List Read}

theorem Mark.consume {bs slack : List UInt8}
    (h : Mark text Y b st s (.bytes bs slack :: reads)) :
    Mark text Y b st (s.consume bs slack) reads where
  stream := by simpa [Read.payload] using h.stream
  place := h.place

theorem Room.consume {bs slack : List UInt8} (h : Room R n st s) (hbs : bs.length ≤ R)
    (hmore : s.eod ≤ s.pos) : Room R n st (s.consume bs slack) where
  pos_le := h.pos_le
  eod_le := by
    have := h.pos_le
    rw [Stream.eod_consume]
    omega

theorem Mark.next {line more : List UInt8} {s' : Stream} {st' : Nat}
    (h : Mark (line ++ crlf ++ more) Y b st s reads) (hst : st' = st + line.length + 2)
    (hle : (st' : Int) ≤ s.eod) (heod : s'.eod = s.eod)
    (hdrop : s'.data.drop st' = s.data.drop st') :
    Mark more Y b st' s' reads where
  stream := by
    have hs : (s.data ++ pending reads).drop st' = more ++ CR :: LF :: Y := by
      rw [hst, Nat.add_assoc, ← List.drop_drop, h.stream]
      have : line ++ crlf ++ more ++ CR :: LF :: Y = (line ++ crlf) ++ (more ++ CR :: LF :: Y) := by
        simp
      rw [this, List.drop_left' (by simp [crlf])]
    rw [← hs]
    unfold Stream.eod at *
    rw [List.drop_append_of_le_length (by omega), List.drop_append_of_le_length (by omega), hdrop]
  place := by
    have := h.place
    simp only [List.length_append, crlf, List.length_cons, List.length_nil] at this
    omega

theorem Mark.line_le {line more : List UInt8} (h : Mark (line ++ crlf ++ more) Y b st s reads) :
    st + line.length + 2 ≤ b := by
  have := h.place
  simp only [List.length_append, crlf, List.length_cons, List.length_nil] at this
  omega

theorem SmallReads.tail {r : Read} (h : SmallReads R (r :: reads)) : SmallReads R reads :=
  fun x hx => h x (List.mem_cons_of_mem _ hx)

/-- A scan in vain, when the lengths fit: the line is not complete, and `pos`
goes to the end of the data. -/
theorem Room.wait {line rest : List UInt8} (hr : Room R line.length st s)
    (hfit : (line.length : Int) + 1 + R ≤ intMax) (hl : NoCrlf line)
    (hstream : (s.data ++ pending reads).drop st = line ++ CR :: LF :: rest)
    (hle : (st : Int) ≤ s.eod + 2)
    (hnone : findcrlf (s.mem st) (toInt (s.eod - st)) = none) :
    s.eod - st ≤ line.length + 1 ∧ Room R line.length st (s.advance (s.eod - s.pos)) := by
  have heod := hr.eod_le
  have hf := findcrlf_eq hl hstream hle (by omega)
  rw [hnone] at hf
  have hinc : s.eod - st ≤ line.length + 1 := by
    by_contra hc
    rw [if_pos (by omega)] at hf
    cases hf
  exact ⟨hinc, by rw [Stream.pos_advance]; omega, by rw [Stream.eod_advance]; omega⟩

end

theorem cuts_step {b : Nat} {e : Int} {r : Read} {reads : List Read} {cut : Prop}
    (h : Cuts e (r :: reads) ((b : Int) + 1) ↔ cut) (he : e ≤ b) :
    Cuts (e + r.payload.length) reads ((b : Int) + 1) ↔ cut := by
  rw [← h]
  constructor
  · exact Or.inr
  · rintro (h | h)
    · omega
    · exact h

/-! ## One step -/

section
variable (pf : Platform) (l : FirstLine) (cbs : Callbacks) {H : RawHead} {Y : List UInt8}
variable {b R : Nat} {F : Framing → Prop} {tight cut : Prop} {p : Parser} {reads : List Read}

theorem mem_callback {kind : CallKind} {cb : Option Callback} {c : Call}
    (h : c ∈ (p.callback kind cb).2.calls) : c ∈ p.calls ∨ c = ⟨kind, p.ctx, p.inp⟩ := by
  cases cb with
  | none => exact .inl h
  | some f =>
      rcases List.mem_append.mp h with h | h
      · exact .inl h
      · exact .inr (List.mem_singleton.mp h)

theorem calls_append {kind : CallKind} (hk : kind ≠ .body) (h : ∀ c ∈ p.calls, c.kind ≠ .body)
    (cb : Option Callback) : ∀ c ∈ (p.callback kind cb).2.calls, c.kind ≠ .body := by
  intro c hc
  rcases mem_callback hc with hc | rfl
  · exact h c hc
  · exact hk

/-- Before the empty line `pos` is not behind its start. -/
theorem Phase.pos_le (h : Phase H Y b R tight cut p reads) (ht : tight) :
    p.inp.pos ≤ b ∨ (p.inp.pos = b + 1 ∧ (b : Int) + 1 ≤ p.inp.eod ∧ cut) := by
  cases h with
  | start st state pos le mark room =>
      have := mark.place
      exact .inl (by omega)
  | line st state start le mark room =>
      have := (room ht).pos_le
      have hmark : Mark (H.first ++ crlf ++ rawLines H.lines) Y b st p.inp reads := mark
      have := hmark.line_le
      exact .inl (by omega)
  | fieldIn st ls sub state pos le mark room =>
      have := mark.place
      exact .inl (by omega)
  | fieldOut st ls sub state start le mark room pos =>
      cases ls with
      | nil =>
          have hst : st = b := mark.place
          subst hst
          rcases pos ht rfl with hp | hp
          · exact .inl (by omega)
          · exact .inr hp
      | cons ln ls =>
          have := (room ht).pos_le
          have hmark : Mark (ln ++ crlf ++ rawLines ls) Y b st p.inp reads := by
            simpa [rawLines] using mark
          have := hmark.line_le
          simp only [nextLine, List.head?_cons, Option.getD_some] at *
          exact .inl (by omega)

theorem Phase.consume {bs slack : List UInt8} (hm : p.inp.eod ≤ p.inp.pos)
    (hsmall : tight → bs.length ≤ R)
    (h : Phase H Y b R tight cut p (.bytes bs slack :: reads)) :
    Phase H Y b R tight cut { p with inp := p.inp.consume bs slack } reads := by
  have heod : (p.inp.consume bs slack).eod = p.inp.eod + bs.length := Stream.eod_consume _ _ _
  cases h with
  | start st state pos le mark room =>
      refine .start st state pos (by simp only [heod]; omega) mark.consume fun ht => ?_
      have := hsmall ht
      simp only [heod]
      omega
  | line st state start le mark room =>
      exact .line st state start (by simp only [heod]; omega) mark.consume
        fun ht => (room ht).consume (hsmall ht) hm
  | fieldIn st ls sub state pos le mark room =>
      refine .fieldIn st ls sub state pos (by simp only [heod]; omega) mark.consume fun ht => ?_
      have := hsmall ht
      simp only [heod]
      omega
  | fieldOut st ls sub state start le mark room pos =>
      refine .fieldOut st ls sub state start (by simp only [heod]; omega) mark.consume
        (fun ht => (room ht).consume (hsmall ht) hm) fun ht hnil => ?_
      rcases pos ht hnil with hp | ⟨hp, hle, hcut⟩
      · exact .inl hp
      · exact .inr ⟨hp, by simp only [heod]; omega, hcut⟩

theorem head_top (h : HeadInv H Y b R F tight cut ⟨.top, p, reads⟩) :
    (∀ t, loopStep pf l.parse cbs ⟨.top, p, reads⟩ = .again t →
      t.pc = .dispatch ∧ HeadInv H Y b R F tight cut t) ∧
    ∀ q reads', loopStep pf l.parse cbs ⟨.top, p, reads⟩ ≠ .done (.returned .ok q reads') := by
  refine ⟨fun t hagain => ?_, fun q reads' hdone => ?_⟩
  · cases loopStep_again_iff.mp hagain with
    | read hmore =>
        refine ⟨rfl, h.phase.consume hmore fun ht => h.small ht _ List.mem_cons_self, h.framing,
          h.calls, fun ht => (h.small ht).tail, fun ht hpos => ?_⟩
        have hcut := h.cuts ht hpos
        have hpos' : p.inp.pos ≤ b := hpos
        have := cuts_step hcut (show p.inp.eod ≤ b by omega)
        simpa [Read.payload] using this
    | look => exact ⟨rfl, h.phase, h.framing, h.calls, h.small, h.cuts⟩
  · -- at the top the loop only stops without a message
    generalize hout : Outcome.returned .ok q reads' = out at hdone
    cases loopStep_done_iff.mp hdone with
    | blocked => cases hout
    | fail =>
        rw [Outcome.returned.injEq] at hout
        obtain ⟨hres, -⟩ := hout
        split at hres <;> cases hres

theorem head_line (hfit : tight → H.Fits R) {st : Nat}
    (h : HeadInv H Y b R F tight cut ⟨.dispatch, p, reads⟩)
    (state : p.ctx.parserState = .line) (start : p.ctx.firstLine.start = st)
    (le : (st : Int) ≤ p.inp.eod + 2) (mark : Mark H.bytes Y b st p.inp reads)
    (room : tight → Room R H.first.length st p.inp) :
    (∀ q, dispatch pf l.parse cbs p = .again q →
      HeadInv H Y b R F tight cut ⟨.top, q, reads⟩) ∧
      ∀ q, dispatch pf l.parse cbs p ≠ .ret .ok q := by
  have hframe := l.parse_frame p
  have hmark : Mark (H.first ++ crlf ++ rawLines H.lines) Y b st p.inp reads := mark
  have hstream : (p.inp.data ++ pending reads).drop st =
      H.first ++ CR :: LF :: (rawLines H.lines ++ CR :: LF :: Y) := by
    rw [hmark.stream]; simp [crlf]
  -- `pos` has not come to the empty line
  have hpos : tight → p.inp.pos ≤ b := fun ht => by
    have := (room ht).pos_le
    have := hmark.line_le
    omega
  unfold dispatch
  simp only [state]
  split
  · -- not complete yet
    rename_i q₁ heq
    rw [heq] at hframe
    obtain ⟨hq, hnone⟩ := hframe.wait rfl
    simp only at hq
    rw [start] at hnone
    refine ⟨?_, fun _ h => (by cases h)⟩
    rintro q hq'
    cases hq'
    subst hq
    refine ⟨.line st state start le ⟨mark.stream, mark.place⟩ fun ht => ?_, h.framing, h.calls,
      h.small, fun ht _ => h.cuts ht (hpos ht)⟩
    exact ((room ht).wait (hfit ht _ (by simp)) H.first_ok hstream le hnone).2
  · rename_i q₁ heq
    rw [heq] at hframe
    obtain ⟨n, hfound, hst, hqpos⟩ := hframe.ok rfl
    simp only at hst hqpos
    rw [start] at hfound hqpos
    obtain ⟨hn, hcomplete⟩ := findcrlf_some H.first_ok hstream le hfound
    have hdata : q₁.inp.data = p.inp.data := hframe.data
    have heod : q₁.inp.eod = p.inp.eod := by unfold Stream.eod; rw [hdata]
    have hnext : Mark (rawLines H.lines) Y b (st + H.first.length + 2) q₁.inp reads :=
      hmark.next rfl (by omega) heod (by rw [hdata])
    obtain ⟨hc₁, hc₂⟩ := callback_frame (p := q₁) .line cbs.line
    split
    · exact ⟨fun _ h => (by cases h), fun _ h => (by cases h)⟩
    · refine ⟨?_, fun _ h => (by cases h)⟩
      rintro q hq'
      cases hq'
      refine ⟨.fieldIn (st + H.first.length + 2) H.lines (fun _ h => h) ?_ ?_ ?_ ?_ ?_, ?_, ?_,
        h.small, ?_⟩
      · rw [hc₁]; exact hst
      · rw [hc₂, hqpos, hn]; omega
      · rw [hc₂, heod]; omega
      · rw [hc₂]; exact hnext
      · intro ht
        have := (room ht).eod_le
        rw [hc₂, heod]
        omega
      · show F (q₁.callback _ _).2.ctx.framing
        rw [hc₁]
        have hfr : q₁.ctx.framing = p.ctx.framing := hframe.framing
        rw [hfr]; exact h.framing
      · refine calls_append (by simp) ?_ _
        have hcalls : q₁.calls = p.calls := hframe.calls
        rw [hcalls]; exact h.calls
      · intro ht _
        show Cuts (q₁.callback _ _).2.inp.eod reads _ ↔ cut
        rw [hc₂, heod]
        exact h.cuts ht (hpos ht)
  · rename_i hok _
    refine ⟨fun _ h => (by cases h), ?_⟩
    rintro q hq
    cases hq
    exact hok rfl

theorem head_wait (hfit : tight → H.Fits R) {st : Nat} {ls : List (List UInt8)}
    (h : HeadInv H Y b R F tight cut ⟨.dispatch, p, reads⟩)
    (sub : ∀ l ∈ ls, l ∈ H.lines) (state : p.ctx.parserState = .headerFieldOut)
    (start : p.ctx.currentHeaderName.start = st) (le : (st : Int) ≤ p.inp.eod)
    (mark : Mark (rawLines ls) Y b st p.inp reads)
    (room : tight → Room R (nextLine ls).length st p.inp)
    (hnone : findcrlf (p.inp.mem st) (toInt (p.inp.eod - st)) = none) :
    HeadInv H Y b R F tight cut ⟨.top, p.toEod, reads⟩ := by
  have hphase : Phase H Y b R tight cut p reads := h.phase
  obtain ⟨rest, hnoc, hmem, hstream⟩ : ∃ rest, NoCrlf (nextLine ls) ∧
      nextLine ls ∈ [] :: H.first :: H.lines ∧
      (p.inp.data ++ pending reads).drop st = nextLine ls ++ CR :: LF :: rest := by
    cases ls with
    | nil => exact ⟨Y, rfl, List.mem_cons_self, mark.stream⟩
    | cons ln ls =>
        have hln := sub ln List.mem_cons_self
        refine ⟨rawLines ls ++ CR :: LF :: Y, (H.lines_ok ln hln).1, by simp [nextLine, hln], ?_⟩
        rw [mark.stream]
        simp [rawLines, crlf, nextLine]
  have hwait := fun ht => (room ht).wait (hfit ht _ hmem) hnoc hstream (by omega) hnone
  have hpos : p.toEod.inp.pos = p.inp.eod := by
    show p.inp.pos + (p.inp.eod - p.inp.pos) = _
    omega
  have hcuts : tight → p.inp.eod ≤ b → (Cuts p.inp.eod reads ((b : Int) + 1) ↔ cut) := by
    intro ht hle
    rcases hphase.pos_le ht with hp | ⟨-, hp, -⟩
    · exact h.cuts ht hp
    · omega
  refine ⟨.fieldOut st ls sub state start le ⟨mark.stream, mark.place⟩ (fun ht => (hwait ht).2) ?_,
    h.framing, h.calls, h.small, ?_⟩
  · rintro ht rfl
    have hst : st = b := mark.place
    subst hst
    have hinc := (hwait ht).1
    simp only [nextLine, List.head?_nil, Option.getD_none, List.length_nil] at hinc
    rw [hpos]
    by_cases heod : p.inp.eod = st
    · exact .inl heod
    · -- the data ends behind the CR
      have heod' : p.inp.eod = (st : Int) + 1 := by omega
      refine .inr ⟨heod', Int.le_of_eq heod'.symm, ?_⟩
      rcases hphase.pos_le ht with hp | ⟨-, -, hcut⟩
      · refine (h.cuts ht hp).mp ?_
        show Cuts p.inp.eod reads _
        rw [heod']
        exact .here _ _
      · exact hcut
  · intro ht hle
    have hle' : p.toEod.inp.pos ≤ b := hle
    rw [hpos] at hle'
    exact hcuts ht hle'

theorem head_header (hkeep : KeepsFraming F H.lines) {st : Nat} {ln : List UInt8}
    {ls : List (List UInt8)} (h : HeadInv H Y b R F tight cut ⟨.dispatch, p, reads⟩)
    (sub : ∀ l ∈ ln :: ls, l ∈ H.lines)
    (start : p.ctx.currentHeaderName.start = st)
    (mark : Mark (rawLines (ln :: ls)) Y b st p.inp reads)
    (room : tight → Room R (nextLine (ln :: ls)).length st p.inp)
    {n c : Nat} (hn : n + 1 = ln.length) (hcomplete : (st : Int) + ln.length + 2 ≤ p.inp.eod)
    (hcolon : ((p.inp.mem st).take (n + 1)).findIdx? (· == COLON) = some c) {q : Parser}
    (hproc : processHeader (headerLine pf.nullOff ((st : Int) + (n + 1)) ((st : Int) + c) p) =
      (.needMore, q)) {cb : Option Callback} :
    HeadInv H Y b R F tight cut ⟨.top, { (q.callback .header cb).2 with
      ctx := { (q.callback .header cb).2.ctx with parserState := .headerFieldIn }
      inp := (q.callback .header cb).2.inp.advance
        ((st : Int) + (n + 1) - (q.callback .header cb).2.inp.pos + 2) }, reads⟩ := by
  have hmark : Mark (ln ++ crlf ++ rawLines ls) Y b st p.inp reads := by
    simpa [rawLines] using mark
  have hassoc : ln ++ crlf ++ rawLines ls ++ CR :: LF :: Y =
      ln ++ CR :: LF :: (rawLines ls ++ CR :: LF :: Y) := by simp [crlf]
  have hstream := hmark.stream
  rw [hassoc] at hstream
  obtain ⟨behind, hdata, -⟩ := data_of_complete hstream hcomplete
  obtain ⟨hc₁, hc₂⟩ := callback_frame (p := q) .header cb
  obtain ⟨hinp, hcalls, -, -⟩ := processHeader_frame
    (headerLine pf.nullOff ((st : Int) + (n + 1)) ((st : Int) + c) p)
  rw [hproc] at hinp hcalls
  simp only at hinp hcalls
  have hqcalls : q.calls = p.calls := hcalls
  have hqinp : q.inp = (p.inp.zero ((st : Int) + c)).zero ((st : Int) + (n + 1)) := hinp
  have hmem := mem_eq_of_drop hdata (by simp)
  have htake : (p.inp.mem st).take (n + 1) = ln := by
    rw [hmem, hn, List.append_assoc, List.take_left]
  rw [htake] at hcolon
  have hclt : c < ln.length := (List.findIdx?_eq_some_iff_getElem.mp hcolon).1
  have hcast : (st : Int) + ((n : Int) + 1) = (st : Int) + ln.length := by omega
  have hdrop : q.inp.data.drop (st + ln.length + 2) = p.inp.data.drop (st + ln.length + 2) := by
    rw [hinp, hcast]
    exact headerLine_behind pf.nullOff p (by omega) (by omega)
  have heod : q.inp.eod = p.inp.eod := by rw [hqinp]; simp
  have hnext : Mark (rawLines ls) Y b (st + ln.length + 2) q.inp reads :=
    hmark.next rfl (by omega) heod hdrop
  refine ⟨.fieldIn (st + ln.length + 2) ls (fun l hl => sub l (List.mem_cons_of_mem _ hl)) rfl ?_
    ?_ ?_ ?_, ?_, ?_, h.small, ?_⟩
  · simp only [Stream.pos_advance]; omega
  · rw [hc₂, Stream.eod_advance, heod]; omega
  · rw [hc₂]
    exact ⟨hnext.stream, hnext.place⟩
  · intro ht
    have := (room ht).eod_le
    simp only [nextLine, List.head?_cons, Option.getD_some] at this
    rw [hc₂, Stream.eod_advance, heod]
    omega
  · show F (q.callback _ _).2.ctx.framing
    rw [hc₁]
    refine hkeep ln (sub ln List.mem_cons_self) pf.nullOff p q st c behind start hdata hcolon
      h.framing ?_
    rw [← hcast]; exact hproc
  · refine calls_append (by simp) ?_ _
    rw [hqcalls]; exact h.calls
  · intro ht _
    have hpos := (room ht).pos_le
    have hle := hmark.line_le
    simp only [nextLine, List.head?_cons, Option.getD_some] at hpos
    show Cuts (q.callback _ _).2.inp.eod reads _ ↔ cut
    rw [hc₂, heod]
    exact h.cuts ht (show p.inp.pos ≤ b by omega)

theorem head_blank (h : HeadInv H Y b R F tight cut ⟨.dispatch, p, reads⟩)
    (state : p.ctx.parserState = .headerFieldOut) (start : p.ctx.currentHeaderName.start = b)
    (le : (b : Int) ≤ p.inp.eod) (mark : Mark (rawLines []) Y b b p.inp reads)
    (room : tight → Room R (nextLine []).length b p.inp) {n : Nat}
    (hf : findcrlf (p.inp.mem b) (toInt (p.inp.eod - b)) = some n) :
    BlankNow Y b R F tight cut p reads := by
  have hnil : NoCrlf [] := rfl
  have hphase : Phase H Y b R tight cut p reads := h.phase
  obtain ⟨hn, hcomplete⟩ := findcrlf_some hnil mark.stream (by omega) hf
  simp only [List.length_nil] at hcomplete
  rw [hn] at hf
  refine ⟨state, start, hf, by omega, ?_, h.framing, h.calls, h.small, fun ht => ?_, fun ht => ?_⟩
  · rw [← List.drop_drop, mark.stream]
    rfl
  · have := (room ht).eod_le
    simp only [nextLine, List.head?_nil, Option.getD_none, List.length_nil] at this
    omega
  · cases hphase with
    | start _ hs => rw [state] at hs; cases hs
    | line _ hs => rw [state] at hs; cases hs
    | fieldIn _ _ _ hs => rw [state] at hs; cases hs
    | fieldOut st ls sub _ hst _ hmark _ hpos =>
        have hst' : st = b := by rw [start] at hst; omega
        subst hst'
        have hls : ls = [] := by
          have := hmark.place
          cases ls with
          | nil => rfl
          | cons ln ls =>
              simp only [rawLines, List.flatMap_cons, List.length_append, crlf,
                List.length_cons] at this
              omega
        rcases hpos ht hls with hp | ⟨hp, -, hcut⟩
        · -- all the reads came before the empty line
          refine .inl ⟨hp, fun hcut => ?_⟩
          have := ((h.cuts ht (Int.le_of_eq hp)).mpr hcut).le
          have : p.inp.eod ≤ (st : Int) + 1 := this
          omega
        · exact .inr ⟨hp, hcut⟩

theorem head_dispatch (hkeep : KeepsFraming F H.lines) (hfit : tight → H.Fits R)
    (h : HeadInv H Y b R F tight cut ⟨.dispatch, p, reads⟩) :
    BlankNow Y b R F tight cut p reads ∨
      ((∀ q, dispatch pf l.parse cbs p = .again q →
        HeadInv H Y b R F tight cut ⟨.top, q, reads⟩) ∧
        ∀ q, dispatch pf l.parse cbs p ≠ .ret .ok q) := by
  have hphase : Phase H Y b R tight cut p reads := h.phase
  cases hphase with
  | start st state pos le mark room =>
      right
      unfold dispatch
      simp only [state]
      refine ⟨?_, fun _ h => (by cases h)⟩
      rintro q hq
      cases hq
      refine ⟨.line st rfl pos le mark fun ht => ⟨?_, ?_⟩, h.framing, h.calls, h.small, h.cuts⟩
      · show p.inp.pos - st ≤ _
        omega
      · have := room ht
        show p.inp.eod - st ≤ _
        omega
  | line st state start le mark room =>
      exact .inr (head_line pf l cbs hfit h state start le mark room)
  | fieldIn st ls sub state pos le mark room =>
      right
      unfold dispatch
      simp only [state]
      refine ⟨?_, fun _ h => (by cases h)⟩
      rintro q hq
      cases hq
      refine ⟨.fieldOut st ls sub rfl pos le mark (fun ht => ⟨?_, ?_⟩) fun _ _ => .inl pos,
        h.framing, h.calls, h.small, h.cuts⟩
      · show p.inp.pos - st ≤ _
        omega
      · have := room ht
        show p.inp.eod - st ≤ _
        omega
  | fieldOut st ls sub state start le mark room pos =>
      cases hf : findcrlf (p.inp.mem st) (toInt (p.inp.eod - st)) with
      | none =>
          right
          unfold dispatch
          simp only [state, headerFieldOut, start, hf]
          refine ⟨?_, fun _ h => (by cases h)⟩
          rintro q hq
          cases hq
          exact head_wait hfit h sub state start le mark room hf
      | some n =>
          cases ls with
          | nil =>
              have hst : st = b := mark.place
              subst hst
              exact .inl (head_blank h state start le mark room hf)
          | cons ln ls =>
              right
              obtain ⟨hnoc, hne⟩ := H.lines_ok ln (sub ln List.mem_cons_self)
              have hstream : (p.inp.data ++ pending reads).drop st =
                  ln ++ CR :: LF :: (rawLines ls ++ CR :: LF :: Y) := by
                rw [mark.stream]; simp [rawLines, crlf]
              obtain ⟨hn, hcomplete⟩ := findcrlf_some hnoc hstream (by omega) hf
              have hpos : 0 < ln.length := List.length_pos_iff.mpr hne
              obtain ⟨m, rfl⟩ : ∃ m, n = m + 1 := ⟨n - 1, by omega⟩
              unfold dispatch
              simp only [state, headerFieldOut, start, hf]
              split
              · exact ⟨fun _ h => (by cases h), fun _ h => by cases h⟩
              · rename_i c hcolon
                split
                · rename_i q hproc
                  split
                  · exact ⟨fun _ h => (by cases h), fun _ h => by cases h⟩
                  · refine ⟨?_, fun _ h => (by cases h)⟩
                    rintro q' hq'
                    cases hq'
                    exact head_header pf hkeep h sub start mark room hn hcomplete hcolon hproc
                · rename_i e q hne' hproc
                  refine ⟨fun _ h => (by cases h), ?_⟩
                  rintro q' hq'
                  cases hq'
                  have := (processHeader_frame (headerLine pf.nullOff
                    ((st : Int) + ((m : Int) + 1)) ((st : Int) + c) p)).2.2.2
                  rw [hproc] at this
                  exact this rfl

/-- **A call that returns 0 has come to the empty line of the head.** -/
theorem head_passes (hkeep : KeepsFraming F H.lines) (hfit : tight → H.Fits R) {t : LoopState}
    {q : Parser} {reads' : List Read} (h : HeadInv H Y b R F tight cut t)
    (hret : Returns (loopStep pf l.parse cbs) t (.returned .ok q reads')) :
    ∃ p reads, BlankNow Y b R F tight cut p reads ∧
      Returns (loopStep pf l.parse cbs) ⟨.dispatch, p, reads⟩ (.returned .ok q reads') := by
  refine Returns.rec_run (P := fun t => HeadInv H Y b R F tight cut t → _) ?_ ?_ hret h
  · rintro ⟨pc, p, reads⟩ hdone hinv
    cases pc with
    | top => exact absurd hdone ((head_top pf l cbs hinv).2 q reads')
    | dispatch =>
        rcases head_dispatch pf l cbs hkeep hfit hinv with hblank | ⟨-, hno⟩
        · exact ⟨p, reads, hblank, .of_done hdone⟩
        · simp only [loopStep] at hdone
          split at hdone
          · cases hdone
          · cases hdone
            rename_i heq
            exact absurd heq (hno _)
  · rintro ⟨pc, p, reads⟩ t' hstep hret' ih hinv
    cases pc with
    | top => exact ih ((head_top pf l cbs hinv).1 t' hstep).2
    | dispatch =>
        rcases head_dispatch pf l cbs hkeep hfit hinv with hblank | ⟨hyes, -⟩
        · exact ⟨p, reads, hblank, .of_again hstep hret'⟩
        · simp only [loopStep] at hstep
          split at hstep
          · cases hstep
            rename_i heq
            exact ih (hyes _ heq)
          · cases hstep

end

end MnHttp
