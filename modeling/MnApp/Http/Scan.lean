/-
# `MnApp.Http.Scan` — waiting for a line, under any fragmentation

Every line of a message is awaited in the same way: scan from the saved
start of the line to the end of the data; when there is no CR LF yet, move
`pos` to the end, so that the next iteration reads; scan again from the same
start.  The stream a parser will see is what it has received followed by
what its reads will deliver, `data ++ pending reads`, and that is fixed
while it waits.

    findcrlf_eq        the scan finds the CR as soon as its LF is there
    awaitLine          from a saved start, the loop comes to the dispatch
                       with the line complete, whatever the reads are
    awaitBlank         the same for an empty line, with the one thing that
                       depends on the reads: `pos` stands one further when a
                       read ended between the CR and the LF

**Sizes.**  A scan is given its length as an `int`.  With reads of at most
`R` bytes no more than `R` bytes are ever buffered past a complete line, so
`line.length + 1 + R ≤ INT_MAX` keeps every length exact.
-/
import MnApp.Http.Parser

namespace MnHttp

open CLib Loop

/-! ## Reads -/

/-- The bytes of a read. -/
def Read.payload : Read → List UInt8
  | .bytes bs _ => bs
  | .fail _ => []

/-- What the reads will deliver. -/
def pending (reads : List Read) : List UInt8 := reads.flatMap Read.payload

@[simp] theorem pending_nil : pending [] = [] := rfl

@[simp] theorem pending_cons (r : Read) (reads : List Read) :
    pending (r :: reads) = r.payload ++ pending reads := rfl

/-- Every read delivers something, and at most `R` bytes. -/
def Delivers (R : Nat) (reads : List Read) : Prop :=
  ∀ r ∈ reads, ∃ bs slack, r = .bytes bs slack ∧ bs ≠ [] ∧ bs.length ≤ R

theorem Delivers.head {R : Nat} {r : Read} {reads : List Read} (h : Delivers R (r :: reads)) :
    ∃ bs slack, r = .bytes bs slack ∧ bs ≠ [] ∧ bs.length ≤ R := h r List.mem_cons_self

theorem Delivers.tail {R : Nat} {r : Read} {reads : List Read} (h : Delivers R (r :: reads)) :
    Delivers R reads := fun r' hr => h r' (List.mem_cons_of_mem _ hr)

theorem Delivers.nil (R : Nat) : Delivers R [] := fun _ h => absurd h List.not_mem_nil

theorem Delivers.cons {R : Nat} {bs slack : List UInt8} {reads : List Read} (hne : bs ≠ [])
    (hR : bs.length ≤ R) (h : Delivers R reads) : Delivers R (.bytes bs slack :: reads) := by
  intro r hr
  rcases List.mem_cons.mp hr with rfl | hr
  · exact ⟨bs, slack, rfl, hne, hR⟩
  · exact h r hr

/-- With `e` bytes received, a read ends (or the received bytes end) at offset
`n`. -/
def Cuts : Int → List Read → Int → Prop
  | e, [], n => e = n
  | e, r :: reads, n => e = n ∨ Cuts (e + r.payload.length) reads n

instance decCuts : ∀ (e : Int) (reads : List Read) (n : Int), Decidable (Cuts e reads n)
  | e, [], n => inferInstanceAs (Decidable (e = n))
  | e, r :: reads, n =>
      have := decCuts (e + r.payload.length) reads n
      inferInstanceAs (Decidable (e = n ∨ Cuts (e + r.payload.length) reads n))

theorem Cuts.le : ∀ {reads : List Read} {e n : Int}, Cuts e reads n → e ≤ n
  | [], _, _, h => Int.le_of_eq h
  | r :: reads, e, n, h => by
      rcases h with h | h
      · exact Int.le_of_eq h
      · have := Cuts.le h
        omega

theorem Cuts.here (e : Int) : ∀ reads : List Read, Cuts e reads e
  | [] => rfl
  | _ :: _ => .inl rfl

/-- The stream when at least `n` bytes have been received. -/
def receive (n : Int) : Stream → List Read → Stream
  | s, [] => s
  | s, .bytes bs slack :: reads =>
      if n ≤ s.eod then s else receive n (s.consume bs slack) reads
  | s, .fail _ :: _ => s

theorem receive_here {n : Int} {s : Stream} (h : n ≤ s.eod) :
    ∀ reads : List Read, receive n s reads = s
  | [] => rfl
  | .bytes _ _ :: _ => if_pos h
  | .fail _ :: _ => rfl

theorem receive_bytes {n : Int} {s : Stream} {bs slack : List UInt8} {reads : List Read}
    (h : s.eod < n) :
    receive n s (.bytes bs slack :: reads) = receive n (s.consume bs slack) reads :=
  if_neg (by omega)

/-- What is received from an offset on does not depend on what stands before
it, or on `pos`. -/
theorem receive_congr {n m : Int} : ∀ {s s' : Stream} (reads : List Read), s'.eod = s.eod →
    s'.slack = s.slack → s'.data.drop m.toNat = s.data.drop m.toNat →
    (receive n s' reads).mem m = (receive n s reads).mem m
  | s, s', [], he, hs, hd => by
      unfold Stream.eod at he
      simp only [receive, Stream.mem, List.drop_append, hd, hs, Int.ofNat.inj he]
  | s, s', .fail _ :: _, he, hs, hd => by
      unfold Stream.eod at he
      simp only [receive, Stream.mem, List.drop_append, hd, hs, Int.ofNat.inj he]
  | s, s', .bytes bs slack :: reads, he, hs, hd => by
      by_cases h : n ≤ s.eod
      · have hlen : s'.data.length = s.data.length := by unfold Stream.eod at he; omega
        rw [receive_here h, receive_here (by omega)]
        simp only [Stream.mem, List.drop_append, hd, hs, hlen]
      · have hlen : s'.data.length = s.data.length := by unfold Stream.eod at he; omega
        rw [receive_bytes (by omega), receive_bytes (by omega)]
        refine receive_congr reads ?_ rfl ?_
        · rw [Stream.eod_consume, Stream.eod_consume, he]
        · rw [Stream.data_consume, Stream.data_consume, List.drop_append, List.drop_append, hd,
            hlen]

/-! ## The scan -/

theorem mem_take {s : Stream} {st : Nat} (h : st ≤ s.data.length) :
    (s.mem st).take (s.data.length - st) = s.data.drop st := by
  unfold Stream.mem
  rw [Int.toNat_natCast, List.drop_append_of_le_length h, List.take_left']
  simp

theorem drop_eq_take {s : Stream} {st : Nat} {more line rest : List UInt8}
    (h : (s.data ++ more).drop st = line ++ CR :: LF :: rest) :
    s.data.drop st = (line ++ CR :: LF :: rest).take (s.data.length - st) := by
  rw [← h, List.drop_append, List.take_left']
  simp

section
variable {s : Stream} {st : Nat} {more line rest : List UInt8}

/-- The scan for a line that the stream is known to hold. -/
theorem findcrlf_eq (hl : NoCrlf line)
    (h : (s.data ++ more).drop st = line ++ CR :: LF :: rest)
    (hlo : (st : Int) ≤ s.eod + 2) (hhi : s.eod - st ≤ intMax) :
    findcrlf (s.mem st) (toInt (s.eod - st)) =
      if (st : Int) + line.length + 2 ≤ s.eod then some line.length else none := by
  unfold Stream.eod at *
  rw [toInt_of_le (by omega) hhi]
  unfold findcrlf
  by_cases hst : st ≤ s.data.length
  · have hk : ((s.data.length : Int) - st).toNat = s.data.length - st := by omega
    rw [hk, mem_take hst, drop_eq_take h, firstCrlf_take hl]
    by_cases hc : line.length + 2 ≤ s.data.length - st
    · rw [if_pos hc, if_pos (by omega)]
    · rw [if_neg hc, if_neg (by omega)]
  · have hk : ((s.data.length : Int) - st).toNat = 0 := by omega
    rw [hk, List.take_zero, if_neg (by omega)]
    rfl

theorem data_of_complete (h : (s.data ++ more).drop st = line ++ CR :: LF :: rest)
    (hc : (st : Int) + line.length + 2 ≤ s.eod) :
    ∃ behind, s.data.drop st = line ++ CR :: LF :: behind ∧ rest = behind ++ more := by
  unfold Stream.eod at hc
  rw [List.drop_append_of_le_length (by omega)] at h
  have h' : s.data.drop st ++ more = (line ++ [CR, LF]) ++ rest := by simpa using h
  rcases List.append_eq_append_iff.mp h' with ⟨a, h1, h2⟩ | ⟨a, h1, h2⟩
  · -- the data would end inside the line
    have hlen := congrArg List.length h1
    simp only [List.length_append, List.length_drop, List.length_cons, List.length_nil] at hlen
    have ha : a = [] := List.length_eq_zero_iff.mp (by omega)
    subst ha
    exact ⟨[], by simpa using h1.symm, by simpa using h2.symm⟩
  · exact ⟨a, by simpa using h1, h2⟩

theorem mem_of_complete (h : (s.data ++ more).drop st = line ++ CR :: LF :: rest)
    (hc : (st : Int) + line.length + 2 ≤ s.eod) :
    ∃ behind, s.mem st = line ++ CR :: LF :: behind := by
  obtain ⟨behind, hd, -⟩ := data_of_complete h hc
  unfold Stream.eod at hc
  refine ⟨behind ++ s.slack, ?_⟩
  unfold Stream.mem
  rw [Int.toNat_natCast, List.drop_append_of_le_length (by omega), hd]
  simp

theorem length_of_drop {st : Nat} {l tail : List UInt8} (h : l.drop st = tail)
    (hne : tail ≠ []) : l.length = st + tail.length := by
  have hlen := congrArg List.length h
  have : tail.length ≠ 0 := fun h0 => hne (List.length_eq_zero_iff.mp h0)
  rw [List.length_drop] at hlen
  omega

end

/-! ## Waiting -/

/-- The parser, with another stream. -/
def Parser.withInp (p : Parser) (s : Stream) : Parser := { p with inp := s }

section
variable {pf : Platform} {parseLine : Parser → Res × Parser} {cbs : Callbacks}
variable {p : Parser} {R st : Nat} {line rest : List UInt8}

/-- In the state of `p`, the dispatch moves to the end of the data when the
line that starts at `st` is not complete. -/
def WaitsAt (pf : Platform) (parseLine : Parser → Res × Parser) (cbs : Callbacks)
    (p : Parser) (st : Nat) : Prop :=
  ∀ s : Stream, findcrlf (s.mem st) (toInt (s.eod - st)) = none →
    dispatch pf parseLine cbs (p.withInp s) = .again (p.withInp s).toEod

theorem loopStep_top {s : Stream} {reads : List Read} (h : s.pos < s.eod) :
    loopStep pf parseLine cbs ⟨.top, p.withInp s, reads⟩ =
      .again ⟨.dispatch, p.withInp s, reads⟩ := by
  have : ¬ s.eod ≤ s.pos := by omega
  simp [loopStep, Parser.withInp, Stream.needMore, this]

theorem loopStep_read {s : Stream} {bs slack : List UInt8} {reads : List Read}
    (h : s.eod ≤ s.pos) :
    loopStep pf parseLine cbs ⟨.top, p.withInp s, .bytes bs slack :: reads⟩ =
      .again ⟨.dispatch, p.withInp (s.consume bs slack), reads⟩ := by
  simp [loopStep, Parser.withInp, Stream.needMore, h]

theorem loopStep_again {q : Parser} {reads : List Read}
    (h : dispatch pf parseLine cbs p = .again q) :
    loopStep pf parseLine cbs ⟨.dispatch, p, reads⟩ = .again ⟨.top, q, reads⟩ := by
  simp only [loopStep, h]

theorem loopStep_ret {r : Res} {q : Parser} {reads : List Read}
    (h : dispatch pf parseLine cbs p = .ret r q) :
    loopStep pf parseLine cbs ⟨.dispatch, p, reads⟩ = .done (.returned r q reads) := by
  simp only [loopStep, h]

theorem loopStep_wait (hw : WaitsAt pf parseLine cbs p st) {s : Stream} {reads : List Read}
    (h : findcrlf (s.mem st) (toInt (s.eod - st)) = none) :
    loopStep pf parseLine cbs ⟨.dispatch, p.withInp s, reads⟩ =
      .again ⟨.top, p.withInp (s.advance (s.eod - s.pos)), reads⟩ := by
  simp only [loopStep, hw s h]
  rfl

/-- The line is complete: where the loop stands when it comes to look at it. -/
structure LineHere (R st : Nat) (line rest : List UInt8) (s₀ : Stream) (reads₀ : List Read)
    (s : Stream) (reads : List Read) : Prop where
  stream : s.data ++ pending reads = s₀.data ++ pending reads₀
  complete : (st : Int) + line.length + 2 ≤ s.eod
  bounded : s.eod - st ≤ line.length + 1 + R
  delivers : Delivers R reads
  cuts : ∀ n : Int, (st : Int) + line.length + 2 ≤ n →
    (Cuts s.eod reads n ↔ Cuts s₀.eod reads₀ n)
  view : ∀ n m : Int, (st : Int) + line.length + 2 ≤ n →
    (receive n s reads).mem m = (receive n s₀ reads₀).mem m

theorem lineHere_consume {s : Stream} {bs slack : List UInt8} {reads : List Read}
    (hd : Delivers R (.bytes bs slack :: reads))
    (hinc : s.eod - st ≤ line.length + 1)
    (hc : (st : Int) + line.length + 2 ≤ (s.consume bs slack).eod) :
    LineHere R st line rest s (.bytes bs slack :: reads) (s.consume bs slack) reads where
  stream := by simp [Read.payload]
  complete := hc
  bounded := by
    obtain ⟨_, _, heq, -, hbR⟩ := hd.head
    cases heq
    rw [Stream.eod_consume]; omega
  delivers := hd.tail
  cuts n hn := by
    simp only [Cuts, Read.payload, Stream.eod_consume]
    constructor
    · exact Or.inr
    · rintro (h | h)
      · omega
      · exact h
  view n m hn := by rw [receive_bytes (s := s) (by omega)]

theorem LineHere.of_consume {s s' : Stream} {bs slack : List UInt8} {reads reads' : List Read}
    (h : LineHere R st line rest (s.consume bs slack) reads s' reads')
    (hinc : s.eod - st ≤ line.length + 1) :
    LineHere R st line rest s (.bytes bs slack :: reads) s' reads' where
  stream := by rw [h.stream]; simp [Read.payload]
  complete := h.complete
  bounded := h.bounded
  delivers := h.delivers
  cuts n hn := by
    rw [h.cuts n hn]
    simp only [Cuts, Read.payload, Stream.eod_consume]
    constructor
    · exact Or.inr
    · rintro (h | h)
      · omega
      · exact h
  view n m hn := by rw [h.view n m hn, receive_bytes (s := s) (by omega)]

theorem LineHere.of_advance {k : Int} {s s' : Stream} {reads reads' : List Read}
    (h : LineHere R st line rest (s.advance k) reads s' reads') :
    LineHere R st line rest s reads s' reads' where
  stream := h.stream
  complete := h.complete
  bounded := h.bounded
  delivers := h.delivers
  cuts := h.cuts
  view n m hn := (h.view n m hn).trans (receive_congr reads rfl rfl rfl)

/-- From the end of an incomplete line: a read comes before the next scan. -/
theorem awaitLine_eod (hw : WaitsAt pf parseLine cbs p st) (hl : NoCrlf line)
    (hfit : (line.length : Int) + 1 + R ≤ intMax) :
    ∀ (reads : List Read) (s : Stream), Delivers R reads →
      (s.data ++ pending reads).drop st = line ++ CR :: LF :: rest →
      (st : Int) ≤ s.eod + 2 → s.eod ≤ s.pos → s.eod - st ≤ line.length + 1 →
      ∃ s' reads', Reaches (loopStep pf parseLine cbs) ⟨.top, p.withInp s, reads⟩
          ⟨.dispatch, p.withInp s', reads'⟩ ∧ LineHere R st line rest s reads s' reads' := by
  intro reads
  induction reads with
  | nil =>
      -- all the bytes are there, so the line is complete
      intro s _ h _ _ hinc
      rw [pending_nil, List.append_nil] at h
      have := length_of_drop h (by simp)
      simp only [List.length_append, List.length_cons] at this
      unfold Stream.eod at hinc
      omega
  | cons r reads ih =>
      intro s hd h hlo hpos hinc
      obtain ⟨bs, slack, rfl, hbs, hR⟩ := hd.head
      have hlen : 0 < bs.length := List.length_pos_iff.mpr hbs
      have hread : loopStep pf parseLine cbs ⟨.top, p.withInp s, .bytes bs slack :: reads⟩ =
          .again ⟨.dispatch, p.withInp (s.consume bs slack), reads⟩ := loopStep_read hpos
      have hstream : ((s.consume bs slack).data ++ pending reads).drop st =
          line ++ CR :: LF :: rest := by
        simpa [Read.payload] using h
      by_cases hc : (st : Int) + line.length + 2 ≤ (s.consume bs slack).eod
      · exact ⟨s.consume bs slack, reads, .single hread, lineHere_consume hd hinc hc⟩
      · -- still incomplete: scan in vain, move to the end, and wait again
        have hnone : findcrlf ((s.consume bs slack).mem st)
            (toInt ((s.consume bs slack).eod - st)) = none := by
          rw [findcrlf_eq hl hstream (by simp; omega) (by simp at hc ⊢; omega), if_neg hc]
        obtain ⟨s', reads', hreach, hhere⟩ := ih
          ((s.consume bs slack).advance ((s.consume bs slack).eod - (s.consume bs slack).pos))
          hd.tail (by simpa using hstream) (by simp; omega) (Stream.eod_le_pos_advance _)
          (by simp only [Stream.eod_advance]; omega)
        exact ⟨s', reads', .head hread (.head (loopStep_wait hw hnone) hreach),
          hhere.of_advance.of_consume hinc⟩

theorem awaitLine (hw : WaitsAt pf parseLine cbs p st) (hl : NoCrlf line)
    (hfit : (line.length : Int) + 1 + R ≤ intMax) {s : Stream} {reads : List Read}
    (hd : Delivers R reads) (h : (s.data ++ pending reads).drop st = line ++ CR :: LF :: rest)
    (hlo : (st : Int) ≤ s.eod + 2) (hpos : s.pos = st) (hR : s.eod - st ≤ R) :
    ∃ s' reads', Reaches (loopStep pf parseLine cbs) ⟨.top, p.withInp s, reads⟩
        ⟨.dispatch, p.withInp s', reads'⟩ ∧ LineHere R st line rest s reads s' reads' := by
  by_cases hmore : s.eod ≤ s.pos
  · exact awaitLine_eod hw hl hfit reads s hd h hlo hmore (by omega)
  · have htop : loopStep pf parseLine cbs ⟨.top, p.withInp s, reads⟩ =
        .again ⟨.dispatch, p.withInp s, reads⟩ := loopStep_top (by omega)
    by_cases hc : (st : Int) + line.length + 2 ≤ s.eod
    · exact ⟨s, reads, .single htop, rfl, hc, by omega, hd, fun _ _ => Iff.rfl,
        fun _ _ _ => rfl⟩
    · have hnone : findcrlf (s.mem st) (toInt (s.eod - st)) = none := by
        rw [findcrlf_eq hl h hlo (by omega), if_neg hc]
      obtain ⟨s', reads', hreach, hhere⟩ := awaitLine_eod hw hl hfit reads
        (s.advance (s.eod - s.pos)) hd (by simpa using h) (by simpa using hlo)
        s.eod_le_pos_advance
        (by simp only [Stream.eod_advance]; omega)
      exact ⟨s', reads', .head htop (.head (loopStep_wait hw hnone) hreach), hhere.of_advance⟩

/-- Half of an empty line: the scan is in vain, `pos` moves behind the CR, and
the next read completes the line. -/
theorem awaitBlank_half (hw : WaitsAt pf parseLine cbs p st) {s : Stream} {reads : List Read}
    (hd : Delivers R reads) (h : (s.data ++ pending reads).drop st = CR :: LF :: rest)
    (hhalf : s.eod = st + 1) :
    ∃ s' reads', Reaches (loopStep pf parseLine cbs) ⟨.dispatch, p.withInp s, reads⟩
        ⟨.dispatch, p.withInp s', reads'⟩ ∧ LineHere R st [] rest s reads s' reads' ∧
        s'.pos = (st : Int) + 1 := by
  have hnone : findcrlf (s.mem st) (toInt (s.eod - st)) = none := by
    have hl : NoCrlf [] := rfl
    rw [findcrlf_eq hl (by simpa using h) (by omega) (by unfold intMax; omega), if_neg]
    simp only [List.length_nil]; omega
  match reads, hd, h with
  | [], _, h =>
      rw [pending_nil, List.append_nil] at h
      have := length_of_drop h (by simp)
      simp only [List.length_cons] at this
      unfold Stream.eod at hhalf
      omega
  | r :: reads, hd, h =>
      obtain ⟨bs, slack, rfl, hbs, hbR⟩ := hd.head
      have hlen : 0 < bs.length := List.length_pos_iff.mpr hbs
      have hread : loopStep pf parseLine cbs
            ⟨.top, p.withInp (s.advance (s.eod - s.pos)), .bytes bs slack :: reads⟩ =
          .again ⟨.dispatch, p.withInp ((s.advance (s.eod - s.pos)).consume bs slack), reads⟩ :=
        loopStep_read s.eod_le_pos_advance
      have hhere : LineHere R st [] rest (s.advance (s.eod - s.pos)) (.bytes bs slack :: reads)
          ((s.advance (s.eod - s.pos)).consume bs slack) reads :=
        lineHere_consume hd (by simp only [Stream.eod_advance, List.length_nil]; omega)
          (by simp only [Stream.eod_consume, Stream.eod_advance, List.length_nil]; omega)
      refine ⟨_, reads, .head (loopStep_wait hw hnone) (.single hread), hhere.of_advance, ?_⟩
      simp only [Stream.pos_consume, Stream.pos_advance]; omega

/-- An empty line, from its start.  `pos` has stayed there, unless a read
ended behind the CR: then the scan was in vain once and `pos` has moved on. -/
theorem awaitBlank (hw : WaitsAt pf parseLine cbs p st)
    {s : Stream} {reads : List Read} (hd : Delivers R reads)
    (h : (s.data ++ pending reads).drop st = CR :: LF :: rest)
    (hlo : (st : Int) ≤ s.eod) (hpos : s.pos = st) (hR : s.eod - st ≤ R) :
    ∃ s' reads', Reaches (loopStep pf parseLine cbs) ⟨.top, p.withInp s, reads⟩
        ⟨.dispatch, p.withInp s', reads'⟩ ∧ LineHere R st [] rest s reads s' reads' ∧
        s'.pos = if Cuts s.eod reads (st + 1) then (st : Int) + 1 else st := by
  by_cases hmore : s.eod ≤ s.pos
  · -- a read comes first
    match reads, hd, h with
    | [], _, h =>
        rw [pending_nil, List.append_nil] at h
        have := length_of_drop h (by simp)
        simp only [List.length_cons] at this
        unfold Stream.eod at *
        omega
    | r :: reads, hd, h =>
        obtain ⟨bs, slack, rfl, hbs, hbR⟩ := hd.head
        have hlen : 0 < bs.length := List.length_pos_iff.mpr hbs
        have hread : loopStep pf parseLine cbs ⟨.top, p.withInp s, .bytes bs slack :: reads⟩ =
            .again ⟨.dispatch, p.withInp (s.consume bs slack), reads⟩ := loopStep_read hmore
        have heod : (s.consume bs slack).eod = st + bs.length := by
          rw [Stream.eod_consume]; omega
        by_cases h1 : bs.length = 1
        · obtain ⟨s', reads', hreach, hhere, hp⟩ := awaitBlank_half hw
            (s := s.consume bs slack) hd.tail (by simpa [Read.payload] using h)
            (by rw [heod, h1]; rfl)
          have hcut : Cuts s.eod (.bytes bs slack :: reads) (st + 1) := by
            refine .inr ?_
            have : s.eod + ((Read.bytes bs slack).payload.length : Int) = st + 1 := by
              simp only [Read.payload]; omega
            rw [this]
            exact .here _ _
          exact ⟨s', reads', .head hread hreach,
            hhere.of_consume (by simp only [List.length_nil]; omega),
            by rw [hp, if_pos hcut]⟩
        · have hcut : ¬ Cuts s.eod (.bytes bs slack :: reads) (st + 1) := by
            rintro (h | h)
            · omega
            · have := h.le
              simp only [Read.payload] at this
              omega
          refine ⟨_, reads, .single hread, lineHere_consume hd ?_ ?_, ?_⟩
          · simp only [List.length_nil]; omega
          · rw [heod]; simp only [List.length_nil]; omega
          · rw [if_neg hcut]; exact hpos
  · have htop : loopStep pf parseLine cbs ⟨.top, p.withInp s, reads⟩ =
        .again ⟨.dispatch, p.withInp s, reads⟩ := loopStep_top (by omega)
    by_cases h1 : s.eod = st + 1
    · obtain ⟨s', reads', hreach, hhere, hp⟩ := awaitBlank_half hw hd h h1
      have hcut : Cuts s.eod reads (st + 1) := by
        rw [h1]
        exact .here _ _
      exact ⟨s', reads', .head htop hreach, hhere, by rw [hp, if_pos hcut]⟩
    · have hcut : ¬ Cuts s.eod reads (st + 1) := by
        intro h
        have := h.le
        omega
      refine ⟨s, reads, .single htop, ⟨rfl, ?_, ?_, hd, fun _ _ => Iff.rfl, fun _ _ _ => rfl⟩, ?_⟩
      · simp only [List.length_nil]; omega
      · simp only [List.length_nil]; omega
      · rw [if_neg hcut, hpos]

end
end MnHttp
