/-
# `MnApp.Http.ChunkedFraming` — a chunked message is read exactly

The head (`MnApp.Http.Head`) and the chunks (`MnApp.Http.Chunked`) put
together: the data of every chunk is delivered by one call of `body_cb`, an
empty call ends the body, and the stream stands at the first byte behind it.

**Where that fails.**  As with a `Content-Length`, the body is taken from one
byte too far when a read ended inside the empty line.  That byte is the first
digit of the first size.  Losing it does no harm in two cases, and
`chunked_exact_iff` says that there are no others:

  * it is a leading zero, and other digits follow;
  * it is the `0` of a body without chunks.  Then `strtol` is called on the
    empty rest of the line; it skips white space, across the line end and
    whatever else, and the size is 0 when it finds no number there.
-/
import MnApp.Http.Chunked
import MnApp.Http.Framing

namespace MnHttp

open CLib Loop

/-! ## The text of a chunked body -/

def firstSize : List Chunk → List UInt8
  | [] => ascii "0"
  | c :: _ => c.size

def firstData : List Chunk → List UInt8
  | [] => []
  | c :: _ => c.data

/-- What stands behind the first size line. -/
def afterSize : List Chunk → List UInt8
  | [] => crlf
  | c :: cs => c.data ++ (crlf ++ chunkedBytes cs)

theorem chunkedBytes_eq (cs : List Chunk) :
    chunkedBytes cs = firstSize cs ++ CR :: LF :: afterSize cs := by
  cases cs with
  | nil => rfl
  | cons c cs => simp [chunkedBytes, firstSize, afterSize, Chunk.bytes, crlf]

theorem firstSize_text (cs : List Chunk) : SizeText (firstSize cs) (firstData cs).length := by
  cases cs with
  | nil => exact sizeText_zero
  | cons c cs => exact c.sizeText

theorem chunkedSize_eq (cs : List Chunk) :
    chunkedSize cs = (firstData cs).length + chunkedSize cs.tail := by
  cases cs with
  | nil => rfl
  | cons c cs => simp [chunkedSize, firstData]

/-- All the size lines are short enough. -/
def ChunksFit (R : Nat) (cs : List Chunk) : Prop :=
  (2 : Int) + R ≤ intMax ∧ ∀ c ∈ cs, (c.size.length : Int) + 1 + R ≤ intMax

theorem ChunksFit.first {R : Nat} {cs : List Chunk} (h : ChunksFit R cs) :
    ((firstSize cs).length : Int) + 1 + R ≤ intMax := by
  cases cs with
  | nil =>
      have := h.1
      have hl : (firstSize []).length = 1 := rfl
      rw [hl]; push_cast; omega
  | cons c cs => exact h.2 c List.mem_cons_self

theorem ChunksFit.tail {R : Nat} {c : Chunk} {cs : List Chunk} (h : ChunksFit R (c :: cs)) :
    ChunksFit R cs := ⟨h.1, fun x hx => h.2 x (List.mem_cons_of_mem _ hx)⟩

/-! ## All the chunks -/

/-- How a body of chunks ends. -/
structure ChunksDone (z : Int) (cs : List Chunk) (rest : List UInt8) (calls : List Call)
    (q : Parser) (reads : List Read) : Prop where
  calls : ∃ more, q.calls = calls ++ more ∧
    List.Forall₂ ChunkCall (cs.map Chunk.data ++ [[]]) more
  bodysz : q.ctx.bodysz = z
  stands : StandsAt rest q.inp reads

theorem SizeTop.standsAt {R st : Nat} {z : Int} {rest : List UInt8} {p : Parser}
    {reads : List Read} (h : SizeTop R st z rest p reads) : StandsAt rest p.inp reads where
  pos_nonneg := by rw [h.pos]; omega
  stream := by rw [h.pos, Int.toNat_natCast]; exact h.stream

section
variable (pf : Platform) (parseLine : Parser → Res × Parser) {cbs : Callbacks}
variable {R : Nat} {rest : List UInt8}

/-- From the data of the first chunk on, by induction on the chunks.  Of the CR
LF behind the last chunk nothing need have come. -/
theorem chunks_return (hcb : cbs.Succeeding) (hR : (R : Int) ≤ intMax) : ∀ (cs : List Chunk)
    {b : Nat} {z : Int} {p : Parser} {reads : List Read}, ChunksFit R cs →
    (chunkedSize cs : Int) ≤ intMax →
    DataTop R b (firstData cs).length (toInt z) (afterSize cs ++ rest) p reads →
    ∃ q reads', Returns (loopStep pf parseLine cbs) ⟨.top, p, reads⟩ (.returned .ok q reads') ∧
      ChunksDone (toInt (z + chunkedSize cs.tail)) cs rest p.calls q reads' ∧
      q.inp.pos ≤ q.inp.eod + 2 := by
  intro cs
  induction cs with
  | nil =>
      intro b z p reads _ _ hdata
      obtain ⟨q, c, st, reads', hret, hsize, hcalls, hcall⟩ :=
        last_data pf parseLine cbs hcb hdata hR
      refine ⟨q, reads', hret, ⟨⟨[c], hcalls, .cons hcall .nil⟩, ?_, hsize.standsAt⟩, ?_⟩
      · rw [hsize.size.bodysz]
        simp [chunkedSize]
      · rw [hsize.pos]
        exact hsize.le
  | cons c cs ih =>
      intro b z p reads hfit hmax hdata
      have hpos : 0 < c.data.length := List.length_pos_iff.mpr c.data_ne
      have hsplit := chunkedSize_eq (c :: cs)
      have hsplit' := chunkedSize_eq cs
      simp only [firstData, List.tail_cons] at hsplit
      have hdata' : DataTop R b c.data.length (toInt z)
          (c.data ++ CR :: LF :: (chunkedBytes cs ++ rest)) p reads := by
        simpa [afterSize, firstData, crlf] using hdata
      obtain ⟨q₁, call, st, reads₁, hr₁, hsize, hcalls₁, hcall⟩ :=
        chunk_data pf parseLine cbs hcb hdata' rfl hpos (by omega) hR
      -- the next size line
      rw [chunkedBytes_eq, List.append_assoc, List.cons_append, List.cons_append] at hsize
      have htext := firstSize_text cs
      obtain ⟨D, reads₂, hr₂, hhere⟩ := size_reaches pf parseLine cbs hsize htext.noCrlf
        hfit.tail.first
      obtain ⟨q₂, hstep, hdata₂, hcalls₂⟩ := size_accept pf parseLine cbs hhere hsize.stream
        fun s hs => htext.strtol (by omega) hsize.stream hs
      rw [toInt_toInt_add] at hdata₂
      obtain ⟨q, reads', hret, hdone, hle⟩ := ih hfit.tail (by omega) hdata₂
      obtain ⟨more, hmore, hall⟩ := hdone.calls
      refine ⟨q, reads', (hr₁.trans (hr₂.trans (.single hstep))).returns hret,
        ⟨⟨call :: more, ?_, .cons hcall hall⟩, ?_, hdone.stands⟩, hle⟩
      · rw [hmore, hcalls₂, hcalls₁]
        simp
      · rw [hdone.bodysz, List.tail_cons, hsplit', Int.natCast_add, Int.add_assoc]

theorem chunks_from_size (hcb : cbs.Succeeding) (hR : (R : Int) ≤ intMax) {cs : List Chunk}
    (hfit : ChunksFit R cs) (hmax : (chunkedSize cs : Int) ≤ intMax) {text : List UInt8}
    (htext : SizeText text (firstData cs).length) {st : Nat} {z : Int} {s₀ : Stream}
    {reads₀ : List Read} {calls : List Call} {D : Parser} {reads : List Read}
    (hstream : (s₀.data ++ pending reads₀).drop st = text ++ CR :: LF :: (afterSize cs ++ rest))
    (hhere : SizeHere pf parseLine cbs R st z text (afterSize cs ++ rest) s₀ reads₀ calls D reads) :
    ∃ q reads', Returns (loopStep pf parseLine cbs) ⟨.dispatch, D, reads⟩
        (.returned .ok q reads') ∧
      ChunksDone (toInt (z + chunkedSize cs)) cs rest calls q reads' ∧
      q.inp.pos ≤ q.inp.eod + 2 := by
  have hsplit := chunkedSize_eq cs
  obtain ⟨q₁, hstep, hdata, hcalls⟩ := size_accept pf parseLine cbs hhere hstream
    fun s hs => htext.strtol (by omega) hstream hs
  obtain ⟨q, reads', hret, hdone, hle⟩ := chunks_return pf parseLine hcb hR cs hfit hmax hdata
  refine ⟨q, reads', .of_again hstep hret, ?_, hle⟩
  rw [hcalls, Int.add_assoc, ← Int.natCast_add, ← hsplit] at hdone
  exact hdone

end

/-! ## Calls are only added -/

/-- `q` has made the calls of `p`, and behind them only calls of `body_cb`. -/
def Parser.Extends (q p : Parser) : Prop :=
  ∃ cs, q.calls = p.calls ++ cs ∧ ∀ c ∈ cs, c.kind = .body

theorem Parser.Extends.refl {p q : Parser} (h : q.calls = p.calls) : q.Extends p :=
  ⟨[], by rw [h, List.append_nil], fun _ hc => absurd hc List.not_mem_nil⟩

theorem Parser.Extends.trans {p q r : Parser} (h₁ : r.Extends q) (h₂ : q.Extends p) :
    r.Extends p := by
  obtain ⟨cs, hcs, hkind⟩ := h₁
  obtain ⟨cs', hcs', hkind'⟩ := h₂
  exact ⟨cs' ++ cs, by rw [hcs, hcs', List.append_assoc],
    fun c hc => (List.mem_append.mp hc).elim (hkind' c) (hkind c)⟩

theorem Parser.Extends.calls_before {p q : Parser} (h : q.Extends p) : p.calls <+: q.calls := by
  obtain ⟨cs, hcs, -⟩ := h
  exact ⟨cs, hcs.symm⟩

theorem callback_extends {p q x : Parser} (cb : Option Callback)
    (h : q.calls = (x.callback .body cb).2.calls) (hx : x.calls = p.calls) : q.Extends p := by
  cases cb with
  | none => exact .refl (h.trans hx)
  | some f =>
      refine ⟨[⟨.body, x.ctx, x.inp⟩], ?_, fun c hc => by rw [List.mem_singleton.mp hc]⟩
      rw [h, ← hx]
      rfl

theorem processBody_calls (rc : Recycler) (cb : Option Callback) (p : Parser) :
    (processBody rc cb p).2.Extends p := by
  cases processBody_frame rc cb p with
  | read on => exact .refl on.calls
  | call on after => exact callback_extends cb (congrArg Parser.calls after) on.calls
  | recycle on behind after =>
      exact callback_extends cb ((congrArg Parser.calls after).trans behind.calls) on.calls

theorem bodyIter_calls (rc : Recycler) (cb : Option Callback) (k : Nat) (p : Parser) :
    (∀ q, bodyIter rc cb k p = .again q → q.Extends p) ∧
      ∀ r q, bodyIter rc cb k p = .ret r q → q.Extends p :=
  bodyIter_keeps (P := fun q => q.Extends p) (processBody_calls rc cb p) fun _ h => h

theorem body_calls {pf : Platform} {parseLine : Parser → Res × Parser} {cbs : Callbacks}
    {t : LoopState} {r : Res} {q : Parser} {reads : List Read}
    (hs : t.par.ctx.parserState = .body)
    (hret : Returns (loopStep pf parseLine cbs) t (.returned r q reads)) :
    q.Extends t.par :=
  body_invariant (I := fun p => p.Extends t.par) (fun _ _ _ h => h)
    (fun p _ h heq => ((bodyIter_calls _ _ _ p).1 _ heq).trans h)
    (fun p _ _ h heq => ((bodyIter_calls _ _ _ p).2 _ _ heq).trans h) (.refl rfl) hs hret

theorem BlankHere.calls_extend {pf : Platform} {parseLine : Parser → Res × Parser}
    {cbs : Callbacks} {R b : Nat} {rest : List UInt8} {s : Stream} {p q : Parser}
    {reads₀ reads reads' : List Read} {r : Res} (h : BlankHere R b rest s reads₀ p reads)
    (hret : Returns (loopStep pf parseLine cbs) ⟨.dispatch, p, reads⟩ (.returned r q reads')) :
    q.Extends p :=
  blank_invariant (I := fun q => q.Extends p) (fun _ _ _ h => h)
    (fun x h => (processBody_calls _ _ x).trans h) (fun _ h => h)
    (dispatch_blank h.state h.start h.found) (.refl rfl) hret

/-! ## Chunked messages -/

/-- Some `Transfer-Encoding: chunked`, and no `Content-Length`. -/
structure HasChunked (hs : List Header) : Prop where
  some : ∃ h ∈ hs, h.IsChunked
  plain : ∀ h ∈ hs, ¬ h.Named contentLength

/-- The message was read exactly: the head, each chunk by its own call, an
empty call. -/
structure ChunksReadExactly (l : FirstLine) (hs : List Header) (cs : List Chunk)
    (rest : List UInt8) (q : Parser) (reads : List Read) : Prop where
  calls : ∃ more, HeadCalls l hs q.calls more ∧
    List.Forall₂ ChunkCall (cs.map Chunk.data ++ [[]]) more
  bodysz : q.ctx.bodysz = chunkedSize cs
  stands : StandsAt rest q.inp reads

/-- Each chunk was delivered by a call of its own behind the calls `calls`, and
an empty call followed. -/
def ChunkCalls (cs : List Chunk) (calls : List Call) (q : Parser) : Prop :=
  ∃ more, q.calls = calls ++ more ∧ List.Forall₂ ChunkCall (cs.map Chunk.data ++ [[]]) more

/-- The first digit of the body is lost, and that does no harm; `memory` is
what stands behind it when `strtol` is called. -/
def HarmlessLoss (memory : List UInt8) : List Chunk → Prop
  | [] => (strtol memory 16).len = 0
  | c :: _ => c.size.head? = some 48 ∧ 2 ≤ c.size.length

instance (memory : List UInt8) : ∀ cs : List Chunk, Decidable (HarmlessLoss memory cs)
  | [] => inferInstanceAs (Decidable (_ = _))
  | _ :: _ => inferInstanceAs (Decidable (_ ∧ _))

section
variable {calls : List Call} {q : Parser}

/-- The calls of a message that was read exactly, whatever stands in front. -/
theorem HeadCalls.chunkCalls {l : FirstLine} {hs : List Header} {cs : List Chunk} {c₀ : Call}
    {cs₀ more : List Call} (h : HeadCalls l hs q.calls more)
    (hmore : List.Forall₂ ChunkCall (cs.map Chunk.data ++ [[]]) more)
    (hall : List.Forall₂ HeaderCall hs cs₀) (hpre : c₀ :: cs₀ <+: q.calls) :
    ChunkCalls cs (c₀ :: cs₀) q := by
  obtain ⟨c, cs', hq, -, hall'⟩ := h
  have hlen : cs₀.length = cs'.length := hall.length_eq.symm.trans hall'.length_eq
  obtain ⟨tail, htail⟩ := hpre
  have heq : (c₀ :: cs₀) ++ tail = (c :: cs') ++ more := htail.trans hq
  obtain ⟨hsame, -⟩ := List.append_inj heq (congrArg Nat.succ hlen)
  exact ⟨more, by rw [hsame]; exact hq, hmore⟩

theorem not_calls_of_one {c : Chunk} {cs : List Chunk} {x : Call}
    (hcalls : q.calls = calls ++ [x]) : ¬ ChunkCalls (c :: cs) calls q := by
  rintro ⟨more, hq, hmore⟩
  have h1 := hmore.length_eq
  have h2 := congrArg List.length (hcalls.symm.trans hq)
  simp only [List.length_append, List.length_map, List.length_cons, List.length_nil] at h1 h2
  omega

theorem not_calls_of_first {c : Chunk} {cs : List Chunk} {x : Call} {d : List UInt8}
    (hcalls : calls ++ [x] <+: q.calls) (hx : ChunkCall d x) (hd : d.length ≠ c.data.length) :
    ¬ ChunkCalls (c :: cs) calls q := by
  rintro ⟨more, hq, hmore⟩
  obtain ⟨tail, htail⟩ := hcalls
  have heq : [x] ++ tail = more := by
    have := htail.trans hq
    rw [List.append_assoc] at this
    exact List.append_cancel_left this
  rw [← heq] at hmore
  cases hmore with
  | cons hfirst _ =>
      have h1 := hfirst.chunk.length
      have h2 := hx.chunk.length
      omega

end

/-! ## After the loss of a digit -/

section
variable (pf : Platform) (parseLine : Parser → Res × Parser) {cbs : Callbacks} {R st : Nat}
variable {rest : List UInt8} {calls : List Call} {z : Int}
variable {s₀ : Stream} {reads₀ reads : List Read} {D : Parser}

/-- The lost digit was the only one, and `strtol` finds a number further on. -/
theorem lost_all_number {cs : List Chunk} {memory : List UInt8}
    (hhere : SizeHere pf parseLine cbs R st z [] (afterSize cs ++ rest) s₀ reads₀ calls D reads)
    (hview : ∀ s, LineHere R st [] (afterSize cs ++ rest) s₀ reads₀ s reads → s.mem st = memory)
    (hnum : (strtol memory 16).len ≠ 0) {q : Parser} {reads' : List Read} :
    ¬ Returns (loopStep pf parseLine cbs) ⟨.dispatch, D, reads⟩ (.returned .ok q reads') := by
  intro hret
  obtain ⟨k, q', hret'⟩ := size_reject pf parseLine cbs hhere fun s hs => by
    rw [hview s hs]
    exact hnum
  have heq := Returns.unique hret hret'
  cases heq

/-- The lost digit was the only one, and no number follows: a size of 0. -/
theorem lost_all_zero {cs : List Chunk} {memory : List UInt8}
    (hstream : (s₀.data ++ pending reads₀).drop st = CR :: LF :: (afterSize cs ++ rest))
    (hhere : SizeHere pf parseLine cbs R st z [] (afterSize cs ++ rest) s₀ reads₀ calls D reads)
    (hview : ∀ s, LineHere R st [] (afterSize cs ++ rest) s₀ reads₀ s reads → s.mem st = memory)
    (hnum : (strtol memory 16).len = 0) :
    ∃ q, loopStep pf parseLine cbs ⟨.dispatch, D, reads⟩ = .again ⟨.top, q, reads⟩ ∧
      DataTop R (st + 2) 0 (toInt z) (afterSize cs ++ rest) q reads ∧ q.calls = calls := by
  have haccept := size_accept pf parseLine cbs (v := 0) hhere hstream fun s hs => ?_
  · simpa using haccept
  rw [hview s hs]
  refine ⟨hnum, ?_⟩
  rw [strtol_val_of_len_zero hnum]
  rfl

theorem lost_to_zero (hcb : cbs.Succeeding) (hR : (R : Int) ≤ intMax) {c : Chunk}
    {cs : List Chunk} {b : Nat} {p : Parser}
    (hdata : DataTop R b 0 z (afterSize (c :: cs) ++ rest) p reads) {q : Parser}
    {reads' : List Read}
    (hret : Returns (loopStep pf parseLine cbs) ⟨.top, p, reads⟩ (.returned .ok q reads')) :
    ¬ ChunkCalls (c :: cs) p.calls q := by
  -- two bytes, whatever they are
  obtain ⟨x, y, tail, htext⟩ : ∃ x y tail, afterSize (c :: cs) ++ rest = x :: y :: tail := by
    obtain ⟨x, xs, hx⟩ := List.exists_cons_of_ne_nil c.data_ne
    cases xs with
    | nil => exact ⟨x, CR, _, by simp only [afterSize, hx, crlf]; rfl⟩
    | cons y ys => exact ⟨x, y, _, by simp only [afterSize, hx]; rfl⟩
  rw [htext] at hdata
  obtain ⟨q', x', st', reads'', hret', -, hq', -⟩ := last_data pf parseLine cbs hcb hdata hR
  have heq := Returns.unique hret hret'
  cases heq
  exact not_calls_of_one hq'

theorem lost_to_less (hcb : cbs.Succeeding) (hR : (R : Int) ≤ intMax) {c : Chunk}
    {cs : List Chunk} {b v : Nat} {p : Parser}
    (hdata : DataTop R b v z (afterSize (c :: cs) ++ rest) p reads) (hv0 : 0 < v)
    (hlt : v < c.data.length) (hmax : (c.data.length : Int) ≤ intMax) {q : Parser}
    {reads' : List Read}
    (hret : Returns (loopStep pf parseLine cbs) ⟨.top, p, reads⟩ (.returned .ok q reads')) :
    ¬ ChunkCalls (c :: cs) p.calls q := by
  obtain ⟨x, y, tail, htext⟩ : ∃ x y tail, afterSize (c :: cs) ++ rest =
      c.data.take v ++ x :: y :: tail := by
    have hsplit : afterSize (c :: cs) ++ rest = c.data.take v ++
        (c.data.drop v ++ CR :: LF :: (chunkedBytes cs ++ rest)) := by
      rw [← List.append_assoc, List.take_append_drop]
      simp [afterSize, crlf]
    obtain ⟨x, xs, hx⟩ := List.exists_cons_of_ne_nil
      (show c.data.drop v ≠ [] from fun h => by
        have := congrArg List.length h
        simp only [List.length_drop, List.length_nil] at this
        omega)
    rw [hsplit, hx]
    cases xs with
    | nil => exact ⟨x, CR, _, rfl⟩
    | cons y ys => exact ⟨x, y, _, rfl⟩
  rw [htext] at hdata
  have hd : (c.data.take v).length = v := by rw [List.length_take]; omega
  obtain ⟨q₁, x₁, st₁, reads₁, hr₁, hsize, hq₁, hcall⟩ :=
    chunk_data pf parseLine cbs hcb hdata hd hv0 (by omega) hR
  have hpre := (body_calls hsize.state (hr₁.returns_iff.mp hret)).calls_before
  rw [hq₁] at hpre
  exact not_calls_of_first hpre hcall (by omega)

variable (cbs) in
/-- From `t` on the chunks are delivered exactly if `P`: then they are, with
`z` and all their sizes in `bodysz`, and no run that returns 0 delivers them
otherwise. -/
structure DeliveredIff (z : Int) (cs : List Chunk) (rest : List UInt8) (calls : List Call)
    (t : LoopState) (P : Prop) : Prop where
  good : P → ∃ q reads', Returns (loopStep pf parseLine cbs) t (.returned .ok q reads') ∧
    ChunksDone (toInt (z + chunkedSize cs)) cs rest calls q reads'
  bad : ∀ q reads', Returns (loopStep pf parseLine cbs) t (.returned .ok q reads') →
    ChunkCalls cs calls q → P

variable {pf parseLine} in
theorem DeliveredIff.of_reaches {cs : List Chunk} {t t' : LoopState} {P : Prop}
    (h : DeliveredIff pf parseLine cbs z cs rest calls t' P)
    (hr : Reaches (loopStep pf parseLine cbs) t t') :
    DeliveredIff pf parseLine cbs z cs rest calls t P where
  good hP := by
    obtain ⟨q, reads', hret, hdone⟩ := h.good hP
    exact ⟨q, reads', hr.returns hret, hdone⟩
  bad q reads' hret := h.bad q reads' (hr.returns_iff.mp hret)

theorem lost_only_digit (hcb : cbs.Succeeding) (hR : (R : Int) ≤ intMax) {cs : List Chunk}
    (hcf : ChunksFit R cs) {d : UInt8} (hsize : firstSize cs = [d]) {memory : List UInt8}
    (hstream : (s₀.data ++ pending reads₀).drop st = CR :: LF :: (afterSize cs ++ rest))
    (hhere : SizeHere pf parseLine cbs R st z [] (afterSize cs ++ rest) s₀ reads₀ calls D reads)
    (hview : ∀ s, LineHere R st [] (afterSize cs ++ rest) s₀ reads₀ s reads →
      s.mem st = memory) :
    DeliveredIff pf parseLine cbs z cs rest calls ⟨.dispatch, D, reads⟩
      (HarmlessLoss memory cs) := by
  by_cases hnum : (strtol memory 16).len = 0
  · obtain ⟨q₁, hstep, hdata, hq₁⟩ := lost_all_zero pf parseLine hstream hhere hview hnum
    cases cs with
    | nil =>
        refine ⟨fun _ => ?_, fun _ _ _ _ => hnum⟩
        obtain ⟨q, reads', hret, hdone, -⟩ := chunks_return pf parseLine hcb hR [] hcf (by decide)
          hdata
        rw [hq₁] at hdone
        exact ⟨q, reads', .of_again hstep hret, hdone⟩
    | cons c cs =>
        refine ⟨fun h => ?_, fun q reads' hret hex => absurd hex ?_⟩
        · have h2 := h.2
          have hsz : c.size = [d] := hsize
          rw [hsz] at h2
          exact absurd h2 (by simp)
        · rw [← hq₁]
          exact lost_to_zero pf parseLine hcb hR hdata ((Reaches.single hstep).returns_iff.mp hret)
  · refine ⟨fun h => ?_, fun q reads' hret _ =>
      absurd hret (lost_all_number pf parseLine hhere hview hnum)⟩
    cases cs with
    | nil => exact absurd h hnum
    | cons c cs =>
        have h2 := h.2
        have hsz : c.size = [d] := hsize
        rw [hsz] at h2
        exact absurd h2 (by simp)

theorem lost_first_digit (hcb : cbs.Succeeding) (hR : (R : Int) ≤ intMax) {c : Chunk}
    {cs : List Chunk} (hcf : ChunksFit R (c :: cs)) (hmax : (chunkedSize (c :: cs) : Int) ≤ intMax)
    {d : UInt8} {ds : List UInt8} (hsize : c.size = d :: ds) (hne : ds ≠ []) {memory : List UInt8}
    (hstream : (s₀.data ++ pending reads₀).drop st =
      ds ++ CR :: LF :: (afterSize (c :: cs) ++ rest))
    (hhere : SizeHere pf parseLine cbs R st z ds (afterSize (c :: cs) ++ rest) s₀ reads₀ calls D
      reads) :
    DeliveredIff pf parseLine cbs z (c :: cs) rest calls ⟨.dispatch, D, reads⟩
      (HarmlessLoss memory (c :: cs)) := by
  have hvalue := c.size_value
  have hdig := c.size_digits
  have hsum := chunkedSize_eq (c :: cs)
  simp only [firstData] at hsum
  rw [hsize] at hvalue hdig
  have hdig' : ∀ x ∈ ds, isDigit 16 x = true := fun x hx => hdig x (List.mem_cons_of_mem _ hx)
  by_cases hd : d = 48
  · subst hd
    rw [ofDigits_zero_cons] at hvalue
    have htext : SizeText ds (firstData (c :: cs)).length := ⟨hne, hdig', hvalue⟩
    obtain ⟨q, reads', hret, hdone, -⟩ :=
      chunks_from_size pf parseLine hcb hR hcf hmax htext hstream hhere
    refine ⟨fun _ => ⟨q, reads', hret, hdone⟩, fun _ _ _ _ => ⟨by rw [hsize]; rfl, ?_⟩⟩
    have h2 : 0 < ds.length := List.length_pos_iff.mpr hne
    rw [hsize, List.length_cons]
    omega
  · have hlt := ofDigits_tail_lt ds (show 0 < 16 by decide) (hdig d List.mem_cons_self) hd
    rw [hvalue] at hlt
    have htext : SizeText ds (ofDigits 16 ds) := ⟨hne, hdig', rfl⟩
    obtain ⟨q₁, hstep, hdata, hq₁⟩ := size_accept pf parseLine cbs hhere hstream
      fun s' hs' => htext.strtol (by omega) hstream hs'
    refine ⟨fun h => ?_, fun q reads' hret hex => absurd hex ?_⟩
    · have h1 := h.1
      rw [hsize] at h1
      exact absurd (Option.some.inj h1) hd
    · have hret' := (Reaches.single hstep).returns_iff.mp hret
      rw [← hq₁]
      rcases Nat.eq_zero_or_pos (ofDigits 16 ds) with hv | hv
      · rw [hv] at hdata
        exact lost_to_zero pf parseLine hcb hR hdata hret'
      · exact lost_to_less pf parseLine hcb hR hdata hv hlt (by omega) hret'

end

/-! ## The whole message -/

section
variable (pf : Platform) {cbs : Callbacks} (errno : Int) {R : Nat} {l : FirstLine}
variable {hs : List Header} {cs : List Chunk} {rest : List UInt8} {s : Stream} {reads : List Read}

theorem HasChunked.head (hcb : cbs.Succeeding) (hfits : HeadFits R l hs) (hch : HasChunked hs)
    (harr : Arrives R (headBytes l hs ++ CR :: LF :: rest) s reads) :
    ∃ p reads' c cs, Reaches (loopStep pf l.parse cbs) ⟨.top, .init s errno, reads⟩
        ⟨.dispatch, p, reads'⟩ ∧
      BlankHere R (s.pos.toNat + (headBytes l hs).length) rest s reads p reads' ∧
      p.ctx.framing = .chunks ∧ p.calls = c :: cs ∧ LineCall l c ∧
      List.Forall₂ HeaderCall hs cs := by
  obtain ⟨p, reads', c, cs, hr, hblank, hfr, hcalls, hline, hall⟩ :=
    head_reaches pf (p := .init s errno) hcb l hs
      (fun h hh hn => absurd hn (hch.plain h hh)) hfits.line hfits.headers rfl harr
  rw [framingFrom_chunks hch.plain hch.some] at hfr
  exact ⟨p, reads', c, cs, hr, hblank, hfr, hcalls, hline, hall⟩

theorem BlankHere.chunks_return {p : Parser} {reads₁ : List Read} {z : Int} {b : Nat}
    (hblank : BlankHere R b (chunkedBytes cs ++ rest) s reads p reads₁)
    (hcb : cbs.Succeeding) (hfr : p.ctx.framing = ⟨z, true, .size⟩)
    (hcf : ChunksFit R cs) (hmax : (chunkedSize cs : Int) ≤ intMax)
    (hpos : p.inp.pos + 2 = ((b + 2 : Nat) : Int)) :
    ∃ q reads', Returns (loopStep pf l.parse cbs) ⟨.dispatch, p, reads₁⟩
        (.returned .ok q reads') ∧
      ChunksDone (toInt (z + chunkedSize cs)) cs rest p.calls q reads' ∧
      q.inp.pos ≤ q.inp.eod + 2 := by
  have hR : (R : Int) ≤ intMax := by have := hcf.1; omega
  have hstream := hblank.stream
  rw [chunkedBytes_eq, List.append_assoc, List.cons_append, List.cons_append] at hstream
  obtain ⟨D, reads₂, hr₂, hhere⟩ := size_reaches_blank pf l.parse cbs hblank hfr hpos hstream
    (firstSize_text cs).noCrlf hcf.first
  obtain ⟨q, reads', hret, hdone⟩ :=
    chunks_from_size pf l.parse hcb hR hcf hmax (firstSize_text cs) hstream hhere
  exact ⟨q, reads', hr₂.returns hret, hdone⟩

/-- **From the empty line on the chunks are delivered** unless a read ends
inside that line and the digit that is lost then matters. -/
theorem BlankHere.delivers_chunks {p : Parser} {reads₁ : List Read} {z : Int} {b m : Nat}
    (hblank : BlankHere R b (chunkedBytes cs ++ rest) s reads p reads₁)
    (hcb : cbs.Succeeding) (hfr : p.ctx.framing = ⟨z, true, .size⟩)
    (hcf : ChunksFit R cs) (hmax : (chunkedSize cs : Int) ≤ intMax) (h0 : 0 ≤ s.pos)
    (hb : b = s.pos.toNat + m) :
    DeliveredIff pf l.parse cbs z cs rest p.calls ⟨.dispatch, p, reads₁⟩
      (Cuts s.eod reads (s.pos + m + 1) →
        HarmlessLoss ((receive (s.pos + m + 5) s reads).mem (s.pos + m + 3)) cs) := by
  have hR : (R : Int) ≤ intMax := by have := hcf.1; omega
  have hstream := hblank.stream
  rw [chunkedBytes_eq, List.append_assoc, List.cons_append, List.cons_append] at hstream
  have hb' : s.pos + m = b := by omega
  rcases hblank.body_start h0 hb with ⟨hcut, hpos⟩ | ⟨hcut, hpos⟩
  · -- the first digit is lost
    obtain ⟨d, ds, hds⟩ := List.exists_cons_of_ne_nil (firstSize_text cs).ne
    have hdig := (firstSize_text cs).digits
    rw [hds] at hdig
    have hshift : (p.inp.data ++ pending reads₁).drop (b + 3) =
        ds ++ CR :: LF :: (afterSize cs ++ rest) := by
      rw [show b + 3 = b + 2 + 1 from rfl, ← List.drop_drop, hstream, hds]
      rfl
    have hnoc : NoCrlf ds :=
      noCrlf_of_not_mem fun hm => isDigit_ne_CR (hdig CR (List.mem_cons_of_mem _ hm)) rfl
    have hfit := hcf.first
    rw [hds, List.length_cons] at hfit
    obtain ⟨D, reads₂, hr₂, hhere⟩ := size_reaches_blank pf l.parse cbs hblank hfr hpos hshift hnoc
      (by push_cast at hfit; omega)
    suffices hloss : DeliveredIff pf l.parse cbs z cs rest p.calls ⟨.dispatch, D, reads₂⟩
        (HarmlessLoss ((receive (s.pos + m + 5) s reads).mem (s.pos + m + 3)) cs) by
      have hiff := hloss.of_reaches hr₂
      exact ⟨fun h => hiff.good (h hcut), fun q reads' hret hex _ => hiff.bad q reads' hret hex⟩
    by_cases hnil : ds = []
    · subst hnil
      refine lost_only_digit pf l.parse hcb hR hcf hds hshift hhere fun s' hs' => ?_
      have hc := hs'.complete
      have h1 := hs'.view ((b : Int) + 5) ((b + 3 : Nat) : Int) (by simp; omega)
      rw [receive_here (by simp at hc; omega)] at h1
      rw [h1, hb', hblank.view _ _ (by omega) (by omega)]
      rfl
    · cases cs with
      | nil =>
          -- a body without chunks has one digit
          have h1 := congrArg List.length hds
          have h2 : 0 < ds.length := List.length_pos_iff.mpr hnil
          have h3 : (firstSize []).length = 1 := rfl
          rw [List.length_cons] at h1
          omega
      | cons c cs => exact lost_first_digit pf l.parse hcb hR hcf hmax hds hnil hshift hhere
  · -- no digit is lost
    obtain ⟨q, reads', hret, hdone, -⟩ := hblank.chunks_return pf hcb hfr hcf hmax hpos
    exact ⟨fun _ => ⟨q, reads', hret, hdone⟩, fun _ _ _ _ h => absurd h hcut⟩

/-- **A chunked message is read exactly** unless a read ends inside its empty
line and the digit that is lost then matters. -/
theorem chunked_exact_iff (hcb : cbs.Succeeding) (hfits : HeadFits R l hs) (hch : HasChunked hs)
    (hcf : ChunksFit R cs) (hmax : (chunkedSize cs : Int) ≤ intMax)
    (harr : Arrives R (headBytes l hs ++ CR :: LF :: (chunkedBytes cs ++ rest)) s reads) :
    (∃ q reads', Parses l pf cbs errno s reads (.returned .ok q reads') ∧
      ChunksReadExactly l hs cs rest q reads') ↔
      (Cuts s.eod reads (s.pos + (headBytes l hs).length + 1) →
        HarmlessLoss ((receive (s.pos + (headBytes l hs).length + 5) s reads).mem
          (s.pos + (headBytes l hs).length + 3)) cs) := by
  obtain ⟨p, reads₁, c₀, cs₀, hr, hblank, hfr, hcalls, hline, hall⟩ :=
    hch.head pf errno hcb hfits harr
  have hiff :=
    (hblank.delivers_chunks pf (l := l) hcb hfr hcf hmax harr.pos_nonneg rfl).of_reaches hr
  constructor
  · rintro ⟨q, reads', hparse, hexact⟩
    obtain ⟨more, hhead, hmore⟩ := hexact.calls
    have hpre := (hblank.calls_extend (hr.returns_iff.mp (parses_iff.mp hparse))).calls_before
    refine hiff.bad q reads' (parses_iff.mp hparse) ?_
    rw [hcalls] at hpre ⊢
    exact hhead.chunkCalls hmore hall hpre
  · intro h
    obtain ⟨q, reads', hret, hdone⟩ := hiff.good h
    have hsum : toInt (0 + (chunkedSize cs : Int)) = chunkedSize cs := by
      rw [Int.zero_add]
      exact toInt_of_le (by omega) hmax
    rw [hsum] at hdone
    obtain ⟨more, hmore, hforall⟩ := hdone.calls
    exact ⟨q, reads', parses_iff.mpr hret,
      ⟨more, ⟨c₀, cs₀, by rw [hmore, hcalls]; rfl, hline, hall⟩, hforall⟩, hdone.bodysz,
      hdone.stands⟩

end

/-! ### One chunk, cut in two ways -/

/-- `Transfer-Encoding: chunked`. -/
def Header.chunkedEncoding : Header where
  name := ascii "Transfer-Encoding"
  blanks := [SP]
  value := ascii "chunked"
  name_ne := by decide
  name_ok := by decide
  blanks_ok := isspace_blank
  value_ne := by decide
  value_ok := by decide
  value_head := by decide

/-- Three bytes that are no hexadecimal digits. -/
def Chunk.xyz : Chunk where
  size := ascii "3"
  data := ascii "xyz"
  size_ne := by decide
  size_digits := by decide
  size_value := by decide
  data_ne := by decide

theorem hasChunked_chunkedEncoding : HasChunked [.chunkedEncoding] := ⟨by decide, by decide⟩

theorem chunked_exact_iff_xyz :
    ∃ q reads, Parses (.request .getRoot) .keeping .accepting 0 ⟨[], [], 0⟩
        [.bytes (ascii "GET / HTTP/1.1\r\nTransfer-Encoding: chunked\r\n\r\n3\r\nxy") [],
          .bytes (ascii "z\r\n0\r\n\r\n") []] (.returned .ok q reads) ∧
      ChunksReadExactly (.request .getRoot) [.chunkedEncoding] [.xyz] [] q reads :=
  (chunked_exact_iff (R := 64) .keeping 0 Callbacks.accepting_succeeding
    ⟨by decide, by decide⟩ hasChunked_chunkedEncoding ⟨by decide, by decide⟩ (by decide)
    ⟨by decide, by decide, by decide, .cons (by decide) (by decide) (.cons (by decide) (by decide)
      (.nil _)), by decide⟩).mpr fun h => absurd h (by decide)

/-- The same message, cut inside its empty line: the body is taken for an empty
one, and the data of the chunk is left on the stream. -/
theorem chunked_cut_in_blank_line :
    Arrives 64 (headBytes (.request .getRoot) [.chunkedEncoding] ++
          CR :: LF :: (chunkedBytes [.xyz] ++ []))
        ⟨[], [], 0⟩ [.bytes (ascii "GET / HTTP/1.1\r\nTransfer-Encoding: chunked\r\n\r") [],
          .bytes (ascii "\n3\r\nxyz\r\n0\r\n\r\n") []] ∧
      ¬ ∃ q reads, Parses (.request .getRoot) .keeping .accepting 0 ⟨[], [], 0⟩
          [.bytes (ascii "GET / HTTP/1.1\r\nTransfer-Encoding: chunked\r\n\r") [],
            .bytes (ascii "\n3\r\nxyz\r\n0\r\n\r\n") []] (.returned .ok q reads) ∧
        ChunksReadExactly (.request .getRoot) [.chunkedEncoding] [.xyz] [] q reads := by
  refine ⟨⟨by decide, by decide, by decide,
    .cons (by decide) (by decide) (.cons (by decide) (by decide) (.nil _)), by decide⟩, ?_⟩
  rintro ⟨q, reads, hparse, hexact⟩
  have hend := hparse.ahead_eq 20 (r := ascii "z\r\n0\r\n\r\n") (by decide +kernel) hexact.stands
  exact absurd hend (by decide)

end MnHttp
