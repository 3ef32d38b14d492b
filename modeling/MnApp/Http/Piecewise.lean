/-
# `MnApp.Http.Piecewise` — a message of which some has come

The statements about whole messages are about a parser that is given all the
reads it will ever get.  A thread that parses is given its reads one by one,
and when the call returns, bytes of the message may still be on their way:
the call does not wait for the LF of the last chunk.

    message_exact    the whole message, and something behind it, is there
    Partly.done      some of the message is there, and the call has returned:
                     then it returned 0, with the calls the message asks for,
                     and `pos` is ahead of the data by what has not come
    Partly.settles   the call returns, or comes to wait for a read; and it
                     returns if the whole message is there

The others are the first, for reads that complete what has come: a call that
has returned does not see what comes later.  The reads that are made up must
not end inside the empty line either, so its CR and LF come together
(`completion`).

**No `body_cb`.**  With NULL in its place the parser does the same, and leaves
out the calls (`dispatch_unheard`); whoever accepts every call cannot be told
from it otherwise.
-/
import MnApp.Http.Truncation

namespace MnHttp

open CLib Loop

/-! ## Where reads end -/

section
variable {e n : Int} {rs rs' : List Read}

theorem cuts_append : ∀ (rs : List Read) (e : Int),
    Cuts e (rs ++ rs') n ↔ Cuts e rs n ∨ Cuts (e + (pending rs).length) rs' n
  | [], e => by
      simp only [List.nil_append, pending_nil, List.length_nil, Int.natCast_zero, Int.add_zero]
      exact ⟨.inr, fun h => h.elim (fun (he : e = n) => he ▸ Cuts.here e rs') id⟩
  | r :: rs, e => by
      have hlen : e + r.payload.length + (pending rs).length =
          e + (pending (r :: rs)).length := by
        rw [pending_cons, List.length_append]
        omega
      simp only [List.cons_append, Cuts, cuts_append rs, hlen, or_assoc]

theorem Cuts.last : ∀ (rs : List Read) (e : Int), Cuts e rs (e + (pending rs).length)
  | [], e => (Int.add_zero e).symm
  | r :: rs, e => by
      refine .inr ?_
      have h := Cuts.last rs (e + r.payload.length)
      rw [pending_cons, List.length_append, Int.natCast_add, ← Int.add_assoc]
      exact h

theorem Cuts.le_last : ∀ {rs : List Read} {e : Int}, Cuts e rs n → n ≤ e + (pending rs).length
  | [], e, h => Int.le_of_eq (h.symm.trans (Int.add_zero e).symm)
  | r :: rs, e, h => by
      rw [pending_cons, List.length_append]
      rcases h with h | h
      · omega
      · have := Cuts.le_last h
        omega

theorem cuts_shift (d : Int) : ∀ (rs : List Read) (e : Int),
    Cuts (e + d) rs (n + d) ↔ Cuts e rs n
  | [], e => Int.add_left_inj d
  | r :: rs, e => by
      have hassoc : e + d + r.payload.length = e + r.payload.length + d := by omega
      simp only [Cuts, hassoc, cuts_shift d rs, Int.add_left_inj]

end

/-- **What has come of a text is completed by reads that do not end inside its
line end.** -/
theorem completion {R : Nat} (hR : 2 ≤ R) {come missing line behind : List UInt8}
    (h : come ++ missing = line ++ CR :: LF :: behind) (hne : come.length ≠ line.length + 1) :
    ∃ reads, Delivers R reads ∧ pending reads = missing ∧
      ¬ Cuts come.length reads (line.length + 1) := by
  by_cases hle : come.length ≤ line.length
  · obtain ⟨a, rfl⟩ : come <+: line :=
      List.prefix_of_prefix_length_le ⟨missing, h⟩ ⟨_, rfl⟩ hle
    rw [List.append_assoc, List.append_cancel_left_eq] at h
    refine ⟨bytewise a ++ .bytes [CR, LF] [] :: bytewise behind,
      (delivers_bytewise (by omega) a).append
        (.cons (List.cons_ne_nil _ _) hR (delivers_bytewise (by omega) behind)), ?_, ?_⟩
    · rw [pending_append, pending_bytewise, pending_cons, pending_bytewise, h]
      rfl
    · rw [cuts_append, pending_bytewise, List.length_append]
      rintro (hcut | hcut | hcut)
      · have := hcut.le_last
        rw [pending_bytewise] at this
        omega
      · omega
      · have := hcut.le
        simp only [Read.payload, List.length_cons, List.length_nil] at this
        omega
  · refine ⟨bytewise missing, delivers_bytewise (by omega) missing, pending_bytewise missing, ?_⟩
    intro hcut
    have := hcut.le
    omega

/-! ## Without `body_cb` -/

/-- `errno` after a `strtol` that came to `r`. -/
def errnoAfter (e : Int) (r : Strtol) : Int := if r.erange then ERANGE else e

theorem noteErrno_eq (p : Parser) (r : Strtol) :
    p.noteErrno r = { p with errno := errnoAfter p.errno r } := by
  unfold Parser.noteErrno errnoAfter
  split <;> rfl

/-- The calls but those of `body_cb`. -/
def heard (cs : List Call) : List Call := cs.filter fun c => c.kind ≠ .body

theorem heard_body (cs : List Call) (c : Ctx) (s : Stream) :
    heard (cs ++ [⟨.body, c, s⟩]) = heard cs := by
  simp [heard]

/-- Without the calls of `body_cb`. -/
def Parser.unheard (p : Parser) : Parser := { p with calls := heard p.calls }

def Iter.unheard : Iter → Iter
  | .again p => .again p.unheard
  | .ret r p => .ret r p.unheard

section
variable (p : Parser)

theorem parseVersion_unheard (tmp : Int) : parseVersion p.unheard tmp =
    ((parseVersion p tmp).1, (parseVersion p tmp).2.unheard) := by
  unfold parseVersion Parser.unheard
  simp only [noteErrno_eq]
  split
  · rfl
  · split
    · rfl
    · split
      · rfl
      · split <;> rfl

theorem parseStatusLine_unheard :
    parseStatusLine p.unheard = ((parseStatusLine p).1, (parseStatusLine p).2.unheard) := by
  have hinp : p.unheard.inp = p.inp := rfl
  have hctx : p.unheard.ctx = p.ctx := rfl
  unfold parseStatusLine
  simp only [hinp, hctx]
  split
  · rfl
  · rename_i n _
    split
    · rfl
    · rename_i k _
      have hv : parseVersion { p.unheard with ctx := { p.ctx with
          firstLine := ⟨p.ctx.firstLine.start, p.ctx.firstLine.start + n⟩ } }
          (p.ctx.firstLine.start + k) = _ := parseVersion_unheard { p with ctx := { p.ctx with
            firstLine := ⟨p.ctx.firstLine.start, p.ctx.firstLine.start + n⟩ } } _
      simp only [hinp] at hv
      rw [hv]
      obtain ⟨e, q⟩ := parseVersion _ _
      cases e with
      | error e => rfl
      | ok tmp =>
          simp only [noteErrno_eq, Parser.unheard]
          split
          · rfl
          · split <;> rfl

theorem processHeader_unheard :
    processHeader p.unheard = ((processHeader p).1, (processHeader p).2.unheard) := by
  unfold processHeader Parser.unheard
  simp only [noteErrno_eq]
  split
  · split <;> rfl
  · split
    · split
      · rfl
      · split <;> rfl
    · rfl

theorem processChunkSize_unheard :
    processChunkSize p.unheard = ((processChunkSize p).1, (processChunkSize p).2.unheard) := by
  unfold processChunkSize Parser.unheard
  simp only [noteErrno_eq]
  split
  · rfl
  · split <;> rfl

theorem line_ne_body : CallKind.line ≠ .body := nofun

theorem header_ne_body : CallKind.header ≠ .body := nofun

theorem callback_heard {kind : CallKind} {cb : Option Callback} (hk : kind ≠ .body)
    (h : ∃ f : Callback, cb = some f ∧ ∀ cs c s, f cs c s = 0) :
    p.unheard.callback kind cb = (0, (p.callback kind cb).2.unheard) ∧
      (p.callback kind cb).1 = 0 := by
  rw [callback_ok h, callback_ok h]
  refine ⟨?_, rfl⟩
  simp [Parser.unheard, heard, hk]

variable {cbs : Callbacks}

theorem processChunkData_unheard (hcb : cbs.Succeeding) (rc : Recycler) :
    processChunkData rc none p.unheard =
      ((processChunkData rc cbs.body p).1, (processChunkData rc cbs.body p).2.unheard) := by
  unfold processChunkData
  rw [callback_ok hcb.body]
  simp only [Parser.unheard, Parser.callback, ne_eq, not_true, if_false]
  split
  · rfl
  · by_cases hsize : p.ctx.currentChunkSize > 0
    · simp only [hsize, if_true, recycleStreamBuffer, heard_body]
    · simp only [hsize, if_false, recycleStreamBuffer, heard_body]

theorem processPlainBody_unheard (hcb : cbs.Succeeding) (rc : Recycler) :
    processPlainBody rc none p.unheard =
      ((processPlainBody rc cbs.body p).1, (processPlainBody rc cbs.body p).2.unheard) := by
  unfold processPlainBody
  simp only [callback_ok hcb.body]
  simp only [Parser.unheard, Parser.callback, ne_eq, not_true, if_false]
  split
  · rfl
  · simp only [recycleStreamBuffer, heard_body]

theorem processBody_unheard (hcb : cbs.Succeeding) (rc : Recycler) : processBody rc none p.unheard =
    ((processBody rc cbs.body p).1, (processBody rc cbs.body p).2.unheard) := by
  have hctx : p.unheard.ctx = p.ctx := rfl
  unfold processBody
  rw [hctx]
  split
  · split
    · exact processChunkSize_unheard p
    · exact processChunkData_unheard p hcb rc
    · rfl
  · exact processPlainBody_unheard p hcb rc

theorem bodyIter_unheard (hcb : cbs.Succeeding) (rc : Recycler) (k : Nat) :
    bodyIter rc none k p.unheard = (bodyIter rc cbs.body k p).unheard := by
  unfold bodyIter
  rw [processBody_unheard p hcb rc]
  obtain ⟨r, q⟩ := processBody rc cbs.body p
  cases r <;> rfl

theorem headerFieldOut_unheard (hcb : cbs.Succeeding) (pf : Platform) :
    headerFieldOut pf { cbs with body := none } p.unheard = (headerFieldOut pf cbs p).unheard := by
  have hctx : p.unheard.ctx = p.ctx := rfl
  have hinp : p.unheard.inp = p.inp := rfl
  unfold headerFieldOut
  simp only [hctx, hinp]
  split
  · rfl
  · exact bodyIter_unheard (blankLine p) hcb pf.recycler 12
  · split
    · rfl
    · rename_i n _ _ c _
      have hline := processHeader_unheard (headerLine pf.nullOff
        (p.ctx.currentHeaderName.start + (n + 1)) (p.ctx.currentHeaderName.start + c) p)
      rw [show headerLine pf.nullOff (p.ctx.currentHeaderName.start + (n + 1))
        (p.ctx.currentHeaderName.start + c) p.unheard = (headerLine pf.nullOff
        (p.ctx.currentHeaderName.start + (n + 1)) (p.ctx.currentHeaderName.start + c) p).unheard
        from rfl, hline]
      obtain ⟨r, q⟩ := processHeader _
      cases r with
      | needMore =>
          obtain ⟨h1, h2⟩ := callback_heard q header_ne_body hcb.header
          simp only [h1, h2, ne_eq, not_true, if_false]
          rfl
      | ok | empty | consumeDataError | diag | crash => rfl

theorem dispatch_unheard (hcb : cbs.Succeeding) (pf : Platform) :
    dispatch pf parseStatusLine { cbs with body := none } p.unheard =
      (dispatch pf parseStatusLine cbs p).unheard := by
  have hctx : p.unheard.ctx = p.ctx := rfl
  unfold dispatch
  simp only [hctx]
  split
  · rfl
  · rw [parseStatusLine_unheard]
    obtain ⟨r, q⟩ := parseStatusLine p
    cases r with
    | ok =>
        obtain ⟨h1, h2⟩ := callback_heard q line_ne_body hcb.line
        simp only [h1, h2, ne_eq, not_true, if_false]
        rfl
    | needMore | empty | consumeDataError | diag | crash => rfl
  · rfl
  · exact headerFieldOut_unheard p hcb pf
  · exact bodyIter_unheard p hcb pf.recycler 12
  · exact bodyIter_unheard p hcb pf.recycler 13

end

def LoopState.unheard (t : LoopState) : LoopState := ⟨t.pc, t.par.unheard, t.reads⟩

def Outcome.unheard : Outcome → Outcome
  | .blocked p => .blocked p.unheard
  | .returned r p rest => .returned r p.unheard rest

section
variable {pf : Platform} {cbs : Callbacks} {t t' : LoopState} {out : Outcome}

theorem loopStep_unheard_again (hcb : cbs.Succeeding)
    (h : loopStep pf parseStatusLine cbs t = .again t') :
    loopStep pf parseStatusLine { cbs with body := none } t.unheard = .again t'.unheard := by
  apply loopStep_again_iff.mpr
  cases loopStep_again_iff.mp h with
  | read more => exact .read more
  | look lt => exact .look lt
  | @pass p q reads again =>
      exact .pass ((dispatch_unheard p hcb pf).trans (congrArg Iter.unheard again))

theorem loopStep_unheard_done (hcb : cbs.Succeeding)
    (h : loopStep pf parseStatusLine cbs t = .done out) :
    loopStep pf parseStatusLine { cbs with body := none } t.unheard = .done out.unheard := by
  apply loopStep_done_iff.mpr
  cases loopStep_done_iff.mp h with
  | blocked more => exact .blocked more
  | fail more => exact .fail more
  | @ret p q r reads ret =>
      exact .ret ((dispatch_unheard p hcb pf).trans (congrArg Iter.unheard ret))

/-- **Without `body_cb` a call does what it does when every call is accepted.** -/
theorem returns_unheard (hcb : cbs.Succeeding)
    (h : Returns (loopStep pf parseStatusLine cbs) t out) :
    Returns (loopStep pf parseStatusLine { cbs with body := none }) t.unheard out.unheard := by
  obtain ⟨out', hret, rfl⟩ := h.simulate (R := fun t u => u = t.unheard)
    (Q := fun o o' => o' = o.unheard)
    (fun s u t hu hs => ⟨_, hu ▸ loopStep_unheard_again hcb hs, rfl⟩)
    (fun s u r hu hs => ⟨_, hu ▸ loopStep_unheard_done hcb hs, rfl⟩) rfl
  exact hret

end

/-! ## A message and something behind it -/

/-- The calls of `body_cb` that a body asks for. -/
def Payload.Delivered : Payload → List Call → Prop
  | .length body, more => ∃ c, more = [c] ∧ BodyCall body c
  | .chunks cs, more => List.Forall₂ ChunkCall (cs.map Chunk.data ++ [[]]) more

/-- The message is framed, and an `int` can count its lines and its body. -/
structure WellSent (R : Nat) (l : FirstLine) (hs : List Header) (payload : Payload) : Prop where
  head : HeadFits R l hs
  framed : payload.Framed R hs
  total : ∀ cs, payload = .chunks cs → (chunkedSize cs : Int) ≤ intMax

/-- A call has returned 0 on the message, and stands at `rest`, which may not
have come. -/
structure DoneWith (l : FirstLine) (hs : List Header) (payload : Payload) (rest : List UInt8)
    (q : Parser) (reads : List Read) : Prop where
  calls : ∃ more, HeadCalls l hs q.calls more ∧ payload.Delivered more
  stands : StandsAt rest q.inp reads
  near : rest ≠ [] → q.inp.pos ≤ q.inp.eod + 2

section
variable (pf : Platform) {cbs : Callbacks} (errno : Int) {R : Nat} {l : FirstLine}
variable {hs : List Header} {payload : Payload} {s : Stream} {reads : List Read}

theorem message_exact {rest : List UInt8} (hcb : cbs.Succeeding) (hw : WellSent R l hs payload)
    (harr : Arrives R (messageBytes l hs payload ++ rest) s reads)
    (hcut : ¬ Cuts s.eod reads (s.pos + (headBytes l hs).length + 1)) :
    ∃ q reads', Parses l pf cbs errno s reads (.returned .ok q reads') ∧
      DoneWith l hs payload rest q reads' := by
  have hassoc : messageBytes l hs payload ++ rest =
      headBytes l hs ++ CR :: LF :: (payload.bytes ++ rest) := by simp [messageBytes]
  rw [hassoc] at harr
  have hframed := hw.framed
  cases payload with
  | length body =>
      obtain ⟨q, reads', hparse, hexact, hpend⟩ :=
        length_exact pf errno hcb hw.head hframed rfl harr hcut
      obtain ⟨c, hhead, hcall⟩ := hexact.calls
      refine ⟨q, reads', hparse, ⟨[c], hhead, c, rfl, hcall⟩, hexact.stands, fun hrest => ?_⟩
      -- everything in front of `rest` has come
      have hpos := hexact.stands.pos_nonneg
      have hlen := congrArg List.length hexact.stands.stream
      have hne : 0 < rest.length := List.length_pos_iff.mpr hrest
      rw [List.length_drop, List.length_append] at hlen
      unfold Stream.eod
      omega
  | chunks cs =>
      obtain ⟨hch, hcf, -⟩ := hframed
      obtain ⟨p, reads₁, c, cs', hr, hblank, hfr, hcalls, hline, hall⟩ :=
        hch.head pf errno hcb hw.head harr
      rcases hblank.body_start harr.pos_nonneg rfl with ⟨hcut', -⟩ | ⟨-, hpos⟩
      · exact absurd hcut' hcut
      obtain ⟨q, reads', hret, hdone, hle⟩ :=
        hblank.chunks_return pf hcb hfr hcf (hw.total cs rfl) hpos
      obtain ⟨more, hmore, hforall⟩ := hdone.calls
      exact ⟨q, reads', parses_iff.mpr (hr.returns hret),
        ⟨more, ⟨c, cs', by rw [hmore, hcalls]; rfl, hline, hall⟩, hforall⟩, hdone.stands,
        fun _ => hle⟩

end

/-! ## Piece by piece -/

/-- The callbacks accept every call; `body_cb` may be NULL. -/
structure Callbacks.Willing (cbs : Callbacks) : Prop where
  line : ∃ f : Callback, cbs.line = some f ∧ ∀ cs c s, f cs c s = 0
  header : ∃ f : Callback, cbs.header = some f ∧ ∀ cs c s, f cs c s = 0
  body : ∀ f : Callback, cbs.body = some f → ∀ cs c s, f cs c s = 0

/-- The calls are those the message asks for, without those of a `body_cb` that
is not there. -/
def Heard (cb : Option Callback) (l : FirstLine) (hs : List Header) (payload : Payload)
    (calls : List Call) : Prop :=
  ∃ more, HeadCalls l hs calls more ∧ if cb.isSome then payload.Delivered more else more = []

theorem forall₂_right {α β : Type} {Rel : α → β → Prop} {P : β → Prop}
    (hP : ∀ a b, Rel a b → P b) {as : List α} {bs : List β} (h : List.Forall₂ Rel as bs) :
    ∀ b ∈ bs, P b := by
  induction h with
  | nil => exact fun _ hb => absurd hb List.not_mem_nil
  | cons hab _ ih =>
      intro b hb
      rcases List.mem_cons.mp hb with rfl | hb
      · exact hP _ _ hab
      · exact ih b hb

theorem Payload.Delivered.kind {payload : Payload} {more : List Call}
    (h : payload.Delivered more) : ∀ c ∈ more, c.kind = .body := by
  cases payload with
  | length body =>
      obtain ⟨c, rfl, hcall⟩ := h
      exact fun c' hc' => List.mem_singleton.mp hc' ▸ hcall.kind
  | chunks cs => exact forall₂_right (fun _ _ hcall => hcall.kind) h

theorem Heard.valued {cb : Option Callback} {l : FirstLine} {hs : List Header} {payload : Payload}
    {calls : List Call} (h : Heard cb l hs payload calls) :
    ∀ c ∈ calls, c.kind = .header → 0 ≤ c.ctx.currentHeaderValue.start := by
  obtain ⟨more, ⟨c₀, cs, rfl, hline, hall⟩, hmore⟩ := h
  have hbody : ∀ c ∈ more, c.kind = .body := by
    split at hmore
    · exact hmore.kind
    · exact hmore ▸ fun _ hc => absurd hc List.not_mem_nil
  intro c hc hkind
  rcases List.mem_cons.mp hc with rfl | hc
  · cases hline.kind.symm.trans hkind
  rcases List.mem_append.mp hc with hc | hc
  · exact forall₂_right (fun _ _ hcall => hcall.value.start_nonneg) hall c hc
  · cases (hbody c hc).symm.trans hkind

theorem Heard.header {cb : Option Callback} {l : FirstLine} {hs : List Header} {payload : Payload}
    {calls : List Call} (h : Heard cb l hs payload calls) (hne : hs ≠ []) :
    ∃ c ∈ calls, c.kind = .header := by
  obtain ⟨more, ⟨c₀, cs, rfl, -, hall⟩, -⟩ := h
  cases hall with
  | nil => exact absurd rfl hne
  | cons hcall _ =>
      exact ⟨_, List.mem_cons_of_mem _ (List.mem_append_left _ List.mem_cons_self), hcall.kind⟩

theorem HeadCalls.heard {l : FirstLine} {hs : List Header} {calls more : List Call}
    (h : HeadCalls l hs calls more) (hmore : ∀ c ∈ more, c.kind = .body) :
    HeadCalls l hs (heard calls) [] := by
  obtain ⟨c, cs, rfl, hline, hall⟩ := h
  refine ⟨c, cs, ?_, hline, hall⟩
  have hcs : ∀ c ∈ cs, c.kind = .header := forall₂_right (fun _ _ hcall => hcall.kind) hall
  have hkeep : MnHttp.heard cs = cs := List.filter_eq_self.mpr fun c hc => by
    rw [hcs c hc]
    rfl
  have hdrop : MnHttp.heard more = [] := List.filter_eq_nil_iff.mpr fun c hc => by
    rw [hmore c hc]
    nofun
  have hfirst : MnHttp.heard (c :: (cs ++ more)) = c :: MnHttp.heard (cs ++ more) :=
    List.filter_cons_of_pos (by rw [hline.kind]; rfl)
  have happ : MnHttp.heard (cs ++ more) = MnHttp.heard cs ++ MnHttp.heard more :=
    List.filter_append ..
  rw [hfirst, happ, hkeep, hdrop]

section
variable (pf : Platform) {cbs : Callbacks} (errno : Int) {R : Nat} {l : StatusLine}
variable {hs : List Header} {payload : Payload} {s : Stream}

theorem response_exact {rest : List UInt8} {reads : List Read} (hcb : cbs.Willing)
    (hw : WellSent R (.status l) hs payload)
    (harr : Arrives R (messageBytes (.status l) hs payload ++ rest) s reads)
    (hcut : ¬ Cuts s.eod reads (s.pos + (headBytes (.status l) hs).length + 1)) :
    ∃ q reads', Returns (loopStep pf parseStatusLine cbs) ⟨.top, .init s errno, reads⟩
        (.returned .ok q reads') ∧
      Heard cbs.body (.status l) hs payload q.calls ∧ StandsAt rest q.inp reads' ∧
      (rest ≠ [] → q.inp.pos ≤ q.inp.eod + 2) := by
  obtain ⟨line, header, body⟩ := cbs
  cases body with
  | some f =>
      obtain ⟨q, reads', hparse, hdone⟩ := message_exact pf errno
        ⟨hcb.line, hcb.header, f, rfl, hcb.body f rfl⟩ hw harr hcut
      exact ⟨q, reads', parses_iff.mp hparse, hdone.calls, hdone.stands, hdone.near⟩
  | none =>
      -- the same call, with a `body_cb` that accepts everything
      have hcb' : Callbacks.Succeeding ⟨line, header, some fun _ _ _ => 0⟩ :=
        ⟨hcb.line, hcb.header, _, rfl, fun _ _ _ => rfl⟩
      obtain ⟨q, reads', hparse, hdone⟩ := message_exact pf errno hcb' hw harr hcut
      obtain ⟨more, hhead, hmore⟩ := hdone.calls
      exact ⟨q.unheard, reads', returns_unheard hcb' (parses_iff.mp hparse),
        ⟨[], hhead.heard hmore.kind, rfl⟩, hdone.stands, hdone.near⟩

/-- What a call is given of a response: `late` is what was missing of the stream
before it, `rs` are the reads, and `missing` has not come. -/
structure Partly (R : Nat) (l : StatusLine) (hs : List Header) (payload : Payload) (s : Stream)
    (late : List UInt8) (rs : List Read) (missing : List UInt8) : Prop where
  pos : s.pos = s.eod + late.length
  short : late.length ≤ 2
  delivers : Delivers R rs
  text : pending rs ++ missing = late ++ messageBytes (.status l) hs payload
  uncut : ¬ Cuts s.eod rs (s.pos + (headBytes (.status l) hs).length + 1)

variable {late missing : List UInt8} {rs : List Read}

theorem Partly.arrives (h : Partly R l hs payload s late rs missing) {more : List Read}
    {rest : List UInt8} (hdel : Delivers R more) (hmore : pending more = missing ++ rest) :
    Arrives R (messageBytes (.status l) hs payload ++ rest) s (rs ++ more) := by
  have hpos := h.pos
  have hshort := h.short
  have heod : 0 ≤ s.eod := Int.natCast_nonneg _
  refine ⟨by omega, by omega, ?_, h.delivers.append hdel, by omega⟩
  have hnat : s.pos.toNat = s.data.length + late.length := by
    unfold Stream.eod at hpos
    omega
  rw [pending_append, hmore, ← List.append_assoc (pending rs), h.text, hnat, ← List.drop_drop,
    List.drop_left, List.append_assoc, List.drop_left]

theorem Partly.completes (h : Partly R l hs payload s late rs missing) (hcb : cbs.Willing)
    (hw : WellSent R (.status l) hs payload) (hR : 2 ≤ R) :
    ∃ more q reads', pending more = missing ++ [0] ∧
      Returns (loopStep pf parseStatusLine cbs) ⟨.top, .init s errno, rs ++ more⟩
        (.returned .ok q reads') ∧
      Heard cbs.body (.status l) hs payload q.calls ∧ StandsAt [0] q.inp reads' ∧
      q.inp.pos ≤ q.inp.eod + 2 := by
  have hpos := h.pos
  have hplace : s.pos + (headBytes (.status l) hs).length + 1 =
      ((late ++ headBytes (.status l) hs).length + 1 : Int) + s.eod := by
    rw [List.length_append]
    omega
  have hsplit : pending rs ++ missing =
      (late ++ headBytes (.status l) hs) ++ CR :: LF :: payload.bytes := by
    rw [h.text, messageBytes, List.append_assoc]
  obtain ⟨fut, hfut, hpend, hcut⟩ := completion hR hsplit fun hlen => h.uncut (by
    have hlast := Cuts.last rs s.eod
    rw [hplace]
    rw [hlen] at hlast
    push_cast at hlast ⊢
    rwa [Int.add_comm])
  have hmore : pending (fut ++ [.bytes [0] []]) = missing ++ [0] := by
    rw [pending_append, hpend]
    rfl
  have hone : [(0 : UInt8)].length ≤ R := Nat.le_of_succ_le hR
  have harr := h.arrives (hfut.append (.cons (List.cons_ne_nil _ _) hone (.nil R))) hmore
  have hnocut : ¬ Cuts s.eod (rs ++ (fut ++ [.bytes [0] []]))
      (s.pos + (headBytes (.status l) hs).length + 1) := by
    rw [cuts_append, not_or]
    refine ⟨h.uncut, ?_⟩
    rw [hplace, Int.add_comm s.eod, cuts_shift, cuts_append, not_or]
    refine ⟨hcut, fun hlast => ?_⟩
    have hle := hlast.le
    have hlen := congrArg List.length hsplit
    rw [hpend] at hle
    simp only [List.length_append, List.length_cons] at hle hlen
    omega
  obtain ⟨q, reads', hret, hheard, hstands, hnear⟩ := response_exact pf errno hcb hw harr hnocut
  exact ⟨_, q, reads', hmore, hret, hheard, hstands, hnear (List.cons_ne_nil _ _)⟩

/-- **A call that has returned has read the response**, or all of it but the end
of its last line. -/
theorem Partly.done (h : Partly R l hs payload s late rs missing) (hcb : cbs.Willing)
    (hw : WellSent R (.status l) hs payload) (hR : 2 ≤ R) {r : Res} {q : Parser}
    (hret : Returns (loopStep pf parseStatusLine cbs) ⟨.top, .init s errno, rs⟩
      (.returned r q [])) :
    r = .ok ∧ Heard cbs.body (.status l) hs payload q.calls ∧
      q.inp.pos = q.inp.eod + missing.length ∧ missing.length ≤ 2 := by
  obtain ⟨more, q', reads', hpend, hret', hheard, hstands, hnear⟩ :=
    h.completes pf errno hcb hw hR
  cases Returns.unique (returns_more more hret) hret'
  refine ⟨rfl, hheard, ?_⟩
  have h0 := hstands.pos_nonneg
  have hlen := congrArg List.length hstands.stream
  rw [List.nil_append, hpend, List.length_drop] at hlen
  simp only [List.length_append, List.length_cons, List.length_nil] at hlen
  unfold Stream.eod at hnear ⊢
  omega

/-- A call that comes to an end with more reads comes to an end without them: it
may have to wait. -/
theorem returns_less (more : List Read) {t : LoopState} {out : Outcome}
    (h : Returns (loopStep pf parseStatusLine cbs) { t with reads := t.reads ++ more } out) :
    ∃ out', Returns (loopStep pf parseStatusLine cbs) t out' := by
  refine Returns.rec_run (P := fun u => ∀ t : LoopState, u = { t with reads := t.reads ++ more } →
    ∃ out', Returns (loopStep pf parseStatusLine cbs) t out') ?_ ?_ h t rfl
  · rintro u hdone t rfl
    cases hs : loopStep pf parseStatusLine cbs t with
    | done out' => exact ⟨out', .of_done hs⟩
    | again t' => cases (again_more more hs).symm.trans hdone
  · rintro u u' hagain _ ih t rfl
    cases hs : loopStep pf parseStatusLine cbs t with
    | done out' => exact ⟨out', .of_done hs⟩
    | again t' =>
        cases (again_more more hs).symm.trans hagain
        obtain ⟨out', hret⟩ := ih t' rfl
        exact ⟨out', .of_again hs hret⟩

/-- **A call comes to the end of the response, or waits for more of it.** -/
theorem Partly.settles (h : Partly R l hs payload s late rs missing) (hcb : cbs.Willing)
    (hw : WellSent R (.status l) hs payload) (hR : 2 ≤ R) :
    ∃ out, Returns (loopStep pf parseStatusLine cbs) ⟨.top, .init s errno, rs⟩ out ∧
      (missing = [] → ∃ q reads', out = .returned .ok q reads') := by
  by_cases hnil : missing = []
  · have harr : Arrives R (messageBytes (.status l) hs payload ++ []) s (rs ++ []) :=
      h.arrives (.nil R) (by rw [hnil]; rfl)
    rw [List.append_nil rs] at harr
    obtain ⟨q, reads', hret, -⟩ := response_exact pf errno hcb hw harr h.uncut
    exact ⟨_, hret, fun _ => ⟨q, reads', rfl⟩⟩
  · obtain ⟨more, q, reads', -, hret, -⟩ := h.completes pf errno hcb hw hR
    obtain ⟨out, hout⟩ := returns_less pf (t := ⟨.top, .init s errno, rs⟩) more hret
    exact ⟨out, hout, fun h => absurd h hnil⟩

end

/-! ## Nothing of the message has come -/

/-- Where a call can be that has not seen the byte at `P`: each of its first two
iterations takes a read. -/
inductive Opening (P : Int) (p : Parser) : Pc → Prop
  | start (state : p.ctx.parserState = .start) (near : P ≤ p.inp.eod + 2) : Opening P p .top
  | mark (state : p.ctx.parserState = .start) (near : P ≤ p.inp.eod + 1) : Opening P p .dispatch
  | line (state : p.ctx.parserState = .line) (first : p.ctx.firstLine.start = P)
      (near : P ≤ p.inp.eod + 1) : Opening P p .top
  | scan (state : p.ctx.parserState = .line) (first : p.ctx.firstLine.start = P)
      (here : P ≤ p.inp.eod) : Opening P p .dispatch

/-- The reads end at `D`, in front of the byte at `P` that the call waits for. -/
structure Waits (R : Nat) (P D : Int) (t : LoopState) : Prop where
  pos : t.par.inp.pos = P
  come : t.par.inp.eod + (pending t.reads).length = D
  delivers : Delivers R t.reads
  opening : Opening P t.par t.pc

section
variable {pf : Platform} {cbs : Callbacks} {R : Nat} {P D : Int} {t t' : LoopState}

theorem Waits.step (hle : D ≤ P) (h : Waits R P D t)
    (hs : loopStep pf parseStatusLine cbs t = .again t') : Waits R P D t' := by
  cases loopStep_again_iff.mp hs with
  | @read p bs slack reads more =>
      have hopening : Opening P p .top := h.opening
      obtain ⟨_, _, hread, hne, -⟩ := h.delivers.head
      cases hread
      have hpos : 0 < bs.length := List.length_pos_iff.mpr hne
      have heod : (p.inp.consume bs slack).eod = p.inp.eod + bs.length := by
        simp [Stream.eod, Stream.consume]
      have hcome : p.inp.eod + (bs ++ pending reads).length = D := h.come
      rw [List.length_append] at hcome
      refine ⟨h.pos, ?_, h.delivers.tail, ?_⟩
      · show (p.inp.consume bs slack).eod + ((pending reads).length : Int) = D
        omega
      · cases hopening with
        | start state near =>
            refine .mark state ?_
            show P ≤ (p.inp.consume bs slack).eod + 1
            omega
        | line state first near =>
            refine .scan state first ?_
            show P ≤ (p.inp.consume bs slack).eod
            omega
  | @look p reads lt =>
      have hpos : p.inp.pos = P := h.pos
      have hcome : p.inp.eod + ((pending reads).length : Int) = D := h.come
      omega
  | @pass p q reads again =>
      have hpos : p.inp.pos = P := h.pos
      have hcome : p.inp.eod + ((pending reads).length : Int) = D := h.come
      have hopening : Opening P p .dispatch := h.opening
      cases hopening with
      | mark state near =>
          simp only [dispatch, state] at again
          cases again
          exact ⟨hpos, hcome, h.delivers, .line rfl hpos near⟩
      | scan state first here =>
          -- there is no byte of the line yet
          have hnone : findcrlf (p.inp.mem p.ctx.firstLine.start)
              (toInt (p.inp.eod - p.ctx.firstLine.start)) = none := by
            rw [first, show p.inp.eod - P = 0 by omega]
            rfl
          simp only [dispatch, state, parseStatusLine, hnone] at again
          cases again
          refine ⟨?_, hcome, h.delivers, .line state first ?_⟩
          · show p.inp.pos + (p.inp.eod - p.inp.pos) = P
            omega
          · show P ≤ p.inp.eod + 1
            omega

/-- **As long as nothing of the message has come, the call stays where it is**, and
takes what was missing of the message before. -/
theorem waits_reaches {s : Stream} {errno : Int} {late : List UInt8} {rs : List Read}
    (hpos : s.pos = s.eod + late.length) (hshort : late.length ≤ 2) (hdel : Delivers R rs)
    (hpend : (pending rs).length ≤ late.length)
    (h : Reaches (loopStep pf parseStatusLine cbs) ⟨.top, .init s errno, rs⟩ t) :
    Waits R s.pos (s.eod + (pending rs).length) t := by
  refine Reaches.invariant (fun _ _ hw hs => hw.step (by omega) hs) h
    ⟨rfl, rfl, hdel, .start rfl ?_⟩
  show s.pos ≤ s.eod + 2
  omega

end

end MnHttp
