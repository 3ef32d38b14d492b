/-
# `MnApp.Http.CallOrder` — what the callbacks of a parse can rely on

Nothing is known here of the stream, of the reads or of the callbacks: any
bytes, cut in any way, with reads that fail and callbacks that refuse.

| a parse                       | its calls                                   |
| ----------------------------- | ------------------------------------------- |
| in any state, or ended anyhow | at most one `line_cb`, then `header_cb`s,   |
|                               | then `body_cb`s                             |
|                               | all accepted, but for the last, perhaps     |
| whose last call was refused   | has returned with the number of that kind   |
| that has returned 0           | all accepted; one `line_cb`; the last is a  |
|                               | `body_cb`, the only one of a plain body,    |
|                               | the only empty one of a chunked body        |

`Effect` says what one iteration adds to the calls, from what the three parts of
the dispatch do; `Running` is what holds between iterations, and `Dialogue` what
the caller can rely on at the end.
-/
import MnApp.Http.ChunkSound
import MnApp.Http.Iteration

namespace MnHttp

open CLib Loop

/-! ## Answers -/

/-- The callback of that kind. -/
def Callbacks.of (cbs : Callbacks) : CallKind → Option Callback
  | .line => cbs.line
  | .header => cbs.header
  | .body => cbs.body

/-- What was answered to a call, with these calls before it. -/
def Callbacks.answer (cbs : Callbacks) (before : List Call) (c : Call) : Int :=
  match cbs.of c.kind with
  | none => 0
  | some f => f before c.ctx c.inp

/-- All calls were answered with 0. -/
def Accepted (cbs : Callbacks) (calls : List Call) : Prop :=
  ∀ pre c post, calls = pre ++ c :: post → cbs.answer pre c = 0

theorem accepted_nil (cbs : Callbacks) : Accepted cbs [] :=
  fun _ _ _ h => absurd h (List.append_ne_nil_of_right_ne_nil _ (List.cons_ne_nil _ _)).symm

theorem split_concat {α : Type} {xs pre post : List α} {x y : α}
    (h : xs ++ [x] = pre ++ y :: post) :
    (pre = xs ∧ y = x ∧ post = []) ∨ ∃ post', post = post' ++ [x] ∧ xs = pre ++ y :: post' := by
  rcases List.eq_nil_or_concat' post with rfl | ⟨post', z, rfl⟩
  · obtain ⟨h1, h2⟩ := List.append_inj' h rfl
    exact .inl ⟨h1.symm, (List.cons.inj h2).1.symm, rfl⟩
  · rw [← List.cons_append, ← List.append_assoc] at h
    obtain ⟨h1, h2⟩ := List.append_inj' h rfl
    exact .inr ⟨post', by rw [(List.cons.inj h2).1], h1⟩

theorem Accepted.concat {cbs : Callbacks} {calls : List Call} {c : Call} (h : Accepted cbs calls)
    (hc : cbs.answer calls c = 0) : Accepted cbs (calls ++ [c]) := by
  intro pre d post heq
  obtain ⟨rfl, rfl, -⟩ | ⟨post', -, hcalls⟩ := split_concat heq
  · exact hc
  · exact h pre d post' hcalls

/-- One callback: it is NULL and there is no call, or there is one more call, with
that answer. -/
inductive Adds (cbs : Callbacks) (kind : CallKind) (P : Ctx → Prop) (r : Int)
    (old new : List Call) : Prop
  | null (none : cbs.of kind = none) (zero : r = 0) (eq : new = old)
  | call (c : Call) (given : (cbs.of kind).isSome = true) (kind_eq : c.kind = kind)
      (seen : P c.ctx) (answer : cbs.answer old c = r) (eq : new = old ++ [c])

theorem callback_adds (cbs : Callbacks) (kind : CallKind) (cb : Option Callback)
    (hcb : cbs.of kind = cb) (p : Parser) :
    Adds cbs kind (· = p.ctx) (p.callback kind cb).1 p.calls (p.callback kind cb).2.calls := by
  cases cb with
  | none => exact .null hcb rfl rfl
  | some f =>
      refine .call ⟨kind, p.ctx, p.inp⟩ (by rw [hcb]; rfl) rfl rfl ?_ rfl
      simp only [Callbacks.answer, hcb]
      rfl

theorem Adds.mono {cbs : Callbacks} {kind : CallKind} {P Q : Ctx → Prop} {r : Int}
    {old new : List Call} (h : Adds cbs kind P r old new) (hPQ : ∀ ctx, P ctx → Q ctx) :
    Adds cbs kind Q r old new := by
  cases h with
  | null none zero eq => exact .null none zero eq
  | call c given kind_eq seen answer eq => exact .call c given kind_eq (hPQ _ seen) answer eq

theorem Adds.accepted {cbs : Callbacks} {kind : CallKind} {P : Ctx → Prop} {old new : List Call}
    (h : Adds cbs kind P 0 old new) (hold : Accepted cbs old) : Accepted cbs new := by
  cases h with
  | null _ _ eq => exact eq ▸ hold
  | call c _ _ _ answer eq => exact eq ▸ hold.concat answer

/-! ## One iteration -/

/-- How far a parse has come. -/
inductive Stage where
  | first | headers | body
deriving DecidableEq, Repr

def ParserState.stage : ParserState → Stage
  | .start | .line => .first
  | .headerFieldIn | .headerFieldOut => .headers
  | .bodyIn | .body => .body

def Parser.stage (p : Parser) : Stage := p.ctx.parserState.stage

theorem Parser.stage_of {p : Parser} {st : ParserState} (h : p.ctx.parserState = st) :
    p.stage = st.stage := congrArg ParserState.stage h

/-- The call is for the chunk that the parser is at. -/
def SameChunk (p : Parser) (ctx : Ctx) : Prop :=
  ctx.flagChunked = p.ctx.flagChunked ∧ ctx.currentChunkSize = p.ctx.currentChunkSize

/-- What `process_body` does with `body_cb`. -/
inductive BodyEffect (cbs : Callbacks) (p : Parser) (r : Res) (q : Parser) : Prop
  | quiet (res : r ≠ .ok) (calls : q.calls = p.calls)
  | more (res : r = .needMore) (chunked : p.ctx.flagChunked = true)
      (size : 0 < p.ctx.currentChunkSize)
      (adds : Adds cbs .body (SameChunk p) 0 p.calls q.calls)
  | last (res : r = .ok) (size : p.ctx.flagChunked = true → p.ctx.currentChunkSize ≤ 0)
      (adds : Adds cbs .body (SameChunk p) 0 p.calls q.calls)
  | refused (a : Int) (ne : a ≠ 0) (res : r ≠ .ok ∧ r ≠ .needMore)
      (adds : Adds cbs .body (SameChunk p) a p.calls q.calls)

section
variable {rc : Recycler} {cbs : Callbacks} {p q : Parser} {r : Res}

theorem processChunkSize_effect (h : processChunkSize p = (r, q)) : BodyEffect cbs p r q := by
  unfold processChunkSize at h
  simp only at h
  split at h
  · cases h
    exact .quiet nofun rfl
  · obtain ⟨hcalls, -⟩ := noteErrno_same p (strtol (p.inp.mem p.ctx.currentChunk.start) 16)
    split at h <;>
    · cases h
      exact .quiet nofun hcalls

theorem processChunkData_effect (hch : p.ctx.flagChunked = true)
    (h : processChunkData rc cbs.body p = (r, q)) : BodyEffect cbs p r q := by
  have hadds := (callback_adds cbs .body cbs.body rfl p).mono (Q := SameChunk p) fun ctx hctx => by
    rw [hctx]
    exact ⟨rfl, rfl⟩
  obtain ⟨hctx, -⟩ := callback_frame (p := p) .body cbs.body
  unfold processChunkData at h
  simp only at h
  split at h
  · cases h
    exact .quiet nofun rfl
  · split at h
    · rename_i hne
      cases h
      exact .refused _ hne ⟨nofun, nofun⟩ hadds
    · rename_i hzero
      have hzero : (p.callback .body cbs.body).1 = 0 := by simpa using hzero
      rw [hzero] at hadds
      rw [hctx] at h
      split at h
      · rename_i hsize
        cases h
        exact .more rfl hch hsize hadds
      · rename_i hsize
        cases h
        exact .last rfl (fun _ => Int.not_lt.mp hsize) hadds

theorem processPlainBody_effect (hch : p.ctx.flagChunked = false)
    (h : processPlainBody rc cbs.body p = (r, q)) : BodyEffect cbs p r q := by
  unfold processPlainBody at h
  simp only at h
  split at h
  · cases h
    exact .quiet nofun rfl
  · -- `body_cb` is called with the whole body taken
    generalize hx : { p with
        ctx := { p.ctx with
          body := ⟨p.ctx.body.start, p.ctx.body.stop + min (p.inp.eod - p.inp.pos)
            (p.ctx.bodysz - (p.ctx.body.stop - p.ctx.body.start))⟩
          currentChunk := ⟨p.ctx.currentChunk.start, p.ctx.body.stop +
            min (p.inp.eod - p.inp.pos) (p.ctx.bodysz - (p.ctx.body.stop - p.ctx.body.start))⟩ }
        inp := p.inp.advance (min (p.inp.eod - p.inp.pos)
          (p.ctx.bodysz - (p.ctx.body.stop - p.ctx.body.start))) } = x at h
    have hcalls : x.calls = p.calls := by rw [← hx]
    have hsame : SameChunk p x.ctx := by rw [← hx]; exact ⟨rfl, rfl⟩
    have hadds := (callback_adds cbs .body cbs.body rfl x).mono (Q := SameChunk p)
        fun ctx hctx => by
      rw [hctx]
      exact hsame
    rw [hcalls] at hadds
    split at h
    · rename_i hne
      cases h
      exact .refused _ hne ⟨nofun, nofun⟩ hadds
    · rename_i hzero
      have hzero : (x.callback .body cbs.body).1 = 0 := by simpa using hzero
      rw [hzero] at hadds
      cases h
      exact .last rfl (fun hch' => by cases hch.symm.trans hch') hadds

theorem processBody_effect (h : processBody rc cbs.body p = (r, q)) : BodyEffect cbs p r q := by
  unfold processBody at h
  split at h
  · rename_i hch
    split at h
    · exact processChunkSize_effect h
    · exact processChunkData_effect hch h
    · cases h
      exact .quiet nofun rfl
  · rename_i hch
    exact processPlainBody_effect (Bool.eq_false_iff.mpr hch) h

end

/-- The number with which a parse returns when a call of that kind is refused. -/
def refusalCode : CallKind → Nat → Prop
  | .line, n => n = 8
  | .header, n => n = 11
  | .body, n => n = 12 ∨ n = 13

/-- The stage in which calls of that kind are made. -/
def CallKind.due : CallKind → Stage → Prop
  | .line, s => s = .first
  | .header, s => s = .headers
  | .body, s => s ≠ .first

/-- What an iteration adds to the calls. -/
inductive Effect (cbs : Callbacks) (p : Parser) : Iter → Prop
  | quiet {q : Parser} (calls : q.calls = p.calls)
      (stage : q.stage = p.stage ∨ p.stage = .headers ∧ q.stage = .body)
      (flag : q.ctx.flagChunked = p.ctx.flagChunked) : Effect cbs p (.again q)
  | line {q : Parser} (stage : p.stage = .first) (stage' : q.stage = .headers)
      (adds : Adds cbs .line (fun _ => True) 0 p.calls q.calls) : Effect cbs p (.again q)
  | header {q : Parser} (stage : p.stage = .headers) (stage' : q.stage = .headers)
      (adds : Adds cbs .header (fun _ => True) 0 p.calls q.calls) : Effect cbs p (.again q)
  | chunk {q : Parser} (stage : p.stage ≠ .first) (stage' : q.stage = .body)
      (chunked : p.ctx.flagChunked = true) (chunked' : q.ctx.flagChunked = true)
      (size : 0 < p.ctx.currentChunkSize)
      (adds : Adds cbs .body (SameChunk p) 0 p.calls q.calls) : Effect cbs p (.again q)
  | refused {q : Parser} {n : Nat} (kind : CallKind) (a : Int) (ne : a ≠ 0)
      (due : kind.due p.stage) (code : refusalCode kind n)
      (adds : Adds cbs kind (fun _ => True) a p.calls q.calls) :
      Effect cbs p (.ret (.diag .httpParseMessage n) q)
  | fails {q : Parser} {r : Res} (ne : r ≠ .ok) (calls : q.calls = p.calls) :
      Effect cbs p (.ret r q)
  | last {q : Parser} (stage : p.stage ≠ .first)
      (size : p.ctx.flagChunked = true → p.ctx.currentChunkSize ≤ 0)
      (adds : Adds cbs .body (SameChunk p) 0 p.calls q.calls) : Effect cbs p (.ret .ok q)

section
variable {pf : Platform} {l : FirstLine} {cbs : Callbacks} {p x : Parser}

theorem bodyIter_effect {rc : Recycler} {n : Nat} (hn : n = 12 ∨ n = 13)
    (hstage : p.stage ≠ .first) (hcalls : x.calls = p.calls)
    (hflag : x.ctx.flagChunked = p.ctx.flagChunked)
    (hsize : x.ctx.currentChunkSize = p.ctx.currentChunkSize) :
    Effect cbs p (bodyIter rc cbs.body n x) := by
  have hsame : SameChunk x = SameChunk p := by
    funext ctx
    unfold SameChunk
    rw [hflag, hsize]
  have hup : p.stage = .headers ∨ p.stage = .body := by
    cases hst : p.stage with
    | first => exact absurd hst hstage
    | headers => exact .inl rfl
    | body => exact .inr rfl
  cases hb : processBody rc cbs.body x with
  | mk r q =>
      have heffect := processBody_effect hb
      have hflag' : q.ctx.flagChunked = p.ctx.flagChunked := by
        rw [← hflag, ← processBody_flag rc cbs.body x, hb]
      unfold bodyIter
      rw [hb]
      cases heffect with
      | quiet res calls =>
          cases r with
          | ok => exact absurd rfl res
          | needMore =>
              refine .quiet (calls.trans hcalls) ?_ hflag'
              exact hup.elim (fun h => .inr ⟨h, rfl⟩) fun h => .inl h.symm
          | empty | consumeDataError | diag | crash => exact .fails nofun (calls.trans hcalls)
      | more res chunked size adds =>
          subst res
          rw [hsame, hcalls] at adds
          exact .chunk hstage rfl (hflag ▸ chunked) (hflag'.trans (hflag ▸ chunked)) (hsize ▸ size)
            adds
      | last res size adds =>
          subst res
          rw [hsame, hcalls] at adds
          exact .last hstage (fun h => hsize ▸ size (hflag.trans h)) adds
      | refused a ne res adds =>
          rw [hcalls] at adds
          have hadds := adds.mono (Q := fun _ => True) fun _ _ => trivial
          obtain ⟨hok, hmore⟩ := res
          cases r with
          | ok => exact absurd rfl hok
          | needMore => exact absurd rfl hmore
          | empty | consumeDataError | diag | crash => exact .refused .body a ne hstage hn hadds

theorem headerFieldOut_effect (hst : p.ctx.parserState = .headerFieldOut) :
    Effect cbs p (headerFieldOut pf cbs p) := by
  have hstage : p.stage = .headers := Parser.stage_of hst
  unfold headerFieldOut
  simp only
  split
  · exact .quiet rfl (.inl rfl) rfl
  · exact bodyIter_effect (.inl rfl) (by rw [hstage]; nofun) rfl rfl rfl
  · rename_i n _
    split
    · exact .fails nofun rfl
    · rename_i c _
      obtain ⟨-, hcalls, -, hne⟩ := processHeader_frame (headerLine pf.nullOff
        (p.ctx.currentHeaderName.start + (n + 1)) (p.ctx.currentHeaderName.start + c) p)
      split
      · rename_i r heq
        rw [heq] at hcalls
        have hcalls : r.calls = p.calls := hcalls
        have hadds := (callback_adds cbs .header cbs.header rfl r).mono (Q := fun _ => True)
          fun _ _ => trivial
        rw [hcalls] at hadds
        split
        · rename_i hrefused
          exact .refused .header _ hrefused hstage rfl hadds
        · rename_i hzero
          have hzero : (r.callback .header cbs.header).1 = 0 := by simpa using hzero
          rw [hzero] at hadds
          exact .header hstage rfl hadds
      · rename_i e r _ heq
        rw [heq] at hcalls hne
        exact .fails hne hcalls

/-- **What one iteration adds to the calls.** -/
theorem dispatch_effect (pf : Platform) (l : FirstLine) (cbs : Callbacks) (p : Parser) :
    Effect cbs p (dispatch pf l.parse cbs p) := by
  have hline := l.parse_frame p
  unfold dispatch
  split
  · rename_i hst
    exact .quiet rfl (.inl (Parser.stage_of hst).symm) rfl
  · rename_i hst
    have hstage : p.stage = .first := Parser.stage_of hst
    split
    · rename_i r heq
      rw [heq] at hline
      obtain ⟨rfl, -⟩ := hline.wait rfl
      exact .quiet rfl (.inl rfl) rfl
    · rename_i r heq
      rw [heq] at hline
      obtain ⟨n, -, hstate, -⟩ := hline.ok rfl
      obtain ⟨hctx, -⟩ := callback_frame (p := r) .line cbs.line
      have hadds := (callback_adds cbs .line cbs.line rfl r).mono (Q := fun _ => True)
        fun _ _ => trivial
      rw [show r.calls = p.calls from hline.calls] at hadds
      simp only
      split
      · rename_i hrefused
        exact .refused .line _ hrefused hstage rfl hadds
      · rename_i hzero
        have hzero : (r.callback .line cbs.line).1 = 0 := by simpa using hzero
        rw [hzero] at hadds
        have hnext : (r.callback .line cbs.line).2.ctx.parserState = .headerFieldIn := by
          rw [hctx]
          exact hstate
        exact .line hstage (Parser.stage_of hnext) hadds
    · rename_i e r hmore hok heq
      rw [heq] at hline
      exact .fails (fun h => hok (h ▸ rfl)) hline.calls
  · rename_i hst
    exact .quiet rfl (.inl (Parser.stage_of hst).symm) rfl
  · exact headerFieldOut_effect ‹_›
  · rename_i hst
    have hstage : p.stage = .body := Parser.stage_of hst
    exact bodyIter_effect (.inl rfl) (by rw [hstage]; decide) rfl rfl rfl
  · rename_i hst
    have hstage : p.stage = .body := Parser.stage_of hst
    exact bodyIter_effect (.inr rfl) (by rw [hstage]; decide) rfl rfl rfl

end

/-! ## Between iterations -/

/-- The calls, kind by kind. -/
structure Sorted (calls ls hs bs : List Call) : Prop where
  eq : calls = ls ++ (hs ++ bs)
  lines : ∀ c ∈ ls, c.kind = .line
  headers : ∀ c ∈ hs, c.kind = .header
  bodies : ∀ c ∈ bs, c.kind = .body

/-- How many calls of `line_cb` a first line asks for. -/
def Callbacks.lines (cbs : Callbacks) : Nat := if cbs.line.isSome then 1 else 0

theorem Callbacks.lines_given {cbs : Callbacks} (h : cbs.line.isSome = true) : cbs.lines = 1 :=
  if_pos h

theorem Callbacks.lines_le (cbs : Callbacks) : cbs.lines ≤ 1 := by
  unfold Callbacks.lines
  split <;> decide

/-- What the calls are in each stage. -/
inductive Running (cbs : Callbacks) (p : Parser) : Prop
  | first (stage : p.stage = .first) (calls : p.calls = [])
  | headers (ls hs : List Call) (stage : p.stage = .headers) (log : Sorted p.calls ls hs [])
      (one : ls.length = cbs.lines)
  | body (ls hs bs : List Call) (stage : p.stage = .body) (log : Sorted p.calls ls hs bs)
      (one : ls.length = cbs.lines) (chunks : ∀ c ∈ bs, 0 < c.ctx.currentChunkSize)
      (flag : bs ≠ [] → p.ctx.flagChunked = true)

section
variable {cbs : Callbacks} {p q : Parser}

theorem sorted_lines {ls : List Call} (h : ∀ c ∈ ls, c.kind = .line) : Sorted ls ls [] [] :=
  ⟨(List.append_nil ls).symm, h, List.forall_mem_nil _, List.forall_mem_nil _⟩

theorem Sorted.concat_header {calls ls hs : List Call} {c : Call} (h : Sorted calls ls hs [])
    (hc : c.kind = .header) : Sorted (calls ++ [c]) ls (hs ++ [c]) [] := by
  refine ⟨by rw [h.eq]; simp, h.lines, ?_, h.bodies⟩
  exact List.forall_mem_append.mpr ⟨h.headers, List.forall_mem_singleton.mpr hc⟩

theorem Sorted.concat {calls ls hs bs : List Call} {c : Call} (h : Sorted calls ls hs bs)
    (hc : c.kind = .body) : Sorted (calls ++ [c]) ls hs (bs ++ [c]) := by
  refine ⟨by rw [h.eq]; simp, h.lines, h.headers, ?_⟩
  exact List.forall_mem_append.mpr ⟨h.bodies, List.forall_mem_singleton.mpr hc⟩

theorem Running.past (h : Running cbs p) (hstage : p.stage ≠ .first) : ∃ ls hs bs,
    Sorted p.calls ls hs bs ∧ ls.length = cbs.lines ∧ (∀ c ∈ bs, 0 < c.ctx.currentChunkSize) ∧
      (bs ≠ [] → p.ctx.flagChunked = true) := by
  cases h with
  | first stage => exact absurd stage hstage
  | headers ls hs _ log one =>
      exact ⟨ls, hs, [], log, one, List.forall_mem_nil _, fun h => absurd rfl h⟩
  | body ls hs bs _ log one chunks flag => exact ⟨ls, hs, bs, log, one, chunks, flag⟩

/-- **One iteration keeps to the order.** -/
theorem Running.step (h : Running cbs p) (he : Effect cbs p (.again q)) : Running cbs q := by
  cases he with
  | quiet calls stage flag =>
      cases h with
      | first st hcalls =>
          rcases stage with stage | ⟨hp, -⟩
          · exact .first (stage.trans st) (calls.trans hcalls)
          · cases st.symm.trans hp
      | headers ls hs st log one =>
          rcases stage with stage | ⟨-, hq⟩
          · exact .headers ls hs (stage.trans st) (calls ▸ log) one
          · exact .body ls hs [] hq (calls ▸ log) one (List.forall_mem_nil _)
              fun h => absurd rfl h
      | body ls hs bs st log one chunks hflag =>
          rcases stage with stage | ⟨hp, -⟩
          · exact .body ls hs bs (stage.trans st) (calls ▸ log) one chunks
              fun hne => flag.trans (hflag hne)
          · cases st.symm.trans hp
  | line stage stage' adds =>
      cases h with
      | first _ hcalls =>
          rw [hcalls] at adds
          cases adds with
          | null none _ eq =>
              refine .headers [] [] stage' (eq ▸ sorted_lines (List.forall_mem_nil _)) ?_
              unfold Callbacks.lines
              rw [show cbs.line = _ from none]
              rfl
          | call c given kind_eq _ _ eq =>
              exact .headers [c] [] stage'
                (eq ▸ sorted_lines (List.forall_mem_singleton.mpr kind_eq))
                (Callbacks.lines_given given).symm
      | headers _ _ st | body _ _ _ st => cases stage.symm.trans st
  | header stage stage' adds =>
      cases h with
      | headers ls hs _ log one =>
          cases adds with
          | null _ _ eq => exact .headers ls hs stage' (eq ▸ log) one
          | call c _ kind_eq _ _ eq =>
              exact .headers ls (hs ++ [c]) stage' (eq ▸ log.concat_header kind_eq) one
      | first st | body _ _ _ st => cases stage.symm.trans st
  | chunk stage stage' chunked chunked' size adds =>
      obtain ⟨ls, hs, bs, log, one, chunks, -⟩ := h.past stage
      cases adds with
      | null _ _ eq => exact .body ls hs bs stage' (eq ▸ log) one chunks fun _ => chunked'
      | call c _ kind_eq seen _ eq =>
          have hsize : 0 < c.ctx.currentChunkSize := by
            rw [seen.2]
            exact size
          exact .body ls hs (bs ++ [c]) stage' (eq ▸ log.concat kind_eq) one
            (List.forall_mem_append.mpr ⟨chunks, List.forall_mem_singleton.mpr hsize⟩)
            fun _ => chunked'

theorem Adds.grows {kind : CallKind} {P : Ctx → Prop} {r : Int} {old new : List Call}
    (h : Adds cbs kind P r old new) : old <+: new := by
  cases h with
  | null _ _ eq => exact eq ▸ List.prefix_refl _
  | call c _ _ _ _ eq => exact eq ▸ List.prefix_append _ _

theorem Effect.grows {it : Iter} (he : Effect cbs p it) : p.calls <+: it.par.calls := by
  cases he with
  | quiet calls => exact calls ▸ List.prefix_refl _
  | line _ _ adds => exact adds.grows
  | header _ _ adds => exact adds.grows
  | chunk _ _ _ _ _ adds => exact adds.grows
  | refused _ _ _ _ _ adds => exact adds.grows
  | fails _ calls => exact calls ▸ List.prefix_refl _
  | last _ _ adds => exact adds.grows

theorem Effect.accepted (he : Effect cbs p (.again q)) (h : Accepted cbs p.calls) :
    Accepted cbs q.calls := by
  cases he with
  | quiet calls => exact calls ▸ h
  | line _ _ adds => exact adds.accepted h
  | header _ _ adds => exact adds.accepted h
  | chunk _ _ _ _ _ adds => exact adds.accepted h

end

/-! ## At the end -/

/-- The parser behind an outcome. -/
def Outcome.par : Outcome → Parser
  | .blocked p => p
  | .returned _ p _ => p

/-- Whatever comes later, the calls that were made stay. -/
theorem returns_calls {pf : Platform} {l : FirstLine} {cbs : Callbacks} {t : LoopState}
    {out : Outcome} (h : Returns (loopStep pf l.parse cbs) t out) :
    t.par.calls <+: out.par.calls := by
  refine Returns.rec_run (P := fun t : LoopState => t.par.calls <+: out.par.calls) ?_ ?_ h
  · intro t hdone
    cases loopStep_done_iff.mp hdone with
    | blocked => exact List.prefix_refl _
    | fail => exact List.prefix_refl _
    | @ret p q r reads ret =>
        have he := dispatch_effect pf l cbs p
        rw [ret] at he
        exact he.grows
  · intro t t' hagain _ ih
    cases loopStep_again_iff.mp hagain with
    | read => exact ih
    | look => exact ih
    | @pass p q reads again =>
        have he := dispatch_effect pf l cbs p
        rw [again] at he
        exact he.grows.trans ih

theorem returns_calls_more {pf : Platform} {l : FirstLine} {cbs : Callbacks} {t : LoopState}
    {out out' : Outcome} (more : List Read) (h : Returns (loopStep pf l.parse cbs) t out)
    (h' : Returns (loopStep pf l.parse cbs) { t with reads := t.reads ++ more } out') :
    out.par.calls <+: out'.par.calls := by
  refine Returns.rec_run (P := fun t => Returns (loopStep pf l.parse cbs)
    { t with reads := t.reads ++ more } out' → out.par.calls <+: out'.par.calls) ?_ ?_ h h'
  · intro t hdone hmore
    cases out with
    | blocked q =>
        have hcalls := returns_calls hmore
        cases loopStep_done_iff.mp hdone
        exact hcalls
    | returned r q reads =>
        cases Returns.unique (returns_more more (.of_done hdone)) hmore
        exact List.prefix_refl _
  · intro t t' hagain _ ih hmore
    exact ih ((Reaches.single (again_more more hagain)).returns_iff.mp hmore)

/-- The calls of a parse that has returned 0. -/
structure Whole (cbs : Callbacks) (calls : List Call) : Prop where
  accepted : Accepted cbs calls
  line : cbs.line.isSome = true → ∃ c cs, calls = c :: cs ∧ c.kind = .line
  body : cbs.body.isSome = true → ∃ cs c, calls = cs ++ [c] ∧ c.kind = .body ∧
    (c.ctx.flagChunked = true → c.ctx.currentChunkSize ≤ 0) ∧
    ∀ b ∈ cs, b.kind = .body → c.ctx.flagChunked = true ∧ 0 < b.ctx.currentChunkSize

/-- What the callbacks of a parse can rely on. -/
structure Dialogue (cbs : Callbacks) (out : Outcome) : Prop where
  order : ∃ ls hs bs, Sorted out.par.calls ls hs bs ∧ ls.length ≤ 1 ∧
    (cbs.line.isSome = true → hs ++ bs ≠ [] → ls.length = 1)
  accepted : ∀ pre c d post, out.par.calls = pre ++ c :: d :: post → cbs.answer pre c = 0
  refused : ∀ pre c, out.par.calls = pre ++ [c] → cbs.answer pre c ≠ 0 →
    ∃ n rest, out = .returned (.diag .httpParseMessage n) out.par rest ∧ refusalCode c.kind n
  whole : ∀ q rest, out = .returned .ok q rest → Whole cbs q.calls

section
variable {cbs : Callbacks} {p q : Parser} {out : Outcome}

theorem Running.order (h : Running cbs p) : ∃ ls hs bs, Sorted p.calls ls hs bs ∧
    ls.length ≤ 1 ∧ (cbs.line.isSome = true → hs ++ bs ≠ [] → ls.length = 1) := by
  by_cases hstage : p.stage = .first
  · cases h with
    | first _ calls =>
        exact ⟨[], [], [], calls ▸ sorted_lines (List.forall_mem_nil _), Nat.zero_le 1,
          fun _ hne => absurd rfl hne⟩
    | headers _ _ st | body _ _ _ st => cases hstage.symm.trans st
  · obtain ⟨ls, hs, bs, log, one, -⟩ := h.past hstage
    exact ⟨ls, hs, bs, log, one ▸ cbs.lines_le,
      fun hline _ => one.trans (Callbacks.lines_given hline)⟩

theorem Running.silent (h : Running cbs p) (hacc : Accepted cbs p.calls)
    (hcalls : out.par.calls = p.calls) (hne : ∀ q rest, out ≠ .returned .ok q rest) :
    Dialogue cbs out where
  order := hcalls ▸ h.order
  accepted pre c d post heq := hacc pre c (d :: post) (hcalls ▸ heq)
  refused pre c heq hno := absurd (hacc pre c [] (hcalls ▸ heq)) hno
  whole q rest heq := absurd heq (hne q rest)

theorem Running.order_due (h : Running cbs p) {c : Call} (hdue : c.kind.due p.stage) :
    ∃ ls hs bs, Sorted (p.calls ++ [c]) ls hs bs ∧ ls.length ≤ 1 ∧
      (cbs.line.isSome = true → hs ++ bs ≠ [] → ls.length = 1) := by
  cases hkind : c.kind with
  | line =>
      rw [hkind] at hdue
      cases h with
      | first _ calls =>
          rw [calls, List.nil_append]
          exact ⟨[c], [], [], sorted_lines (List.forall_mem_singleton.mpr hkind),
            Nat.le_refl 1, fun _ hne => absurd rfl hne⟩
      | headers _ _ st | body _ _ _ st => cases (show p.stage = .first from hdue).symm.trans st
  | header =>
      rw [hkind] at hdue
      cases h with
      | headers ls hs _ log one =>
          exact ⟨ls, hs ++ [c], [], log.concat_header hkind, one ▸ cbs.lines_le,
            fun hline _ => one.trans (Callbacks.lines_given hline)⟩
      | first st | body _ _ _ st => cases (show p.stage = .headers from hdue).symm.trans st
  | body =>
      rw [hkind] at hdue
      obtain ⟨ls, hs, bs, log, one, -⟩ := h.past hdue
      exact ⟨ls, hs, bs ++ [c], log.concat hkind, one ▸ cbs.lines_le,
        fun hline _ => one.trans (Callbacks.lines_given hline)⟩

theorem Running.whole (h : Running cbs p) (hacc : Accepted cbs p.calls)
    (hstage : p.stage ≠ .first)
    (hsize : p.ctx.flagChunked = true → p.ctx.currentChunkSize ≤ 0)
    (hadds : Adds cbs .body (SameChunk p) 0 p.calls q.calls) : Whole cbs q.calls := by
  obtain ⟨ls, hs, bs, log, one, chunks, hflag⟩ := h.past hstage
  refine ⟨hadds.accepted hacc, fun hline => ?_, fun hbody => ?_⟩
  · obtain ⟨c, hc⟩ := List.length_eq_one_iff.mp (one.trans (Callbacks.lines_given hline))
    have hkind := log.lines c (by rw [hc]; exact List.mem_singleton_self c)
    have hp : p.calls = c :: (hs ++ bs) := by
      rw [log.eq, hc]
      rfl
    cases hadds with
    | null _ _ eq => exact ⟨c, hs ++ bs, eq.trans hp, hkind⟩
    | call d _ _ _ _ eq => exact ⟨c, hs ++ bs ++ [d], by rw [eq, hp]; rfl, hkind⟩
  · cases hadds with
    | null none =>
        rw [show cbs.body = _ from none] at hbody
        cases hbody
    | call c _ kind_eq seen _ eq =>
        refine ⟨p.calls, c, eq, kind_eq, fun hch => ?_, fun b hb hkind => ?_⟩
        · rw [seen.2]
          exact hsize (seen.1.symm.trans hch)
        · -- of the calls so far, only those for chunks are of `body_cb`
          have hmem : b ∈ bs := by
            rw [log.eq] at hb
            rcases List.mem_append.mp hb with hb | hb
            · cases hkind.symm.trans (log.lines b hb)
            · rcases List.mem_append.mp hb with hb | hb
              · cases hkind.symm.trans (log.headers b hb)
              · exact hb
          exact ⟨seen.1.trans (hflag (List.ne_nil_of_mem hmem)), chunks b hmem⟩

theorem Running.ret (h : Running cbs p) (hacc : Accepted cbs p.calls) {r : Res}
    (he : Effect cbs p (.ret r q)) (rest : List Read) : Dialogue cbs (.returned r q rest) := by
  cases he with
  | fails ne calls =>
      refine h.silent hacc calls fun q' rest' heq => ?_
      cases heq
      exact ne rfl
  | @refused q n kind a ne due code adds =>
      cases adds with
      | null _ zero => exact absurd zero ne
      | call c given kind_eq _ answer eq =>
          subst kind_eq
          refine ⟨?_, ?_, ?_, fun q' rest' heq => by cases heq⟩
          · show ∃ ls hs bs, Sorted q.calls ls hs bs ∧ _
            rw [eq]
            exact h.order_due due
          · intro pre d d' post heq
            have heq : q.calls = pre ++ d :: d' :: post := heq
            rw [eq] at heq
            obtain ⟨-, -, hnil⟩ | ⟨post', -, hcalls⟩ := split_concat heq
            · cases hnil
            · exact hacc pre d post' hcalls
          · intro pre d heq _
            have heq : q.calls = pre ++ [d] := heq
            rw [eq] at heq
            obtain ⟨-, hd⟩ := List.append_inj' heq rfl
            cases hd
            exact ⟨n, rest, rfl, code⟩
  | last stage size adds =>
      have hwhole := h.whole hacc stage size adds
      refine ⟨?_, fun pre c d post heq => hwhole.accepted pre c (d :: post) heq,
        fun pre c heq hno => absurd (hwhole.accepted pre c [] heq) hno, fun q' rest' heq => ?_⟩
      · show ∃ ls hs bs, Sorted q.calls ls hs bs ∧ _
        cases adds with
        | null _ _ eq => exact eq ▸ h.order
        | call c _ kind_eq _ _ eq =>
            rw [eq]
            refine h.order_due ?_
            rw [kind_eq]
            exact stage
      · cases heq
        exact hwhole

end

/-- **What the callbacks of a parse can rely on**, for every stream, all reads,
any callbacks and any `errno`: `line_cb` at most once and first, then
`header_cb`, then `body_cb`; no call behind one that was refused, which ends the
parse with the number of its kind; and a parse that returns 0 has had every call
accepted and has closed the body with its last call. -/
theorem callbacks_in_order (pf : Platform) (l : FirstLine) (cbs : Callbacks) (errno : Int)
    (s : Stream) (reads : List Read) (out : Outcome) (h : Parses l pf cbs errno s reads out) :
    Dialogue cbs out := by
  refine Returns.rec_run (P := fun t : LoopState => Running cbs t.par → Accepted cbs t.par.calls →
    Dialogue cbs out) ?_ ?_ (parses_iff.mp h) (.first rfl rfl) (accepted_nil cbs)
  · intro t hdone hrun hacc
    cases loopStep_done_iff.mp hdone with
    | blocked => exact hrun.silent hacc rfl fun _ _ heq => Outcome.noConfusion heq
    | fail =>
        refine hrun.silent hacc rfl fun q rest heq => ?_
        have hres := (Outcome.returned.inj heq).1
        split at hres <;> cases hres
    | @ret p q r reads ret =>
        have he := dispatch_effect pf l cbs p
        rw [ret] at he
        exact hrun.ret hacc he reads
  · intro t t' hagain _ ih hrun hacc
    cases loopStep_again_iff.mp hagain with
    | read =>
        refine ih ?_ hacc
        -- a read changes nothing that the callbacks have seen
        cases hrun with
        | first st calls => exact .first st calls
        | headers ls hs st log one => exact .headers ls hs st log one
        | body ls hs bs st log one chunks flag => exact .body ls hs bs st log one chunks flag
    | look => exact ih hrun hacc
    | @pass p q reads again =>
        have he := dispatch_effect pf l cbs p
        rw [again] at he
        exact ih (hrun.step he) (he.accepted hacc)

/-- A `header_cb` that refuses what it is given. -/
def Callbacks.strict : Callbacks :=
  ⟨some fun _ _ _ => 0, some fun _ _ _ => -1, some fun _ _ _ => 0⟩

theorem callbacks_in_order_strict : ∃ out,
    Parses (.request .getRoot) .keeping .strict 0 ⟨[], [], 0⟩
        [.bytes (ascii "GET / HTTP/1.1\r\nA: b\r\nC: d\r\n\r\n") []] out ∧
      out.par.calls.map Call.kind = [.line, .header] ∧ Dialogue .strict out := by
  have hrun : ((FirstLine.request .getRoot).httpParse .keeping .strict 20 (.init ⟨[], [], 0⟩ 0)
      [.bytes (ascii "GET / HTTP/1.1\r\nA: b\r\nC: d\r\n\r\n") []]).map
        (fun out => out.par.calls.map Call.kind) = some [.line, .header] := by decide +kernel
  obtain ⟨out, hout, hkinds⟩ := Option.map_eq_some_iff.mp hrun
  exact ⟨out, ⟨20, hout⟩, hkinds, callbacks_in_order _ _ _ _ _ _ _ ⟨20, hout⟩⟩

end MnHttp
