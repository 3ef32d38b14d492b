/-
# `MnApp.Http.Parser` — the incremental HTTP parser of `mnhttp.c`

The functions of `mnhttp.c` from `findcrlf` to `http_parse_response`, as
they stand, over the stream of `MnApp.Http.Stream`.  A function that works
on `ctx` and `in` is a function on `Parser`, which holds both, `errno`, and
the callback calls made so far.

**The loop.**  `_http_parse_message` is the step function `loopStep`, one
step for the `SNEEDMORE` check at the top of an iteration and one for the
dispatch on `parser_state`.  The reads it will get are its second argument:
each is some bytes or a failure, and when they are used up the loop is
`blocked` in `bytestream_consume_data`.  So the same step function says both
what the parser does on a whole stream and where it stands when more is
still to come.

**Integers.**  `bodysz`, `current_chunk_size`, the version and the code are
`int`, and so is every length given to a scan; each conversion is a `toInt`.
`needed` and `navail` are `int` in the chunked branch of `process_body` and
`ssize_t` in the other one.

**NULL.**  `findnosp` gives NULL for a header with nothing but blanks behind
its `':'`, and the offset of that pointer is stored as if it pointed into
the buffer.  Offsets before the buffer cannot be read: `process_header` dies
there, which is the result `crash`.

**Callbacks.**  A callback sees the context and the stream and returns an
`int`.  It may also keep things in `udata`, so its answer may depend on the
calls made before.
-/
import MnApp.Lib.Loop
import MnApp.Http.Stream

namespace MnHttp

open CLib

/-! ## Data -/

/-- `parser_state`. -/
inductive ParserState where
  | start | line | headerFieldIn | headerFieldOut | bodyIn | body
deriving DecidableEq, Repr

/-- `chunk_parser_state`; `none` is the 0 of `http_ctx_init`. -/
inductive ChunkState where
  | none | size | data
deriving DecidableEq, Repr

/-- `mnhttp_ctx_t`.  `code` is the union of `status` and `method`, and
`flagChunked` is the one bit `flags` has. -/
structure Ctx where
  parserState : ParserState
  chunkParserState : ChunkState
  firstLine : Range
  versionMajor : Int
  versionMinor : Int
  code : Int
  requestUri : Option (List UInt8)
  bodysz : Int
  currentHeaderName : Range
  currentHeaderValue : Range
  flagChunked : Bool
  body : Range
  currentChunkSize : Int
  currentChunk : Range
deriving DecidableEq, Repr

/-- `http_ctx_init`. -/
def httpCtxInit : Ctx where
  parserState := .start
  chunkParserState := .none
  firstLine := ⟨0, 0⟩
  versionMajor := 0
  versionMinor := 0
  code := 0
  requestUri := none
  bodysz := -1
  currentHeaderName := ⟨0, 0⟩
  currentHeaderValue := ⟨0, 0⟩
  flagChunked := false
  body := ⟨0, 0⟩
  currentChunkSize := 0
  currentChunk := ⟨0, 0⟩

/-- The diagnostic classes of `diag.txt` that the parser uses. -/
inductive Diag where
  | httpParseMessage | processBody
deriving DecidableEq, Repr

/-- What the parsing functions return: 0, the `MNHTTP_PARSE_*` codes, or a
diagnostic class plus a number; `crash` is a call that does not return
because it read through NULL. -/
inductive Res where
  | ok | needMore | empty | consumeDataError
  | diag (cls : Diag) (n : Nat)
  | crash
deriving DecidableEq, Repr

/-- What is fixed outside the parser: the recycling of the stream, and the
offset `SDPOS(in, NULL)`, which lies before the buffer. -/
structure Platform where
  recycler : Recycler
  nullOff : Int
  nullOff_neg : nullOff < 0

theorem minus_one_neg : (-1 : Int) < 0 := by decide

/-- Which callback. -/
inductive CallKind where
  | line | header | body
deriving DecidableEq, Repr

/-- One callback call: what it saw. -/
structure Call where
  kind : CallKind
  ctx : Ctx
  inp : Stream
deriving DecidableEq, Repr

/-- `mnhttp_cb_t`: the calls made before stand for what `udata` may hold. -/
abbrev Callback := List Call → Ctx → Stream → Int

/-- The three callbacks; `none` is NULL. -/
structure Callbacks where
  line : Option Callback
  header : Option Callback
  body : Option Callback

/-- What `_http_parse_message` works on. -/
structure Parser where
  ctx : Ctx
  inp : Stream
  errno : Int
  calls : List Call
deriving DecidableEq, Repr

/-- A fresh context on a stream. -/
def Parser.init (s : Stream) (errno : Int) : Parser := ⟨httpCtxInit, s, errno, []⟩

def EINVAL : Int := 22
def ERANGE : Int := 34

/-- `errno` after a `strtol`. -/
def Parser.noteErrno (p : Parser) (r : Strtol) : Parser :=
  if r.erange then { p with errno := ERANGE } else p

/-- A callback call: NULL is success, and leaves no call. -/
def Parser.callback (p : Parser) (kind : CallKind) : Option Callback → Int × Parser
  | none => (0, p)
  | some f => (f p.calls p.ctx p.inp, { p with calls := p.calls ++ [⟨kind, p.ctx, p.inp⟩] })

/-! ## Headers -/

/-- `process_header`; when it returns, the answer is always
`MNHTTP_PARSE_NEED_MORE`. -/
def processHeader (p : Parser) : Res × Parser :=
  let name := p.inp.mem p.ctx.currentHeaderName.start
  let value := p.inp.mem p.ctx.currentHeaderValue.start
  if strcasecmpEq name (ascii "content-length") then
    if p.ctx.currentHeaderValue.start < 0 then (.crash, p)
    else
      let r := strtol value 10
      (.needMore, { p.noteErrno r with ctx := { p.ctx with bodysz := toInt r.val } })
  else if strcasecmpEq name (ascii "transfer-encoding") then
    if p.ctx.currentHeaderValue.start < 0 then (.crash, p)
    else if strcmpEq value (ascii "chunked") then
      (.needMore, { p with ctx := { p.ctx with
        flagChunked := true, chunkParserState := .size, bodysz := 0 } })
    else (.needMore, p)
  else (.needMore, p)

/-! ## Body -/

/-- `recycle_stream_buffer`. -/
def recycleStreamBuffer (rc : Recycler) (p : Parser) : Parser :=
  let recycled : Int := rc.amount p.inp 512 p.ctx.currentChunk.start
  { p with
    ctx := { p.ctx with
      firstLine := ⟨0, 0⟩
      currentHeaderName := ⟨0, 0⟩
      currentHeaderValue := ⟨0, 0⟩
      body := ⟨0, 0⟩
      currentChunk :=
        ⟨p.ctx.currentChunk.start - recycled, p.ctx.currentChunk.stop - recycled⟩ }
    inp := rc.apply p.inp 512 p.ctx.currentChunk.start }

/-- `process_body`, chunked, `PS_CHUNK_SIZE`. -/
def processChunkSize (p : Parser) : Res × Parser :=
  let start := p.ctx.currentChunk.start
  match findcrlf (p.inp.mem start) (toInt (p.inp.eod - start)) with
  | none => (.needMore, { p with inp := p.inp.advance (p.inp.eod - p.inp.pos) })
  | some n =>
      let fin := start + n
      let r := strtol (p.inp.mem start) 16
      let size := toInt r.val
      let p := { p.noteErrno r with ctx := { p.ctx with
        currentChunkSize := size, bodysz := toInt (p.ctx.bodysz + size) } }
      -- chunk extensions are not supported: the number must end at the CR
      if r.len ≠ n ∨ size < 0 then (.diag .processBody 1, p)
      else
        let s := p.inp.advance (fin - p.inp.pos + 2)
        (.needMore, { p with inp := s, ctx := { p.ctx with
          currentChunk := ⟨s.pos, s.pos⟩, chunkParserState := .data } })

/-- `process_body`, chunked, `PS_CHUNK_DATA`. -/
def processChunkData (rc : Recycler) (cb : Option Callback) (p : Parser) : Res × Parser :=
  let chunk := p.ctx.currentChunk
  let needed := toInt (p.ctx.currentChunkSize - (chunk.stop - chunk.start))
  let navail := toInt (p.inp.eod - p.inp.pos)
  if needed > 0 then
    let incr := min needed navail
    (.needMore, { p with
      ctx := { p.ctx with currentChunk := ⟨chunk.start, chunk.stop + incr⟩ }
      inp := p.inp.advance incr })
  else
    let (r, p) := p.callback .body cb
    if r ≠ 0 then (.diag .processBody 2, p)
    else
      -- the two bytes after the data are skipped unseen
      let s := p.inp.advance 2
      let p := { p with inp := s, ctx := { p.ctx with
        chunkParserState := .size, currentChunk := ⟨s.pos, s.pos⟩ } }
      if p.ctx.currentChunkSize > 0 then (.needMore, recycleStreamBuffer rc p)
      else (.ok, recycleStreamBuffer rc p)

/-- `process_body`, not chunked: `bodysz` bytes, or -1 when there was no
`Content-Length`. -/
def processPlainBody (rc : Recycler) (cb : Option Callback) (p : Parser) : Res × Parser :=
  let navail := p.inp.eod - p.inp.pos
  let needed := p.ctx.bodysz - (p.ctx.body.stop - p.ctx.body.start)
  let incr := min navail needed
  let stop := p.ctx.body.stop + incr
  let p := { p with
    ctx := { p.ctx with
      body := ⟨p.ctx.body.start, stop⟩
      currentChunk := ⟨p.ctx.currentChunk.start, stop⟩ }
    inp := p.inp.advance incr }
  if stop - p.ctx.body.start < p.ctx.bodysz then (.needMore, p)
  else
    let (r, p) := p.callback .body cb
    if r ≠ 0 then (.diag .processBody 3, p)
    else (.ok, recycleStreamBuffer rc p)

/-- `process_body`. -/
def processBody (rc : Recycler) (cb : Option Callback) (p : Parser) : Res × Parser :=
  if p.ctx.flagChunked then
    match p.ctx.chunkParserState with
    | .size => processChunkSize p
    | .data => processChunkData rc cb p
    | .none => (.diag .processBody 4, p)
  else processPlainBody rc cb p

/-! ## First line -/

/-- The method numbers. -/
def MGET : Int := 2
def MHEAD : Int := 3
def MPOST : Int := 4
def MPUT : Int := 5
def MDELETE : Int := 6
def MOPTIONS : Int := 1
def MCONNECT : Int := 8
def MTRACE : Int := 7
def MEXT : Int := 10

/-- `parse_method`. -/
def parseMethod (s : List UInt8) (sz : Nat) : Int :=
  if strncasecmpEq s (ascii "GET") sz then MGET
  else if strncasecmpEq s (ascii "HEAD") sz then MHEAD
  else if strncasecmpEq s (ascii "POST") sz then MPOST
  else if strncasecmpEq s (ascii "PUT") sz then MPUT
  else if strncasecmpEq s (ascii "DELETE") sz then MDELETE
  else if strncasecmpEq s (ascii "OPTIONS") sz then MOPTIONS
  else if strncasecmpEq s (ascii "CONNECT") sz then MCONNECT
  else if strncasecmpEq s (ascii "TRACE") sz then MTRACE
  else if sz = 0 then -1
  else MEXT

/-- A number of the first line was 0 and `errno` says so, now or from earlier
work. -/
def zeroErrno (v errno : Int) : Bool := v == 0 && (errno == EINVAL || errno == ERANGE)

/-- The `HTTP/major.minor` that both first lines read at `tmp`; on success the
offset behind it. -/
def parseVersion (p : Parser) (tmp : Int) : Except Res Int × Parser :=
  if !strncasecmpEq (p.inp.mem tmp) (ascii "HTTP/") 5 then
    (.error (.diag .httpParseMessage 2), p)
  else
    let tmp := tmp + 5
    let r := strtol (p.inp.mem tmp) 10
    let p := { p.noteErrno r with ctx := { p.ctx with versionMajor := toInt r.val } }
    let tmp1 := tmp + r.len
    if zeroErrno p.ctx.versionMajor p.errno then (.error (.diag .httpParseMessage 3), p)
    else if (p.inp.mem tmp1).head? ≠ some 46 then (.error (.diag .httpParseMessage 4), p)
    else
      let tmp := tmp1 + 1
      let r := strtol (p.inp.mem tmp) 10
      let p := { p.noteErrno r with ctx := { p.ctx with versionMinor := toInt r.val } }
      if zeroErrno p.ctx.versionMinor p.errno then (.error (.diag .httpParseMessage 5), p)
      else (.ok (tmp + r.len), p)

/-- The line is not there yet: skip to the end of the data. -/
def Parser.toEod (p : Parser) : Parser :=
  { p with inp := p.inp.advance (p.inp.eod - p.inp.pos) }

/-- The first line is parsed; go on behind its CR LF at `fin`. -/
def Parser.lineDone (p : Parser) (fin : Int) : Parser :=
  { p with
    ctx := { p.ctx with parserState := .headerFieldIn }
    inp := p.inp.advance (fin - p.inp.pos + 2) }

/-- `parse_request_line`. -/
def parseRequestLine (p : Parser) : Res × Parser :=
  let start := p.ctx.firstLine.start
  match findcrlf (p.inp.mem start) (toInt (p.inp.eod - start)) with
  | none => (.needMore, p.toEod)
  | some n =>
      let fin := start + n
      let p := { p with ctx := { p.ctx with firstLine := ⟨start, fin⟩ } }
      match findsp (p.inp.mem start) (toInt (fin - start)) with
      | none => (.diag .httpParseMessage 1, p)
      | some sz =>
          let p := { p with ctx := { p.ctx with code := parseMethod (p.inp.mem start) sz } }
          if p.ctx.code < 0 then (.diag .httpParseMessage 1, p)
          else
            let tmp := start + sz
            match findnosp (p.inp.mem tmp) (toInt (fin - start - sz)) with
            | none => (.diag .httpParseMessage 1, p)
            | some k =>
                let tmp := tmp + k
                match findsp (p.inp.mem tmp) (toInt (fin - start - (tmp - start))) with
                | none => (.diag .httpParseMessage 1, p)
                | some sz =>
                    let tmp1 := tmp + sz
                    let p := { p with ctx := { p.ctx with
                      requestUri := some ((p.inp.mem tmp).take sz) } }
                    match findnosp (p.inp.mem tmp1) (toInt (fin - start - (tmp1 - start))) with
                    | none => (.diag .httpParseMessage 1, p)
                    | some k =>
                        match parseVersion p (tmp1 + k) with
                        | (.error e, p) => (e, p)
                        | (.ok _, p) => (.ok, p.lineDone fin)

/-- `parse_status_line`. -/
def parseStatusLine (p : Parser) : Res × Parser :=
  let start := p.ctx.firstLine.start
  match findcrlf (p.inp.mem start) (toInt (p.inp.eod - start)) with
  | none => (.needMore, p.toEod)
  | some n =>
      let fin := start + n
      let p := { p with ctx := { p.ctx with firstLine := ⟨start, fin⟩ } }
      match findnosp (p.inp.mem start) (toInt (fin - start)) with
      | none => (.diag .httpParseMessage 1, p)
      | some k =>
          match parseVersion p (start + k) with
          | (.error e, p) => (e, p)
          | (.ok tmp, p) =>
              match findnosp (p.inp.mem tmp) (toInt (fin - tmp)) with
              | none => (.diag .httpParseMessage 6, p)
              | some k =>
                  let r := strtol (p.inp.mem (tmp + k)) 10
                  let p := { p.noteErrno r with ctx := { p.ctx with code := toInt r.val } }
                  if zeroErrno p.ctx.code p.errno then (.diag .httpParseMessage 7, p)
                  else (.ok, p.lineDone fin)

/-! ## The loop -/

/-- What one pass over the `parser_state` dispatch does: go round again, or
leave the loop with a result. -/
inductive Iter where
  | again (p : Parser)
  | ret (r : Res) (p : Parser)
deriving DecidableEq, Repr

/-- `BODY_IN:` and `PS_BODY`: `process_body`, and what the loop makes of its
answer. -/
def bodyIter (rc : Recycler) (cb : Option Callback) (n : Nat) (p : Parser) : Iter :=
  match processBody rc cb p with
  | (.needMore, p) => .again { p with ctx := { p.ctx with parserState := .body } }
  | (.ok, p) => .ret .ok { p with ctx := { p.ctx with parserState := .body } }
  | (_, p) => .ret (.diag .httpParseMessage n) p

/-- `PS_HEADER_FIELD_OUT` on an empty line: on to the body, with `pos` moved
by two from wherever it stands. -/
def blankLine (p : Parser) : Parser :=
  let s := p.inp.advance 2
  { p with
    inp := s
    ctx := { p.ctx with
      body := ⟨s.pos, s.pos⟩
      currentChunk := ⟨s.pos, s.pos⟩
      parserState := .bodyIn } }

/-- `PS_HEADER_FIELD_OUT` on a header line that ends at `fin`: the `':'` at
`colon` and the CR become NUL.  When nothing but blanks follows the `':'`,
`findnosp` gives NULL, and the value starts wherever `nullOff` says that
NULL is relative to the buffer. -/
def headerLine (nullOff : Int) (fin colon : Int) (p : Parser) : Parser :=
  let s := p.inp.zero colon
  let value := match findnosp (s.mem (colon + 1)) (toInt (fin - (colon + 1))) with
    | some k => colon + 1 + k
    | none => nullOff
  { p with
    inp := s.zero fin
    ctx := { p.ctx with
      currentHeaderName := ⟨p.ctx.currentHeaderName.start, colon⟩
      currentHeaderValue := ⟨value, fin⟩ } }

/-- `PS_HEADER_FIELD_OUT`. -/
def headerFieldOut (pf : Platform) (cbs : Callbacks) (p : Parser) : Iter :=
  let start := p.ctx.currentHeaderName.start
  match findcrlf (p.inp.mem start) (toInt (p.inp.eod - start)) with
  | none => .again p.toEod
  | some 0 => bodyIter pf.recycler cbs.body 12 (blankLine p)
  | some (n + 1) =>
      let fin := start + (n + 1)
      match ((p.inp.mem start).take (n + 1)).findIdx? (· == COLON) with
      | none => .ret (.diag .httpParseMessage 9) { p with ctx := { p.ctx with
          currentHeaderValue := ⟨p.ctx.currentHeaderValue.start, fin⟩ } }
      | some c =>
          match processHeader (headerLine pf.nullOff fin (start + c) p) with
          | (.needMore, p) =>
              let (r, p) := p.callback .header cbs.header
              if r ≠ 0 then .ret (.diag .httpParseMessage 11) p
              else .again { p with
                ctx := { p.ctx with parserState := .headerFieldIn }
                inp := p.inp.advance (fin - p.inp.pos + 2) }
          | (e, p) => .ret e p

/-- The dispatch on `parser_state`. -/
def dispatch (pf : Platform) (parseLine : Parser → Res × Parser) (cbs : Callbacks)
    (p : Parser) : Iter :=
  match p.ctx.parserState with
  | .start => .again { p with ctx := { p.ctx with
      firstLine := ⟨p.inp.pos, p.ctx.firstLine.stop⟩, parserState := .line } }
  | .line =>
      match parseLine p with
      | (.needMore, p) => .again p
      | (.ok, p) =>
          let (r, p) := p.callback .line cbs.line
          if r ≠ 0 then .ret (.diag .httpParseMessage 8) p else .again p
      | (e, p) => .ret e p
  | .headerFieldIn => .again { p with ctx := { p.ctx with
      currentHeaderName := ⟨p.inp.pos, p.ctx.currentHeaderName.stop⟩
      parserState := .headerFieldOut } }
  | .headerFieldOut => headerFieldOut pf cbs p
  | .bodyIn => bodyIter pf.recycler cbs.body 12 p
  | .body => bodyIter pf.recycler cbs.body 13 p

/-- What one `bytestream_consume_data` does: deliver bytes (and leave other
memory behind them), or fail with a non-zero result. -/
inductive Read where
  | bytes (bs slack : List UInt8)
  | fail (lres : Int)
deriving DecidableEq, Repr

/-- `MNHTTP_PARSE_EOF`. -/
def parseEof : Int := -1

/-- Where the loop stands: at the top of an iteration, or past its `SNEEDMORE`
check. -/
inductive Pc where
  | top | dispatch
deriving DecidableEq, Repr

structure LoopState where
  pc : Pc
  par : Parser
  reads : List Read
deriving DecidableEq, Repr

/-- How a call of `_http_parse_message` can stand when it does not move on its
own any more: waiting for a read, or returned. -/
inductive Outcome where
  | blocked (p : Parser)
  | returned (r : Res) (p : Parser) (rest : List Read)
deriving DecidableEq, Repr

section
variable (pf : Platform) (parseLine : Parser → Res × Parser) (cbs : Callbacks)

/-- One step of `_http_parse_message`. -/
def loopStep (l : LoopState) : Loop.Next LoopState Outcome :=
  match l.pc with
  | .top =>
      if l.par.inp.needMore then
        match l.reads with
        | [] => .done (.blocked l.par)
        | .bytes bs slack :: reads =>
            .again ⟨.dispatch, { l.par with inp := l.par.inp.consume bs slack }, reads⟩
        | .fail lres :: reads =>
            .done (.returned
              (if lres = parseEof ∧ l.par.ctx.parserState = .start then .empty
               else .consumeDataError) l.par reads)
      else .again ⟨.dispatch, l.par, l.reads⟩
  | .dispatch =>
      match dispatch pf parseLine cbs l.par with
      | .again p => .again ⟨.top, p, l.reads⟩
      | .ret r p => .done (.returned r p l.reads)

/-- `_http_parse_message`, with fuel. -/
def httpParseMessage (fuel : Nat) (p : Parser) (reads : List Read) : Option Outcome :=
  Loop.run (loopStep pf parseLine cbs) fuel ⟨.top, p, reads⟩

/-! ### What a step of the loop can do -/

/-- The loop goes on: with a read, with what is there, or round again. -/
inductive Again : LoopState → LoopState → Prop
  | read {p : Parser} {bs slack : List UInt8} {reads : List Read} (more : p.inp.eod ≤ p.inp.pos) :
      Again ⟨.top, p, .bytes bs slack :: reads⟩
        ⟨.dispatch, { p with inp := p.inp.consume bs slack }, reads⟩
  | look {p : Parser} {reads : List Read} (lt : p.inp.pos < p.inp.eod) :
      Again ⟨.top, p, reads⟩ ⟨.dispatch, p, reads⟩
  | pass {p q : Parser} {reads : List Read} (again : dispatch pf parseLine cbs p = .again q) :
      Again ⟨.dispatch, p, reads⟩ ⟨.top, q, reads⟩

/-- The loop stops: no read is there, a read fails, or the dispatch returns. -/
inductive Done : LoopState → Outcome → Prop
  | blocked {p : Parser} (more : p.inp.eod ≤ p.inp.pos) : Done ⟨.top, p, []⟩ (.blocked p)
  | fail {p : Parser} {lres : Int} {reads : List Read} (more : p.inp.eod ≤ p.inp.pos) :
      Done ⟨.top, p, .fail lres :: reads⟩ (.returned
        (if lres = parseEof ∧ p.ctx.parserState = .start then .empty else .consumeDataError)
        p reads)
  | ret {p q : Parser} {r : Res} {reads : List Read}
      (ret : dispatch pf parseLine cbs p = .ret r q) :
      Done ⟨.dispatch, p, reads⟩ (.returned r q reads)

variable {pf parseLine cbs}

theorem Stream.needMore_iff {s : Stream} : s.needMore = true ↔ s.eod ≤ s.pos := decide_eq_true_iff

theorem Stream.not_needMore {s : Stream} : s.needMore = false ↔ s.pos < s.eod := by
  rw [Bool.eq_false_iff, ne_eq, Stream.needMore_iff, Int.not_le]

theorem loopStep_again_iff {t t' : LoopState} :
    loopStep pf parseLine cbs t = .again t' ↔ Again pf parseLine cbs t t' := by
  constructor
  · intro h
    obtain ⟨pc, p, reads⟩ := t
    cases pc with
    | top =>
        simp only [loopStep] at h
        split at h
        · rename_i hmore
          split at h
          · cases h
          · cases h
            exact .read (Stream.needMore_iff.mp hmore)
          · cases h
        · rename_i hmore
          cases h
          exact .look (Stream.not_needMore.mp (Bool.eq_false_iff.mpr hmore))
    | dispatch =>
        simp only [loopStep] at h
        split at h
        · rename_i heq
          cases h
          exact .pass heq
        · cases h
  · intro h
    cases h with
    | read more => simp only [loopStep, Stream.needMore_iff.mpr more, if_true]
    | look lt =>
        simp only [loopStep, Stream.not_needMore.mpr lt, Bool.false_eq_true, if_false]
    | pass again => simp only [loopStep, again]

theorem loopStep_done_iff {t : LoopState} {out : Outcome} :
    loopStep pf parseLine cbs t = .done out ↔ Done pf parseLine cbs t out := by
  constructor
  · intro h
    obtain ⟨pc, p, reads⟩ := t
    cases pc with
    | top =>
        simp only [loopStep] at h
        split at h
        · rename_i hmore
          have hmore := Stream.needMore_iff.mp hmore
          split at h
          · cases h
            exact .blocked hmore
          · cases h
          · cases h
            exact .fail hmore
        · cases h
    | dispatch =>
        simp only [loopStep] at h
        split at h
        · cases h
        · rename_i heq
          cases h
          exact .ret heq
  · intro h
    cases h with
    | blocked more => simp only [loopStep, Stream.needMore_iff.mpr more, if_true]
    | fail more => simp only [loopStep, Stream.needMore_iff.mpr more, if_true]
    | ret ret => simp only [loopStep, ret]

end

/-- `http_parse_request`. -/
def httpParseRequest (pf : Platform) (cbs : Callbacks) :=
  httpParseMessage pf parseRequestLine cbs

/-- `http_parse_response`. -/
def httpParseResponse (pf : Platform) (cbs : Callbacks) :=
  httpParseMessage pf parseStatusLine cbs

end MnHttp
