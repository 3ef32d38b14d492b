/-
# `MnApp.Http.Head` — the first line and the headers of a message

From a fresh context at the start of a well-formed message, the loop calls
`line_cb` once, `header_cb` once for each header and in order, and comes to
the empty line with the framing that the headers ask for.  How the bytes
were cut into reads leaves one trace only, in `pos`: see `BlankHere`.

    `AtTop`      at the top of an iteration, `pos` at the start of what the
                 peer still sends
    `Onward`     further on the same stream, no later read end passed
    `HeadersDone`  some headers were read, one call for each
    `head_reaches` the whole head

The header scan writes NULs into the buffer, over the `':'` and the CR of the
line it has read.  What follows the line is untouched, and that is why
`stream` in `AtTop` speaks of the bytes from `pos` on only.
-/
import Mathlib.Data.List.Forall2
import MnApp.Http.FirstLine

namespace MnHttp

open CLib Loop

theorem noteErrno_same (p : Parser) (r : Strtol) :
    (p.noteErrno r).calls = p.calls ∧ (p.noteErrno r).inp = p.inp := by
  unfold Parser.noteErrno
  split <;> exact ⟨rfl, rfl⟩

/-! ## Calls -/

theorem callback_frame {p : Parser} (kind : CallKind) (cb : Option Callback) :
    (p.callback kind cb).2.ctx = p.ctx ∧ (p.callback kind cb).2.inp = p.inp := by
  cases cb <;> exact ⟨rfl, rfl⟩

/-- All three callbacks are there, and succeed. -/
structure Callbacks.Succeeding (cbs : Callbacks) : Prop where
  line : ∃ f : Callback, cbs.line = some f ∧ ∀ cs c s, f cs c s = 0
  header : ∃ f : Callback, cbs.header = some f ∧ ∀ cs c s, f cs c s = 0
  body : ∃ f : Callback, cbs.body = some f ∧ ∀ cs c s, f cs c s = 0

theorem callback_ok {p : Parser} {kind : CallKind} {cb : Option Callback}
    (h : ∃ f : Callback, cb = some f ∧ ∀ cs c s, f cs c s = 0) :
    p.callback kind cb = (0, { p with calls := p.calls ++ [⟨kind, p.ctx, p.inp⟩] }) := by
  obtain ⟨f, rfl, hf⟩ := h
  simp only [Parser.callback, hf]

/-- The range addresses exactly these bytes. -/
structure Addresses (s : Stream) (r : Range) (bs : List UInt8) : Prop where
  start_nonneg : 0 ≤ r.start
  length : r.stop - r.start = bs.length
  bytes : s.slice r = bs

theorem addresses_of_drop {s : Stream} {st : Nat} {bs rest : List UInt8}
    (h : s.data.drop st = bs ++ rest) : Addresses s ⟨st, st + bs.length⟩ bs where
  start_nonneg := by simp
  length := by
    show (st : Int) + bs.length - st = bs.length
    omega
  bytes := by
    have hk : ((st : Int) + bs.length - st).toNat = bs.length := by omega
    simp only [Stream.slice, hk, Int.toNat_natCast, h, List.take_left]

/-- The call of `line_cb` for this first line. -/
structure LineCall (l : FirstLine) (c : Call) : Prop where
  kind : c.kind = .line
  code : c.ctx.code = l.code
  major : c.ctx.versionMajor = 1
  minor : c.ctx.versionMinor = 1
  uri : ∀ r, l = .request r → c.ctx.requestUri = some r.uri

/-- The call of `header_cb` for this header. -/
structure HeaderCall (h : Header) (c : Call) : Prop where
  kind : c.kind = .header
  name : Addresses c.inp c.ctx.currentHeaderName h.name
  value : Addresses c.inp c.ctx.currentHeaderValue h.value

/-! ## Framing -/

/-- What the headers leave for the body. -/
structure Framing where
  bodysz : Int
  chunked : Bool
  chunkState : ChunkState
deriving DecidableEq, Repr

def Ctx.framing (c : Ctx) : Framing := ⟨c.bodysz, c.flagChunked, c.chunkParserState⟩

/-- No header has said anything about a body. -/
def Framing.unset : Framing := ⟨-1, false, .none⟩

def Framing.length (n : Nat) : Framing := ⟨n, false, .none⟩

def Framing.chunks : Framing := ⟨0, true, .size⟩

/-- A `Content-Length` has a decimal value that fits. -/
def Header.LengthOk (h : Header) : Prop :=
  h.Named contentLength →
    (∀ b ∈ h.value, isDigit 10 b = true) ∧ (ofDigits 10 h.value : Int) ≤ intMax

/-- What a header makes of the framing. -/
def Header.frame (h : Header) (f : Framing) : Framing :=
  if h.Named contentLength then { f with bodysz := ofDigits 10 h.value }
  else if h.IsChunked then .chunks
  else f

/-- What all the headers make of it. -/
def framingFrom (f : Framing) (hs : List Header) : Framing := hs.foldl (fun f h => h.frame f) f

/-- The number that `strtol` and the narrowing to `int` make of the value. -/
def Header.stored (h : Header) : Int := toInt (strtol (h.value ++ [NUL]) 10).val

/-- What `process_header` makes of the framing, whatever the value is. -/
def Header.store (h : Header) (f : Framing) : Framing :=
  if h.Named contentLength then { f with bodysz := h.stored }
  else if h.IsChunked then .chunks
  else f

def storedFrom (f : Framing) (hs : List Header) : Framing := hs.foldl (fun f h => h.store f) f

theorem Header.stored_of_digits {h : Header} (hdig : ∀ b ∈ h.value, isDigit 10 b = true) :
    h.stored = toInt (min (ofDigits 10 h.value) longMax) := by
  unfold Header.stored
  rw [strtol_digits_val [] h.value_ne hdig (by decide) (by decide)]

theorem Header.store_of_ok {h : Header} (hok : h.LengthOk) (f : Framing) :
    h.store f = h.frame f := by
  unfold Header.store Header.frame
  split
  · rename_i hn
    obtain ⟨hdig, hmax⟩ := hok hn
    have hlong : (ofDigits 10 h.value : Int) ≤ longMax := by
      unfold intMax at hmax
      unfold longMax
      omega
    rw [Header.stored_of_digits hdig, Int.min_eq_left hlong, toInt_of_le (by omega) hmax]
  · rfl

theorem storedFrom_of_ok {hs : List Header} (hok : ∀ h ∈ hs, h.LengthOk) (f : Framing) :
    storedFrom f hs = framingFrom f hs := by
  induction hs generalizing f with
  | nil => rfl
  | cons a hs ih =>
      unfold storedFrom framingFrom at *
      rw [List.foldl_cons, List.foldl_cons, Header.store_of_ok (hok a List.mem_cons_self),
        ih fun h hh => hok h (List.mem_cons_of_mem _ hh)]

theorem framingFrom_of_plain {f : Framing} {hs : List Header}
    (h : ∀ h ∈ hs, ¬ h.Named contentLength ∧ ¬ h.IsChunked) : framingFrom f hs = f := by
  induction hs with
  | nil => rfl
  | cons a hs ih =>
      obtain ⟨h1, h2⟩ := h a List.mem_cons_self
      have := ih fun b hb => h b (List.mem_cons_of_mem _ hb)
      simpa [framingFrom, Header.frame, h1, h2] using this

theorem framingFrom_length {pre post : List Header} {h : Header} {n : Nat}
    (hn : h.IsContentLength n)
    (hpre : ∀ h ∈ pre, ¬ h.Named contentLength ∧ ¬ h.IsChunked)
    (hpost : ∀ h ∈ post, ¬ h.Named contentLength ∧ ¬ h.IsChunked) :
    framingFrom .unset (pre ++ h :: post) = .length n := by
  have h1 : framingFrom .unset pre = .unset := framingFrom_of_plain hpre
  have h2 : framingFrom (.length n) post = .length n := framingFrom_of_plain hpost
  unfold framingFrom at *
  rw [List.foldl_append, h1, List.foldl_cons]
  simp only [Header.frame, hn.named, if_true, hn.value]
  exact h2

theorem framingFrom_chunks_stays {hs : List Header} (hcl : ∀ h ∈ hs, ¬ h.Named contentLength) :
    framingFrom .chunks hs = .chunks := by
  induction hs with
  | nil => rfl
  | cons a hs ih =>
      have ha := hcl a List.mem_cons_self
      have := ih fun b hb => hcl b (List.mem_cons_of_mem _ hb)
      unfold framingFrom at *
      rw [List.foldl_cons]
      simp only [Header.frame, ha, if_false, ite_self]
      exact this

theorem framingFrom_chunks {f : Framing} {hs : List Header}
    (hcl : ∀ h ∈ hs, ¬ h.Named contentLength) (hch : ∃ h ∈ hs, h.IsChunked) :
    framingFrom f hs = .chunks := by
  obtain ⟨h, hmem, hch⟩ := hch
  obtain ⟨pre, post, rfl⟩ := List.append_of_mem hmem
  have hpost : framingFrom .chunks post = .chunks :=
    framingFrom_chunks_stays fun b hb => hcl b (by simp [hb])
  unfold framingFrom at *
  rw [List.foldl_append, List.foldl_cons]
  simp only [Header.frame, hcl h (by simp), if_false, hch, if_true]
  exact hpost

/-! ## One header line -/

theorem mem_eq_of_drop {s : Stream} {st : Nat} {l : List UInt8} (h : s.data.drop st = l)
    (hne : l ≠ []) : s.mem st = l ++ s.slack := by
  have hlen := length_of_drop h hne
  unfold Stream.mem
  rw [Int.toNat_natCast, List.drop_append_of_le_length (by omega), h]

theorem zero_drop {s : Stream} {st : Nat} {a b : List UInt8} {x : UInt8}
    (h : s.data.drop st = a ++ x :: b) :
    (s.zero ((st : Int) + a.length)).data.drop st = a ++ NUL :: b := by
  have hk : ((st : Int) + a.length).toNat = st + a.length := by omega
  rw [Stream.data_zero, hk, List.drop_set, if_neg (by omega), h, Nat.add_sub_cancel_left,
    List.set_append_right _ _ (Nat.le_refl _), Nat.sub_self]
  rfl

theorem drop_of_drop {s : Stream} {st : Nat} {a b : List UInt8} (h : s.data.drop st = a ++ b) :
    s.data.drop (st + a.length) = b := by
  rw [← List.drop_drop, h, List.drop_left]

/-- The buffer behind a header line that has been taken apart. -/
def Header.zeroed (h : Header) (behind : List UInt8) : List UInt8 :=
  h.name ++ NUL :: (h.blanks ++ (h.value ++ NUL :: LF :: behind))

theorem Header.bytes_length (h : Header) :
    h.bytes.length = h.name.length + 1 + h.blanks.length + h.value.length := by
  simp only [Header.bytes, List.length_append, List.length_cons]
  omega

theorem Header.zero_twice (h : Header) {s : Stream} {st : Nat} {behind : List UInt8}
    (hdata : s.data.drop st = h.bytes ++ CR :: LF :: behind) :
    ((s.zero ((st : Int) + h.name.length)).zero ((st : Int) + h.bytes.length)).data.drop st =
      h.zeroed behind := by
  have d0 : s.data.drop st = h.name ++ COLON :: (h.blanks ++ (h.value ++ CR :: LF :: behind)) := by
    rw [hdata]; simp [Header.bytes]
  have d1 : (s.zero ((st : Int) + h.name.length)).data.drop st =
      (h.name ++ NUL :: (h.blanks ++ h.value)) ++ CR :: LF :: behind := by
    rw [zero_drop d0]; simp
  have hl : (h.name ++ NUL :: (h.blanks ++ h.value)).length = h.bytes.length := by
    rw [h.bytes_length]
    simp only [List.length_append, List.length_cons]; omega
  have d2 := zero_drop d1
  rw [hl] at d2
  rw [d2]; simp [Header.zeroed]

section
variable {p : Parser} {st : Nat} {behind : List UInt8}

/-- The ranges of a header line that starts at `st`. -/
def Header.ranges (h : Header) (st : Int) (c : Ctx) : Ctx :=
  { c with
    currentHeaderName := ⟨st, st + h.name.length⟩
    currentHeaderValue := ⟨st + h.name.length + 1 + h.blanks.length, st + h.bytes.length⟩ }

/-- `headerLine` finds the value and leaves two NULs. -/
theorem headerLine_eq (nullOff : Int) (h : Header) (hst : p.ctx.currentHeaderName.start = st)
    (hdata : p.inp.data.drop st = h.bytes ++ CR :: LF :: behind)
    (hfit : (h.bytes.length : Int) ≤ intMax) :
    ∃ s : Stream,
      headerLine nullOff ((st : Int) + h.bytes.length) ((st : Int) + h.name.length) p =
        { p with inp := s, ctx := h.ranges st p.ctx } ∧
      s.data.drop st = h.zeroed behind ∧ s.pos = p.inp.pos ∧ s.eod = p.inp.eod ∧
      s.slack = p.inp.slack := by
  have hlen := h.bytes_length
  have hval : 0 < h.value.length := List.length_pos_iff.mpr h.value_ne
  have d0 : p.inp.data.drop st =
      h.name ++ COLON :: (h.blanks ++ (h.value ++ CR :: LF :: behind)) := by
    rw [hdata]; simp [Header.bytes]
  have d1 := zero_drop d0
  have e1 : (p.inp.zero ((st : Int) + h.name.length)).data.drop (st + h.name.length + 1) =
      h.blanks ++ (h.value ++ CR :: LF :: behind) := by
    refine drop_of_drop (a := [NUL]) (drop_of_drop ?_)
    rw [d1]; rfl
  have hfind : findnosp ((p.inp.zero ((st : Int) + h.name.length)).mem
        ((st : Int) + h.name.length + 1))
      (toInt ((st : Int) + h.bytes.length - ((st : Int) + h.name.length + 1))) =
        some h.blanks.length := by
    obtain ⟨v, vs, hv⟩ := List.exists_cons_of_ne_nil h.value_ne
    have hsp : ISSPACE v = false := h.value_head v (by rw [hv]; rfl)
    have hmem := mem_eq_of_drop e1 (by simp)
    have hcast : ((st + h.name.length + 1 : Nat) : Int) = (st : Int) + h.name.length + 1 := by omega
    rw [hcast] at hmem
    rw [toInt_of_le (by omega) (by omega), hmem, hv, List.append_assoc, List.cons_append,
      List.cons_append]
    exact findnosp_eq h.blanks_ok hsp (by omega)
  refine ⟨_, ?_, h.zero_twice hdata, rfl, by simp, rfl⟩
  unfold headerLine
  simp only [hfind, hst]
  rfl

theorem processHeader_eq (h : Header) (hn : p.ctx.currentHeaderName.start = st)
    (hv : p.ctx.currentHeaderValue.start = (st : Int) + h.name.length + 1 + h.blanks.length)
    (hdata : p.inp.data.drop st = h.zeroed behind) :
    ∃ errno, processHeader p = (.needMore, { p with errno := errno, ctx := { p.ctx with
      bodysz := (h.store p.ctx.framing).bodysz
      flagChunked := (h.store p.ctx.framing).chunked
      chunkParserState := (h.store p.ctx.framing).chunkState } }) := by
  have m0 := mem_eq_of_drop hdata (by simp [Header.zeroed])
  have m1 : p.inp.mem ((st : Int) + h.name.length + 1 + h.blanks.length) =
      h.value ++ NUL :: LF :: (behind ++ p.inp.slack) := by
    have e1 : p.inp.data.drop (st + h.name.length + 1 + h.blanks.length) =
        h.value ++ NUL :: LF :: behind := by
      refine drop_of_drop (drop_of_drop (a := [NUL]) (drop_of_drop ?_))
      rw [hdata]; rfl
    have := mem_eq_of_drop e1 (by simp)
    have hcast : ((st + h.name.length + 1 + h.blanks.length : Nat) : Int) =
        (st : Int) + h.name.length + 1 + h.blanks.length := by omega
    rw [hcast] at this
    rw [this]; simp
  have hname : ∀ t : List UInt8, cstr t = t →
      strcasecmpEq (p.inp.mem st) t = decide (h.Named t) := by
    intro t ht
    unfold strcasecmpEq Header.Named
    rw [m0, Header.zeroed, List.append_assoc, List.cons_append,
      cstr_stop fun x hx => (h.name_ok x hx).2.2.2, ht, beq_eq_decide]
    exact decide_eq_decide.mpr Iff.rfl
  have hcl : strcasecmpEq (p.inp.mem st) (ascii "content-length") =
      decide (h.Named contentLength) := hname _ (by decide)
  have hte : strcasecmpEq (p.inp.mem st) (ascii "transfer-encoding") =
      decide (h.Named transferEncoding) := hname _ (by decide)
  have hch : strcmpEq (h.value ++ NUL :: LF :: (behind ++ p.inp.slack)) (ascii "chunked") =
      decide (h.value = chunkedCoding) := by
    unfold strcmpEq
    rw [cstr_stop fun x hx => (h.value_ok x hx).2.2, beq_eq_decide]
    rfl
  have hneg : ¬ (st : Int) + h.name.length + 1 + h.blanks.length < 0 := by omega
  unfold processHeader
  simp only [hn, hv, m1, hcl, hte, hch, if_neg hneg]
  by_cases h1 : h.Named contentLength
  · have hnum : (strtol (h.value ++ NUL :: LF :: (behind ++ p.inp.slack)) 10).val =
        (strtol (h.value ++ [NUL]) 10).val := by
      rw [strtol_nul h.value [] (LF :: (behind ++ p.inp.slack))]
    have hstored : toInt (strtol (h.value ++ NUL :: LF :: (behind ++ p.inp.slack)) 10).val =
        h.stored := by
      rw [hnum]
      rfl
    generalize strtol (h.value ++ NUL :: LF :: (behind ++ p.inp.slack)) 10 = n at hstored
    simp only [h1, decide_true, if_true, hstored, Header.store, Ctx.framing]
    unfold Parser.noteErrno
    split
    · exact ⟨_, rfl⟩
    · exact ⟨p.errno, rfl⟩
  · refine ⟨p.errno, ?_⟩
    by_cases h2 : h.Named transferEncoding
    · by_cases h3 : h.value = chunkedCoding
      · simp [h1, h2, h3, Header.store, Header.IsChunked, Framing.chunks]
      · simp [h1, h2, h3, Header.store, Header.IsChunked, Ctx.framing]
    · simp [h1, h2, Header.store, Header.IsChunked, Ctx.framing]

end

/-! ## Moving along the stream -/

/-- From `pos` on, the stream holds and the reads will deliver exactly `rest`;
no read, and not what is there already, has more than `R` bytes.  `pos` may be
up to two bytes ahead of the data: a chunked message before this one skips its
last CR LF before it has come. -/
structure Arrives (R : Nat) (rest : List UInt8) (s : Stream) (reads : List Read) : Prop where
  pos_nonneg : 0 ≤ s.pos
  pos_le : s.pos ≤ s.eod + 2
  stream : (s.data ++ pending reads).drop s.pos.toNat = rest
  delivers : Delivers R reads
  bounded : s.eod - s.pos ≤ R

/-- At the top of an iteration, with `pos` at the start of `rest`, which is
what the peer still sends. -/
structure AtTop (R : Nat) (rest : List UInt8) (p : Parser) (reads : List Read) : Prop
    extends Arrives R rest p.inp reads where
  here : p.inp.pos ≤ p.inp.eod

/-- `n` bytes further on, with all the read ends that are still ahead. -/
structure Onward (n : Nat) (p : Parser) (reads : List Read) (p' : Parser) (reads' : List Read) :
    Prop where
  pos : p'.inp.pos = p.inp.pos + n
  cuts : ∀ m, p'.inp.pos < m → (Cuts p'.inp.eod reads' m ↔ Cuts p.inp.eod reads m)
  view : ∀ k m, p'.inp.pos < k → p'.inp.pos ≤ m →
    (receive k p'.inp reads').mem m = (receive k p.inp reads).mem m

theorem Onward.refl (p : Parser) (reads : List Read) : Onward 0 p reads p reads :=
  ⟨by simp, fun _ _ => Iff.rfl, fun _ _ _ _ => rfl⟩

theorem Onward.trans {m n : Nat} {p₁ p₂ p₃ : Parser} {r₁ r₂ r₃ : List Read}
    (h₁ : Onward m p₁ r₁ p₂ r₂) (h₂ : Onward n p₂ r₂ p₃ r₃) : Onward (m + n) p₁ r₁ p₃ r₃ where
  pos := by rw [h₂.pos, h₁.pos]; omega
  cuts k hk := (h₂.cuts k hk).trans (h₁.cuts k (by have := h₂.pos; omega))
  view k i hk hi := (h₂.view k i hk hi).trans
    (h₁.view k i (by have := h₂.pos; omega) (by have := h₂.pos; omega))

section
variable (pf : Platform) (parseLine : Parser → Res × Parser) {cbs : Callbacks}
variable {R : Nat} {rest : List UInt8} {p : Parser} {reads : List Read}

variable (cbs) in
theorem note_start {q : Parser}
    (hq : ∀ s : Stream, s.pos = p.inp.pos →
      dispatch pf parseLine cbs (p.withInp s) = .again (q.withInp s))
    (hat : Arrives R rest p.inp reads) (hne : rest ≠ []) :
    ∃ s reads', Reaches (loopStep pf parseLine cbs) ⟨.top, p, reads⟩ ⟨.top, q.withInp s, reads'⟩ ∧
      Arrives R rest s reads' ∧ (p.inp.pos ≤ p.inp.eod → s.pos ≤ s.eod) ∧
      Onward 0 p reads (q.withInp s) reads' := by
  have hdisp : ∀ (s : Stream) (reads' : List Read), s.pos = p.inp.pos →
      loopStep pf parseLine cbs ⟨.dispatch, p.withInp s, reads'⟩ =
        .again ⟨.top, q.withInp s, reads'⟩ := by
    intro s reads' hs
    simp only [loopStep, hq s hs]
  by_cases hmore : p.inp.eod ≤ p.inp.pos
  · cases reads with
    | nil =>
        -- nothing is left to come, but something must
        have h := hat.stream
        have := hat.pos_nonneg
        rw [pending_nil, List.append_nil, List.drop_eq_nil_of_le] at h
        · exact absurd h.symm hne
        · unfold Stream.eod at hmore
          omega
    | cons r reads =>
        obtain ⟨bs, slack, rfl, hbs, hbR⟩ := hat.delivers.head
        have hlen : 0 < bs.length := List.length_pos_iff.mpr hbs
        have hle := hat.pos_le
        have hread : loopStep pf parseLine cbs ⟨.top, p.withInp p.inp, .bytes bs slack :: reads⟩ =
            .again ⟨.dispatch, p.withInp (p.inp.consume bs slack), reads⟩ := loopStep_read hmore
        refine ⟨p.inp.consume bs slack, reads, .head hread (.single (hdisp _ _ rfl)), ?_, ?_, ?_⟩
        · refine ⟨hat.pos_nonneg, ?_, ?_, hat.delivers.tail, ?_⟩
          · simp only [Stream.pos_consume, Stream.eod_consume]; omega
          · simpa [Read.payload] using hat.stream
          · simp only [Stream.pos_consume, Stream.eod_consume]; omega
        · intro
          simp only [Stream.pos_consume, Stream.eod_consume]; omega
        · refine ⟨by simp [Parser.withInp], fun m hm => ?_, fun k m hk _ => ?_⟩
          · simp only [Parser.withInp, Stream.pos_consume, Stream.eod_consume, Cuts,
              Read.payload] at hm ⊢
            constructor
            · exact Or.inr
            · rintro (h | h)
              · omega
              · exact h
          · have hk' : p.inp.pos < k := hk
            rw [receive_bytes (s := p.inp) (by omega)]
            rfl
  · have htop : loopStep pf parseLine cbs ⟨.top, p.withInp p.inp, reads⟩ =
        .again ⟨.dispatch, p.withInp p.inp, reads⟩ := loopStep_top (by omega)
    exact ⟨p.inp, reads, .head htop (.single (hdisp _ _ rfl)),
      hat, id, ⟨by simp [Parser.withInp], fun _ _ => Iff.rfl, fun _ _ _ _ => rfl⟩⟩

/-- What has been received of a line that is awaited, and what comes behind
it. -/
theorem Arrives.await {line : List UInt8}
    (hat : Arrives R (line ++ CR :: LF :: rest) p.inp reads)
    (hl : NoCrlf line) (hfit : (line.length : Int) + 1 + R ≤ intMax)
    (hw : WaitsAt pf parseLine cbs p p.inp.pos.toNat) :
    ∃ s reads', Reaches (loopStep pf parseLine cbs) ⟨.top, p, reads⟩
        ⟨.dispatch, p.withInp s, reads'⟩ ∧
      LineHere R p.inp.pos.toNat line rest p.inp reads s reads' := by
  have := hat.pos_nonneg
  have := hat.pos_le
  have := hat.bounded
  exact awaitLine (p := p) hw hl hfit hat.delivers hat.stream (by omega) (by omega) (by omega)

theorem LineHere.atTop {st : Nat} {line : List UInt8} {s₀ s : Stream} {reads₀ reads : List Read}
    {q : Parser} (h : LineHere R st line rest s₀ reads₀ s reads)
    (hstream : (s₀.data ++ pending reads₀).drop st = line ++ CR :: LF :: rest)
    (hpos : q.inp.pos = (st : Int) + line.length + 2) (heod : q.inp.eod = s.eod)
    (hdrop : q.inp.data.drop (st + line.length + 2) = s.data.drop (st + line.length + 2)) :
    AtTop R rest q reads where
  pos_nonneg := by omega
  pos_le := by have := h.complete; omega
  here := by rw [hpos, heod]; exact h.complete
  stream := by
    have hc := h.complete
    have hn : q.inp.pos.toNat = st + (line.length + 2) := by omega
    have h1 : (s.data ++ pending reads).drop (st + (line.length + 2)) = rest := by
      rw [h.stream, ← List.drop_drop, hstream]
      have : line ++ CR :: LF :: rest = (line ++ [CR, LF]) ++ rest := by simp
      rw [this, List.drop_left' (by simp)]
    rw [← h1, hn]
    unfold Stream.eod at *
    rw [List.drop_append_of_le_length (by omega), List.drop_append_of_le_length (by omega)]
    exact congrArg (· ++ pending reads) hdrop
  delivers := h.delivers
  bounded := by
    have := h.bounded
    omega

/-- Behind a complete line, all later read ends are still ahead. -/
theorem LineHere.onward {line : List UInt8} {s : Stream} {reads' : List Read} {q : Parser}
    (h : LineHere R p.inp.pos.toNat line rest p.inp reads s reads') (h0 : 0 ≤ p.inp.pos)
    (hpos : q.inp.pos = p.inp.pos + line.length + 2) (heod : q.inp.eod = s.eod)
    (hslack : q.inp.slack = s.slack)
    (hdrop : q.inp.data.drop (p.inp.pos.toNat + line.length + 2) =
      s.data.drop (p.inp.pos.toNat + line.length + 2)) :
    Onward (line.length + 2) p reads q reads' where
  pos := by rw [hpos]; push_cast; omega
  cuts m hm := by rw [heod]; exact h.cuts m (by omega)
  view k m hk hm := by
    have hm' : m.toNat = (p.inp.pos.toNat + line.length + 2) +
        (m.toNat - (p.inp.pos.toNat + line.length + 2)) := by omega
    have hsame : q.inp.data.drop m.toNat = s.data.drop m.toNat := by
      rw [hm', ← List.drop_drop, hdrop, List.drop_drop]
    exact (receive_congr reads' heod hslack hsame).trans (h.view k m (by omega))

/-! ## All the headers -/

/-- The headers have been read, and `header_cb` was called for each. -/
structure HeadersDone (step : LoopState → Next LoopState Outcome) (R : Nat) (hs : List Header)
    (rest : List UInt8) (p : Parser) (reads : List Read) (p' : Parser) (reads' : List Read) :
    Prop where
  reaches : Reaches step ⟨.top, p, reads⟩ ⟨.top, p', reads'⟩
  atTop : AtTop R rest p' reads'
  onward : Onward (headerBytes hs).length p reads p' reads'
  state : p'.ctx.parserState = .headerFieldIn
  framing : p'.ctx.framing = storedFrom p.ctx.framing hs
  calls : ∃ cs, p'.calls = p.calls ++ cs ∧ List.Forall₂ HeaderCall hs cs

/-- An iteration that has gone behind a line of `n` bytes that starts at `st`,
with one call of a callback. -/
structure Passed (n st : Nat) (p q : Parser) (c : Call) : Prop where
  state : q.ctx.parserState = .headerFieldIn
  calls : q.calls = p.calls ++ [c]
  pos : q.inp.pos = (st : Int) + n + 2
  eod : q.inp.eod = p.inp.eod
  slack : q.inp.slack = p.inp.slack
  behind : q.inp.data.drop (st + n + 2) = p.inp.data.drop (st + n + 2)

variable {pf parseLine} in
theorem waitsAt_headerFieldOut {st : Nat} (hs : p.ctx.parserState = .headerFieldOut)
    (hst : p.ctx.currentHeaderName.start = st) : WaitsAt pf parseLine cbs p st := by
  intro s hnone
  unfold dispatch
  simp only [Parser.withInp, hs, headerFieldOut, hst, hnone]

theorem dispatch_header {st : Nat} {behind : List UInt8} (hcb : cbs.Succeeding) (h : Header)
    (hs : p.ctx.parserState = .headerFieldOut)
    (hst : p.ctx.currentHeaderName.start = st)
    (hfound : findcrlf (p.inp.mem st) (toInt (p.inp.eod - st)) = some h.bytes.length)
    (hdata : p.inp.data.drop st = h.bytes ++ CR :: LF :: behind)
    (hfit : (h.bytes.length : Int) ≤ intMax) :
    ∃ q c, dispatch pf parseLine cbs p = .again q ∧ Passed h.bytes.length st p q c ∧
      HeaderCall h c ∧ q.ctx.framing = h.store p.ctx.framing := by
  have hlen := h.bytes_length
  obtain ⟨n, hn⟩ : ∃ n, h.bytes.length = n + 1 := ⟨h.bytes.length - 1, by omega⟩
  have hmem := mem_eq_of_drop hdata (by simp)
  have hcolon : ((p.inp.mem st).take (n + 1)).findIdx? (· == COLON) = some h.name.length := by
    rw [hmem, ← hn]
    simp only [Header.bytes, List.append_assoc, List.cons_append]
    refine findIdx?_stop _ (fun x hx => ?_) (by decide) ?_
    · simpa using (h.name_ok x hx).1
    · simp only [List.length_append, List.length_cons]; omega
  obtain ⟨s, hline, hzero, hpos, heod, hslack⟩ := headerLine_eq pf.nullOff h hst hdata hfit
  obtain ⟨errno, hproc⟩ := processHeader_eq (p := { p with inp := s, ctx := h.ranges st p.ctx }) h
    rfl rfl hzero
  have hfin : (st : Int) + ((n : Int) + 1) = (st : Int) + h.bytes.length := by omega
  have hdrop : s.data.drop (st + h.bytes.length + 2) =
      p.inp.data.drop (st + h.bytes.length + 2) := by
    have h1 : h.zeroed behind =
        (h.name ++ NUL :: (h.blanks ++ h.value) ++ [NUL, LF]) ++ behind := by
      simp [Header.zeroed]
    have h2 : h.bytes ++ CR :: LF :: behind = (h.bytes ++ [CR, LF]) ++ behind := by simp
    have h3 : s.data.drop (st + (h.bytes.length + 2)) = behind := by
      rw [← List.drop_drop, hzero, h1, List.drop_left' (by simp; omega)]
    have h4 : p.inp.data.drop (st + (h.bytes.length + 2)) = behind := by
      rw [← List.drop_drop, hdata, h2, List.drop_left' (by simp)]
    rw [Nat.add_assoc, h3, h4]
  rw [hn] at hfound
  unfold dispatch
  simp only [hs, headerFieldOut, hst, hfound, hcolon, hfin, hline, hproc,
    callback_ok hcb.header, ne_eq, not_true, if_false]
  refine ⟨_, _, rfl, ⟨rfl, rfl, ?_, heod, hslack, hdrop⟩, ⟨rfl, addresses_of_drop hzero, ?_⟩, rfl⟩
  · simp only [Stream.pos_advance]; omega
  · have e1 : s.data.drop (st + h.name.length + 1 + h.blanks.length) =
        h.value ++ NUL :: LF :: behind := by
      refine drop_of_drop (drop_of_drop (a := [NUL]) (drop_of_drop ?_))
      rw [hzero]; rfl
    have hstop : ((st + h.name.length + 1 + h.blanks.length : Nat) : Int) + h.value.length =
        (st : Int) + h.bytes.length := by omega
    have hstart : ((st + h.name.length + 1 + h.blanks.length : Nat) : Int) =
        (st : Int) + h.name.length + 1 + h.blanks.length := by omega
    have := addresses_of_drop e1
    rw [hstop, hstart] at this
    exact this

variable (cbs) in
theorem header_start (hs : p.ctx.parserState = .headerFieldIn) (hat : AtTop R rest p reads)
    (hne : rest ≠ []) :
    ∃ q reads', Reaches (loopStep pf parseLine cbs) ⟨.top, p, reads⟩ ⟨.top, q, reads'⟩ ∧
      AtTop R rest q reads' ∧ Onward 0 p reads q reads' ∧
      q.ctx.parserState = .headerFieldOut ∧
      q.ctx.currentHeaderName.start = (q.inp.pos.toNat : Int) ∧
      q.ctx.framing = p.ctx.framing ∧ q.calls = p.calls := by
  obtain ⟨s, reads', hr, hat', hhere, hon⟩ := note_start pf parseLine cbs (p := p)
    (q := { p with ctx := { p.ctx with
      currentHeaderName := ⟨p.inp.pos, p.ctx.currentHeaderName.stop⟩
      parserState := .headerFieldOut } })
    (by
      intro s hpos
      unfold dispatch
      simp only [Parser.withInp, hs, hpos]) hat.toArrives hne
  have hpos := hon.pos
  have h0 := hat.pos_nonneg
  refine ⟨_, reads', hr, ⟨hat', hhere hat.here⟩, hon, rfl, ?_, rfl, rfl⟩
  show p.inp.pos = _
  omega

/-- A line behind the first: when what an iteration does with it is known, the
loop comes behind it. -/
theorem field_reaches {line : List UInt8} {T : Parser → Call → Prop} (hno : NoCrlf line)
    (hfit : (line.length : Int) + 1 + R ≤ intMax) (hs : p.ctx.parserState = .headerFieldIn)
    (hat : AtTop R (line ++ CR :: LF :: rest) p reads)
    (hdisp : ∀ (q : Parser) (st : Nat) (behind : List UInt8),
      q.ctx.parserState = .headerFieldOut → q.ctx.currentHeaderName.start = st →
      q.ctx.framing = p.ctx.framing →
      findcrlf (q.inp.mem st) (toInt (q.inp.eod - st)) = some line.length →
      q.inp.data.drop st = line ++ CR :: LF :: behind →
      ∃ q' c, dispatch pf parseLine cbs q = .again q' ∧ Passed line.length st q q' c ∧ T q' c) :
    ∃ p' reads' c, Reaches (loopStep pf parseLine cbs) ⟨.top, p, reads⟩ ⟨.top, p', reads'⟩ ∧
      AtTop R rest p' reads' ∧ Onward (line.length + 2) p reads p' reads' ∧
      p'.ctx.parserState = .headerFieldIn ∧ p'.calls = p.calls ++ [c] ∧ T p' c := by
  obtain ⟨q, reads₁, hr₁, hat₁, hon₁, hstate, hstart, hfr₁, hcalls₁⟩ :=
    header_start pf parseLine cbs hs hat (by simp)
  have h0 := hat₁.pos_nonneg
  obtain ⟨s₂, reads₂, hr₂, hhere⟩ := hat₁.await pf parseLine hno hfit
    (waitsAt_headerFieldOut hstate hstart)
  have hstream : (s₂.data ++ pending reads₂).drop q.inp.pos.toNat = line ++ CR :: LF :: rest := by
    rw [hhere.stream]; exact hat₁.stream
  have hbound := hhere.bounded
  have hcomplete := hhere.complete
  have hfound := findcrlf_eq hno hstream (by omega) (by omega)
  rw [if_pos hcomplete] at hfound
  obtain ⟨behind, hdata, -⟩ := data_of_complete hstream hcomplete
  obtain ⟨q', c, hd, hpassed, hT⟩ := hdisp (q.withInp s₂) _ behind hstate hstart hfr₁ hfound hdata
  have hpos := hpassed.pos
  have hon₂ : Onward (line.length + 2) q reads₁ q' reads₂ :=
    hhere.onward h0 (by omega) hpassed.eod hpassed.slack hpassed.behind
  refine ⟨q', reads₂, c, hr₁.trans (hr₂.trans (.single (loopStep_again hd))),
    hhere.atTop hat₁.stream hpassed.pos hpassed.eod hpassed.behind, ?_, hpassed.state, ?_, hT⟩
  · simpa using hon₁.trans hon₂
  · rw [hpassed.calls, ← hcalls₁]; rfl

theorem header_done (hcb : cbs.Succeeding) (h : Header)
    (hfit : (h.bytes.length : Int) + 1 + R ≤ intMax)
    (hs : p.ctx.parserState = .headerFieldIn)
    (hat : AtTop R (h.bytes ++ CR :: LF :: rest) p reads) :
    ∃ p' reads', HeadersDone (loopStep pf parseLine cbs) R [h] rest p reads p' reads' := by
  obtain ⟨p', reads', c, hr, hat', hon, hst, hcalls, hcall, hfr⟩ :=
    field_reaches pf parseLine (T := fun q c => HeaderCall h c ∧
      q.ctx.framing = h.store p.ctx.framing) h.noCrlf hfit hs hat
      (fun q st behind hstate hstart hframing hfound hdata => by
        rw [← hframing]
        exact dispatch_header pf parseLine hcb h hstate hstart hfound hdata (by omega))
  refine ⟨p', reads', hr, hat', ?_, hst, ?_, [c], hcalls, .cons hcall .nil⟩
  · simpa [headerBytes, crlf] using hon
  · rw [hfr]; rfl

theorem HeadersDone.append {step : LoopState → Next LoopState Outcome} {hs₁ hs₂ : List Header}
    {mid : List UInt8} {p₁ p₂ p₃ : Parser} {r₁ r₂ r₃ : List Read}
    (h₁ : HeadersDone step R hs₁ mid p₁ r₁ p₂ r₂) (h₂ : HeadersDone step R hs₂ rest p₂ r₂ p₃ r₃) :
    HeadersDone step R (hs₁ ++ hs₂) rest p₁ r₁ p₃ r₃ where
  reaches := h₁.reaches.trans h₂.reaches
  atTop := h₂.atTop
  onward := by
    have := h₁.onward.trans h₂.onward
    simpa [headerBytes] using this
  state := h₂.state
  framing := by
    rw [h₂.framing, h₁.framing]
    simp [storedFrom]
  calls := by
    obtain ⟨cs₁, e₁, f₁⟩ := h₁.calls
    obtain ⟨cs₂, e₂, f₂⟩ := h₂.calls
    exact ⟨cs₁ ++ cs₂, by rw [e₂, e₁, List.append_assoc], List.rel_append f₁ f₂⟩

theorem headers_done (hcb : cbs.Succeeding) : ∀ (hs : List Header) {p : Parser} {reads : List Read},
    (∀ h ∈ hs, (h.bytes.length : Int) + 1 + R ≤ intMax) →
    p.ctx.parserState = .headerFieldIn → AtTop R (headerBytes hs ++ rest) p reads →
    ∃ p' reads', HeadersDone (loopStep pf parseLine cbs) R hs rest p reads p' reads'
  | [], p, reads, _, hst, hat =>
      ⟨p, reads, .refl _, hat, .refl _ _, hst, rfl, [], by simp, .nil⟩
  | h :: hs, p, reads, hfit, hst, hat => by
      have hat' : AtTop R (h.bytes ++ CR :: LF :: (headerBytes hs ++ rest)) p reads := by
        simpa [headerBytes, crlf] using hat
      obtain ⟨p₁, reads₁, h₁⟩ := header_done pf parseLine hcb h
        (hfit h List.mem_cons_self) hst hat'
      obtain ⟨p₂, reads₂, h₂⟩ := headers_done hcb hs
        (fun x hx => hfit x (List.mem_cons_of_mem _ hx)) h₁.state h₁.atTop
      exact ⟨p₂, reads₂, h₁.append h₂⟩

/-! ## The head of a message -/

/-- At the empty line, which starts at `b` and is complete.  `pos` is at its
start, or one further when a read ended inside it. -/
structure BlankHere (R b : Nat) (rest : List UInt8) (s₀ : Stream) (reads₀ : List Read)
    (p : Parser) (reads : List Read) : Prop where
  state : p.ctx.parserState = .headerFieldOut
  start : p.ctx.currentHeaderName.start = b
  found : findcrlf (p.inp.mem b) (toInt (p.inp.eod - b)) = some 0
  stream : (p.inp.data ++ pending reads).drop (b + 2) = rest
  complete : (b : Int) + 2 ≤ p.inp.eod
  bounded : p.inp.eod - b ≤ 1 + R
  delivers : Delivers R reads
  pos : p.inp.pos = if Cuts s₀.eod reads₀ (b + 1) then (b : Int) + 1 else b
  cuts : ∀ m : Int, (b : Int) + 2 ≤ m → (Cuts p.inp.eod reads m ↔ Cuts s₀.eod reads₀ m)
  view : ∀ k m : Int, (b : Int) + 2 ≤ k → (b : Int) + 2 ≤ m →
    (receive k p.inp reads).mem m = (receive k s₀ reads₀).mem m

variable (cbs) in
theorem blank_reaches (hs : p.ctx.parserState = .headerFieldIn)
    (hat : AtTop R (CR :: LF :: rest) p reads) (hfit : 1 + (R : Int) ≤ intMax) :
    ∃ p' reads', Reaches (loopStep pf parseLine cbs) ⟨.top, p, reads⟩ ⟨.dispatch, p', reads'⟩ ∧
      BlankHere R p.inp.pos.toNat rest p.inp reads p' reads' ∧
      p'.ctx.framing = p.ctx.framing ∧ p'.calls = p.calls := by
  obtain ⟨q, reads₁, hr₁, hat₁, hon₁, hstate, hstart, hfr₁, hcalls₁⟩ :=
    header_start pf parseLine cbs hs hat (by simp)
  have h0 := hat₁.pos_nonneg
  have hle := hat₁.here
  have hbd := hat₁.bounded
  have hpos := hon₁.pos
  have hb : q.inp.pos.toNat = p.inp.pos.toNat := by omega
  have hw : WaitsAt pf parseLine cbs q q.inp.pos.toNat := waitsAt_headerFieldOut hstate hstart
  obtain ⟨s₂, reads₂, hr₂, hhere, hp₂⟩ := awaitBlank (p := q) (s := q.inp) hw hat₁.delivers
    hat₁.stream (by omega) (by omega) (by omega)
  have hcomplete := hhere.complete
  have hbound := hhere.bounded
  have hstream : (s₂.data ++ pending reads₂).drop q.inp.pos.toNat = CR :: LF :: rest := by
    rw [hhere.stream]; exact hat₁.stream
  have hnil : NoCrlf [] := rfl
  have hfound := findcrlf_eq hnil hstream (by omega)
    (by simp only [List.length_nil] at hbound; omega)
  rw [if_pos hcomplete] at hfound
  rw [hb] at hstart hfound hstream hcomplete hbound hp₂
  simp only [List.length_nil] at hcomplete hbound
  refine ⟨q.withInp s₂, reads₂, hr₁.trans hr₂, ⟨hstate, hstart, hfound, ?_, ?_, ?_,
    hhere.delivers, ?_, ?_, ?_⟩, hfr₁, hcalls₁⟩
  · show (s₂.data ++ pending reads₂).drop _ = rest
    rw [← List.drop_drop, hstream]
    rfl
  · show _ ≤ s₂.eod
    omega
  · show s₂.eod - _ ≤ _
    omega
  · show s₂.pos = _
    rw [hp₂]
    simp only [hon₁.cuts _ (show q.inp.pos < (p.inp.pos.toNat : Int) + 1 by omega)]
  · intro m hm
    show Cuts s₂.eod reads₂ m ↔ _
    rw [hhere.cuts m (by simp only [List.length_nil]; omega), hon₁.cuts m (by omega)]
  · intro k m hk hm
    show (receive k s₂ reads₂).mem m = _
    rw [hhere.view k m (by simp only [List.length_nil]; omega),
      hon₁.view k m (by omega) (by omega)]

theorem waitsAt_line {st : Nat} (l : FirstLine) (hs : p.ctx.parserState = .line)
    (hst : p.ctx.firstLine.start = st) : WaitsAt pf l.parse cbs p st := by
  intro s hnone
  unfold dispatch
  simp only [Parser.withInp, hs]
  have hwait := l.parse_wait (p := p.withInp s) hst hnone
  simp only [Parser.withInp] at hwait
  rw [hwait]

theorem dispatch_line {st : Nat} {behind : List UInt8} (hcb : cbs.Succeeding) (l : FirstLine)
    (hs : p.ctx.parserState = .line) (hst : p.ctx.firstLine.start = st)
    (hfound : findcrlf (p.inp.mem st) (toInt (p.inp.eod - st)) = some l.bytes.length)
    (hmem : p.inp.mem st = l.bytes ++ CR :: LF :: behind)
    (hfit : (l.bytes.length : Int) ≤ intMax) :
    ∃ q c, dispatch pf l.parse cbs p = .again q ∧ Passed l.bytes.length st p q c ∧
      LineCall l c ∧ q.ctx.framing = p.ctx.framing := by
  unfold dispatch
  simp only [hs, l.parse_complete hst hfound hmem hfit, callback_ok hcb.line, ne_eq, not_true,
    if_false]
  refine ⟨_, _, rfl, ⟨rfl, rfl, ?_, rfl, rfl, rfl⟩, ⟨rfl, rfl, rfl, rfl, ?_⟩, rfl⟩
  · simp only [Stream.pos_advance]; omega
  · rintro r rfl
    rfl

/-- The first line: when what an iteration does with it is known, the loop
comes behind it. -/
theorem first_reaches (l : FirstLine) {line : List UInt8} {T : Parser → Call → Prop}
    (hno : NoCrlf line) (hfit : (line.length : Int) + 1 + R ≤ intMax)
    (hs : p.ctx.parserState = .start)
    (hat : Arrives R (line ++ CR :: LF :: rest) p.inp reads)
    (hdisp : ∀ (q : Parser) (st : Nat) (behind : List UInt8),
      q.ctx.parserState = .line → q.ctx.firstLine.start = st → q.ctx.framing = p.ctx.framing →
      findcrlf (q.inp.mem st) (toInt (q.inp.eod - st)) = some line.length →
      q.inp.mem st = line ++ CR :: LF :: behind →
      ∃ q' c, dispatch pf l.parse cbs q = .again q' ∧ Passed line.length st q q' c ∧ T q' c) :
    ∃ p' reads' c, Reaches (loopStep pf l.parse cbs) ⟨.top, p, reads⟩ ⟨.top, p', reads'⟩ ∧
      AtTop R rest p' reads' ∧ Onward (line.length + 2) p reads p' reads' ∧
      p'.ctx.parserState = .headerFieldIn ∧ p'.calls = p.calls ++ [c] ∧ T p' c := by
  obtain ⟨s₁, reads₁, hr₁, hat₁, -, hon₁⟩ := note_start pf l.parse cbs (p := p)
    (q := { p with ctx := { p.ctx with
      firstLine := ⟨p.inp.pos, p.ctx.firstLine.stop⟩, parserState := .line } })
    (by
      intro s hpos
      unfold dispatch
      simp only [Parser.withInp, hs, hpos]) hat (by simp)
  generalize hq : (Parser.withInp _ s₁) = q at hr₁ hon₁
  have hat₁ : Arrives R (line ++ CR :: LF :: rest) q.inp reads₁ := by rw [← hq]; exact hat₁
  have h0 := hat₁.pos_nonneg
  have hstate : q.ctx.parserState = .line := by rw [← hq]; rfl
  have hstart : q.ctx.firstLine.start = (q.inp.pos.toNat : Int) := by
    have h1 : q.ctx.firstLine.start = p.inp.pos := by rw [← hq]; rfl
    have h2 := hon₁.pos
    omega
  obtain ⟨s₂, reads₂, hr₂, hhere⟩ := hat₁.await pf l.parse hno hfit
    (waitsAt_line pf l hstate hstart)
  have hstream : (s₂.data ++ pending reads₂).drop q.inp.pos.toNat = line ++ CR :: LF :: rest := by
    rw [hhere.stream]; exact hat₁.stream
  have hbound := hhere.bounded
  have hcomplete := hhere.complete
  have hfound := findcrlf_eq hno hstream (by omega) (by omega)
  rw [if_pos hcomplete] at hfound
  obtain ⟨behind, hmem⟩ := mem_of_complete hstream hcomplete
  obtain ⟨q', c, hd, hpassed, hT⟩ := hdisp (q.withInp s₂) _ behind hstate hstart
    (by rw [← hq]; rfl) hfound hmem
  have hpos := hpassed.pos
  have hon₂ : Onward (line.length + 2) q reads₁ q' reads₂ :=
    hhere.onward h0 (by omega) hpassed.eod hpassed.slack hpassed.behind
  refine ⟨q', reads₂, c, hr₁.trans (hr₂.trans (.single (loopStep_again hd))),
    hhere.atTop hat₁.stream hpassed.pos hpassed.eod hpassed.behind, ?_, hpassed.state, ?_, hT⟩
  · simpa using hon₁.trans hon₂
  · rw [hpassed.calls, ← hq]; rfl

theorem line_reaches (hcb : cbs.Succeeding) (l : FirstLine)
    (hfit : (l.bytes.length : Int) + 1 + R ≤ intMax)
    (hs : p.ctx.parserState = .start)
    (hat : Arrives R (l.bytes ++ CR :: LF :: rest) p.inp reads) :
    ∃ p' reads' c, Reaches (loopStep pf l.parse cbs) ⟨.top, p, reads⟩ ⟨.top, p', reads'⟩ ∧
      AtTop R rest p' reads' ∧ Onward (l.bytes.length + 2) p reads p' reads' ∧
      p'.ctx.parserState = .headerFieldIn ∧ p'.calls = p.calls ++ [c] ∧
      LineCall l c ∧ p'.ctx.framing = p.ctx.framing :=
  first_reaches pf l (T := fun q c => LineCall l c ∧ q.ctx.framing = p.ctx.framing) l.noCrlf hfit
    hs hat fun q st behind hstate hstart hframing hfound hmem => by
      rw [← hframing]
      exact dispatch_line pf hcb l hstate hstart hfound hmem (by omega)

/-- **The head of a message.**  From its first byte to its empty line, for
every way the bytes may be cut into reads. -/
theorem head_stores (hcb : cbs.Succeeding) (l : FirstLine) (hs : List Header)
    (hfitl : (l.bytes.length : Int) + 1 + R ≤ intMax)
    (hfit : ∀ h ∈ hs, (h.bytes.length : Int) + 1 + R ≤ intMax)
    (hst : p.ctx.parserState = .start)
    (hat : Arrives R (headBytes l hs ++ CR :: LF :: rest) p.inp reads) :
    ∃ p' reads' c cs, Reaches (loopStep pf l.parse cbs) ⟨.top, p, reads⟩ ⟨.dispatch, p', reads'⟩ ∧
      BlankHere R (p.inp.pos.toNat + (headBytes l hs).length) rest p.inp reads p' reads' ∧
      p'.ctx.framing = storedFrom p.ctx.framing hs ∧
      p'.calls = p.calls ++ c :: cs ∧ LineCall l c ∧ List.Forall₂ HeaderCall hs cs := by
  have hat₀ : Arrives R (l.bytes ++ CR :: LF :: (headerBytes hs ++ CR :: LF :: rest)) p.inp
      reads := by
    simpa [headBytes, crlf] using hat
  have h0 := hat.pos_nonneg
  obtain ⟨p₁, reads₁, c, hr₁, hat₁, hon₁, hst₁, hcalls₁, hline, hfr₁⟩ :=
    line_reaches pf hcb l hfitl hst hat₀
  obtain ⟨p₂, reads₂, hdone⟩ := headers_done pf l.parse hcb hs hfit hst₁ hat₁
  obtain ⟨cs, hcs, hall⟩ := hdone.calls
  obtain ⟨p₃, reads₃, hr₃, hblank, hfr₃, hcalls₃⟩ :=
    blank_reaches pf l.parse cbs hdone.state hdone.atTop (by omega)
  have hlen : (headBytes l hs).length = l.bytes.length + 2 + (headerBytes hs).length := by
    simp [headBytes, crlf]; omega
  have hon := hon₁.trans hdone.onward
  have hpos := hon.pos
  have hb : p₂.inp.pos.toNat = p.inp.pos.toNat + (headBytes l hs).length := by
    rw [hlen]; omega
  refine ⟨p₃, reads₃, c, cs, hr₁.trans (hdone.reaches.trans hr₃), ?_, ?_, ?_, hline, hall⟩
  · rw [hb] at hblank
    refine ⟨hblank.state, hblank.start, hblank.found, hblank.stream, hblank.complete,
      hblank.bounded, hblank.delivers, ?_, ?_, ?_⟩
    · rw [hblank.pos]
      simp only [hon.cuts _ (show p₂.inp.pos <
        ((p.inp.pos.toNat + (headBytes l hs).length : Nat) : Int) + 1 by omega)]
    · intro m hm
      rw [hblank.cuts m hm, hon.cuts m (by omega)]
    · intro k m hk hm
      rw [hblank.view k m hk hm, hon.view k m (by omega) (by omega)]
  · rw [hfr₃, hdone.framing, hfr₁]
  · rw [hcalls₃, hcs, hcalls₁]
    simp

theorem head_reaches (hcb : cbs.Succeeding) (l : FirstLine) (hs : List Header)
    (hok : ∀ h ∈ hs, h.LengthOk) (hfitl : (l.bytes.length : Int) + 1 + R ≤ intMax)
    (hfit : ∀ h ∈ hs, (h.bytes.length : Int) + 1 + R ≤ intMax)
    (hst : p.ctx.parserState = .start)
    (hat : Arrives R (headBytes l hs ++ CR :: LF :: rest) p.inp reads) :
    ∃ p' reads' c cs, Reaches (loopStep pf l.parse cbs) ⟨.top, p, reads⟩ ⟨.dispatch, p', reads'⟩ ∧
      BlankHere R (p.inp.pos.toNat + (headBytes l hs).length) rest p.inp reads p' reads' ∧
      p'.ctx.framing = framingFrom p.ctx.framing hs ∧
      p'.calls = p.calls ++ c :: cs ∧ LineCall l c ∧ List.Forall₂ HeaderCall hs cs := by
  rw [← storedFrom_of_ok hok]
  exact head_stores pf hcb l hs hfitl hfit hst hat

end

end MnHttp
