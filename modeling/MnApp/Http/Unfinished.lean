/-
# `MnApp.Http.Unfinished` — a chunked body that breaks off

A text is followed by the end of the input, and `process_body` takes it apart
as a chunked body, strict or not.  It notices that something is missing when
it waits for a byte, and there are only three places where it does: inside a
size line, behind a size line, and inside the data of a chunk.  It does not
wait for the CR LF behind the data: the two bytes are skipped, there or not.

`Unfinished` lists the texts that end in one of these places.  On a prefix of
a well-formed body this is so exactly when two bytes or more are missing
(`unfinished_prefix`): without the last byte alone the body counts as
complete.

    `Awaits`         where the parser is in such a text
    `Awaits.iter`    what one iteration does to it
    `InBody.stops`   so the call ends, and with
                     `MNHTTP_PARSE_CONSUME_DATA_ERROR` if the text is unfinished

The converse depends on what the memory behind the data holds.  An empty size
line is taken for a 0 when no number stands behind it, and `strtol` looks for
one beyond the end of the data.  Where a figure stands there, which is what
the proposition `L` below is for, only an unfinished text ends like that.
-/
import MnApp.Http.ChunkedFraming
import MnApp.Http.Termination

namespace MnHttp

open CLib Loop

/-! ## Texts -/

/-- The line is taken for a size, whatever stands behind it. -/
def Accepts (line : List UInt8) : Prop :=
  line ≠ [] ∧ (strtol (line ++ crlf) 16).len = line.length ∧
    0 ≤ toInt (strtol (line ++ crlf) 16).val

/-- The text breaks off where the parser waits for more. -/
inductive Unfinished : List UInt8 → Prop
  | line {text : List UInt8} (none : firstCrlf text = none) : Unfinished text
  | short {line more : List UInt8} (noCrlf : NoCrlf line) (size : Accepts line)
      (le : more.length ≤ sizeOf line) : Unfinished (line ++ CR :: LF :: more)
  | chunk {line more : List UInt8} (noCrlf : NoCrlf line) (size : Accepts line)
      (pos : 0 < sizeOf line) (rest : Unfinished ((more.drop (sizeOf line)).drop 2)) :
      Unfinished (line ++ CR :: LF :: more)

section
variable {line more behind : List UInt8}

theorem unfinished_iff (hl : NoCrlf line) : Unfinished (line ++ CR :: LF :: more) ↔
    Accepts line ∧ (more.length ≤ sizeOf line ∨
      0 < sizeOf line ∧ Unfinished ((more.drop (sizeOf line)).drop 2)) := by
  constructor
  · intro h
    generalize htext : line ++ CR :: LF :: more = text at h
    cases h with
    | line none =>
        rw [← htext, firstCrlf_line hl] at none
        cases none
    | short hl' size le =>
        obtain ⟨rfl, rfl⟩ := line_unique hl hl' htext
        exact ⟨size, .inl le⟩
    | chunk hl' size pos rest =>
        obtain ⟨rfl, rfl⟩ := line_unique hl hl' htext
        exact ⟨size, .inr ⟨pos, rest⟩⟩
  · rintro ⟨size, le | ⟨pos, rest⟩⟩
    · exact .short hl size le
    · exact .chunk hl size pos rest

/-- What `strtol` makes of a line does not depend on what stands behind it, if
it takes the whole line. -/
theorem accepts_iff (hne : line ≠ []) : Accepts line ↔
    (strtol (line ++ CR :: LF :: behind) 16).len = line.length ∧
      0 ≤ toInt (strtol (line ++ CR :: LF :: behind) 16).val := by
  have hcrlf : line ++ crlf = line ++ CR :: [LF] := rfl
  unfold Accepts
  rw [hcrlf]
  constructor
  · rintro ⟨-, hlen, hval⟩
    rw [strtol_congr (l := [LF]) hne (by decide) (by decide) hlen]
    exact ⟨hlen, hval⟩
  · rintro ⟨hlen, hval⟩
    rw [strtol_congr (l := LF :: behind) hne (by decide) (by decide) hlen]
    exact ⟨hne, hlen, hval⟩

theorem prefix_line {text after : List UInt8} (hl : NoCrlf line)
    (h : text <+: line ++ CR :: LF :: after) :
    (firstCrlf text = none ∧ text.length ≤ line.length + 1) ∨
      ∃ more, text = line ++ CR :: LF :: more ∧ more <+: after := by
  have htake := List.prefix_iff_eq_take.mp h
  have hfirst := firstCrlf_take hl after text.length
  rw [← htake] at hfirst
  by_cases hc : line.length + 2 ≤ text.length
  · right
    obtain ⟨n, hn⟩ := Nat.exists_eq_add_of_le hc
    have hsplit : line ++ CR :: LF :: after = (line ++ [CR, LF]) ++ after := by simp
    refine ⟨after.take n, ?_, List.take_prefix _ _⟩
    rw [hn, hsplit, List.take_append, List.take_of_length_le (by simp)] at htake
    rw [htake]
    simp
  · rw [if_neg hc] at hfirst
    exact .inl ⟨hfirst, by omega⟩

end

theorem SizeText.size {line : List UInt8} {v : Nat} (h : SizeText line v)
    (hv : (v : Int) ≤ intMax) : Accepts line ∧ sizeOf line = v := by
  have hnum := strtol_digits [LF] h.ne h.digits (b := CR) (by decide) (by decide)
    (by rw [h.value]; unfold intMax at hv; unfold longMax; omega)
  have hint : toInt (v : Int) = v := toInt_of_le (by omega) hv
  refine ⟨⟨h.ne, ?_⟩, ?_⟩
  · rw [show line ++ crlf = line ++ CR :: [LF] from rfl, hnum, h.value]
    exact ⟨rfl, by rw [hint]; omega⟩
  · rw [sizeOf_digits h.ne h.digits (by rw [h.value]; exact hv), h.value]

theorem prefix_drop {a b : List UInt8} (h : a <+: b) (n : Nat) : a.drop n <+: b.drop n := by
  obtain ⟨t, rfl⟩ := h
  rw [List.drop_append]
  exact List.prefix_append _ _

theorem chunkedBytes_length (cs : List Chunk) : 5 ≤ (chunkedBytes cs).length := by
  simp only [chunkedBytes, List.length_append]
  exact Nat.le_add_left 5 _

/-- **A prefix of a chunked body is unfinished exactly when two bytes or more
are missing.** -/
theorem unfinished_prefix : ∀ {cs : List Chunk} {text : List UInt8},
    (∀ c ∈ cs, (c.data.length : Int) ≤ intMax) → text <+: chunkedBytes cs →
    (Unfinished text ↔ text.length + 2 ≤ (chunkedBytes cs).length) := by
  intro cs
  induction cs with
  | nil =>
      intro text _ h
      rcases prefix_line sizeText_zero.noCrlf h with ⟨hnone, hlen⟩ | ⟨more, rfl, hmore⟩
      · exact iff_of_true (.line hnone) (by
          have h1 : (ascii "0").length = 1 := rfl
          have h5 : (chunkedBytes []).length = 5 := rfl
          omega)
      · obtain ⟨hacc, hsize⟩ := sizeText_zero.size (by decide)
        rw [unfinished_iff sizeText_zero.noCrlf, hsize]
        simp only [hacc, true_and, Nat.lt_irrefl, false_and, or_false, List.length_append,
          List.length_cons]
        have h1 : (ascii "0").length = 1 := rfl
        have h5 : (chunkedBytes []).length = 5 := rfl
        omega
  | cons c cs ih =>
      intro text hmax h
      have hbytes : chunkedBytes (c :: cs) =
          c.size ++ CR :: LF :: (c.data ++ CR :: LF :: chunkedBytes cs) := by
        rw [chunkedBytes_eq]
        simp [firstSize, afterSize, crlf]
      have hrest := chunkedBytes_length cs
      have htotal : (chunkedBytes (c :: cs)).length =
          c.size.length + c.data.length + (chunkedBytes cs).length + 4 := by
        rw [hbytes]
        simp only [List.length_append, List.length_cons]
        omega
      rw [hbytes] at h
      rcases prefix_line c.sizeText.noCrlf h with ⟨hnone, hlen⟩ | ⟨more, rfl, hmore⟩
      · exact iff_of_true (.line hnone) (by omega)
      · obtain ⟨hacc, hsize⟩ := c.sizeText.size (hmax c List.mem_cons_self)
        have hpos : 0 < c.data.length := List.length_pos_iff.mpr c.data_ne
        have hdrop : (more.drop c.data.length).drop 2 <+: chunkedBytes cs := by
          have := prefix_drop (prefix_drop hmore c.data.length) 2
          rwa [List.drop_left] at this
        have hlen : ((more.drop c.data.length).drop 2).length =
            more.length - c.data.length - 2 := by
          rw [List.length_drop, List.length_drop]
        rw [unfinished_iff c.sizeText.noCrlf, hsize,
          ih (fun x hx => hmax x (List.mem_cons_of_mem _ hx)) hdrop, hlen, htotal]
        simp only [hacc, hpos, true_and, List.length_append, List.length_cons]
        omega

/-- The size lines that are read are short enough to be scanned with a read
behind them. -/
inductive SizesFit (R : Nat) : List UInt8 → Prop
  | none {text : List UInt8} (none : firstCrlf text = none) : SizesFit R text
  | line {line more : List UInt8} (noCrlf : NoCrlf line)
      (fits : (line.length : Int) + 1 + R ≤ intMax)
      (rest : Accepts line → SizesFit R ((more.drop (sizeOf line)).drop 2)) :
      SizesFit R (line ++ CR :: LF :: more)

theorem SizesFit.first {R : Nat} {line more : List UInt8}
    (h : SizesFit R (line ++ CR :: LF :: more)) (hl : NoCrlf line) :
    (line.length : Int) + 1 + R ≤ intMax ∧
      (Accepts line → SizesFit R ((more.drop (sizeOf line)).drop 2)) := by
  generalize htext : line ++ CR :: LF :: more = text at h
  cases h with
  | none none =>
      rw [← htext, firstCrlf_line hl] at none
      cases none
  | line hl' fits rest =>
      obtain ⟨rfl, rfl⟩ := line_unique hl hl' htext
      exact ⟨fits, rest⟩

theorem sizesFit_prefix {R : Nat} : ∀ {cs : List Chunk} {text : List UInt8}, ChunksFit R cs →
    (∀ c ∈ cs, (c.data.length : Int) ≤ intMax) → text <+: chunkedBytes cs → SizesFit R text := by
  intro cs
  induction cs with
  | nil =>
      intro text hfit _ h
      rcases prefix_line sizeText_zero.noCrlf h with ⟨hnone, -⟩ | ⟨more, rfl, hmore⟩
      · exact .none hnone
      · refine .line sizeText_zero.noCrlf hfit.first fun _ => .none ?_
        have hlen : more.length ≤ 2 := hmore.length_le
        rw [(sizeText_zero.size (by decide)).2, List.drop_zero, List.drop_eq_nil_of_le hlen]
        rfl
  | cons c cs ih =>
      intro text hfit hmax h
      rw [chunkedBytes_eq] at h
      rcases prefix_line c.sizeText.noCrlf h with ⟨hnone, -⟩ | ⟨more, rfl, hmore⟩
      · exact .none hnone
      · refine .line c.sizeText.noCrlf hfit.first fun _ => ?_
        rw [(c.sizeText.size (hmax c List.mem_cons_self)).2]
        refine ih hfit.tail (fun x hx => hmax x (List.mem_cons_of_mem _ hx)) ?_
        have := prefix_drop (prefix_drop hmore c.data.length) 2
        simpa [afterSize, crlf] using this

/-! ## Reading such a text -/

/-- Before a size line, or inside the data behind one; `text` is the text from
the start of the line on. -/
inductive Awaits (R : Nat) (L : Prop) (text : List UInt8) (p : Parser) (reads : List Read) : Prop
  | size (st : Nat) (z : Int) (at_ : SizeAt st z p) (le : (st : Int) ≤ p.inp.eod + 2)
      (stream : (p.inp.data ++ pending reads).drop st = text)
      (room : ∀ line more, text = line ++ CR :: LF :: more → NoCrlf line →
        Room R line.length st p.inp)
  | data (line more : List UInt8) (b v : Nat) (z : Int) (eq : text = line ++ CR :: LF :: more)
      (noCrlf : NoCrlf line) (accepts : line ≠ [] → Accepts line)
      (behind : L → line = [] → more ≠ []) (value : sizeOf line = v) (at_ : DataAt b v z p)
      (le : p.inp.pos ≤ p.inp.eod) (stream : (p.inp.data ++ pending reads).drop b = more)
      (room : p.inp.eod - p.inp.pos ≤ R)

section
variable {R : Nat} {L : Prop} {text : List UInt8} {p : Parser} {reads : List Read}

theorem Awaits.consume {bs slack : List UInt8} (h : Awaits R L text p (.bytes bs slack :: reads))
    (hbs : bs.length ≤ R) (hmore : p.inp.eod ≤ p.inp.pos) :
    Awaits R L text { p with inp := p.inp.consume bs slack } reads := by
  have heod : (p.inp.consume bs slack).eod = p.inp.eod + bs.length := Stream.eod_consume _ _ _
  have hpend : ∀ n, ((p.inp.consume bs slack).data ++ pending reads).drop n =
      (p.inp.data ++ pending (.bytes bs slack :: reads)).drop n := by
    intro n
    simp [Read.payload]
  cases h with
  | size st z at_ le stream room =>
      refine .size st z ⟨at_.chunked, at_.state, at_.start, at_.bodysz⟩
        (by simp only [heod]; omega) ((hpend st).trans stream)
        fun line more heq hl => (room line more heq hl).consume hbs hmore
  | data line more b v z eq noCrlf accepts behind value at_ le stream room =>
      refine .data line more b v z eq noCrlf accepts behind value
        ⟨at_.chunked, at_.state, at_.size, at_.start, at_.stop, at_.le_pos, at_.pos_le, at_.bodysz⟩
        ?_ ((hpend b).trans stream) ?_
      · show p.inp.pos ≤ (p.inp.consume bs slack).eod
        omega
      · show (p.inp.consume bs slack).eod - p.inp.pos ≤ R
        omega

/-- What an iteration makes of it: it stays as unfinished as it was, and one
that is unfinished is not left. -/
def Leaves (R : Nat) (L : Prop) (text : List UInt8) (reads : List Read) : Iter → Prop
  | .again q => ∃ text', Awaits R L text' q reads ∧ SizesFit R text' ∧
      (Unfinished text ↔ Unfinished text')
  | .ret r _ => r ≠ .consumeDataError ∧ ¬ Unfinished text

variable (rc : Recycler) (cb : Option Callback) (k : Nat) {st b v : Nat} {z : Int}

theorem size_line_iter {line more : List UInt8} (hat : SizeAt st z p)
    (hle : (st : Int) ≤ p.inp.eod + 2)
    (hstream : (p.inp.data ++ pending reads).drop st = line ++ CR :: LF :: more)
    (hroom : Room R line.length st p.inp) (hl : NoCrlf line)
    (hfits : SizesFit R (line ++ CR :: LF :: more))
    (hf : findcrlf (p.inp.mem st) (toInt (p.inp.eod - st)) = some line.length)
    (hloud : L → p.inp.slack = [49]) :
    Leaves R L (line ++ CR :: LF :: more) reads (bodyIter rc cb k p) := by
  obtain ⟨-, hcomplete⟩ := findcrlf_some hl hstream hle hf
  obtain ⟨behind, hmem⟩ := mem_of_complete hstream hcomplete
  by_cases hacc : (strtol (p.inp.mem st) 16).len = line.length ∧
      0 ≤ toInt (strtol (p.inp.mem st) 16).val
  · obtain ⟨hlen, hval⟩ := hacc
    obtain ⟨v, hv⟩ := Int.eq_ofNat_of_zero_le hval
    obtain ⟨q, hiter, hdata, -, hinp, -⟩ := bodyIter_size_accept rc cb hat k hf hlen hv
    have hpos : q.inp.pos = (st : Int) + line.length + 2 := by
      rw [hinp, Stream.pos_advance]; omega
    have heod : q.inp.eod = p.inp.eod := by rw [hinp]; rfl
    have hdata' : q.inp.data = p.inp.data := by rw [hinp]; rfl
    have hr := hroom.eod_le
    rw [hiter]
    refine ⟨_, .data line more _ v _ rfl hl (fun hne => ?_) (fun hL hnil hmore => ?_) ?_ hdata
      (by omega) ?_ (by omega), hfits, Iff.rfl⟩
    · rw [hmem] at hlen hval
      exact (accepts_iff hne).mpr ⟨hlen, hval⟩
    · -- nothing stands behind the line but the figure
      subst hnil hmore
      obtain ⟨behind', hd, hnone⟩ := data_of_complete hstream hcomplete
      rw [(List.append_eq_nil_iff.mp hnone.symm).1] at hd
      have hm := mem_eq_of_drop hd (by simp)
      rw [hm, hloud hL] at hlen
      exact absurd hlen (by decide)
    · rw [hmem] at hlen hv
      exact sizeOf_eq hlen hv
    · rw [hdata', Nat.add_assoc, ← List.drop_drop, hstream,
        show line ++ CR :: LF :: more = (line ++ [CR, LF]) ++ more by simp,
        List.drop_left' (by simp)]
  · have hbad : (strtol (p.inp.mem st) 16).len ≠ line.length ∨
        toInt (strtol (p.inp.mem st) 16).val < 0 := by
      rw [← Int.not_le]
      exact Decidable.not_and_iff_or_not.mp hacc
    obtain ⟨q, hiter⟩ := bodyIter_size_reject rc cb hat k hf hbad
    rw [hiter]
    refine ⟨by simp, fun hun => hacc ?_⟩
    have hline := ((unfinished_iff hl).mp hun).1
    rw [hmem]
    exact (accepts_iff hline.1).mp hline

theorem data_bytes_iter {line more : List UInt8} (hcb : ∃ f : Callback, cb = some f ∧
      ∀ cs c s, f cs c s = 0) (hR : (R : Int) ≤ intMax) (hl : NoCrlf line)
    (hacc : line ≠ [] → Accepts line) (hbehind : L → line = [] → more ≠ [])
    (hv : sizeOf line = v) (hat : DataAt b v z p)
    (hle : p.inp.pos < p.inp.eod) (hstream : (p.inp.data ++ pending reads).drop b = more)
    (hroom : p.inp.eod - p.inp.pos ≤ R) (hfits : SizesFit R (line ++ CR :: LF :: more)) :
    Leaves R L (line ++ CR :: LF :: more) reads (bodyIter rc cb k p) := by
  have hmax : (v : Int) ≤ intMax := hv ▸ sizeOf_le line
  have hpos := hat.pos_le
  by_cases hlt : p.inp.pos < b + v
  · obtain ⟨q, hiter, hdata, -, hinp, -⟩ :=
      bodyIter_data_more rc cb hat k hlt hmax (by omega) (by omega)
    have hqpos : q.inp.pos = min ((b : Int) + v) p.inp.eod := by
      rw [hinp, Stream.pos_advance]; omega
    have heod : q.inp.eod = p.inp.eod := by rw [hinp]; rfl
    have hdata' : q.inp.data = p.inp.data := by rw [hinp]; rfl
    rw [hiter]
    exact ⟨_, .data line more b v z rfl hl hacc hbehind hv hdata (by omega)
      (by rw [hdata']; exact hstream) (by omega), hfits, Iff.rfl⟩
  · -- a byte stands behind the data, so it was not short
    have hend : p.inp.pos = b + v := by omega
    have hlong : ¬ more.length ≤ v := by
      rw [← hstream, List.length_drop, List.length_append]
      unfold Stream.eod at hle
      omega
    obtain ⟨q, st, hiter, hskip, -⟩ :=
      (bodyIter_data_end rc cb hat k hend).2 (by rw [callback_ok hcb])
    have heod := hskip.eod
    have hqpos := hskip.pos
    have hrest : (q.inp.data ++ pending reads).drop st = (more.drop v).drop 2 := by
      rw [hskip.stream, List.drop_drop, ← hstream, List.drop_drop]
      congr 1
    rw [hiter]
    by_cases hv0 : 0 < v
    · have hne : line ≠ [] := by
        rintro rfl
        rw [show sizeOf [] = 0 by decide] at hv
        omega
      have hnext := (hfits.first hl).2 (hacc hne)
      rw [hv] at hnext
      rw [if_pos hv0]
      refine ⟨_, .size st z hskip.size (by omega) hrest fun _ _ _ _ => ⟨by omega, by omega⟩, hnext,
        ?_⟩
      rw [unfinished_iff hl, hv]
      simp only [hacc hne, hlong, hv0, true_and, false_or]
    · rw [if_neg hv0]
      refine ⟨by simp, fun hun => ?_⟩
      rcases ((unfinished_iff hl).mp hun).2 with h | ⟨h, -⟩
      · exact hlong (hv ▸ h)
      · exact hv0 (hv ▸ h)

/-- **What one iteration does**, if it does not come without a byte into the
data. -/
theorem Awaits.iter (hcb : ∃ f : Callback, cb = some f ∧ ∀ cs c s, f cs c s = 0)
    (hR : (R : Int) ≤ intMax) (h : Awaits R L text p reads) (hfits : SizesFit R text)
    (hunread : p.ctx.chunkParserState = .data → p.inp.pos < p.inp.eod)
    (hloud : L → p.inp.slack = [49]) : Leaves R L text reads (bodyIter rc cb k p) := by
  cases h with
  | size st z at_ le stream room =>
      cases hf : findcrlf (p.inp.mem st) (toInt (p.inp.eod - st)) with
      | none =>
          rw [bodyIter_size_wait rc cb at_ k hf]
          refine ⟨text, .size st z ⟨at_.chunked, at_.state, at_.start, at_.bodysz⟩ le stream ?_,
            hfits, Iff.rfl⟩
          intro line more heq hl
          exact ((room line more heq hl).wait ((heq ▸ hfits).first hl).1 hl (stream.trans heq) le
            hf).2
      | some n =>
          obtain ⟨hst, line, behind, hdata, hl, hlen⟩ := scan_some (s := p.inp) (by omega) le hf
          have heq : text = line ++ CR :: LF :: (behind ++ pending reads) := by
            rw [Int.toNat_natCast] at hdata
            rw [← stream, List.drop_append_of_le_length (by unfold Stream.eod at hst; omega), hdata]
            simp
          subst heq hlen
          exact size_line_iter rc cb k at_ le stream (room _ _ rfl hl) hl hfits hf hloud
  | data line more b v z eq noCrlf accepts behind value at_ le stream room =>
      subst eq
      exact data_bytes_iter rc cb k hcb hR noCrlf accepts behind value at_ (hunread at_.state)
        stream room hfits

end

/-! ## To the end of the input -/

/-- A figure stands behind the data, now and after each read. -/
def Loud (s : Stream) (reads : List Read) : Prop :=
  s.slack = [49] ∧ ∀ bs slack, .bytes bs slack ∈ reads → slack = [49]

theorem Loud.consume {s : Stream} {bs slack : List UInt8} {reads : List Read}
    (h : Loud s (.bytes bs slack :: reads)) : Loud (s.consume bs slack) reads :=
  ⟨h.2 bs slack List.mem_cons_self, fun b sl hr => h.2 b sl (List.mem_cons_of_mem _ hr)⟩

theorem bodyIter_slack {cb : Option Callback} {k : Nat} {p q : Parser}
    (h : bodyIter .keep cb k p = .again q) : q.inp.slack = p.inp.slack := by
  have hcall : ∀ x : Parser, (x.callback .body cb).2.inp.slack = x.inp.slack := fun x => by
    rw [(callback_frame .body cb).2]
  have hslack : (processBody .keep cb p).2.inp.slack = p.inp.slack := by
    cases processBody_frame .keep cb p with
    | read on => exact on.slack
    | call on after =>
        rw [after, hcall]
        exact on.slack
    | recycle on behind after =>
        rw [after]
        exact behind.slack.trans ((hcall _).trans on.slack)
  unfold bodyIter at h
  split at h
  · rename_i r heq
    cases h
    rw [heq] at hslack
    exact hslack
  · cases h
  · cases h

/-- In the body of a message that breaks off. -/
structure InBody (R : Nat) (L : Prop) (text : List UInt8) (t : LoopState) : Prop where
  state : t.par.ctx.parserState = .body
  awaits : Awaits R L text t.par t.reads
  reads : EndsWith parseEof t.reads
  small : SmallReads R t.reads
  fits : SizesFit R text
  unread : t.pc = .dispatch → t.par.ctx.chunkParserState = .data → t.par.inp.pos < t.par.inp.eod
  loud : L → Loud t.par.inp t.reads

section
variable {R : Nat} {L : Prop} {text : List UInt8} {p : Parser} {reads : List Read}

/-- In `PS_CHUNK_DATA` what is there reaches to `pos` at least. -/
theorem Awaits.pos_le (h : Awaits R L text p reads) (hd : p.ctx.chunkParserState = .data) :
    p.inp.pos ≤ p.inp.eod ∧ p.inp.eod - p.inp.pos ≤ R := by
  cases h with
  | size st z at_ => cases at_.state.symm.trans hd
  | data line more b v z eq noCrlf accepts behind value at_ le stream room => exact ⟨le, room⟩

theorem Awaits.chunkPlaced (h : Awaits R L text p reads) : ChunkPlaced p := by
  cases h with
  | size st z at_ le =>
      have hstart := at_.start
      exact .of_size at_.state (by omega) (by omega)
  | data line more b v z eq noCrlf accepts behind value at_ le =>
      have hpos := at_.le_pos
      exact .of_data at_.state (by omega) le

theorem Awaits.unfinished (h : Awaits R L text p reads) (hnone : pending reads = [])
    (hmore : p.inp.eod ≤ p.inp.pos) (hL : L) : Unfinished text := by
  cases h with
  | size st z at_ le stream room =>
      cases hf : firstCrlf text with
      | none => exact .line hf
      | some n =>
          -- the line would have been found
          obtain ⟨more, heq, -, hl⟩ := firstCrlf_eq_some hf
          have hpos := (room _ more heq hl).pos_le
          have hlen := congrArg List.length heq
          rw [List.length_append, ← stream, hnone, List.append_nil, List.length_drop] at hlen
          simp only [List.length_cons] at hlen
          unfold Stream.eod at hmore
          rw [← stream, hnone, List.append_nil] at hpos
          omega
  | data line more b v z eq noCrlf accepts behind value at_ le stream room =>
      have hpos := at_.pos_le
      have hlo := at_.le_pos
      have hlen : more.length ≤ v := by
        rw [← stream, hnone, List.append_nil, List.length_drop]
        unfold Stream.eod at hmore
        omega
      by_cases hne : line = []
      · have hv : v = 0 := by rw [← value, hne]; decide
        exact absurd (List.length_eq_zero_iff.mp (by omega)) (behind hL hne)
      · rw [eq]
        exact .short noCrlf (accepts hne) (by omega)

variable {pf : Platform} {l : FirstLine} {cbs : Callbacks} {t t' : LoopState}

theorem InBody.step (hcb : cbs.Succeeding) (hR : (R : Int) ≤ intMax)
    (hkeep : L → pf.recycler = .keep) (h : InBody R L text t)
    (hs : loopStep pf l.parse cbs t = .again t') :
    ∃ text', InBody R L text' t' ∧ (Unfinished text ↔ Unfinished text') := by
  cases loopStep_again_iff.mp hs with
  | @read p bs slack reads hmore =>
      obtain ⟨hne, hreads⟩ := h.reads.tail
      have hlen : 0 < bs.length := List.length_pos_iff.mpr hne
      have hbs : bs.length ≤ R := h.small _ List.mem_cons_self
      refine ⟨text, ⟨h.state, h.awaits.consume hbs hmore, hreads, h.small.tail, h.fits, ?_,
        fun hL => (h.loud hL).consume⟩, Iff.rfl⟩
      intro _ hd
      have hle : p.inp.pos ≤ p.inp.eod := (h.awaits.pos_le hd).1
      simp only [Stream.pos_consume, Stream.eod_consume]
      omega
  | look hlt =>
      exact ⟨text, ⟨h.state, h.awaits, h.reads, h.small, h.fits, fun _ _ => hlt, h.loud⟩, Iff.rfl⟩
  | @pass p q reads hagain =>
      rw [dispatch_body h.state] at hagain
      have hleaves := h.awaits.iter pf.recycler cbs.body 13 hcb.body hR h.fits (h.unread rfl)
        fun hL => (h.loud hL).1
      rw [hagain] at hleaves
      obtain ⟨text', hawaits, hfits, hiff⟩ := hleaves
      refine ⟨text', ⟨bodyIter_state hagain, hawaits, h.reads, h.small, hfits,
        fun hpc => (by cases hpc), fun hL => ?_⟩, hiff⟩
      rw [hkeep hL] at hagain
      exact ⟨(bodyIter_slack hagain).trans (h.loud hL).1, (h.loud hL).2⟩

/-- How the call ends there. -/
structure EndsBody (L : Prop) (text : List UInt8) (r : Res) : Prop where
  detected : Unfinished text → r = .consumeDataError
  only : L → r = .consumeDataError → Unfinished text

theorem InBody.done (hcb : cbs.Succeeding) (hR : (R : Int) ≤ intMax) {out : Outcome}
    (h : InBody R L text t) (hs : loopStep pf l.parse cbs t = .done out) :
    ∃ r q rest, out = .returned r q rest ∧ EndsBody L text r := by
  cases loopStep_done_iff.mp hs with
  | blocked =>
      obtain ⟨bs, heq, -⟩ := h.reads
      exact absurd heq.symm (by simp)
  | @fail p lres reads hmore =>
      have hstate : ¬ (lres = parseEof ∧ p.ctx.parserState = .start) := by
        rintro ⟨-, hst⟩
        cases h.state.symm.trans hst
      have hlast : pending (.fail lres :: reads) = [] := by
        obtain ⟨bs, heq, hbs⟩ := h.reads
        cases bs with
        | nil => cases heq; rfl
        | cons r bs =>
            cases heq
            obtain ⟨b, slack, hb, -⟩ := hbs _ List.mem_cons_self
            cases hb
      refine ⟨_, _, _, rfl, fun _ => if_neg hstate, fun hL _ => ?_⟩
      exact h.awaits.unfinished hlast hmore hL
  | @ret p q r reads hret =>
      rw [dispatch_body h.state] at hret
      have hleaves := h.awaits.iter pf.recycler cbs.body 13 hcb.body hR h.fits (h.unread rfl)
        fun hL => (h.loud hL).1
      rw [hret] at hleaves
      exact ⟨r, q, reads, rfl, fun hun => absurd hun hleaves.2, fun _ hr => absurd hr hleaves.1⟩

/-- **From the top of an iteration the call ends, and with an error if the text
is unfinished.** -/
theorem InBody.stops (hcb : cbs.Succeeding) (hR : (R : Int) ≤ intMax)
    (hkeep : L → pf.recycler = .keep) (h : InBody R L text ⟨.top, p, reads⟩) :
    ∃ r q rest, Returns (loopStep pf l.parse cbs) ⟨.top, p, reads⟩ (.returned r q rest) ∧
      EndsBody L text r := by
  have hfits : ChunkDataFits pf l cbs ⟨.top, p, reads⟩ := by
    intro p' rest hreach hd _
    obtain ⟨text', hin⟩ := hreach.invariant (I := fun t => ∃ text', InBody R L text' t)
      (fun _ _ ⟨_, ht⟩ hs => (ht.step hcb hR hkeep hs).imp fun _ h => h.1) ⟨text, h⟩
    have hroom : p'.inp.eod - p'.inp.pos ≤ R := (hin.awaits.pos_le hd.data).2
    omega
  have hlive : Live pf l cbs parseEof ⟨.top, p, reads⟩ :=
    ⟨.body h.state h.awaits.chunkPlaced, h.reads, hfits, fun hpc => by cases hpc⟩
  obtain ⟨out, hout⟩ := returns_of_decreasing wellFounded_lt measure
    (fun _ _ ht hs => Live.step ht hs) hlive
  obtain ⟨t, ⟨text', hin, hiff⟩, hdone⟩ := hout.invariant
    (I := fun t => ∃ text', InBody R L text' t ∧ (Unfinished text ↔ Unfinished text'))
    (fun _ _ ⟨_, ht, hiff⟩ hs => (ht.step hcb hR hkeep hs).imp fun _ h => ⟨h.1, hiff.trans h.2⟩)
    ⟨text, h, Iff.rfl⟩
  obtain ⟨r, q, rest, rfl, hend⟩ := hin.done hcb hR hdone
  exact ⟨r, q, rest, hout, fun hun => hend.detected (hiff.mp hun),
    fun hL hr => hiff.mpr (hend.only hL hr)⟩

end

end MnHttp
