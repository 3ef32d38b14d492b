/-
# `MnApp.Http.ChunkText` — the text of a chunked body, as it is and as it is read

Two readings of one text.  The strict one is the grammar:

    (size CRLF data CRLF)*  '0'+  CRLF  CRLF

with hexadecimal digits and nothing else for a size, and exactly so many
bytes of data (`strictBytes`).  The other one is what `process_body` makes
of any text.  It takes the text apart into `pieces`: a line up to a CR LF,
as many bytes as `strtol` and a conversion to `int` make of that line, and
two bytes that nobody looks at; a piece without data is the last.

**Where they agree.**  A piece is `Clean` when its line is hexadecimal
digits of a value that fits in an `int` and the two bytes are CR LF.  For a
text that is read to its end, the readings agree exactly when all the pieces
are clean (`strict_iff`).  When the first byte of the text was lost, they
agree exactly when that was a `'0'` and the pieces of the rest are clean,
with one more line allowed: the empty rest of a `'0'` (`strict_iff_lost`).
-/
import MnApp.Http.Chunked

namespace MnHttp

open CLib

/-! ## Strict -/

/-- `'0'+`. -/
def Zeros (zs : List UInt8) : Prop := zs ≠ [] ∧ ∀ b ∈ zs, b = 48

/-- A chunked body by the grammar. -/
def strictBytes (cs : List Chunk) (zs : List UInt8) : List UInt8 :=
  cs.flatMap Chunk.bytes ++ (zs ++ crlf ++ crlf)

theorem strictBytes_nil (zs tail : List UInt8) :
    strictBytes [] zs ++ tail = zs ++ CR :: LF :: (CR :: LF :: tail) := by
  simp [strictBytes, crlf]

theorem strictBytes_cons (c : Chunk) (cs : List Chunk) (zs tail : List UInt8) :
    strictBytes (c :: cs) zs ++ tail =
      c.size ++ CR :: LF :: (c.data ++ CR :: LF :: (strictBytes cs zs ++ tail)) := by
  simp [strictBytes, Chunk.bytes, crlf]

/-! ## As it is read -/

/-- What the decoder makes of a size line. -/
def sizeOf (line : List UInt8) : Nat := (toInt (strtol (line ++ crlf) 16).val).toNat

/-- A size line, the data it announces, and the two bytes that are skipped. -/
structure Piece where
  line : List UInt8
  data : List UInt8
  skip : List UInt8
deriving DecidableEq, Repr

/-- The bytes that pieces take, each with its line end and the two bytes behind the data. -/
def span : List Piece → Nat
  | [] => 0
  | p :: ps => p.line.length + 2 + p.data.length + 2 + span ps

/-- A text, taken apart; the fuel is its length. -/
def piecesFuel : Nat → List UInt8 → List Piece
  | 0, _ => []
  | fuel + 1, text =>
      match firstCrlf text with
      | none => []
      | some n =>
          let line := text.take n
          let more := text.drop (n + 2)
          let v := sizeOf line
          ⟨line, more.take v, (more.drop v).take 2⟩ ::
            if v = 0 then [] else piecesFuel fuel ((more.drop v).drop 2)

/-- The pieces of a text. -/
def pieces (text : List UInt8) : List Piece := piecesFuel text.length text

/-- Hexadecimal digits and nothing else, of a value that fits in an `int`. -/
def Piece.SizeOk (p : Piece) : Prop :=
  p.line ≠ [] ∧ (∀ b ∈ p.line, isDigit 16 b = true) ∧ (ofDigits 16 p.line : Int) ≤ intMax

def Piece.Clean (p : Piece) : Prop := p.SizeOk ∧ p.skip = crlf

instance (p : Piece) : Decidable p.SizeOk := inferInstanceAs (Decidable (_ ∧ _ ∧ _))

instance (p : Piece) : Decidable p.Clean := inferInstanceAs (Decidable (_ ∧ _))

/-- A text is read to its end, and `tail` is left. -/
inductive Decoded : List UInt8 → List Piece → List UInt8 → Prop
  | last {line rest : List UInt8} : NoCrlf line → sizeOf line = 0 →
      Decoded (line ++ CR :: LF :: rest) [⟨line, [], rest.take 2⟩] (rest.drop 2)
  | chunk {line data rest tail : List UInt8} {ps : List Piece} : NoCrlf line →
      sizeOf line = data.length → data ≠ [] → Decoded (rest.drop 2) ps tail →
      Decoded (line ++ CR :: LF :: (data ++ rest)) (⟨line, data, rest.take 2⟩ :: ps) tail

/-! ## Lines -/

theorem firstCrlf_line {line : List UInt8} (h : NoCrlf line) (rest : List UInt8) :
    firstCrlf (line ++ CR :: LF :: rest) = some line.length := by
  have := firstCrlf_take h rest (line ++ CR :: LF :: rest).length
  rw [List.take_length, if_pos (by simp)] at this
  exact this

theorem line_unique {l l' r r' : List UInt8} (hl : NoCrlf l) (hl' : NoCrlf l')
    (h : l ++ CR :: LF :: r = l' ++ CR :: LF :: r') : l = l' ∧ r = r' := by
  have h1 := firstCrlf_line hl r
  rw [h, firstCrlf_line hl' r'] at h1
  obtain ⟨ha, hb⟩ := List.append_inj h (Option.some.inj h1).symm
  simp only [List.cons.injEq, true_and] at hb
  exact ⟨ha, hb⟩

theorem sizeOf_le (line : List UInt8) : (sizeOf line : Int) ≤ intMax := by
  have := (toInt_range (strtol (line ++ crlf) 16).val).2
  unfold sizeOf
  unfold intMax at *
  omega

/-- A line that the decoder accepts means the same whatever follows it. -/
theorem sizeOf_eq {line behind : List UInt8} {v : Nat}
    (hlen : (strtol (line ++ CR :: LF :: behind) 16).len = line.length)
    (hval : toInt (strtol (line ++ CR :: LF :: behind) 16).val = v) : sizeOf line = v := by
  unfold sizeOf
  by_cases hne : line = []
  · subst hne
    have h0 := strtol_val_of_len_zero hlen
    rw [h0] at hval
    have hv : v = 0 := by
      have : toInt 0 = 0 := by decide
      omega
    rw [hv]
    decide
  · rw [show crlf = CR :: [LF] from rfl,
      strtol_congr (l := LF :: behind) hne (by decide) (by decide) hlen, hval]
    exact Int.toNat_natCast v

theorem sizeOf_digits {line : List UInt8} (hne : line ≠ [])
    (hds : ∀ b ∈ line, isDigit 16 b = true) (hmax : (ofDigits 16 line : Int) ≤ intMax) :
    sizeOf line = ofDigits 16 line := by
  have hnum := strtol_digits [LF] hne hds (b := CR) (by decide) (by decide)
    (by unfold intMax at hmax; unfold longMax; omega)
  refine sizeOf_eq (show (strtol (line ++ [CR, LF]) 16).len = _ by rw [hnum]) ?_
  rw [hnum]
  exact toInt_of_le (show _ ≤ (ofDigits 16 line : Int) by omega) hmax

/-! ## Pieces -/

theorem piecesFuel_line {line : List UInt8} (h : NoCrlf line) (rest : List UInt8) (fuel : Nat) :
    piecesFuel (fuel + 1) (line ++ CR :: LF :: rest) =
      ⟨line, rest.take (sizeOf line), (rest.drop (sizeOf line)).take 2⟩ ::
        if sizeOf line = 0 then [] else piecesFuel fuel ((rest.drop (sizeOf line)).drop 2) := by
  have hdrop : (line ++ CR :: LF :: rest).drop (line.length + 2) = rest := by
    rw [← List.drop_drop, List.drop_left]
    rfl
  simp only [piecesFuel, firstCrlf_line h rest, List.take_left, hdrop]

theorem Decoded.piecesFuel_eq {text tail : List UInt8} {ps : List Piece}
    (h : Decoded text ps tail) : ∀ fuel, text.length ≤ fuel → piecesFuel fuel text = ps := by
  induction h with
  | @last line rest hl hv =>
      intro fuel hfuel
      cases fuel with
      | zero => simp at hfuel
      | succ fuel =>
          rw [piecesFuel_line hl, hv]
          rfl
  | @chunk line data rest tail ps hl hv hne _ ih =>
      intro fuel hfuel
      cases fuel with
      | zero => simp at hfuel
      | succ fuel =>
          have hpos : 0 < data.length := List.length_pos_iff.mpr hne
          rw [piecesFuel_line hl, hv, if_neg (by omega), List.take_left, List.drop_left,
            ih fuel (by simp at hfuel ⊢; omega)]

theorem Decoded.pieces_eq {text tail : List UInt8} {ps : List Piece}
    (h : Decoded text ps tail) : pieces text = ps := h.piecesFuel_eq _ (Nat.le_refl _)

theorem Decoded.text_ne_nil {text tail : List UInt8} {ps : List Piece}
    (h : Decoded text ps tail) : text ≠ [] := by
  cases h <;> simp

theorem Decoded.ne_nil {text tail : List UInt8} {ps : List Piece} (h : Decoded text ps tail) :
    text ≠ [] := by
  cases h <;> simp

/-! ## The two readings -/

/-- The text is in strict form, the data of its chunks is what was taken out
of it, and the same tail is left. -/
def StrictAs (text : List UInt8) (ps : List Piece) (tail : List UInt8) : Prop :=
  ∃ cs zs, Zeros zs ∧ text = strictBytes cs zs ++ tail ∧
    cs.map Chunk.data ++ [[]] = ps.map Piece.data

theorem Zeros.digits {zs : List UInt8} (h : Zeros zs) : ∀ b ∈ zs, isDigit 16 b = true := by
  intro b hb
  rw [h.2 b hb]
  decide

theorem Zeros.noCrlf {zs : List UInt8} (h : Zeros zs) : NoCrlf zs :=
  noCrlf_of_not_mem fun hc => isDigit_ne_CR (h.digits CR hc) rfl

theorem Zeros.value {zs : List UInt8} (h : ∀ b ∈ zs, b = 48) : ofDigits 16 zs = 0 := by
  induction zs with
  | nil => rfl
  | cons z zs ih =>
      rw [h z List.mem_cons_self, ofDigits_zero_cons]
      exact ih fun b hb => h b (List.mem_cons_of_mem _ hb)

theorem map_data_cons {cs : List Chunk} {d : List UInt8} {ds : List (List UInt8)} (hd : d ≠ [])
    (h : cs.map Chunk.data ++ [[]] = d :: ds) :
    ∃ c cs', cs = c :: cs' ∧ c.data = d ∧ cs'.map Chunk.data ++ [[]] = ds := by
  cases cs with
  | nil =>
      simp only [List.map_nil, List.nil_append, List.cons.injEq] at h
      exact absurd h.1.symm hd
  | cons c cs =>
      simp only [List.map_cons, List.cons_append, List.cons.injEq] at h
      exact ⟨c, cs, rfl, h.1, h.2⟩

theorem map_data_single {cs : List Chunk} (h : cs.map Chunk.data ++ [[]] = [[]]) : cs = [] := by
  cases cs with
  | nil => rfl
  | cons c cs => simp at h

theorem Decoded.clean {text tail : List UInt8} {ps : List Piece} (h : Decoded text ps tail) :
    StrictAs text ps tail → ∀ p ∈ ps, p.Clean := by
  induction h with
  | @last line rest hl hv =>
      rintro ⟨cs, zs, hz, htext, hdata⟩
      have hcs := map_data_single hdata
      subst hcs
      rw [strictBytes_nil] at htext
      obtain ⟨rfl, hrest⟩ := line_unique hl hz.noCrlf htext
      intro p hp
      cases List.mem_singleton.mp hp
      refine ⟨⟨hz.1, hz.digits, ?_⟩, ?_⟩
      · rw [Zeros.value hz.2]; decide
      · show rest.take 2 = crlf
        rw [hrest]; rfl
  | @chunk line data rest tail ps hl hv hne _ ih =>
      rintro ⟨cs, zs, hz, htext, hdata⟩
      obtain ⟨c, cs, rfl, rfl, hds⟩ := map_data_cons hne hdata
      rw [strictBytes_cons] at htext
      obtain ⟨rfl, hmore⟩ := line_unique hl c.sizeText.noCrlf htext
      have hrest := List.append_cancel_left hmore
      intro p hp
      rcases List.mem_cons.mp hp with rfl | hp
      · refine ⟨⟨c.size_ne, c.size_digits, ?_⟩, ?_⟩
        · rw [c.size_value, ← hv]; exact sizeOf_le _
        · show rest.take 2 = crlf
          rw [hrest]; rfl
      · refine ih ⟨cs, zs, hz, ?_, hds⟩ p hp
        rw [hrest]
        rfl

theorem Piece.SizeOk.zeros {line d t : List UInt8} (h : Piece.SizeOk ⟨line, d, t⟩)
    (hv : sizeOf line = 0) : Zeros line := by
  obtain ⟨hne, hds, hmax⟩ := h
  refine ⟨hne, ofDigits_eq_zero (by decide) hds ?_⟩
  rw [← sizeOf_digits hne hds hmax, hv]

/-- A clean piece with data is a chunk. -/
def Piece.SizeOk.chunk {line data t : List UInt8} (h : Piece.SizeOk ⟨line, data, t⟩)
    (hv : sizeOf line = data.length) (hne : data ≠ []) : Chunk where
  size := line
  data := data
  size_ne := h.1
  size_digits := h.2.1
  size_value := by rw [← sizeOf_digits h.1 h.2.1 h.2.2, hv]
  data_ne := hne

theorem Decoded.strict {text tail : List UInt8} {ps : List Piece} (h : Decoded text ps tail) :
    (∀ p ∈ ps, p.Clean) → StrictAs text ps tail := by
  induction h with
  | @last line rest hl hv =>
      intro hclean
      obtain ⟨hok, hskip⟩ := hclean _ List.mem_cons_self
      refine ⟨[], line, hok.zeros hv, ?_, rfl⟩
      have hrest : rest = crlf ++ rest.drop 2 := by
        have hskip' : rest.take 2 = crlf := hskip
        rw [← hskip', List.take_append_drop]
      rw [strictBytes_nil]
      conv_lhs => rw [hrest]
      rfl
  | @chunk line data rest tail ps hl hv hne _ ih =>
      intro hclean
      obtain ⟨hok, hskip⟩ := hclean _ List.mem_cons_self
      obtain ⟨cs, zs, hz, htext, hds⟩ := ih fun p hp => hclean p (List.mem_cons_of_mem _ hp)
      refine ⟨hok.chunk hv hne :: cs, zs, hz, ?_, ?_⟩
      · have hrest : rest = crlf ++ rest.drop 2 := by
          have hskip' : rest.take 2 = crlf := hskip
          rw [← hskip', List.take_append_drop]
        rw [strictBytes_cons, ← htext]
        conv_lhs => rw [hrest]
        rfl
      · rw [List.map_cons, List.cons_append, hds]
        rfl

/-- **The readings agree exactly on clean pieces.** -/
theorem strict_iff {text tail : List UInt8} {ps : List Piece} (h : Decoded text ps tail) :
    StrictAs text ps tail ↔ ∀ p ∈ pieces text, p.Clean := by
  rw [h.pieces_eq]
  exact ⟨h.clean, h.strict⟩

/-! ## With the first byte lost -/

/-- The first byte of the text is lost, and that does no harm. -/
def CleanBehind : List Piece → Prop
  | [] => False
  | p :: ps => (p.line = [] ∨ p.SizeOk) ∧ p.skip = crlf ∧ ∀ x ∈ ps, x.Clean

instance : ∀ ps : List Piece, Decidable (CleanBehind ps)
  | [] => inferInstanceAs (Decidable False)
  | _ :: _ => inferInstanceAs (Decidable (_ ∧ _ ∧ _))

theorem size_behind {x : UInt8} {line size r r' : List UInt8} (hl : NoCrlf line)
    (hds : ∀ b ∈ size, isDigit 16 b = true) (hne : size ≠ [])
    (h : x :: (line ++ CR :: LF :: r) = size ++ CR :: LF :: r') :
    size = x :: line ∧ r = r' := by
  cases size with
  | nil => exact absurd rfl hne
  | cons z zs =>
      simp only [List.cons_append, List.cons.injEq] at h
      have hzs : NoCrlf zs := noCrlf_of_not_mem fun hc =>
        isDigit_ne_CR (hds CR (List.mem_cons_of_mem _ hc)) rfl
      obtain ⟨rfl, hr⟩ := line_unique hl hzs h.2
      exact ⟨by rw [h.1], hr⟩

theorem Decoded.clean_behind {x : UInt8} {text tail : List UInt8} {ps : List Piece}
    (h : Decoded text ps tail) (hs : StrictAs (x :: text) ps tail) :
    x = 48 ∧ CleanBehind ps := by
  obtain ⟨cs, zs, hz, htext, hdata⟩ := hs
  cases h with
  | @last line rest hl hv =>
      have hcs := map_data_single hdata
      subst hcs
      rw [strictBytes_nil] at htext
      obtain ⟨rfl, hrest⟩ := size_behind hl hz.digits hz.1 htext
      have hskip : rest.take 2 = crlf := by
        rw [hrest]; rfl
      refine ⟨hz.2 x List.mem_cons_self, ?_, hskip, fun _ h => absurd h List.not_mem_nil⟩
      by_cases hnil : line = []
      · exact .inl hnil
      · have hline : ∀ b ∈ line, b = 48 := fun b hb => hz.2 b (List.mem_cons_of_mem _ hb)
        refine .inr ⟨hnil, fun b hb => hz.digits b (List.mem_cons_of_mem _ hb), ?_⟩
        rw [Zeros.value hline]
        decide
  | @chunk line data rest _ ps hl hv hne hdec =>
      obtain ⟨c, cs, rfl, rfl, hds⟩ := map_data_cons hne hdata
      rw [strictBytes_cons] at htext
      obtain ⟨hsize, hmore⟩ := size_behind hl c.size_digits c.size_ne htext
      have hrest := List.append_cancel_left hmore
      have hlen : 0 < c.data.length := List.length_pos_iff.mpr hne
      have hline : line ≠ [] := by
        rintro rfl
        rw [show sizeOf [] = 0 by decide] at hv
        omega
      have hdig : ∀ b ∈ line, isDigit 16 b = true := fun b hb =>
        c.size_digits b (by rw [hsize]; exact List.mem_cons_of_mem _ hb)
      have hx : isDigit 16 x = true := c.size_digits x (by rw [hsize]; exact List.mem_cons_self)
      have hval := c.size_value
      rw [hsize, ← hv] at hval
      -- the digit that is lost cannot make the number smaller
      have hle : ofDigits 16 line ≤ ofDigits 16 (x :: line) := by
        rw [ofDigits_cons]
        omega
      have hmax : (ofDigits 16 line : Int) ≤ intMax := by
        have := sizeOf_le line
        omega
      have hx48 : x = 48 := by
        by_contra hne48
        have := ofDigits_tail_lt line (by decide) hx hne48
        rw [sizeOf_digits hline hdig hmax] at hval
        omega
      refine ⟨hx48, .inr ⟨hline, hdig, hmax⟩, ?_, ?_⟩
      · show rest.take 2 = crlf
        rw [hrest]; rfl
      · refine hdec.clean ⟨cs, zs, hz, ?_, hds⟩
        rw [hrest]
        rfl

theorem Decoded.strict_behind {text tail : List UInt8} {ps : List Piece}
    (h : Decoded text ps tail) (hc : CleanBehind ps) : StrictAs (48 :: text) ps tail := by
  have hcons : ∀ {line d t : List UInt8}, Piece.SizeOk ⟨line, d, t⟩ →
      Piece.SizeOk ⟨48 :: line, d, t⟩ ∧ sizeOf (48 :: line) = sizeOf line := by
    rintro line d t ⟨hne, hds, hmax⟩
    have hds' : ∀ b ∈ 48 :: line, isDigit 16 b = true := by
      intro b hb
      rcases List.mem_cons.mp hb with rfl | hb
      · decide
      · exact hds b hb
    have hmax' : (ofDigits 16 (48 :: line) : Int) ≤ intMax := by
      rw [ofDigits_zero_cons]; exact hmax
    refine ⟨⟨by simp, hds', hmax'⟩, ?_⟩
    rw [sizeOf_digits (by simp) hds' hmax', sizeOf_digits hne hds hmax, ofDigits_zero_cons]
  have hnoc : ∀ {line : List UInt8}, NoCrlf line → NoCrlf (48 :: line) := fun {line} hl =>
    noCrlf_append (a := [48]) (by decide) hl
  cases h with
  | @last line rest hl hv =>
      obtain ⟨hline, hskip, -⟩ := hc
      have hlast : Decoded (48 :: (line ++ CR :: LF :: rest)) [⟨48 :: line, [], rest.take 2⟩]
          (rest.drop 2) := by
        refine .last (hnoc hl) ?_
        rcases hline with rfl | hok
        · decide
        · rw [(hcons hok).2, hv]
      have hok : Piece.SizeOk ⟨48 :: line, [], rest.take 2⟩ := by
        rcases hline with rfl | hok
        · have hdig : ∀ b ∈ [(48 : UInt8)], isDigit 16 b = true := by decide
          have hmax : (ofDigits 16 [48] : Int) ≤ intMax := by decide
          exact ⟨by simp, hdig, hmax⟩
        · exact (hcons hok).1
      exact hlast.strict fun p hp => by
        cases List.mem_singleton.mp hp
        exact ⟨hok, hskip⟩
  | @chunk line data rest _ ps hl hv hne hdec =>
      obtain ⟨hline, hskip, hps⟩ := hc
      have hlen : 0 < data.length := List.length_pos_iff.mpr hne
      have hok : Piece.SizeOk ⟨line, data, rest.take 2⟩ := by
        rcases hline with rfl | hok
        · rw [show sizeOf [] = 0 by decide] at hv
          omega
        · exact hok
      obtain ⟨hok', hsize⟩ := hcons hok
      have hchunk : Decoded (48 :: (line ++ CR :: LF :: (data ++ rest)))
          (⟨48 :: line, data, rest.take 2⟩ :: ps) tail :=
        .chunk (hnoc hl) (by rw [hsize, hv]) hne hdec
      exact hchunk.strict fun p hp => by
        rcases List.mem_cons.mp hp with rfl | hp
        · exact ⟨hok', hskip⟩
        · exact hps p hp

/-- **The readings agree exactly when the lost byte was a harmless zero.** -/
theorem strict_iff_lost {x : UInt8} {text tail : List UInt8} {ps : List Piece}
    (h : Decoded text ps tail) :
    StrictAs (x :: text) ps tail ↔ x = 48 ∧ CleanBehind (pieces text) := by
  rw [h.pieces_eq]
  constructor
  · exact h.clean_behind
  · rintro ⟨rfl, hc⟩
    exact h.strict_behind hc

end MnHttp
