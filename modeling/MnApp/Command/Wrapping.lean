/-
# `MnApp.Command.Wrapping` — when a description can be wrapped, and what is printed

`mncommand_find_ncopy` chooses the cut before the blanks in front are
stripped, and does not know of them.  If the last blank within the window is
one of those, `ncopy` is smaller than their number and wraps around; and for
the empty description the character before the first one is read.

**The wrapping loop keeps within its bounds and ends exactly for the
descriptions that are not empty and have no such place at the start of a
line** (`help_safe_iff`).  A description without two blanks side by side has
none (`fits_of_single`).

That `ncopy` wraps around is the only thing that can go wrong with a description
that is not empty.  If it never does, the loop ends, and **the lines together are
the description**: each is a part of it, the parts follow one another, and only
blanks are left out (`help_keeps_text`).
-/
import MnApp.Command.Help

namespace MnCommand

open CLib Loop MnHttp

/-- `ncopy` is about to wrap around: it is 0, and there is one more blank to strip. -/
def Wrap.NcopyWraps (w : Wrap) (s : List UInt8) : Prop :=
  w.pc = .strip ∧ w.ncopy = 0 ∧ ∃ b, charAt s w.nhead = .ok b ∧ isspace b = true

theorem Wrap.NcopyWraps.faults {w : Wrap} {s : List UInt8} (h : w.NcopyWraps s) (B : Bytestream) :
    wrapStep B s w = .done (.error .underflow) := by
  obtain ⟨hpc, hcopy, b, hb, hspace⟩ := h
  simp only [wrapStep, hpc, hb, hspace, if_true, hcopy, or_true]

/-! ## One line

The description is `done ++ rest`: the lines so far, and what is to be put on
lines. -/

section
variable {done rest : List UInt8}

theorem charAt_rest {j : Nat} (h : j ≤ rest.length) :
    ∃ b, charAt (done ++ rest) (done.length + j) = .ok b ∧
      ∀ p : UInt8 → Bool, p NUL = false → p b = rest[j]?.any p := by
  unfold charAt
  rw [List.append_assoc, List.getElem?_append_right (Nat.le_add_right _ _),
    Nat.add_sub_cancel_left]
  rcases Nat.lt_or_eq_of_le h with hlt | rfl
  · rw [List.getElem?_append_left hlt, List.getElem?_eq_getElem hlt]
    exact ⟨_, rfl, fun p _ => rfl⟩
  · rw [List.getElem?_concat_length, List.getElem?_eq_none (Nat.le_refl _)]
    exact ⟨NUL, rfl, fun p hp => hp⟩

theorem charAt_blank {j : Nat} (h : j ≤ rest.length) :
    ∃ b, charAt (done ++ rest) (done.length + j) = .ok b ∧ isspace b = blankAt rest j := by
  obtain ⟨b, hb, hp⟩ := charAt_rest h
  exact ⟨b, hb, hp isspace rfl⟩

theorem charAt_alnum {j : Nat} (h : j ≤ rest.length) :
    ∃ b, charAt (done ++ rest) (done.length + j) = .ok b ∧ isalnum b.toNat = alnumAt rest j := by
  obtain ⟨b, hb, hp⟩ := charAt_rest h
  exact ⟨b, hb, hp (fun b => isalnum b.toNat) rfl⟩

theorem findSpace_eq {ncopy n : Nat} (h : n ≤ rest.length) :
    findSpace (done ++ rest) done.length ncopy n = .ok ((lastBlank rest n).getD ncopy) := by
  induction n with
  | zero => rfl
  | succ n ih =>
      obtain ⟨b, hb, hblank⟩ := charAt_blank h
      rw [findSpace, hb, lastBlank, ← hblank]
      simp only
      split
      · rfl
      · exact ih (by omega)

/-- **`mncommand_find_ncopy` finds the cut.** -/
theorem mncommandFindNcopy_eq (done rest : List UInt8) :
    mncommandFindNcopy (done ++ rest) done.length rest.length bufsz = .ok (cutAt rest) := by
  have hbuf : bufsz = 55 := rfl
  have hwidth : width = 53 := rfl
  unfold mncommandFindNcopy cutAt
  rw [hbuf, hwidth]
  by_cases hlt : rest.length < 53
  · rw [if_pos hlt, Nat.min_eq_left (by omega), if_neg (by omega)]
  · rw [if_neg hlt, Nat.min_eq_right (by omega), if_pos rfl, findSpace_eq (by omega)]

theorem betweenAlnum_eq {n ncopy cut : Nat} (hsum : n + ncopy = done.length + cut)
    (hpos : 0 < cut) (hle : cut ≤ rest.length) :
    betweenAlnum (done ++ rest) n ncopy = .ok (alnumAt rest (cut - 1) && alnumAt rest cut) := by
  obtain ⟨b, hb, hb'⟩ : ∃ b, charAt (done ++ rest) (done.length + (cut - 1)) = .ok b ∧
      isalnum b.toNat = alnumAt rest (cut - 1) := charAt_alnum (by omega)
  obtain ⟨c, hc, hc'⟩ : ∃ c, charAt (done ++ rest) (done.length + cut) = .ok c ∧
      isalnum c.toNat = alnumAt rest cut := charAt_alnum hle
  unfold betweenAlnum
  rw [hsum, if_neg (by omega), Nat.add_sub_assoc hpos, hb]
  simp only [hb', hc, hc']
  cases alnumAt rest (cut - 1) with
  | false => rfl
  | true => rfl

theorem fillBuf_eq (done : List UInt8) (hne : rest ≠ []) (hlead : leading rest ≤ cutAt rest) :
    fillBuf (done ++ rest) (done.length + leading rest) (cutAt rest - leading rest) =
      .ok ((lineOf rest).shown ++ [NUL]) := by
  obtain ⟨hwidth, hlen⟩ := cutAt_le rest
  have hdash : betweenAlnum (done ++ rest) (done.length + leading rest)
      (cutAt rest - leading rest) = .ok (lineOf rest).dash :=
    betweenAlnum_eq (by omega) (cutAt_pos hne) hlen
  have htext : (((done ++ rest) ++ [NUL]).drop (done.length + leading rest)).take
      (cutAt rest - leading rest) = (lineOf rest).text := by
    rw [List.append_assoc, List.drop_length_add_append, List.drop_append_of_le_length (by omega),
      List.take_append_of_le_length (by rw [List.length_drop]; omega), ← List.drop_take]
    rfl
  have hshort : (lineOf rest).text.length ≤ width := by
    rw [← htext, List.length_take]
    omega
  have hbuf : bufsz = width + 2 := rfl
  have hall : done.length + leading rest + (cutAt rest - leading rest) ≤
      (done ++ rest).length + 1 := by
    rw [List.length_append]
    omega
  unfold fillBuf
  rw [if_neg (by omega), hdash]
  simp only [htext, Line.shown]
  cases (lineOf rest).dash with
  | false =>
      rw [if_neg (by simp only [List.length_append, Bool.false_eq_true, if_false,
        List.length_singleton]; omega)]
      simp
  | true =>
      rw [if_neg (by simp only [List.length_append, if_true, List.length_cons,
        List.length_nil]; omega)]
      simp

variable (B : Bytestream) {out : List UInt8}

theorem strip_reaches {ncopy : Nat} (j : Nat) (hlead : j ≤ leading rest) (hcopy : j ≤ ncopy) :
    Reaches (wrapStep B (done ++ rest)) ⟨.strip, done.length, rest.length, ncopy, out⟩
      ⟨.strip, done.length + j, rest.length - j, ncopy - j, out⟩ := by
  induction j with
  | zero => exact .refl _
  | succ j ih =>
      refine (ih (by omega) (by omega)).trans (.single ?_)
      have hblank : blankAt rest j = true := blankAt_of_lt_leading (by omega)
      have hin := blankAt_lt hblank
      obtain ⟨b, hb, hspace⟩ : ∃ b, charAt (done ++ rest) (done.length + j) = .ok b ∧
          isspace b = blankAt rest j := charAt_blank (Nat.le_of_lt hin)
      simp only [wrapStep, hb, hspace, hblank, if_true]
      rw [if_neg (by omega)]
      simp only [Nat.sub_sub, Nat.add_assoc]

theorem line_step (done rest : List UInt8) (ncopy : Nat) :
    wrapStep B (done ++ rest) ⟨.line, done.length, rest.length, ncopy, out⟩ =
      .again ⟨.strip, done.length, rest.length, cutAt rest, out⟩ := by
  simp only [wrapStep, mncommandFindNcopy_eq]

theorem overrun_wraps (done : List UInt8) (h : cutAt rest < leading rest) (ncopy : Nat) :
    ∃ w : Wrap, Reaches (wrapStep B (done ++ rest))
      ⟨.line, done.length, rest.length, ncopy, out⟩ w ∧ w.NcopyWraps (done ++ rest) := by
  refine ⟨_, .head (line_step B done rest ncopy)
    (strip_reaches B (cutAt rest) (Nat.le_of_lt h) (Nat.le_refl _)), rfl, Nat.sub_self _, ?_⟩
  have hblank : blankAt rest (cutAt rest) = true := blankAt_of_lt_leading h
  obtain ⟨b, hb, hspace⟩ : ∃ b, charAt (done ++ rest) (done.length + cutAt rest) = .ok b ∧
      isspace b = blankAt rest (cutAt rest) := charAt_blank (Nat.le_of_lt (blankAt_lt hblank))
  exact ⟨b, hb, hspace.trans hblank⟩

theorem nprintf_short {text : List UInt8} (h : text.length < 1024) :
    (B.nprintf out 1024 text).2 = out ++ text := ((B.whole out 1024 text).mpr h).2

theorem mem_text {b : UInt8} (h : b ∈ (lineOf rest).text) : b ∈ rest :=
  List.mem_of_mem_take (List.mem_of_mem_drop h)

theorem shown_length_le (rest : List UInt8) : (lineOf rest).shown.length ≤ LINEW - SPECW := by
  have hcut := (cutAt_le rest).1
  have htext : (lineOf rest).text.length ≤ width := by
    simp only [lineOf, List.length_drop, List.length_take]
    omega
  have hwidth : LINEW - SPECW = width + 1 := rfl
  unfold Line.shown
  rw [List.length_append, hwidth]
  split
  · rw [List.length_singleton]
    omega
  · rw [List.length_nil]
    omega

theorem putLine_eq (hne : rest ≠ []) (hnul : ∀ b ∈ rest, b ≠ NUL)
    (hlead : leading rest ≤ cutAt rest) :
    putLine B (done ++ rest) ⟨.strip, done.length + leading rest, rest.length - leading rest,
        cutAt rest - leading rest, out⟩ =
      if 0 < rest.length - cutAt rest then
        .again ⟨.line, done.length + cutAt rest, rest.length - cutAt rest,
          cutAt rest - leading rest, out ++ (lineOf rest).shown ++ LF :: spece⟩
      else .done (.ok (out ++ (lineOf rest).shown ++ [LF])) := by
  have hle := (cutAt_le rest).2
  have hcstr : cstr ((lineOf rest).shown ++ [NUL]) = (lineOf rest).shown := by
    refine cstr_stop fun b hb => ?_
    rcases List.mem_append.mp hb with hb | hb
    · exact hnul b (mem_text hb)
    · split at hb
      · cases List.mem_singleton.mp hb
        decide
      · cases hb
  have hshort := shown_length_le rest
  have hwidth : LINEW - SPECW = 54 := rfl
  have hprint : (B.nprintf out 1024 ((lineOf rest).shown ++ [LF])).2 =
      out ++ (lineOf rest).shown ++ [LF] := by
    rw [nprintf_short B (by rw [List.length_append, List.length_singleton]; omega),
      List.append_assoc]
  have hindent : (B.nprintf (out ++ (lineOf rest).shown ++ [LF]) 1024 spece).2 =
      out ++ (lineOf rest).shown ++ LF :: spece := by
    rw [nprintf_short B (by decide), List.append_assoc _ [LF]]
    rfl
  unfold putLine
  simp only [fillBuf_eq done hne hlead, hcstr, hprint, hindent]
  rw [if_neg (by omega), Nat.sub_sub, Nat.add_sub_cancel' hlead, Nat.add_assoc,
    Nat.add_sub_cancel' hlead]

theorem strip_ends (hlead : leading rest ≤ cutAt rest) (ncopy : Nat) :
    ∃ w : Wrap, w = ⟨.strip, done.length + leading rest, rest.length - leading rest,
        cutAt rest - leading rest, out⟩ ∧
      Reaches (wrapStep B (done ++ rest)) ⟨.line, done.length, rest.length, ncopy, out⟩ w ∧
      wrapStep B (done ++ rest) w = putLine B (done ++ rest) w := by
  refine ⟨_, rfl, .head (line_step B done rest ncopy) (strip_reaches B _ (Nat.le_refl _) hlead), ?_⟩
  obtain ⟨b, hb, hspace⟩ : ∃ b, charAt (done ++ rest) (done.length + leading rest) = .ok b ∧
      isspace b = blankAt rest (leading rest) := charAt_blank (leading_le rest)
  simp only [wrapStep, hb, hspace, blankAt_leading]
  rw [if_neg Bool.false_ne_true]

theorem line_ends (hne : rest ≠ []) (hnul : ∀ b ∈ rest, b ≠ NUL)
    (hlead : leading rest ≤ cutAt rest) (hend : rest.drop (cutAt rest) = []) (ncopy : Nat) :
    Returns (wrapStep B (done ++ rest)) ⟨.line, done.length, rest.length, ncopy, out⟩
      (.ok (out ++ (lineOf rest).shown ++ [LF])) := by
  obtain ⟨w, rfl, hreach, hstep⟩ := strip_ends B hlead ncopy
  have hlen := congrArg List.length hend
  rw [List.length_drop, List.length_nil] at hlen
  rw [putLine_eq B hne hnul hlead, if_neg (by omega)] at hstep
  exact hreach.returns (.of_done hstep)

theorem line_goes_on (hne : rest ≠ []) (hnul : ∀ b ∈ rest, b ≠ NUL)
    (hlead : leading rest ≤ cutAt rest) (hmore : rest.drop (cutAt rest) ≠ []) (ncopy : Nat) :
    Reaches (wrapStep B (done ++ rest)) ⟨.line, done.length, rest.length, ncopy, out⟩
      ⟨.line, (done ++ rest.take (cutAt rest)).length, (rest.drop (cutAt rest)).length,
        cutAt rest - leading rest, out ++ (lineOf rest).shown ++ LF :: spece⟩ := by
  obtain ⟨w, rfl, hreach, hstep⟩ := strip_ends B hlead ncopy
  have hlen := List.length_pos_iff.mpr hmore
  rw [List.length_drop] at hlen
  rw [putLine_eq B hne hnul hlead, if_pos hlen] at hstep
  rw [List.length_append, List.length_take, Nat.min_eq_left (cutAt_le rest).2, List.length_drop]
  exact hreach.trans (.single hstep)

end

/-! ## All lines -/

/-- No line starts with blanks that reach beyond its cut. -/
inductive Fits : List UInt8 → Prop
  | nil : Fits []
  | line {rest : List UInt8} (hne : rest ≠ []) (hover : ¬ Overrun rest)
      (more : Fits (rest.drop (cutAt rest))) : Fits rest

theorem leading_le_cutAt {rest : List UInt8} (h : ¬ Overrun rest) : leading rest ≤ cutAt rest :=
  Nat.le_of_not_lt fun hlt => h ((overrun_iff rest).mpr hlt)

theorem Wrapped.ne_nil {rest : List UInt8} {ls : List Line} (h : Wrapped rest ls)
    (hne : rest ≠ []) : ls ≠ [] := by
  cases h with
  | nil => exact absurd rfl hne
  | line => exact List.cons_ne_nil _ _

theorem render_cons (l : Line) {ls : List Line} (h : ls ≠ []) :
    render (l :: ls) = l.shown ++ LF :: (spece ++ render ls) := by
  cases ls with
  | nil => exact absurd rfl h
  | cons => rfl

section
variable (B : Bytestream)

/-- **A text that fits is printed, as the lines it is cut into.** -/
theorem Fits.prints {rest : List UInt8} (h : Fits rest) (hne : rest ≠ [])
    (hnul : ∀ b ∈ rest, b ≠ NUL) (done out : List UInt8) (ncopy : Nat) :
    ∃ ls, Wrapped rest ls ∧
      Returns (wrapStep B (done ++ rest)) ⟨.line, done.length, rest.length, ncopy, out⟩
        (.ok (out ++ render ls)) := by
  induction h generalizing done out ncopy with
  | nil => exact absurd rfl hne
  | @line rest _ hover more ih =>
      have hlead := leading_le_cutAt hover
      by_cases hend : rest.drop (cutAt rest) = []
      · refine ⟨[lineOf rest], .line hne hlead (hend ▸ .nil), ?_⟩
        rw [render, ← List.append_assoc]
        exact line_ends B hne hnul hlead hend ncopy
      · obtain ⟨ls, hls, hret⟩ := ih hend (fun b hb => hnul b (List.mem_of_mem_drop hb))
          (done ++ rest.take (cutAt rest)) (out ++ (lineOf rest).shown ++ LF :: spece)
          (cutAt rest - leading rest)
        rw [List.append_assoc done, List.take_append_drop] at hret
        refine ⟨lineOf rest :: ls, .line hne hlead hls, ?_⟩
        have hrender : out ++ render (lineOf rest :: ls) =
            out ++ (lineOf rest).shown ++ LF :: spece ++ render ls := by
          rw [render_cons _ (hls.ne_nil hend)]
          simp only [List.append_assoc, List.cons_append]
        rw [hrender]
        exact (line_goes_on B hne hnul hlead hend ncopy).returns hret

/-- **And with a text that does not, `ncopy` wraps around.** -/
theorem wraps_of_not_fits {rest : List UInt8} (h : ¬ Fits rest) (hnul : ∀ b ∈ rest, b ≠ NUL)
    (done out : List UInt8) (ncopy : Nat) :
    ∃ w : Wrap, Reaches (wrapStep B (done ++ rest))
      ⟨.line, done.length, rest.length, ncopy, out⟩ w ∧ w.NcopyWraps (done ++ rest) := by
  induction hn : rest.length using Nat.strong_induction_on generalizing rest done out ncopy with
  | _ n ih =>
      have hne : rest ≠ [] := fun hnil => h (hnil ▸ .nil)
      rw [← hn]
      by_cases hover : Overrun rest
      · exact overrun_wraps B done ((overrun_iff rest).mp hover) ncopy
      · have hmore : ¬ Fits (rest.drop (cutAt rest)) := fun hf => h (.line hne hover hf)
        have hend : rest.drop (cutAt rest) ≠ [] := fun hnil => hmore (hnil ▸ .nil)
        have hless : (rest.drop (cutAt rest)).length < n := by
          have := cutAt_pos hne
          have := List.length_pos_iff.mpr hne
          rw [List.length_drop]
          omega
        obtain ⟨w, hrun, hw⟩ := ih _ hless hmore (fun b hb => hnul b (List.mem_of_mem_drop hb))
          (done ++ rest.take (cutAt rest)) (out ++ (lineOf rest).shown ++ LF :: spece)
          (cutAt rest - leading rest) rfl
        rw [List.append_assoc done, List.take_append_drop] at hrun hw
        exact ⟨w, (line_goes_on B hne hnul (leading_le_cutAt hover) hend ncopy).trans hrun, hw⟩

/-- The empty description: the character before the first one is read. -/
theorem empty_faults (out : List UInt8) :
    Returns (wrapStep B []) (.start [] out) (.error .read) :=
  .of_again rfl (.of_done rfl)

theorem wrap_cases (d : Description) (out : List UInt8) :
    (d.text = [] ∧ Returns (wrapStep B d.text) (.start d.text out) (.error .read)) ∨
    (d.text ≠ [] ∧ ¬ Fits d.text ∧
      (∃ w, Reaches (wrapStep B d.text) (.start d.text out) w ∧ w.NcopyWraps d.text) ∧
      Returns (wrapStep B d.text) (.start d.text out) (.error .underflow)) ∨
    (d.text ≠ [] ∧ Fits d.text ∧ ∃ ls, Wrapped d.text ls ∧
      Returns (wrapStep B d.text) (.start d.text out) (.ok (out ++ render ls))) := by
  by_cases hne : d.text = []
  · refine .inl ⟨hne, ?_⟩
    rw [hne]
    exact empty_faults B out
  · by_cases hfits : Fits d.text
    · obtain ⟨ls, hls, hret⟩ := hfits.prints B hne d.nul_free [] out 0
      exact .inr (.inr ⟨hne, hfits, ls, hls, hret⟩)
    · obtain ⟨w, hrun, hw⟩ := wraps_of_not_fits B hfits d.nul_free [] out 0
      exact .inr (.inl ⟨hne, hfits, ⟨w, hrun, hw⟩, hrun.returns (.of_done (hw.faults B))⟩)

end

theorem fits_of_single {rest : List UInt8}
    (h : ∀ i, blankAt rest i = true → blankAt rest (i + 1) = false) : Fits rest := by
  induction hn : rest.length using Nat.strong_induction_on generalizing rest with
  | _ n ih =>
      by_cases hne : rest = []
      · rw [hne]
        exact .nil
      · refine .line hne (not_overrun_of_single h) (ih _ ?_ ?_ rfl)
        · have := cutAt_pos hne
          have := List.length_pos_iff.mpr hne
          rw [List.length_drop]
          omega
        · intro i hi
          unfold blankAt at hi ⊢
          rw [List.getElem?_drop] at hi ⊢
          exact h _ hi

/-- **The wrapping loop ends, with neither counter below 0, no character read
outside of the description and at most 55 bytes written to `buf`, exactly for
the descriptions that are not empty and no line of which starts with two or
more blanks and then has none up to column 53.** -/
theorem help_safe_iff (B : Bytestream) (d : Description) (out : List UInt8) :
    (∃ out', Returns (wrapStep B d.text) (.start d.text out) (.ok out')) ↔
      d.text ≠ [] ∧ Fits d.text := by
  constructor
  · rintro ⟨out', hret⟩
    rcases wrap_cases B d out with ⟨-, hbad⟩ | ⟨-, -, -, hbad⟩ | ⟨hne, hfits, -⟩
    · cases hret.unique hbad
    · cases hret.unique hbad
    · exact ⟨hne, hfits⟩
  · rintro ⟨hne, hfits⟩
    rcases wrap_cases B d out with ⟨hnil, -⟩ | ⟨-, hnot, -⟩ | ⟨-, -, ls, -, hret⟩
    · exact absurd hnil hne
    · exact absurd hfits hnot
    · exact ⟨_, hret⟩

/-! ### Two descriptions that are not wrapped -/

def emptyDescription : Description := ⟨[], fun _ h => (by cases h), fun _ h => (by cases h)⟩

theorem indentedWord_ascii : ∀ b ∈ SP :: SP :: List.replicate 52 (120 : UInt8), b < 128 := by
  decide

theorem indentedWord_nul_free : ∀ b ∈ SP :: SP :: List.replicate 52 (120 : UInt8), b ≠ NUL := by
  decide

/-- Two blanks and a word of 52 letters. -/
def indentedWord : Description :=
  ⟨SP :: SP :: List.replicate 52 120, indentedWord_ascii, indentedWord_nul_free⟩

/-- The first reads before the description, the second takes `ncopy` below 0. -/
theorem help_unsafe :
    Returns (wrapStep .plain emptyDescription.text) (.start emptyDescription.text [])
        (.error .read) ∧
      Returns (wrapStep .plain indentedWord.text) (.start indentedWord.text [])
        (.error .underflow) ∧
      (¬ ∃ out', Returns (wrapStep .plain emptyDescription.text)
        (.start emptyDescription.text []) (.ok out')) ∧
      ¬ ∃ out', Returns (wrapStep .plain indentedWord.text)
        (.start indentedWord.text []) (.ok out') := by
  have hempty : Returns (wrapStep .plain emptyDescription.text)
      (.start emptyDescription.text []) (.error .read) := empty_faults .plain []
  have hword : Returns (wrapStep .plain indentedWord.text) (.start indentedWord.text [])
      (.error .underflow) := by
    obtain ⟨w, hrun, hw⟩ : ∃ w : Wrap, Reaches (wrapStep .plain indentedWord.text)
        (.start indentedWord.text []) w ∧ w.NcopyWraps indentedWord.text :=
      overrun_wraps .plain [] (by decide) 0
    exact hrun.returns (.of_done (hw.faults .plain))
  refine ⟨hempty, hword, ?_, ?_⟩
  · rintro ⟨out', hret⟩
    cases hret.unique hempty
  · rintro ⟨out', hret⟩
    cases hret.unique hword

/-! ## What is printed -/

def endsAlnum (t : List UInt8) : Bool := t.getLast?.any fun b => isalnum b.toNat
def startsAlnum (t : List UInt8) : Bool := t.head?.any fun b => isalnum b.toNat

/-- Lines that are the description, in order and with nothing but blanks left
out of them. -/
structure LinesOf (s : List UInt8) (lines : List Line) : Prop where
  whole : lines.flatMap Line.source = s
  blanks : ∀ l ∈ lines, ∀ b ∈ l.blanks, isspace b = true
  /-- a dash stands where the cut is between two letters or figures -/
  dash : ∀ before l behind, lines = before ++ l :: behind →
    l.dash = (endsAlnum l.source && startsAlnum (behind.flatMap Line.source))
  width : ∀ l ∈ lines, l.shown.length ≤ LINEW - SPECW

/-- So the characters that are not blank are all there, once and in order. -/
theorem LinesOf.visible {s : List UInt8} {lines : List Line} (h : LinesOf s lines) :
    (lines.flatMap Line.text).filter (fun b => !isspace b) = s.filter fun b => !isspace b := by
  rw [← h.whole]
  have hblanks := h.blanks
  clear h
  induction lines with
  | nil => rfl
  | cons l lines ih =>
      have hl : l.blanks.filter (fun b => !isspace b) = [] := by
        refine List.filter_eq_nil_iff.mpr fun b hb => ?_
        rw [hblanks l List.mem_cons_self b hb]
        decide
      simp only [List.flatMap_cons, Line.source, List.filter_append, hl, List.nil_append]
      rw [ih fun l' hl' => hblanks l' (List.mem_cons_of_mem _ hl')]

theorem lineOf_source {rest : List UInt8} (h : leading rest ≤ cutAt rest) :
    (lineOf rest).source = rest.take (cutAt rest) := by
  have hblanks : rest.takeWhile isspace = (rest.take (cutAt rest)).take (leading rest) := by
    rw [List.take_take, Nat.min_eq_left h]
    have hpre := List.takeWhile_prefix (l := rest) isspace
    exact List.prefix_iff_eq_take.mp hpre
  rw [Line.source, lineOf, hblanks, List.take_append_drop]

theorem Wrapped.whole {rest : List UInt8} {ls : List Line} (h : Wrapped rest ls) :
    ls.flatMap Line.source = rest := by
  induction h with
  | nil => rfl
  | line hne hlead _ ih =>
      rw [List.flatMap_cons, ih, lineOf_source hlead, List.take_append_drop]

theorem alnumAt_last {rest : List UInt8} (hne : rest ≠ []) :
    alnumAt rest (cutAt rest - 1) = endsAlnum (rest.take (cutAt rest)) := by
  have hpos := cutAt_pos hne
  have hle := (cutAt_le rest).2
  rw [alnumAt, endsAlnum, List.getLast?_eq_getElem?, List.length_take, Nat.min_eq_left hle,
    List.getElem?_take, if_pos (by omega)]

theorem alnumAt_next (rest : List UInt8) :
    alnumAt rest (cutAt rest) = startsAlnum (rest.drop (cutAt rest)) := by
  rw [alnumAt, startsAlnum, List.head?_drop]

theorem Wrapped.linesOf {rest : List UInt8} {ls : List Line} (h : Wrapped rest ls) :
    LinesOf rest ls := by
  refine ⟨h.whole, ?_, ?_, ?_⟩
  · induction h with
    | nil => exact fun l hl => by cases hl
    | line _ _ _ ih =>
        refine List.forall_mem_cons.mpr ⟨fun b hb => ?_, ih⟩
        exact List.mem_takeWhile_imp hb
  · induction h with
    | nil =>
        intro before l behind heq
        cases before <;> cases heq
    | @line rest ls hne hlead more ih =>
        intro before l behind heq
        cases before with
        | nil =>
            cases heq
            rw [lineOf_source hlead, more.whole, ← alnumAt_last hne, ← alnumAt_next]
            rfl
        | cons l' before =>
            cases heq
            exact ih before l behind rfl
  · induction h with
    | nil => exact fun l hl => by cases hl
    | line _ _ _ ih => exact List.forall_mem_cons.mpr ⟨shown_length_le _, ih⟩

/-- **If `ncopy` never wraps around, the wrapping loop ends and has printed lines that
are the description**: one behind the other they are its text, with blanks left out in
front of a line and nothing else, no line is wider than its 54 columns, and a dash was
put at the end of a line exactly if it was cut between two letters or figures. -/
theorem help_keeps_text (B : Bytestream) (d : Description) (out : List UInt8) (hne : d.text ≠ [])
    (hno : ∀ w, Reaches (wrapStep B d.text) (.start d.text out) w → ¬ w.NcopyWraps d.text) :
    ∃ lines, Returns (wrapStep B d.text) (.start d.text out) (.ok (out ++ render lines)) ∧
      LinesOf d.text lines ∧ (lines.flatMap Line.text).filter (fun b => !isspace b) =
        d.text.filter fun b => !isspace b := by
  rcases wrap_cases B d out with
    ⟨hnil, -⟩ | ⟨-, -, ⟨w, hrun, hw⟩, -⟩ | ⟨-, -, lines, hwrapped, hret⟩
  · exact absurd hnil hne
  · exact absurd hw (hno w hrun)
  · exact ⟨lines, hret, hwrapped.linesOf, hwrapped.linesOf.visible⟩

theorem not_wraps_of_returns {B : Bytestream} {s out out' : List UInt8} {w : Wrap}
    (h : Returns (wrapStep B s) (.start s out) (.ok out'))
    (hrun : Reaches (wrapStep B s) (.start s out) w) : ¬ w.NcopyWraps s := by
  intro hw
  cases h.unique (hrun.returns (.of_done (hw.faults B)))

theorem longWord_ascii : ∀ b ∈ CLib.ascii "be verbose " ++ List.replicate 60 (120 : UInt8),
    b < 128 := by decide

theorem longWord_nul_free : ∀ b ∈ CLib.ascii "be verbose " ++ List.replicate 60 (120 : UInt8),
    b ≠ NUL := by decide

/-- Two words, and one that does not fit on a line. -/
def longWord : Description :=
  ⟨CLib.ascii "be verbose " ++ List.replicate 60 120, longWord_ascii, longWord_nul_free⟩

/-- What is printed of it: a line that is cut at a blank, and one that is cut in a word. -/
def longWordLines : List Line :=
  [⟨[], CLib.ascii "be verbose", false⟩, ⟨[SP], List.replicate 52 120, true⟩,
    ⟨[], List.replicate 8 120, false⟩]

theorem help_keeps_text_longWord :
    longWord.text ≠ [] ∧ (∀ w, Reaches (wrapStep .plain longWord.text) (.start longWord.text []) w →
      ¬ w.NcopyWraps longWord.text) ∧
    ∃ lines, render lines = render longWordLines ∧ LinesOf longWord.text lines := by
  have hret : Returns (wrapStep .plain longWord.text) (.start longWord.text [])
      (.ok (render longWordLines)) := ⟨10, by decide +kernel⟩
  have hno : ∀ w, Reaches (wrapStep .plain longWord.text) (.start longWord.text []) w →
      ¬ w.NcopyWraps longWord.text := fun w hrun => not_wraps_of_returns hret hrun
  obtain ⟨lines, hlines, hof, -⟩ := help_keeps_text .plain longWord [] (by decide) hno
  have heq := hlines.unique hret
  exact ⟨by decide, hno, lines, by simpa using heq, hof⟩

/-! ## The whole of the help -/

section
variable (B : Bytestream) {s : List UInt8}

theorem help_reaches {w : Wrap} {out' : List UInt8} (todo : List Cmd) (out : List UInt8)
    (h : Returns (wrapStep B s) w (.ok out')) :
    Reaches (helpStep B) ⟨.wrap s w, todo, out⟩ ⟨.command, todo, out'⟩ := by
  refine h.rec_run (P := fun w => Reaches (helpStep B) ⟨.wrap s w, todo, out⟩ _) ?_ ?_
  · intro w hw
    exact .single (by simp only [helpStep, hw])
  · intro w w' hw _ ih
    exact .head (by simp only [helpStep, hw]) ih

theorem help_faults {w : Wrap} {f : Fault} (todo : List Cmd) (out : List UInt8)
    (h : Returns (wrapStep B s) w (.error f)) :
    Returns (helpStep B) ⟨.wrap s w, todo, out⟩ (.error f) := by
  refine h.rec_run (P := fun w => Returns (helpStep B) ⟨.wrap s w, todo, out⟩ _) ?_ ?_
  · intro w hw
    exact .of_done (by simp only [helpStep, hw])
  · intro w w' hw _ ih
    exact .of_again (by simp only [helpStep, hw]) ih

end

/-- The descriptions of commands are texts. -/
def Described (commands : List Cmd) : Prop :=
  ∀ cmd ∈ commands, ∀ s ∈ cmd.description, ∃ d : Description, d.text = s

/-- **The help comes to an end, whatever the commands are; and if every
description can be wrapped, all of it is printed.** -/
theorem helpStep_ends (B : Bytestream) {todo : List Cmd} (hd : Described todo)
    (out : List UInt8) : ∃ r, Returns (helpStep B) ⟨.command, todo, out⟩ r ∧
      ((∀ cmd ∈ todo, ∀ s ∈ cmd.description, s ≠ [] ∧ Fits s) → ∃ out', r = .ok out') := by
  induction todo generalizing out with
  | nil => exact ⟨.ok out, .of_done rfl, fun _ => ⟨out, rfl⟩⟩
  | cons cmd todo ih =>
      have hih := ih fun c hc => hd c (List.mem_cons_of_mem _ hc)
      have hmore : ∀ out', (helpStep B) ⟨.command, cmd :: todo, out⟩ =
          .again ⟨.command, todo, out'⟩ → ∃ r, Returns (helpStep B) ⟨.command, cmd :: todo, out⟩ r ∧
            ((∀ c ∈ cmd :: todo, ∀ s ∈ c.description, s ≠ [] ∧ Fits s) →
              ∃ out', r = .ok out') := by
        intro out' hstep
        obtain ⟨r, hr, hall⟩ := hih out'
        exact ⟨r, .of_again hstep hr, fun h => hall fun c hc => h c (List.mem_cons_of_mem _ hc)⟩
      by_cases hwrote : (helpHead B cmd out).1 > 0
      · cases hdesc : cmd.description with
        | none =>
            refine hmore (B.cat (helpHead B cmd out).2 [LF]).2 ?_
            simp only [helpStep, if_pos hwrote, hdesc]
        | some s =>
            have hstep : helpStep B ⟨.command, cmd :: todo, out⟩ =
                .again ⟨.wrap s (.start s (helpHead B cmd out).2), todo,
                  (helpHead B cmd out).2⟩ := by
              simp only [helpStep, if_pos hwrote, hdesc]
            obtain ⟨d, rfl⟩ := hd cmd List.mem_cons_self s hdesc
            rcases wrap_cases B d (helpHead B cmd out).2 with
              ⟨hnil, hbad⟩ | ⟨-, hnot, -, hbad⟩ | ⟨-, -, ls, -, hret⟩
            · refine ⟨_, .of_again hstep (help_faults B todo _ hbad), fun h => ?_⟩
              exact absurd hnil (h cmd List.mem_cons_self d.text hdesc).1
            · refine ⟨_, .of_again hstep (help_faults B todo _ hbad), fun h => ?_⟩
              exact absurd (h cmd List.mem_cons_self d.text hdesc).2 hnot
            · obtain ⟨r, hr, hall⟩ := hih ((helpHead B cmd out).2 ++ render ls)
              refine ⟨r, .of_again hstep ((help_reaches B todo _ hret).returns hr), fun h => ?_⟩
              exact hall fun c hc => h c (List.mem_cons_of_mem _ hc)
      · refine hmore (helpHead B cmd out).2 ?_
        simp only [helpStep, if_neg hwrote]

/-- The same of `mncommand_ctx_format_help`, behind a call of
`mncommand_ctx_getopt`. -/
theorem format_help_ends (B : Bytestream) {c c' : Ctx} {basename : List UInt8} {g : Grow}
    (h : mncommandCtxGetopt c basename g = some c') (hd : Described c'.commands.items)
    (out : List UInt8) : ∃ r, FormatsHelp B c' out r ∧
      ((∀ cmd ∈ c'.commands.items, ∀ s ∈ cmd.description, s ≠ [] ∧ Fits s) →
        ∃ out', r = .ok out') := by
  unfold FormatsHelp
  obtain ⟨p, hp⟩ : ∃ p, c'.progname = some p := by
    unfold mncommandCtxGetopt at h
    split at h
    · cases h
    · cases h
      exact ⟨_, rfl⟩
  rw [hp]
  exact helpStep_ends B hd _

end MnCommand
