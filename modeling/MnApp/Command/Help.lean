/-
# `MnApp.Command.Help` — the help text, line by line

`mncommand_ctx_format_help` writes, for each command, its names in a column of
24 and its description in the 54 columns behind it.  The description is cut
into lines in a buffer of 55 bytes:

    mncommand_find_ncopy     looks back from column 53 for a blank to cut at
    the inner `while`        then strips the blanks the line starts with, and
                             takes them off `ncopy`
    `memcpy` and the dash    fill the buffer; the dash is put when the cut is
                             between two letters or figures

The two counters are `size_t`, and the description is read through a bare
pointer.  Nothing of that is checked by the code, so it is checked here: a
step that would take a counter below 0, read a character that is neither in
the description nor its NUL, or write more than 55 bytes to `buf` ends with a
`Fault`.  A result `ok` says that none of them happened.

The stream is that of the writers of messages (`MnHttp.Bytestream`).
-/
import MnApp.Command.Context
import MnApp.Http.Writer
import MnApp.Lib.Loop

namespace MnCommand

open CLib Loop MnHttp

def SPECW : Nat := 24
def LINEW : Nat := 78

/-- `SPECE`. -/
def spece : List UInt8 := ascii "                        "

/-- `sizeof(buf)`. -/
def bufsz : Nat := LINEW - SPECW + 1

def DASH : UInt8 := 45

/-- What goes wrong. -/
inductive Fault where
  /-- a character outside of the description and its NUL is read -/
  | read
  /-- `ncopy` or `ntail` would be less than 0 -/
  | underflow
  /-- more is written to `buf` than it holds -/
  | buffer
  /-- `ctx->progname` is NULL -/
  | noProgname
deriving DecidableEq, Repr

/-- A description: ASCII, and no NUL in it. -/
structure Description where
  text : List UInt8
  ascii : ∀ b ∈ text, b < 128
  nul_free : ∀ b ∈ text, b ≠ NUL

/-! ## The wrapping loop -/

/-- `s[i]`; the description ends with a NUL. -/
def charAt (s : List UInt8) (i : Nat) : Except Fault UInt8 :=
  match (s ++ [NUL])[i]? with
  | some b => .ok b
  | none => .error .read

/-- The loop of `mncommand_find_ncopy`. -/
def findSpace (s : List UInt8) (nhead ncopy : Nat) : Nat → Except Fault Nat
  | 0 => .ok ncopy
  | n + 1 =>
      match charAt s (nhead + (n + 1)) with
      | .error f => .error f
      | .ok b => if isspace b then .ok (n + 1) else findSpace s nhead ncopy n

/-- `mncommand_find_ncopy`. -/
def mncommandFindNcopy (s : List UInt8) (nhead ntail bufsz : Nat) : Except Fault Nat :=
  let ncopy := min ntail (bufsz - 1 - 1)
  if ncopy = bufsz - 2 then findSpace s nhead ncopy ncopy else .ok ncopy

/-- Whether the cut is between two letters or figures. -/
def betweenAlnum (s : List UInt8) (nhead ncopy : Nat) : Except Fault Bool :=
  -- the index of the first of the two is less than 0
  if nhead + ncopy = 0 then .error .read
  else
    match charAt s (nhead + ncopy - 1) with
    | .error f => .error f
    | .ok b =>
        if isalnum b.toNat then
          match charAt s (nhead + ncopy) with
          | .error f => .error f
          | .ok b' => .ok (isalnum b'.toNat)
        else .ok false

/-- What is put in `buf`. -/
def fillBuf (s : List UInt8) (nhead ncopy : Nat) : Except Fault (List UInt8) :=
  if s.length + 1 < nhead + ncopy then .error .read
  else
    match betweenAlnum s nhead ncopy with
    | .error f => .error f
    | .ok dash =>
        let buf := ((s ++ [NUL]).drop nhead).take ncopy ++ if dash then [DASH, NUL] else [NUL]
        if bufsz < buf.length then .error .buffer else .ok buf

inductive WrapPc where
  | line | strip
deriving DecidableEq, Repr

/-- The variables of the loop, and the stream. -/
structure Wrap where
  pc : WrapPc
  nhead : Nat
  ntail : Nat
  ncopy : Nat
  out : List UInt8
deriving DecidableEq, Repr

/-- Where the loop starts. -/
def Wrap.start (s out : List UInt8) : Wrap := ⟨.line, 0, s.length, 0, out⟩

/-- The rest of a round, behind the inner loop. -/
def putLine (B : Bytestream) (s : List UInt8) (w : Wrap) :
    Next Wrap (Except Fault (List UInt8)) :=
  match fillBuf s w.nhead w.ncopy with
  | .error f => .done (.error f)
  | .ok buf =>
      let out := (B.nprintf w.out 1024 (cstr buf ++ [LF])).2
      if w.ntail < w.ncopy then .done (.error .underflow)
      else if 0 < w.ntail - w.ncopy then
        .again
          { w with
            pc := .line
            ntail := w.ntail - w.ncopy
            nhead := w.nhead + w.ncopy
            out := (B.nprintf out 1024 spece).2 }
      else .done (.ok out)

/-- The wrapping loop: the head of a round, a round of the inner loop, or the
rest of a round. -/
def wrapStep (B : Bytestream) (s : List UInt8) (w : Wrap) :
    Next Wrap (Except Fault (List UInt8)) :=
  match w.pc with
  | .line =>
      match mncommandFindNcopy s w.nhead w.ntail bufsz with
      | .error f => .done (.error f)
      | .ok ncopy => .again { w with pc := .strip, ncopy := ncopy }
  | .strip =>
      match charAt s w.nhead with
      | .error f => .done (.error f)
      | .ok b =>
          if isspace b then
            if w.ntail = 0 ∨ w.ncopy = 0 then .done (.error .underflow)
            else
              .again { w with nhead := w.nhead + 1, ntail := w.ntail - 1, ncopy := w.ncopy - 1 }
          else putLine B s w

/-! ## The whole of the help -/

/-- What `%-22s` prints. -/
def padded (text : List UInt8) : List UInt8 := text ++ List.replicate (22 - text.length) SP

/-- Where `mncommand_ctx_format_help` is: at a command, or in the description
of one. -/
inductive HelpPc where
  | command
  | wrap (s : List UInt8) (w : Wrap)

structure Help where
  pc : HelpPc
  todo : List Cmd
  out : List UInt8

/-- What stands before the description. -/
def helpHead (B : Bytestream) (cmd : Cmd) (out : List UInt8) : Int × List UInt8 :=
  let wrote := B.nprintf out 1024 (ascii "  " ++ padded (cstr cmd.helpspec))
  if wrote.1 > SPECW then (wrote.1, (B.nprintf (B.cat wrote.2 [LF]).2 1024 spece).2) else wrote

/-- The loop over the commands. -/
def helpStep (B : Bytestream) (h : Help) : Next Help (Except Fault (List UInt8)) :=
  match h.pc with
  | .command =>
      match h.todo with
      | [] => .done (.ok h.out)
      | cmd :: todo =>
          let head := helpHead B cmd h.out
          if head.1 > 0 then
            match cmd.description with
            | some s => .again ⟨.wrap s (.start s head.2), todo, head.2⟩
            | none => .again ⟨.command, todo, (B.cat head.2 [LF]).2⟩
          else .again ⟨.command, todo, head.2⟩
  | .wrap s w =>
      match wrapStep B s w with
      | .again w' => .again ⟨.wrap s w', h.todo, h.out⟩
      | .done (.error f) => .done (.error f)
      | .done (.ok out) => .again ⟨.command, h.todo, out⟩

/-- `mncommand_ctx_format_help`: it answers with the stream. -/
def FormatsHelp (B : Bytestream) (c : Ctx) (out : List UInt8)
    (r : Except Fault (List UInt8)) : Prop :=
  match c.progname with
  | none => r = .error .noProgname
  | some progname =>
      let wrote := B.nprintf out 1024
        (ascii "Usage: " ++ (cstr progname ++ ascii " [OPTIONS] [ARGUMENTS]\n\n"))
      Returns (helpStep B) ⟨.command, c.commands.items, wrote.2⟩ r

/-! ## Lines -/

/-- There is a blank at a column. -/
def blankAt (rest : List UInt8) (n : Nat) : Bool := rest[n]?.any isspace

/-- There is a letter or a figure at a column. -/
def alnumAt (rest : List UInt8) (n : Nat) : Bool := rest[n]?.any fun b => isalnum b.toNat

/-- The columns of a line, a place left for the dash. -/
def width : Nat := 53

/-- The last column up to `n`, the first one aside, where there is a blank. -/
def lastBlank (rest : List UInt8) : Nat → Option Nat
  | 0 => none
  | n + 1 => if blankAt rest (n + 1) then some (n + 1) else lastBlank rest n

/-- Where a text is cut that is to be put on lines. -/
def cutAt (rest : List UInt8) : Nat :=
  if rest.length < width then rest.length else (lastBlank rest width).getD width

/-- The blanks a text starts with. -/
def leading (rest : List UInt8) : Nat := (rest.takeWhile isspace).length

/-- One line: the blanks that are left out, what is shown of the text, and
whether there is a dash behind it. -/
structure Line where
  blanks : List UInt8
  text : List UInt8
  dash : Bool
deriving DecidableEq, Repr

/-- The part of the description that a line stands for. -/
def Line.source (l : Line) : List UInt8 := l.blanks ++ l.text

/-- What is printed. -/
def Line.shown (l : Line) : List UInt8 := l.text ++ if l.dash then [DASH] else []

/-- The line a text starts with. -/
def lineOf (rest : List UInt8) : Line where
  blanks := rest.takeWhile isspace
  text := (rest.take (cutAt rest)).drop (leading rest)
  dash := alnumAt rest (cutAt rest - 1) && alnumAt rest (cutAt rest)

/-- Lines as they stand in the help: every one but the first is indented. -/
def render : List Line → List UInt8
  | [] => []
  | [l] => l.shown ++ [LF]
  | l :: ls => l.shown ++ LF :: (spece ++ render ls)

/-- A text, and the lines it is cut into. -/
inductive Wrapped : List UInt8 → List Line → Prop
  | nil : Wrapped [] []
  | line {rest : List UInt8} {ls : List Line} (hne : rest ≠ [])
      (hlead : leading rest ≤ cutAt rest) (more : Wrapped (rest.drop (cutAt rest)) ls) :
      Wrapped rest (lineOf rest :: ls)

/-! ### Columns -/

theorem blankAt_of_lt_leading {rest : List UInt8} {i : Nat} (h : i < leading rest) :
    blankAt rest i = true := by
  have hrest := List.takeWhile_append_dropWhile (p := isspace) (l := rest)
  unfold blankAt
  rw [← hrest, List.getElem?_append_left h, List.getElem?_eq_getElem h, Option.any_some]
  exact List.mem_takeWhile_imp (List.getElem_mem h)

theorem blankAt_leading (rest : List UInt8) : blankAt rest (leading rest) = false := by
  have hhead := List.head?_dropWhile_not isspace rest
  have hat : (rest.takeWhile isspace ++ rest.dropWhile isspace)[leading rest]? =
      (rest.dropWhile isspace).head? := by
    rw [leading, List.getElem?_append_right (Nat.le_refl _), Nat.sub_self, List.head?_eq_getElem?]
  rw [List.takeWhile_append_dropWhile] at hat
  rw [blankAt, hat]
  cases h : (rest.dropWhile isspace).head? with
  | none => rfl
  | some b =>
      rw [h] at hhead
      exact hhead

theorem leading_le (rest : List UInt8) : leading rest ≤ rest.length :=
  (List.takeWhile_sublist isspace).length_le

theorem blankAt_lt {rest : List UInt8} {i : Nat} (h : blankAt rest i = true) : i < rest.length := by
  unfold blankAt at h
  cases hi : rest[i]? with
  | none =>
      rw [hi] at h
      cases h
  | some b => exact (List.getElem?_eq_some_iff.mp hi).1

theorem lastBlank_cases (rest : List UInt8) (n : Nat) :
    (lastBlank rest n = none ∧ ∀ k, 0 < k → k ≤ n → blankAt rest k = false) ∨
      ∃ m, lastBlank rest n = some m ∧ 0 < m ∧ m ≤ n ∧ blankAt rest m = true ∧
        ∀ k, m < k → k ≤ n → blankAt rest k = false := by
  induction n with
  | zero => exact .inl ⟨rfl, fun k hk hk' => absurd hk (by omega)⟩
  | succ n ih =>
      rw [lastBlank]
      cases hb : blankAt rest (n + 1) with
      | true =>
          right
          exact ⟨n + 1, if_pos rfl, Nat.succ_pos n, Nat.le_refl _, hb, fun k hk hk' => by omega⟩
      | false =>
          rw [if_neg Bool.false_ne_true]
          have hlast : ∀ k, k = n + 1 → blankAt rest k = false := fun k hk => hk ▸ hb
          rcases ih with ⟨hnone, hall⟩ | ⟨m, hsome, hpos, hle, hm, hall⟩
          · left
            refine ⟨hnone, fun k hk hk' => ?_⟩
            rcases Nat.lt_or_eq_of_le hk' with hlt | heq
            · exact hall k hk (by omega)
            · exact hlast k heq
          · right
            refine ⟨m, hsome, hpos, by omega, hm, fun k hk hk' => ?_⟩
            rcases Nat.lt_or_eq_of_le hk' with hlt | heq
            · exact hall k hk (by omega)
            · exact hlast k heq

theorem cutAt_le (rest : List UInt8) : cutAt rest ≤ width ∧ cutAt rest ≤ rest.length := by
  unfold cutAt
  split
  · omega
  · rcases lastBlank_cases rest width with ⟨hnone, -⟩ | ⟨m, hsome, -, hle, hm, -⟩
    · rw [hnone, Option.getD_none]
      omega
    · have := blankAt_lt hm
      rw [hsome, Option.getD_some]
      omega

theorem cutAt_pos {rest : List UInt8} (h : rest ≠ []) : 0 < cutAt rest := by
  have hlen := List.length_pos_iff.mpr h
  unfold cutAt
  split
  · exact hlen
  · rcases lastBlank_cases rest width with ⟨hnone, -⟩ | ⟨m, hsome, hpos, -⟩
    · rw [hnone]
      decide
    · rw [hsome]
      exact hpos

/-- The blanks that are stripped reach beyond the cut: the text does not end on
this line, it starts with two blanks or more, and no other blank follows on it. -/
def Overrun (rest : List UInt8) : Prop :=
  width ≤ rest.length ∧ 2 ≤ leading rest ∧
    ∀ k, leading rest < k → k ≤ width → blankAt rest k = false

theorem overrun_iff (rest : List UInt8) : Overrun rest ↔ cutAt rest < leading rest := by
  have hat := blankAt_leading rest
  have hbefore : ∀ i, i < leading rest → blankAt rest i = true := fun _ => blankAt_of_lt_leading
  by_cases hlen : rest.length < width
  · have hcut : cutAt rest = rest.length := if_pos hlen
    have := leading_le rest
    exact iff_of_false (fun h => absurd h.1 (by omega)) (by omega)
  have hcut : cutAt rest = (lastBlank rest width).getD width := if_neg hlen
  rw [hcut]
  rcases lastBlank_cases rest width with ⟨hnone, hall⟩ | ⟨m, hsome, hpos, hle, hm, hall⟩
  · -- no blank to cut at: there is at most one in front
    rw [hnone, Option.getD_none]
    have hfew : leading rest ≤ 1 := by
      by_contra hmany
      have h1 := hbefore 1 (by omega)
      rw [hall 1 Nat.one_pos (by decide)] at h1
      cases h1
    have : width = 53 := rfl
    exact iff_of_false (fun h => absurd h.2.1 (by omega)) (by omega)
  · rw [hsome, Option.getD_some]
    constructor
    · rintro ⟨-, -, hnone⟩
      rcases Nat.lt_trichotomy m (leading rest) with hlt | heq | hgt
      · exact hlt
      · rw [← heq, hm] at hat
        cases hat
      · rw [hnone m hgt hle] at hm
        cases hm
    · intro hlt
      exact ⟨Nat.le_of_not_lt hlen, by omega, fun k hk hk' => hall k (by omega) hk'⟩

theorem not_overrun_of_single {rest : List UInt8}
    (h : ∀ i, blankAt rest i = true → blankAt rest (i + 1) = false) : ¬ Overrun rest := by
  intro hover
  have htwo := hover.2.1
  have h0 : blankAt rest 0 = true := blankAt_of_lt_leading (by omega)
  have h1 : blankAt rest 1 = true := blankAt_of_lt_leading (by omega)
  rw [h 0 h0] at h1
  cases h1

end MnCommand
