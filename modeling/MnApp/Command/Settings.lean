/-
# `MnApp.Command.Settings` — settings, written on a command line and stored

The callbacks that `mncommand.c` brings with it.  Each stores a value where the
`udata` of its command points to, and returns 0:

| callback | with an argument | without |
| :-- | :-- | :-- |
| `mncommand_option_int`    | what `strtoimax` reads                  | `opt.val`   |
| `mncommand_option_uint`   | what `strtoumax` reads                  | `opt.val`   |
| `mncommand_option_double` | what `strtod` reads                     | what it was |
| `mncommand_option_bool`   | false for 0, off, false and no, or true | true        |
| `mncommand_option_bytes`  | a copy                                  | NULL        |

A setting is a command and a value; `Writes` says which arguments write a value.
**A line that writes settings, in any of its spellings, is parsed without an error
and leaves in every variable the last of the settings for it**
(`settings_round_trip`).

**Doubles** are of any type, with `strtod` any function to it.
-/
import MnApp.Command.Options

namespace MnCommand

open CLib Run Loop Getopt

/-! ## The callbacks -/

/-- `mncommand_option_int`, with the `val` of its command: what is stored. -/
def mncommandOptionInt (val : Int) : Option (List UInt8) → Int
  | some optarg => (strtol (optarg ++ [NUL]) 10).val
  | none => val

/-- `mncommand_option_uint`. -/
def mncommandOptionUint (val : Int) : Option (List UInt8) → Nat
  | some optarg => strtoul (optarg ++ [NUL]) 10
  | none => (val % (ulongMax + 1)).toNat

/-- `mncommand_option_double`; `none` is nothing. -/
def mncommandOptionDouble {δ : Type} (strtod : List UInt8 → δ) : Option (List UInt8) → Option δ
  | some optarg => some (strtod optarg)
  | none => none

/-- The words for false. -/
def falseWords : List (List UInt8) := [ascii "0", ascii "off", ascii "false", ascii "no"]

/-- `mncommand_option_bool`. -/
def mncommandOptionBool : Option (List UInt8) → Bool
  | some optarg => !falseWords.any (strcasecmpEq optarg)
  | none => true

/-- `mncommand_option_bytes`; `none` is NULL. -/
def mncommandOptionBytes : Option (List UInt8) → Option (List UInt8)
  | some optarg => some (cstr optarg)
  | none => none

/-- A variable, by its type. -/
inductive Cell (δ : Type) where
  | int (v : Int)
  | uint (v : Nat)
  | double (v : δ)
  | bool (v : Bool)
  | bytes (v : Option (List UInt8))
deriving DecidableEq, Repr

/-- The callbacks, by the type of the variable. -/
inductive Builtin where
  | int | uint | double | bool | bytes
deriving DecidableEq, Repr

section
variable {δ : Type} (strtod : List UInt8 → δ)

/-- What the variable holds behind the call. -/
def Builtin.store (val : Int) (optarg : Option (List UInt8)) (old : Cell δ) : Builtin → Cell δ
  | .int => .int (mncommandOptionInt val optarg)
  | .uint => .uint (mncommandOptionUint val optarg)
  | .double => ((mncommandOptionDouble strtod optarg).map Cell.double).getD old
  | .bool => .bool (mncommandOptionBool optarg)
  | .bytes => .bytes (mncommandOptionBytes optarg)

/-- The variables, by address. -/
abbrev Store (δ : Type) := Nat → Cell δ

/-- The callback of a command, and where its `udata` points. -/
structure Binding where
  builtin : Builtin
  target : Nat
deriving DecidableEq, Repr

/-- The callbacks of the commands of a context. -/
def boundFunc (c : Ctx) (binds : Nat → Option Binding) (i : Nat) : Option (Func (Store δ)) :=
  (binds i).map fun b optarg st =>
    let val := (c.commands.items[i]?.map fun cmd => cmd.opt.val).getD 0
    (0, fun x => if x = b.target then b.builtin.store strtod val optarg (st x) else st x)

/-! ## Settings -/

/-- The type of a value. -/
def Cell.builtin : Cell δ → Builtin
  | .int _ => .int
  | .uint _ => .uint
  | .double _ => .double
  | .bool _ => .bool
  | .bytes _ => .bytes

/-- The argument writes the value. -/
inductive Writes : Cell δ → Option (List UInt8) → Prop
  | int (v : Int) (lo : longMin ≤ v) (hi : v ≤ longMax) : Writes (.int v) (some (printInt v))
  | uint (n : Nat) (hi : (n : Int) ≤ ulongMax) : Writes (.uint n) (some (printInt n))
  | double (text : List UInt8) : Writes (.double (strtod text)) (some text)
  | yes (text : List UInt8) (other : ∀ w ∈ falseWords, strcasecmpEq text w = false) :
      Writes (.bool true) (some text)
  | on : Writes (.bool true) none
  | no (text w : List UInt8) (word : w ∈ falseWords) (same : strcasecmpEq text w = true) :
      Writes (.bool false) (some text)
  | bytes (text : List UInt8) (clean : ∀ b ∈ text, b ≠ NUL) :
      Writes (.bytes (some text)) (some text)
  | null : Writes (.bytes none) none

/-- A setting: the command, and the value. -/
abbrev Setting (δ : Type) := Nat × Cell δ

/-- The option writes the setting, for a variable of its type. -/
def Sets (binds : Nat → Option Binding) (o : Nat × Option (List UInt8)) (s : Setting δ) : Prop :=
  o.1 = s.1 ∧ Writes strtod s.2 o.2 ∧ (binds s.1).map Binding.builtin = some s.2.builtin

/-- The last of the settings for a variable. -/
def lastFor (binds : Nat → Option Binding) (x : Nat) (ss : List (Setting δ)) :
    Option (Cell δ) :=
  (ss.filter fun s => (binds s.1).map Binding.target = some x).getLast?.map Prod.snd

variable {strtod}

/-- **What is written is what is stored.** -/
theorem Writes.store {v : Cell δ} {arg : Option (List UInt8)} (h : Writes strtod v arg) (val : Int)
    (old : Cell δ) : v.builtin.store strtod val arg old = v := by
  cases h with
  | int v lo hi => exact congrArg Cell.int (strtol_printInt lo hi)
  | uint n hi => exact congrArg Cell.uint (strtoul_printInt hi)
  | double text => rfl
  | yes text other =>
      have hany : falseWords.any (strcasecmpEq text) = false :=
        List.any_eq_false.mpr fun w hw => by simp [other w hw]
      exact congrArg Cell.bool (by rw [mncommandOptionBool, hany]; rfl)
  | on => rfl
  | no text w word same =>
      have hany : falseWords.any (strcasecmpEq text) = true := List.any_eq_true.mpr ⟨w, word, same⟩
      exact congrArg Cell.bool (by rw [mncommandOptionBool, hany]; rfl)
  | bytes text clean =>
      exact congrArg Cell.bytes (by rw [mncommandOptionBytes, cstr_of_no_nul clean])
  | null => rfl

theorem lastFor_cons (binds : Nat → Option Binding) (x : Nat) (s : Setting δ)
    (ss : List (Setting δ)) (old : Cell δ) :
    (lastFor binds x (s :: ss)).getD old = (lastFor binds x ss).getD
      (if (binds s.1).map Binding.target = some x then s.2 else old) := by
  unfold lastFor
  rw [List.filter_cons]
  by_cases hx : (binds s.1).map Binding.target = some x
  · rw [if_pos (decide_eq_true hx), if_pos hx, List.getLast?_cons]
    cases (ss.filter fun s => (binds s.1).map Binding.target = some x).getLast? <;> rfl
  · rw [if_neg (by simpa using hx), if_neg hx]

theorem callAll_settings (c : Ctx) {binds : Nat → Option Binding}
    {os : List (Nat × Option (List UInt8))} {ss : List (Setting δ)}
    (h : List.Forall₂ (Sets strtod binds) os ss) : ∀ st : Store δ,
    callAll (boundFunc strtod c binds) os st =
      (none, fun x => (lastFor binds x ss).getD (st x)) := by
  induction h with
  | nil => exact fun _ => rfl
  | @cons o s os ss hset _ ih =>
      intro st
      obtain ⟨i, arg⟩ := o
      obtain ⟨rfl, hwrites, hbind⟩ := hset
      obtain ⟨b, hb, hbuiltin⟩ := Option.map_eq_some_iff.mp hbind
      have hcall : callFunc (boundFunc strtod c binds) s.1 arg st =
          (0, fun x => if (binds s.1).map Binding.target = some x then s.2 else st x) := by
        unfold callFunc boundFunc
        simp only [hb, Option.map_some, hbuiltin, Option.some.injEq]
        refine congrArg (Prod.mk 0) (funext fun x => ?_)
        by_cases hx : x = b.target
        · subst hx
          rw [if_pos rfl, if_pos rfl, hwrites.store]
        · rw [if_neg hx, if_neg (Ne.symm hx)]
      unfold callAll
      simp only [hcall, ne_eq, not_true, if_false, ih]
      refine Prod.ext rfl (funext fun x => ?_)
      exact (lastFor_cons binds x s ss (st x)).symm

end

/-- **Settings that are written on a command line are what is stored.**  Any line of
phrases over the registered commands that writes these settings, with operands
between and behind them, is parsed to its end, and every variable holds the last of
the settings for it, or what it held. -/
theorem settings_round_trip {δ : Type} (strtod : List UInt8 → δ) (es : List Event)
    (basename : List UInt8) (g : Grow) (c : Ctx) (binds : Nat → Option Binding)
    (ps : List (Phrase Nat)) (e : Ending) (ss : List (Setting δ)) (st : Store δ)
    (hund : Undisturbed es) (hrun : exec step Ctx.init (es ++ [.getopt basename g]) = some c)
    (hps : ∀ p ∈ ps, Spells c.commands.items p) (he : e.Wrong = false)
    (hss : List.Forall₂ (Sets strtod binds) (ps.flatMap (occurrences c.commands.items)) ss) :
    let args := ps.flatMap Phrase.render ++ e.render
    let operands := ps.flatMap Phrase.operands ++ e.operands
    Returns (getoptStep c (boundFunc strtod c binds) (args.length + 1)) (⟨[], args, []⟩, st)
      (.optind (args.length + 1 - operands.length) operands,
        fun x => (lastFor binds x ss).getD (st x)) := by
  intro args operands
  have hnone : e.occurrences c.commands.items = [] := by
    rw [Ending.occurrences, (Parsing.finished (c := c) he []).1]
    rfl
  have hline := (parsing_of_history hund hrun).line (boundFunc strtod c binds) hps
    (Ending.fits_of_not_wrong he) (fun hw => absurd (hw.symm.trans he) nofun) (args.length + 1) st
  rw [hnone, List.append_nil, callAll_settings c hss] at hline
  simp only [Option.map_none, Option.getD_none, Ending.result, he, Bool.false_eq_true,
    if_false] at hline
  exact hline

/-- `-v`, which turns variable 0 on, and `-o` for the number in variable 1. -/
def twoBindings : Nat → Option Binding
  | 0 => some ⟨.bool, 0⟩
  | 1 => some ⟨.int, 1⟩
  | _ => none

/-- `-v --out=-5 file --output=7` -/
def numberLine : List (Phrase Nat) :=
  [.letters 118 [], .long 1 (ascii "out") (some (ascii "-5")), .operand (ascii "file"),
    .long 1 (ascii "output") (some (ascii "7"))]

theorem settings_round_trip_number :
    ∃ c, exec step Ctx.init (verboseOutput ++ [.getopt (ascii "prog") .inPlace]) = some c ∧
      Returns (getoptStep c (boundFunc id c twoBindings) 5)
        (⟨[], [ascii "-v", ascii "--out=-5", ascii "file", ascii "--output=7"], []⟩,
          fun _ => .bytes none)
        (.optind 4 [ascii "file"], fun x => (lastFor twoBindings x
          [(0, .bool true), (1, .int (-5)), (1, .int 7)]).getD (.bytes none)) := by
  refine ⟨_, rfl, ?_⟩
  refine settings_round_trip id verboseOutput (ascii "prog") .inPlace _ twoBindings numberLine
    .nothing [(0, .bool true), (1, .int (-5)), (1, .int 7)] (fun _ => .bytes none)
    verboseOutput_undisturbed rfl ?_ rfl ?_
  · intro p hp
    simp only [numberLine, List.mem_cons, List.not_mem_nil, or_false] at hp
    rcases hp with rfl | rfl | rfl | rfl
    · intro x hx
      cases List.mem_singleton.mp hx
      exact ⟨by decide, _, rfl, by decide⟩
    · exact ⟨⟨by decide, by decide⟩, _, rfl, by decide⟩
    · show kind _ = _
      decide
    · exact ⟨⟨by decide, by decide⟩, _, rfl, by decide⟩
  · refine .cons ⟨rfl, .on, rfl⟩ (.cons ⟨rfl, ?_, rfl⟩ (.cons ⟨rfl, ?_, rfl⟩ .nil))
    · exact Writes.int (-5) (by decide) (by decide)
    · exact Writes.int 7 (by decide) (by decide)

end MnCommand
