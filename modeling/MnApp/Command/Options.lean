/-
# `MnApp.Command.Options` — a command line is read as it was written

The loop of `mncommand_ctx_getopt`, between the two arrays of the context and
`getopt_long` (`MnApp.Lib.Getopt`):

| `getopt_long` finds | it returns, and `curropt` | the command              |
| :-- | :-- | :-- |
| a long option       | 0, its index              | at that index            |
| a short option      | the letter, -1            | the first of that `val`  |
| something else      | `'?'`, -1                 | the first of that `val`, |
|                     |                           | if there is one          |

The callback of the command is called with the argument; a result other than 0
ends the loop.  What the callbacks do is left open here; those that `mncommand.c`
brings with it are in `MnApp.Command.Settings`.

**What can be written** is a list of phrases over the registered commands
(`Spells`): any long name or a beginning of one that only one has, with its argument
behind an equals sign or as the next argument, letters alone or in groups,
operands anywhere.  Behind them the line ends, or goes on with something that is
not understood (`Ending`).  Every line is of that form (`line_spelled`).  Whichever
way it is written, the callbacks are called for what is meant, in order, up to the
first that fails (`command_line_calls`).

**Left open.**  A callback that registers commands or parses again, a command that
is registered under the question mark and a line that is not understood, a second
line in the same process, where `optind` is where the first has left it, and a
`getopt_long` that does not permute its arguments.
-/
import Mathlib.Data.List.Forall2
import MnApp.Command.Aligned
import MnApp.Command.Symbols
import MnApp.Lib.Getopt
import MnApp.Lib.Loop

namespace MnCommand

open CLib Run Loop Getopt

/-! ## The loop -/

/-- `has_arg`, as `getopt_long` reads it. -/
def takes (hasArg : Int) : Takes :=
  if hasArg = noArgument then .none
  else if hasArg = requiredArgument then .required else .optional

/-- What `getopt_long` is given: the array of options and the symbols. -/
def optTable (c : Ctx) : Table Nat where
  long word := (longIndex c.options.items word).bind fun i =>
    c.options.items[i]?.map fun o => (i, takes o.hasArg)
  short ch := c.running.bind fun p =>
    ((decodeSymbols (cstr p.symbols)).find? fun x => x.1 == (ch.toNat : Int)).map fun x => takes x.2

/-- `curropt` behind the call. -/
def curropt : Answer Nat → Option Nat
  | .long i _ => some i
  | _ => none

/-- The result of the call.  Every option has a flag, so a long one gives 0. -/
def optch : Answer Nat → Int
  | .long _ _ => 0
  | .short c _ => c.toNat
  | .bad => 63
  | .finished => -1

/-- `optarg` behind the call. -/
def optarg : Answer Nat → Option (List UInt8)
  | .long _ arg => arg
  | .short _ arg => arg
  | .bad | .finished => none

/-- `mncommand_ctx_find_cmd`: where the command is that it finds. -/
def findCmdIdx (c : Ctx) (curropt : Option Nat) (optch : Int) : Option Nat :=
  match curropt with
  | none => c.commands.items.findIdx? fun cmd => cmd.opt.val == optch
  | some i => if i < c.commands.items.length then some i else none

theorem findCmdIdx_cmd (c : Ctx) (curropt : Option Nat) (optch : Int) :
    (findCmdIdx c curropt optch).bind (c.commands.items[·]?) =
      mncommandCtxFindCmd c curropt optch := by
  cases curropt with
  | none =>
      unfold findCmdIdx mncommandCtxFindCmd
      simp only
      cases hi : c.commands.items.findIdx? fun cmd => cmd.opt.val == optch with
      | none =>
          have hnone := List.findIdx?_eq_none_iff.mp hi
          rw [List.find?_eq_none.mpr fun cmd hcmd => by simpa using hnone cmd hcmd]
          rfl
      | some i =>
          obtain ⟨hlt, hval, hno⟩ := List.findIdx?_eq_some_iff_getElem.mp hi
          rw [Option.bind_some, List.getElem?_eq_getElem hlt]
          rw [eq_comm, List.find?_eq_some_iff_getElem]
          exact ⟨hval, i, hlt, rfl, fun j hj => by simpa using hno j hj⟩
  | some i =>
      unfold findCmdIdx mncommandCtxFindCmd
      simp only
      split
      · rfl
      · rename_i hge
        rw [List.getElem?_eq_none (Nat.not_lt.mp hge)]
        rfl

/-- A callback: `optarg` and what it works on, and its result. -/
abbrev Func (σ : Type) := Option (List UInt8) → σ → Int × σ

/-- How the call of `mncommand_ctx_getopt` ends: with `optind`, and the arguments
that stand from there on, with `MNCOMMAND_CTX_GETOPT + 2`, or with what a callback
returned. -/
inductive Ended where
  | optind (n : Nat) (rest : List (List UInt8))
  | notFound
  | func (res : Int)
deriving DecidableEq, Repr

section
variable {σ : Type} (c : Ctx) (func : Nat → Option (Func σ)) (argc : Nat)

/-- The call of a command's callback; without one nothing happens. -/
def callFunc (i : Nat) (arg : Option (List UInt8)) (u : σ) : Int × σ :=
  match func i with
  | none => (0, u)
  | some f => f arg u

/-- One round of the loop. -/
def getoptStep (x : Scan × σ) : Next (Scan × σ) (Ended × σ) :=
  match getoptLong (optTable c) x.1 with
  | (.finished, s) => .done (.optind (argc - s.operands.length) s.operands, x.2)
  | (a, s) =>
      match findCmdIdx c (curropt a) (optch a) with
      | none => .done (.notFound, x.2)
      | some i =>
          let r := callFunc func i (optarg a) x.2
          if r.1 ≠ 0 then .done (.func r.1, r.2) else .again (s, r.2)

/-- The calls for a list of options, up to the first that fails. -/
def callAll : List (Nat × Option (List UInt8)) → σ → Option Int × σ
  | [], u => (none, u)
  | (i, arg) :: rest, u =>
      let r := callFunc func i arg u
      if r.1 ≠ 0 then (some r.1, r.2) else callAll rest r.2

variable {c}

theorem getoptStep_finished {s s' : Scan} {u : σ}
    (h : getoptLong (optTable c) s = (.finished, s')) :
    getoptStep c func argc (s, u) =
      .done (.optind (argc - s'.operands.length) s'.operands, u) := by
  unfold getoptStep
  simp only [h]

theorem getoptStep_option {s s' : Scan} {a : Answer Nat} {u : σ}
    (h : getoptLong (optTable c) s = (a, s')) (ha : a ≠ .finished) :
    getoptStep c func argc (s, u) =
      match findCmdIdx c (curropt a) (optch a) with
      | none => .done (.notFound, u)
      | some i =>
          let r := callFunc func i (optarg a) u
          if r.1 ≠ 0 then .done (.func r.1, r.2) else .again (s', r.2) := by
  unfold getoptStep
  simp only [h]

/-- **Whatever the line is and whatever the callbacks do, the loop ends.** -/
theorem getopt_ends (x : Scan × σ) : ∃ r, Returns (getoptStep c func argc) x r := by
  refine returns_of_decreasing Nat.lt_wfRel.wf (fun x : Scan × σ => x.1.weight)
    (I := fun _ => True) ?_ trivial
  rintro ⟨s, u⟩ ⟨t, v⟩ - hstep
  refine ⟨trivial, ?_⟩
  cases hcall : getoptLong (optTable c) s with
  | mk a s' =>
      by_cases ha : a = .finished
      · subst ha
        rw [getoptStep_finished func argc hcall] at hstep
        cases hstep
      · have hweight := getoptLong_weight hcall ha
        rw [getoptStep_option func argc hcall ha] at hstep
        split at hstep
        · cases hstep
        · simp only at hstep
          split at hstep
          · cases hstep
          · cases hstep
            exact hweight

/-- The option that is answered with is the one that is meant. -/
def Means (c : Ctx) (a : Answer Nat) (o : Nat × Option (List UInt8)) : Prop :=
  findCmdIdx c (curropt a) (optch a) = some o.1 ∧ optarg a = o.2

/-- **The loop on the options of a line**: their calls, one by one. -/
theorem yields_calls {s t : Scan} {as : List (Answer Nat)} {os : List (Nat × Option (List UInt8))}
    (h : Yields (optTable c) s as t) (hos : List.Forall₂ (Means c) as os) (u : σ) :
    match callAll func os u with
    | (some res, v) => Returns (getoptStep c func argc) (s, u) (.func res, v)
    | (none, v) => ∃ t', getoptLong (optTable c) t' = getoptLong (optTable c) t ∧
        Reaches (getoptStep c func argc) (s, u) (t', v) := by
  induction h generalizing os u with
  | @same s t eq =>
      cases hos
      exact ⟨s, eq, .refl _⟩
  | @call s s' t a as eq more rest ih =>
      cases hos with
      | @cons a o as os hmeans hos =>
          obtain ⟨i, arg⟩ := o
          obtain ⟨hidx, harg⟩ := hmeans
          have hstep := getoptStep_option func argc (u := u) eq more
          simp only [hidx, harg] at hstep
          unfold callAll
          by_cases hres : (callFunc func i arg u).1 = 0
          · rw [if_neg (not_not.mpr hres)] at hstep
            simp only [hres, ne_eq, not_true, if_false]
            have hrest := ih hos (callFunc func i arg u).2
            split
            · rename_i hcall
              rw [hcall] at hrest
              exact .of_again hstep hrest
            · rename_i hcall
              rw [hcall] at hrest
              obtain ⟨t', ht', hreach⟩ := hrest
              exact ⟨t', ht', .head hstep hreach⟩
          · rw [if_pos hres] at hstep
            simp only [hres, ne_eq, not_false_eq_true, if_true]
            exact .of_done hstep

end

/-! ## What can be written -/

/-- The command at an index takes arguments in such a way. -/
def TakesAt (cmds : List Cmd) (P : Int → Prop) (i : Nat) : Prop :=
  ∃ cmd, cmds[i]? = some cmd ∧ P cmd.opt.hasArg

/-- The name of a command, or a beginning that no other has. -/
def Names (cmds : List Cmd) (name : List UInt8) (i : Nat) : Prop :=
  EQUALS ∉ name ∧ longIndex (cmds.map Cmd.opt) name = some i

/-- The command of a letter: the first whose `val` it is. -/
def letterIdx (cmds : List Cmd) (x : UInt8) : Nat :=
  cmds.findIdx fun cmd => cmd.opt.val == (x.toNat : Int)

/-- A letter of a command that takes arguments in such a way. -/
def LetterOf (cmds : List Cmd) (P : Int → Prop) (x : UInt8) : Prop :=
  isalnum x.toNat = true ∧ TakesAt cmds P (letterIdx cmds x)

/-- The phrase is about these commands.  A letter takes the next argument even where
the argument is optional. -/
def Spells (cmds : List Cmd) : Phrase Nat → Prop
  | .long i name none => name ≠ [] ∧ Names cmds name i ∧ TakesAt cmds (· ≠ requiredArgument) i
  | .long i name (some _) => Names cmds name i ∧ TakesAt cmds (· ≠ noArgument) i
  | .longNext i name _ => name ≠ [] ∧ Names cmds name i ∧ TakesAt cmds (· = requiredArgument) i
  | .letters c cs => ∀ x ∈ c :: cs, LetterOf cmds (· = noArgument) x
  | .lettersArg cs c arg => (∀ x ∈ cs, LetterOf cmds (· = noArgument) x) ∧
      LetterOf cmds (· ≠ noArgument) c ∧ arg ≠ []
  | .lettersNext cs c _ => (∀ x ∈ cs, LetterOf cmds (· = noArgument) x) ∧
      LetterOf cmds (· ≠ noArgument) c
  | .operand text => kind text = .operand

/-- The options that are meant: the index of the command, and the argument. -/
def occurrences (cmds : List Cmd) : Phrase Nat → List (Nat × Option (List UInt8))
  | .long i _ arg => [(i, arg)]
  | .longNext i _ arg => [(i, some arg)]
  | .letters c cs => (c :: cs).map fun x => (letterIdx cmds x, none)
  | .lettersArg cs c arg =>
      cs.map (fun x => (letterIdx cmds x, none)) ++ [(letterIdx cmds c, some arg)]
  | .lettersNext cs c arg =>
      cs.map (fun x => (letterIdx cmds x, none)) ++ [(letterIdx cmds c, some arg)]
  | .operand _ => []

/-- `mncommand_ctx_getopt` has begun on commands that all have their options. -/
structure Parsing (c : Ctx) : Prop where
  items : ∃ k, c.options.items = c.commands.items.map Cmd.opt ++ List.replicate (k + 1) Opt.zero
  symbols : ∃ p, c.running = some p ∧ p.symbols = symbols c.commands

theorem parsing_of_history {es : List Event} {basename : List UInt8} {g : Grow} {c : Ctx}
    (hund : Undisturbed es) (hrun : exec step Ctx.init (es ++ [.getopt basename g]) = some c) :
    Parsing c := by
  have hund' : Undisturbed (es ++ [.getopt basename g]) := (undisturbed_snoc_of_not id).mpr hund
  have hlast := hrun
  rw [exec_append] at hlast
  obtain ⟨c₀, -, hlast⟩ := Option.bind_eq_some_iff.mp hlast
  obtain ⟨c₁, hstep, hend⟩ := exec_cons hlast
  cases hend
  obtain ⟨hcommands, -, hrunning⟩ := getopt_cases hstep
  rw [← hcommands] at hrunning
  refine ⟨?_, _, hrunning, rfl⟩
  cases after_history hrun with
  | fresh _ before _ =>
      exact absurd trivial (before _ (List.mem_append_right _ (List.mem_singleton_self _)))
  | ready _ _ hc => exact hc.table
  | short h _ | broken h _ => exact absurd hund' h

theorem entries_opts (cmds : List Cmd) (rest : List Opt) :
    entries (cmds.map Cmd.opt ++ rest) = cmds.map Cmd.opt ++ entries rest := by
  unfold entries
  refine List.takeWhile_append_of_pos fun o ho => ?_
  obtain ⟨cmd, -, rfl⟩ := List.mem_map.mp ho
  rw [cmd.opt_name]
  rfl

theorem longIndex_congr {t t' : List Opt} (h : entries t = entries t') (word : List UInt8) :
    longIndex t word = longIndex t' word := by
  unfold longIndex abbreviated
  rw [h]

theorem find?_letter {cmds : List Cmd} {x : UInt8} {cmd : Cmd}
    (h : cmds[letterIdx cmds x]? = some cmd) :
    cmds.find? (fun cmd => cmd.opt.val == (x.toNat : Int)) = some cmd := by
  unfold letterIdx at h
  obtain ⟨hlt, hget⟩ := List.getElem?_eq_some_iff.mp h
  rw [List.find?_eq_some_iff_getElem]
  refine ⟨?_, _, hlt, hget, fun j hj => ?_⟩
  · rw [← hget]
    exact List.findIdx_getElem (w := hlt)
  · simpa using List.not_of_lt_findIdx hj

theorem find?_shortForms {cmds : List Cmd} {v : Int} {cmd : Cmd} (hal : isalnum v = true)
    (h : cmds.find? (fun cmd => cmd.opt.val == v) = some cmd) :
    (shortForms cmds).find? (fun q => q.1 == v) = some (cmd.opt.val, cmd.opt.hasArg) := by
  have hboth : ∀ cmd : Cmd, (isalnum cmd.opt.val && cmd.opt.val == v) = (cmd.opt.val == v) := by
    intro cmd
    by_cases hv : cmd.opt.val = v
    · simp [hv, hal]
    · simp [hv]
  rw [shortForms, List.find?_filter, List.find?_map]
  simp only [Function.comp_def, Bool.decide_and, Bool.decide_eq_true]
  simp only [hboth, h, Option.map_some]

theorem takes_ne_none {hasArg : Int} (h : hasArg ≠ noArgument) : takes hasArg ≠ .none := by
  rw [takes, if_neg h]
  split <;> nofun

theorem takes_ne_required {hasArg : Int} (h : hasArg ≠ requiredArgument) :
    takes hasArg ≠ .required := by
  rw [takes, if_neg h]
  split <;> nofun

theorem LetterOf.ne_dash {cmds : List Cmd} {P : Int → Prop} {x : UInt8} (h : LetterOf cmds P x) :
    x ≠ HYPHEN := by
  rintro rfl
  cases h.1

theorem dash_not_mem {cmds : List Cmd} {P Q : Int → Prop} {xs : List UInt8} {x : UInt8}
    (hxs : ∀ y ∈ xs, LetterOf cmds P y) (hx : LetterOf cmds Q x) : HYPHEN ∉ xs ++ [x] := by
  intro hmem
  rcases List.mem_append.mp hmem with hmem | hmem
  · exact (hxs _ hmem).ne_dash rfl
  · exact hx.ne_dash (List.mem_singleton.mp hmem).symm

namespace Parsing

variable {c : Ctx} (h : Parsing c)
include h

theorem longIndex_eq (name : List UInt8) :
    longIndex c.options.items name = longIndex (c.commands.items.map Cmd.opt) name := by
  obtain ⟨k, hitems⟩ := h.items
  have hnil := entries_opts c.commands.items []
  rw [List.append_nil] at hnil
  refine longIndex_congr ?_ name
  rw [hitems, entries_opts, hnil]
  rfl

theorem decoded : ∃ p, c.running = some p ∧ decodeSymbols (cstr p.symbols) =
    (shortForms c.commands.items).map fun q => (q.1, argumentSign q.2) := by
  obtain ⟨p, hp, hsymbols⟩ := h.symbols
  refine ⟨p, hp, ?_⟩
  rw [hsymbols, symbols_eq, cstr_stop (no_nul_symbols _), decodeSymbols_symbols]

theorem long {name : List UInt8} {i : Nat} {P : Int → Prop} (hname : Names c.commands.items name i)
    (htakes : TakesAt c.commands.items P i) :
    ∃ hasArg, P hasArg ∧ (optTable c).long name = some (i, takes hasArg) := by
  obtain ⟨k, hitems⟩ := h.items
  obtain ⟨cmd, hcmd, hP⟩ := htakes
  refine ⟨cmd.opt.hasArg, hP, ?_⟩
  have hidx : longIndex c.options.items name = some i := (h.longIndex_eq name).trans hname.2
  have hopt : c.options.items[i]? = some cmd.opt := by
    rw [hitems, List.getElem?_append_left
      (by simpa using (List.getElem?_eq_some_iff.mp hcmd).1), List.getElem?_map, hcmd]
    rfl
  simp only [optTable, hidx, Option.bind_some, hopt, Option.map_some]

theorem short {x : UInt8} {P : Int → Prop} (hx : LetterOf c.commands.items P x) :
    ∃ hasArg, P hasArg ∧ (optTable c).short x = some (takes (argumentSign hasArg)) := by
  obtain ⟨p, hp, hdecode⟩ := h.decoded
  obtain ⟨hal, cmd, hcmd, hP⟩ := hx
  refine ⟨cmd.opt.hasArg, hP, ?_⟩
  simp only [optTable, hp, Option.bind_some, hdecode, List.find?_map, Function.comp_def]
  rw [find?_shortForms hal (find?_letter hcmd)]
  rfl

theorem short_plain {x : UInt8} (hx : LetterOf c.commands.items (· = noArgument) x) :
    (optTable c).short x = some .none := by
  obtain ⟨hasArg, rfl, hshort⟩ := h.short hx
  exact hshort

theorem short_arg {x : UInt8} (hx : LetterOf c.commands.items (· ≠ noArgument) x) :
    (optTable c).short x = some .required := by
  obtain ⟨hasArg, hne, hshort⟩ := h.short hx
  rw [argumentSign, if_pos hne] at hshort
  exact hshort

/-- **What fits the commands is understood by `getopt_long`.** -/
theorem ok {p : Phrase Nat} (hp : Spells c.commands.items p) : p.Ok (optTable c) := by
  cases p with
  | long i name arg =>
      cases arg with
      | none =>
          obtain ⟨hne, hname, htakes⟩ := hp
          obtain ⟨hasArg, hreq, hlong⟩ := h.long hname htakes
          exact ⟨⟨hne, hname.1⟩, _, hlong, takes_ne_required hreq⟩
      | some arg =>
          obtain ⟨hname, htakes⟩ := hp
          obtain ⟨hasArg, hno, hlong⟩ := h.long hname htakes
          exact ⟨hname.1, _, hlong, takes_ne_none hno⟩
  | longNext i name arg =>
      obtain ⟨hne, hname, htakes⟩ := hp
      obtain ⟨hasArg, rfl, hlong⟩ := h.long hname htakes
      exact ⟨⟨hne, hname.1⟩, hlong⟩
  | letters x xs => exact ⟨fun hmem => (hp _ hmem).ne_dash rfl, fun y hy => h.short_plain (hp y hy)⟩
  | lettersArg xs x arg =>
      obtain ⟨hxs, hx, hne⟩ := hp
      exact ⟨dash_not_mem hxs hx, fun y hy => h.short_plain (hxs y hy), hne, _, h.short_arg hx,
        nofun⟩
  | lettersNext xs x arg =>
      obtain ⟨hxs, hx⟩ := hp
      exact ⟨dash_not_mem hxs hx, fun y hy => h.short_plain (hxs y hy), h.short_arg hx⟩
  | operand text => exact hp

end Parsing

section
variable {c : Ctx}

theorem means_letter {x : UInt8} {P : Int → Prop} (hx : LetterOf c.commands.items P x)
    (arg : Option (List UInt8)) :
    Means c (.short x arg) (letterIdx c.commands.items x, arg) := by
  obtain ⟨-, cmd, hcmd, -⟩ := hx
  exact ⟨List.findIdx?_eq_some_iff_findIdx_eq.mpr ⟨(List.getElem?_eq_some_iff.mp hcmd).1, rfl⟩, rfl⟩

theorem means_letters {xs : List UInt8} {P : Int → Prop}
    (hxs : ∀ x ∈ xs, LetterOf c.commands.items P x) :
    List.Forall₂ (Means c) (xs.map fun x => .short x none)
      (xs.map fun x => (letterIdx c.commands.items x, none)) := by
  induction xs with
  | nil => exact .nil
  | cons x xs ih =>
      exact .cons (means_letter (hxs x List.mem_cons_self) none)
        (ih fun y hy => hxs y (List.mem_cons_of_mem _ hy))

theorem means_long {i : Nat} {P : Int → Prop} (htakes : TakesAt c.commands.items P i)
    (arg : Option (List UInt8)) : Means c (.long i arg) (i, arg) := by
  obtain ⟨cmd, hcmd, -⟩ := htakes
  exact ⟨if_pos (List.getElem?_eq_some_iff.mp hcmd).1, rfl⟩

/-- **And the commands that are found for it are those that are meant.** -/
theorem means {p : Phrase Nat} (hp : Spells c.commands.items p) :
    List.Forall₂ (Means c) p.answers (occurrences c.commands.items p) := by
  cases p with
  | long i name arg =>
      cases arg with
      | none => exact .cons (means_long hp.2.2 none) .nil
      | some arg => exact .cons (means_long hp.2 (some arg)) .nil
  | longNext i name arg => exact .cons (means_long hp.2.2 (some arg)) .nil
  | letters x xs => exact means_letters hp
  | lettersArg xs x arg =>
      exact List.rel_append (means_letters hp.1) (.cons (means_letter hp.2.1 _) .nil)
  | lettersNext xs x arg =>
      exact List.rel_append (means_letters hp.1) (.cons (means_letter hp.2 _) .nil)
  | operand text => exact .nil

theorem means_all {ps : List (Phrase Nat)} (hps : ∀ p ∈ ps, Spells c.commands.items p) :
    List.Forall₂ (Means c) (ps.flatMap Phrase.answers)
      (ps.flatMap (occurrences c.commands.items)) := by
  induction ps with
  | nil => exact .nil
  | cons p ps ih =>
      rw [List.flatMap_cons, List.flatMap_cons]
      exact List.rel_append (means (hps p List.mem_cons_self))
        (ih fun q hq => hps q (List.mem_cons_of_mem _ hq))

end

/-! ## Whole lines -/

/-- How a line goes on behind the phrases. -/
inductive Ending where
  | nothing
  /-- `--`, and operands -/
  | stop (rest : List (List UInt8))
  /-- a name that no command has, with or without an argument -/
  | unknownName (name : List UInt8) (arg : Option (List UInt8)) (rest : List (List UInt8))
  /-- a letter that no command has, behind others in its group -/
  | unknownLetter (cs : List UInt8) (x : UInt8) (xs : List UInt8) (rest : List (List UInt8))
  /-- an argument for a command that takes none -/
  | surplus (name arg : List UInt8) (rest : List (List UInt8))
  /-- no argument for a command that requires one -/
  | missing (name : List UInt8)
  /-- the same, for a letter at the end of its group -/
  | missingLetter (cs : List UInt8) (x : UInt8)
deriving DecidableEq, Repr

namespace Ending

def render : Ending → List (List UInt8)
  | .nothing => []
  | .stop rest => [HYPHEN, HYPHEN] :: rest
  | .unknownName name none rest => (HYPHEN :: HYPHEN :: name) :: rest
  | .unknownName name (some arg) rest => (HYPHEN :: HYPHEN :: (name ++ EQUALS :: arg)) :: rest
  | .unknownLetter cs x xs rest => (HYPHEN :: (cs ++ x :: xs)) :: rest
  | .surplus name arg rest => (HYPHEN :: HYPHEN :: (name ++ EQUALS :: arg)) :: rest
  | .missing name => [HYPHEN :: HYPHEN :: name]
  | .missingLetter cs x => [HYPHEN :: (cs ++ [x])]

def operands : Ending → List (List UInt8)
  | .stop rest => rest
  | _ => []

/-- The letters that are still understood. -/
def letters : Ending → List UInt8
  | .unknownLetter cs _ _ _ | .missingLetter cs _ => cs
  | _ => []

/-- The line is wrong from here on. -/
def Wrong : Ending → Bool
  | .nothing | .stop _ => false
  | _ => true

/-- It is as it says. -/
def Fits (cmds : List Cmd) : Ending → Prop
  | .nothing | .stop _ => True
  | .unknownName name arg _ => (arg = none → name ≠ []) ∧ EQUALS ∉ name ∧
      longIndex (cmds.map Cmd.opt) name = none
  | .unknownLetter cs x _ _ => (∀ y ∈ cs, LetterOf cmds (· = noArgument) y) ∧
      (cs = [] → x ≠ HYPHEN) ∧
      ∀ cmd ∈ cmds, isalnum cmd.opt.val = true → cmd.opt.val ≠ (x.toNat : Int)
  | .surplus name _ _ => ∃ i, Names cmds name i ∧ TakesAt cmds (· = noArgument) i
  | .missing name => name ≠ [] ∧ ∃ i, Names cmds name i ∧ TakesAt cmds (· = requiredArgument) i
  | .missingLetter cs x => (∀ y ∈ cs, LetterOf cmds (· = noArgument) y) ∧
      LetterOf cmds (· ≠ noArgument) x

theorem fits_of_not_wrong {cmds : List Cmd} {e : Ending} (h : e.Wrong = false) : e.Fits cmds := by
  cases e with
  | nothing | stop => trivial
  | unknownName | unknownLetter | surplus | missing | missingLetter => cases h

/-- The options that are still meant. -/
def occurrences (cmds : List Cmd) (e : Ending) : List (Nat × Option (List UInt8)) :=
  e.letters.map fun x => (letterIdx cmds x, none)

/-- What is returned then, with the operands that came before. -/
def result (argc : Nat) (before : List (List UInt8)) (e : Ending) : Ended :=
  if e.Wrong then .notFound
  else .optind (argc - (before ++ e.operands).length) (before ++ e.operands)

end Ending

section
variable {c : Ctx} {σ : Type} (func : Nat → Option (Func σ)) (argc : Nat)

theorem Parsing.long_none (h : Parsing c) {name : List UInt8}
    (hname : longIndex (c.commands.items.map Cmd.opt) name = none) :
    (optTable c).long name = none := by
  simp only [optTable, h.longIndex_eq, hname, Option.bind_none]

theorem Parsing.short_none (h : Parsing c) {x : UInt8}
    (hx : ∀ cmd ∈ c.commands.items, isalnum cmd.opt.val = true → cmd.opt.val ≠ (x.toNat : Int)) :
    (optTable c).short x = none := by
  obtain ⟨p, hp, hdecode⟩ := h.decoded
  simp only [optTable, hp, Option.bind_some, hdecode, List.find?_map, Function.comp_def,
    Option.map_eq_none_iff]
  rw [List.find?_eq_none]
  intro q hq
  obtain ⟨cmd, hcmd, hal, rfl⟩ := mem_shortForms.mp hq
  simpa using hx cmd hcmd hal

theorem Parsing.group (h : Parsing c) {cs xs : List UInt8} {x : UInt8}
    (hcs : ∀ y ∈ cs, LetterOf c.commands.items (· = noArgument) y) (hx : cs = [] → x ≠ HYPHEN)
    (rest before : List (List UInt8)) :
    Yields (optTable c) ⟨[], (HYPHEN :: (cs ++ x :: xs)) :: rest, before⟩
      (cs.map fun y => .short y none) ⟨x :: xs, rest, before⟩ := by
  refine group_yields (by simp) (fun r heq => ?_)
    (letters_yield (fun y hy => h.short_plain (hcs y hy)) _ _ _)
  cases cs with
  | nil => exact hx rfl (List.cons.inj heq).1
  | cons y cs => exact (hcs y List.mem_cons_self).ne_dash (List.cons.inj heq).1

/-- What is wrong is answered with a question mark, behind the letters that are still
understood. -/
theorem Parsing.wrong (h : Parsing c) {e : Ending} (he : e.Fits c.commands.items)
    (hw : e.Wrong = true) (before : List (List UInt8)) :
    ∃ t, Yields (optTable c) ⟨[], e.render, before⟩ (e.letters.map fun x => .short x none) t ∧
      (getoptLong (optTable c) t).1 = .bad := by
  cases e with
  | nothing | stop rest => cases hw
  | unknownName name arg rest =>
      obtain ⟨hne, heq, hnone⟩ := he
      refine ⟨_, .same rfl, ?_⟩
      cases arg with
      | none =>
          simp only [Ending.render, getoptLong_long (hne rfl), longAnswer, (takeWhile_name heq).1,
            h.long_none hnone]
      | some arg =>
          have hne : name ++ EQUALS :: arg ≠ [] := by simp
          simp only [Ending.render, getoptLong_long hne, longAnswer,
            (takeWhile_name_value heq arg).1, h.long_none hnone]
  | unknownLetter cs x xs rest =>
      obtain ⟨hcs, hx, hnone⟩ := he
      refine ⟨_, h.group hcs hx rest before, ?_⟩
      simp only [getoptLong, shortAnswer, h.short_none hnone]
  | surplus name arg rest =>
      obtain ⟨i, hname, htakes⟩ := he
      obtain ⟨hasArg, rfl, hlong⟩ := h.long hname htakes
      have hne : name ++ EQUALS :: arg ≠ [] := by simp
      obtain ⟨hname', htext⟩ := takeWhile_name_value hname.1 arg
      refine ⟨_, .same rfl, ?_⟩
      simp only [Ending.render, getoptLong_long hne, longAnswer, hname', hlong, htext]
      rfl
  | missing name =>
      obtain ⟨hne, i, hname, htakes⟩ := he
      obtain ⟨hasArg, rfl, hlong⟩ := h.long hname htakes
      obtain ⟨hname', htext⟩ := takeWhile_name hname.1
      refine ⟨_, .same rfl, ?_⟩
      simp only [Ending.render, getoptLong_long hne, longAnswer, hname', hlong, htext]
      rfl
  | missingLetter cs x =>
      obtain ⟨hcs, hx⟩ := he
      refine ⟨_, h.group hcs (fun _ => hx.ne_dash) [] before, ?_⟩
      simp only [getoptLong, shortAnswer, h.short_arg hx]
      rfl

theorem Parsing.bad_step {t : Scan} (h : (getoptLong (optTable c) t).1 = .bad)
    (hquery : ∀ cmd ∈ c.commands.items, cmd.opt.val ≠ 63) (u : σ) :
    getoptStep c func argc (t, u) = .done (.notFound, u) := by
  have hcall : getoptLong (optTable c) t = (.bad, (getoptLong (optTable c) t).2) := Prod.ext h rfl
  have hidx : findCmdIdx c (curropt .bad) (optch .bad) = none :=
    List.findIdx?_eq_none_iff.mpr fun cmd hcmd => by simpa [optch] using hquery cmd hcmd
  rw [getoptStep_option func argc hcall nofun, hidx]

theorem Parsing.finished {e : Ending} (hw : e.Wrong = false) (before : List (List UInt8)) :
    e.letters = [] ∧ getoptLong (optTable c) ⟨[], e.render, before⟩ =
      (.finished, ⟨[], [], before ++ e.operands⟩) := by
  cases e with
  | nothing =>
      refine ⟨rfl, ?_⟩
      simp only [Ending.render, Ending.operands, List.append_nil]
      rfl
  | stop rest => exact ⟨rfl, rfl⟩
  | unknownName | unknownLetter | surplus | missing | missingLetter => cases hw

end

theorem Parsing.line {c : Ctx} {σ : Type} (h : Parsing c) (func : Nat → Option (Func σ))
    {ps : List (Phrase Nat)} {e : Ending} (hps : ∀ p ∈ ps, Spells c.commands.items p)
    (he : e.Fits c.commands.items)
    (hquery : e.Wrong = true → ∀ cmd ∈ c.commands.items, cmd.opt.val ≠ 63) (argc : Nat) (u : σ) :
    let calls := callAll func (ps.flatMap (occurrences c.commands.items) ++
      e.occurrences c.commands.items) u
    Returns (getoptStep c func argc) (⟨[], ps.flatMap Phrase.render ++ e.render, []⟩, u)
      ((calls.1.map Ended.func).getD (e.result argc (ps.flatMap Phrase.operands)), calls.2) := by
  intro calls
  have hphrases := phrases_yield (fun p hp => h.ok (hps p hp)) e.render []
  -- the place behind the last option, and what the loop does there
  obtain ⟨t, hyields, hend⟩ : ∃ t, Yields (optTable c)
      ⟨[], e.render, ps.flatMap Phrase.operands⟩ (e.letters.map fun x => .short x none) t ∧
      ∀ t', getoptLong (optTable c) t' = getoptLong (optTable c) t → ∀ u,
        getoptStep c func argc (t', u) =
          .done (e.result argc (ps.flatMap Phrase.operands), u) := by
    cases hw : e.Wrong with
    | true =>
        obtain ⟨t, hyields, hbad⟩ := h.wrong he hw (ps.flatMap Phrase.operands)
        refine ⟨t, hyields, fun t' ht' u => ?_⟩
        rw [Ending.result, if_pos hw]
        exact Parsing.bad_step func argc (by rw [ht']; exact hbad) (hquery hw) u
    | false =>
        obtain ⟨hletters, hfinished⟩ := Parsing.finished (c := c) hw (ps.flatMap Phrase.operands)
        refine ⟨_, by rw [hletters]; exact .same rfl, fun t' ht' u => ?_⟩
        rw [getoptStep_finished func argc (ht'.trans hfinished), Ending.result, hw]
        rfl
  have hletters : List.Forall₂ (Means c) (e.letters.map fun x => .short x none)
      (e.occurrences c.commands.items) := by
    cases e with
    | unknownLetter cs _ _ _ => exact means_letters he.1
    | missingLetter cs _ => exact means_letters he.1
    | nothing | stop | unknownName | surplus | missing => exact .nil
  have hcalls := yields_calls func argc (hphrases.trans hyields)
    (List.rel_append (means_all hps) hletters) u
  cases hc : calls.1 with
  | some res =>
      have heq : callAll func _ u = (some res, calls.2) := Prod.ext hc rfl
      rw [heq] at hcalls
      exact hcalls
  | none =>
      have heq : callAll func _ u = (none, calls.2) := Prod.ext hc rfl
      rw [heq] at hcalls
      obtain ⟨t', ht', hreach⟩ := hcalls
      exact hreach.returns (.of_done (hend t' ht' calls.2))

/-! ## Every line can be written -/

section
variable {cmds : List Cmd}

theorem longIndex_cmd {name : List UInt8} {i : Nat}
    (h : longIndex (cmds.map Cmd.opt) name = some i) : ∃ cmd, cmds[i]? = some cmd := by
  have hlt : i < (entries (cmds.map Cmd.opt)).length := by
    unfold longIndex at h
    split at h
    · rename_i hfind
      cases h
      exact (List.findIdx?_eq_some_iff_getElem.mp hfind).1
    · split at h
      · rename_i j habbr
        cases h
        have hmem : i ∈ abbreviated (cmds.map Cmd.opt) name := by
          rw [habbr]
          exact List.mem_singleton_self i
        exact List.mem_range.mp (List.mem_filter.mp hmem).1
      · cases h
  have hle := (List.takeWhile_sublist (l := cmds.map Cmd.opt) (·.name.isSome)).length_le
  rw [List.length_map] at hle
  exact ⟨_, List.getElem?_eq_getElem (Nat.lt_of_lt_of_le hlt hle)⟩

theorem letter_cases (cmds : List Cmd) (x : UInt8) :
    LetterOf cmds (· = noArgument) x ∨ LetterOf cmds (· ≠ noArgument) x ∨
      ∀ cmd ∈ cmds, isalnum cmd.opt.val = true → cmd.opt.val ≠ (x.toNat : Int) := by
  by_cases hknown : isalnum x.toNat = true ∧ ∃ cmd ∈ cmds, cmd.opt.val = (x.toNat : Int)
  · obtain ⟨hal, cmd, hcmd, hval⟩ := hknown
    have hlt : letterIdx cmds x < cmds.length :=
      List.findIdx_lt_length_of_exists ⟨cmd, hcmd, by simpa using hval⟩
    have hget := List.getElem?_eq_getElem hlt
    by_cases hno : cmds[letterIdx cmds x].opt.hasArg = noArgument
    · exact .inl ⟨hal, _, hget, hno⟩
    · exact .inr (.inl ⟨hal, _, hget, hno⟩)
  · refine .inr (.inr fun cmd hcmd hal hval => hknown ⟨?_, cmd, hcmd, hval⟩)
    rw [← hval]
    exact hal

/-- The letters of a group up to the first that takes an argument, or is unknown. -/
theorem group_cases (cmds : List Cmd) (xs : List UInt8) :
    (∀ x ∈ xs, LetterOf cmds (· = noArgument) x) ∨
      ∃ cs x rest, xs = cs ++ x :: rest ∧ (∀ y ∈ cs, LetterOf cmds (· = noArgument) y) ∧
        (LetterOf cmds (· ≠ noArgument) x ∨
          ∀ cmd ∈ cmds, isalnum cmd.opt.val = true → cmd.opt.val ≠ (x.toNat : Int)) := by
  induction xs with
  | nil => exact .inl fun x hx => absurd hx List.not_mem_nil
  | cons x xs ih =>
      rcases letter_cases cmds x with hx | hx
      · rcases ih with hall | ⟨cs, y, rest, rfl, hcs, hy⟩
        · exact .inl (List.forall_mem_cons.mpr ⟨hx, hall⟩)
        · exact .inr ⟨x :: cs, y, rest, rfl, List.forall_mem_cons.mpr ⟨hx, hcs⟩, hy⟩
      · exact .inr ⟨[], x, xs, rfl, fun y hy => absurd hy List.not_mem_nil, hx⟩

theorem kind_cases (a : List UInt8) : kind a = .operand ∨ a = [HYPHEN, HYPHEN] ∨
    (∃ text, text ≠ [] ∧ a = HYPHEN :: HYPHEN :: text) ∨
      ∃ x xs, x ≠ HYPHEN ∧ a = HYPHEN :: x :: xs := by
  match a with
  | [] | [_] => exact .inl rfl
  | a :: b :: rest =>
      by_cases ha : a = HYPHEN
      · subst ha
        by_cases hb : b = HYPHEN
        · subst hb
          by_cases hrest : rest = []
          · exact .inr (.inl (by rw [hrest]))
          · exact .inr (.inr (.inl ⟨rest, hrest, rfl⟩))
        · exact .inr (.inr (.inr ⟨b, rest, hb, rfl⟩))
      · exact .inl (by rw [kind, if_neg ha])

/-- A line is written with phrases and an ending. -/
def Spelled (cmds : List Cmd) (args : List (List UInt8)) : Prop :=
  ∃ (ps : List (Phrase Nat)) (e : Ending), args = ps.flatMap Phrase.render ++ e.render ∧
    (∀ p ∈ ps, Spells cmds p) ∧ e.Fits cmds

theorem Spelled.ending {e : Ending} (he : e.Fits cmds) : Spelled cmds e.render :=
  ⟨[], e, rfl, fun _ hp => absurd hp List.not_mem_nil, he⟩

theorem Spelled.phrase {p : Phrase Nat} {args : List (List UInt8)} (hp : Spells cmds p)
    (h : Spelled cmds args) : Spelled cmds (p.render ++ args) := by
  obtain ⟨ps, e, rfl, hps, he⟩ := h
  exact ⟨p :: ps, e, by rw [List.flatMap_cons, List.append_assoc],
    List.forall_mem_cons.mpr ⟨hp, hps⟩, he⟩

theorem spelled_long {text : List UInt8} {args : List (List UInt8)} (hne : text ≠ [])
    (hmore : Spelled cmds args) (hnext : ∀ a args', args = a :: args' → Spelled cmds args') :
    Spelled cmds ((HYPHEN :: HYPHEN :: text) :: args) := by
  by_cases heq : EQUALS ∈ text
  · obtain ⟨name, arg, rfl, hname⟩ := List.eq_append_cons_of_mem heq
    cases hidx : longIndex (cmds.map Cmd.opt) name with
    | none => exact .ending (e := .unknownName name (some arg) args) ⟨nofun, hname, hidx⟩
    | some i =>
        obtain ⟨cmd, hcmd⟩ := longIndex_cmd hidx
        by_cases hno : cmd.opt.hasArg = noArgument
        · exact .ending (e := .surplus name arg args) ⟨i, ⟨hname, hidx⟩, cmd, hcmd, hno⟩
        · exact hmore.phrase (p := .long i name (some arg)) ⟨⟨hname, hidx⟩, cmd, hcmd, hno⟩
  · cases hidx : longIndex (cmds.map Cmd.opt) text with
    | none => exact .ending (e := .unknownName text none args) ⟨fun _ => hne, heq, hidx⟩
    | some i =>
        obtain ⟨cmd, hcmd⟩ := longIndex_cmd hidx
        by_cases hreq : cmd.opt.hasArg = requiredArgument
        · cases args with
          | nil => exact .ending (e := .missing text) ⟨hne, i, ⟨heq, hidx⟩, cmd, hcmd, hreq⟩
          | cons a args =>
              exact (hnext a args rfl).phrase (p := .longNext i text a)
                ⟨hne, ⟨heq, hidx⟩, cmd, hcmd, hreq⟩
        · exact hmore.phrase (p := .long i text none) ⟨hne, ⟨heq, hidx⟩, cmd, hcmd, hreq⟩

theorem spelled_group {x : UInt8} {xs : List UInt8} {args : List (List UInt8)} (hx : x ≠ HYPHEN)
    (hmore : Spelled cmds args) (hnext : ∀ a args', args = a :: args' → Spelled cmds args') :
    Spelled cmds ((HYPHEN :: x :: xs) :: args) := by
  rcases group_cases cmds (x :: xs) with hall | ⟨cs, y, rest, hxs, hcs, hy⟩
  · exact hmore.phrase (p := .letters x xs) hall
  rw [hxs]
  rcases hy with hy | hunknown
  · by_cases hrest : rest = []
    · subst hrest
      cases args with
      | nil => exact .ending (e := .missingLetter cs y) ⟨hcs, hy⟩
      | cons a args => exact (hnext a args rfl).phrase (p := .lettersNext cs y a) ⟨hcs, hy⟩
    · exact hmore.phrase (p := .lettersArg cs y rest) ⟨hcs, hy, hrest⟩
  · refine .ending (e := .unknownLetter cs y rest args) ⟨hcs, fun hnil => ?_, hunknown⟩
    rw [hnil] at hxs
    exact (List.cons.inj hxs).1 ▸ hx

end

/-- **Every command line is phrases and an ending.** -/
theorem line_spelled (cmds : List Cmd) (args : List (List UInt8)) : Spelled cmds args := by
  induction hn : args.length using Nat.strong_induction_on generalizing args with
  | _ n ih =>
      cases args with
      | nil => exact .ending (e := .nothing) trivial
      | cons a args =>
          have hmore : Spelled cmds args := ih _ (by rw [← hn]; simp) args rfl
          have hnext : ∀ b args', args = b :: args' → Spelled cmds args' := by
            rintro b args' rfl
            exact ih _ (by rw [← hn]; simp only [List.length_cons]; omega) args' rfl
          rcases kind_cases a with hop | rfl | ⟨text, hne, rfl⟩ | ⟨x, xs, hx, rfl⟩
          · exact hmore.phrase (p := .operand a) hop
          · exact .ending (e := .stop args) trivial
          · exact spelled_long hne hmore hnext
          · exact spelled_group hx hmore hnext

/-- **A command line is read as it was written.**  The loop ends on every line, and
every line is phrases over the registered commands and an ending.  On it the loop
calls the callbacks of what is meant in order, each with its argument, and stops with
the first result that is not 0; if there is none it returns the index of the first
operand, with the operands from there on, or the error if the line ends with something
that is not understood. -/
theorem command_line_calls {σ : Type} (es : List Event) (basename : List UInt8) (g : Grow)
    (c : Ctx) (func : Nat → Option (Func σ)) (ps : List (Phrase Nat)) (e : Ending) (u : σ)
    (hund : Undisturbed es) (hrun : exec step Ctx.init (es ++ [.getopt basename g]) = some c)
    (hps : ∀ p ∈ ps, Spells c.commands.items p) (he : e.Fits c.commands.items)
    (hquery : e.Wrong = true → ∀ cmd ∈ c.commands.items, cmd.opt.val ≠ 63) :
    (∀ argc x, ∃ r, Returns (getoptStep c func argc) x r) ∧
      (∀ args, Spelled c.commands.items args) ∧
      let args := ps.flatMap Phrase.render ++ e.render
      let calls := callAll func (ps.flatMap (occurrences c.commands.items) ++
        e.occurrences c.commands.items) u
      Returns (getoptStep c func (args.length + 1)) (⟨[], args, []⟩, u)
        ((calls.1.map Ended.func).getD
          (e.result (args.length + 1) (ps.flatMap Phrase.operands)), calls.2) :=
  ⟨fun argc => getopt_ends func argc, line_spelled _,
    (parsing_of_history hund hrun).line func hps he hquery _ u⟩

/-- `--verbose` or `-v`, and `--output` or `-o` with an argument. -/
def verboseOutput : List Event :=
  [.addCmd verbose .inPlace .inPlace, .addCmd output .moves .moves]

theorem verboseOutput_undisturbed : Undisturbed verboseOutput := by
  unfold verboseOutput Undisturbed
  simp [Event.Appends, Event.Stores, Event.Parses]

/-- Callbacks that keep a list of their calls. -/
def listing (i : Nat) : Option (Func (List (Nat × Option (List UInt8)))) :=
  some fun arg log => (0, log ++ [(i, arg)])

/-- `-v a --out f -vx`: the long name is not written out, and there is no `-x`. -/
theorem command_line_calls_listed :
    ∃ c, exec step Ctx.init (verboseOutput ++ [.getopt (ascii "prog") .inPlace]) = some c ∧
      Returns (getoptStep c listing 6)
        (⟨[], [ascii "-v", ascii "a", ascii "--out", ascii "f", ascii "-vx"], []⟩, [])
        (.notFound, [(0, none), (1, some (ascii "f")), (0, none)]) := by
  refine ⟨_, rfl, ?_⟩
  refine (command_line_calls verboseOutput (ascii "prog") .inPlace _ listing
    [.letters 118 [], .operand (ascii "a"), .longNext 1 (ascii "out") (ascii "f")]
    (.unknownLetter [118] 120 [] []) [] verboseOutput_undisturbed rfl ?_ ?_ ?_).2.2
  · intro p hp
    simp only [List.mem_cons, List.not_mem_nil, or_false] at hp
    rcases hp with rfl | rfl | rfl
    · intro x hx
      cases List.mem_singleton.mp hx
      exact ⟨by decide, _, rfl, by decide⟩
    · show kind _ = _
      decide
    · exact ⟨by decide, ⟨by decide, by decide⟩, _, rfl, by decide⟩
  · refine ⟨fun y hy => ?_, nofun, by decide⟩
    cases List.mem_singleton.mp hy
    exact ⟨by decide, _, rfl, by decide⟩
  · exact fun _ => by decide

end MnCommand
