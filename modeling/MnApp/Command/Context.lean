/-
# `MnApp.Command.Context` — commands, options and the calls that make them

A command context keeps two arrays.  `mncommand_ctx_add_cmd` puts a command
behind the first and a copy of its `struct option` behind the second, and
`mncommand_ctx_getopt` hands the second to `getopt_long` and looks up in the
first what `getopt_long` finds.

    commands    one element a command, with its names, its description and
                its own option
    options     the table `getopt_long` reads: it ends at the first entry
                whose name is NULL

`array_incr` is not part of this code.  It puts one element behind an array,
in place or with the storage moved elsewhere, or it fails and the array stays
as it was; which of the three is decided from outside (`Grow`).  A pointer to
the flag of a command is the storage and the index, so that it is stale once
the storage has moved (`Slot`).

A history is a list of events.  The call of `mncommand_ctx_getopt` is taken
apart into its first half, up to the loop, and the calls of `getopt_long`:
between two of those the callback of an option runs, and it may register
commands of its own.
-/
import MnApp.Lib.CLib
import MnApp.Lib.Run

namespace MnCommand

open CLib Run

/-! ## Arrays -/

/-- What `array_incr` finds. -/
inductive Grow where
  | fails | inPlace | moves
deriving DecidableEq, Repr

/-- An array: where its storage is, and its elements. -/
structure MnArray (α : Type) where
  block : Nat
  items : List α
deriving DecidableEq, Repr

/-- `array_incr`, and the value that is then put in the new element. -/
def MnArray.incr {α : Type} (a : MnArray α) (g : Grow) (x : α) : Option (MnArray α) :=
  match g with
  | .fails => none
  | .inPlace => some ⟨a.block, a.items ++ [x]⟩
  | .moves => some ⟨a.block + 1, a.items ++ [x]⟩

/-- The address of a field of an array's element. -/
structure Slot where
  block : Nat
  index : Nat
deriving DecidableEq, Repr

/-! ## Commands -/

def noArgument : Int := 0
def requiredArgument : Int := 1
def optionalArgument : Int := 2

/-- `struct option`.  The name is the C string at the pointer. -/
structure Opt where
  name : Option (List UInt8)
  hasArg : Int
  flag : Option Slot
  val : Int
deriving DecidableEq, Repr

/-- `(struct option){0}`. -/
def Opt.zero : Opt := ⟨none, 0, none, 0⟩

/-- `mncommand_cmd_t`.  The name of the option is the data of `longname`. -/
structure Cmd where
  longname : List UInt8
  description : Option (List UInt8)
  helpspec : List UInt8
  opt : Opt
  opt_name : opt.name = some (cstr longname)
deriving DecidableEq, Repr

/-- `cmd->opt.flag = &cmd->flag`. -/
def Cmd.point (self : Slot) (cmd : Cmd) : Cmd :=
  { cmd with opt := { cmd.opt with flag := some self }, opt_name := cmd.opt_name }

/-- `(char)val`. -/
def toChar (val : Int) : UInt8 := UInt8.ofNat val.toNat

/-- `mncommand_cmd_compute_helpspec`. -/
def mncommandCmdComputeHelpspec (longname : Option (List UInt8)) (hasArg val : Int) :
    List UInt8 :=
  let namespec :=
    match longname with
    | some name =>
        if isalnum val then ascii "--" ++ (cstr name ++ (ascii "|-" ++ [toChar val]))
        else ascii "--" ++ cstr name
    | none => if isalnum val then ascii "-" ++ [toChar val] else ascii "--"
  let argspec := if hasArg ≠ 0 then ascii "ARG" else ascii ""
  namespec ++ (ascii " " ++ argspec)

/-- The arguments of `mncommand_ctx_add_cmd`, the callback and its argument
aside.  The long name is not NULL: that is asserted. -/
structure Registration where
  longname : List UInt8
  shortname : Int
  hasArg : Int
  description : Option (List UInt8)
deriving DecidableEq, Repr

def Registration.opt (r : Registration) : Opt where
  name := some (cstr r.longname)
  hasArg := r.hasArg
  -- fixup later
  flag := none
  val := r.shortname

def Registration.cmd (r : Registration) : Cmd where
  longname := r.longname
  description := r.description
  helpspec := mncommandCmdComputeHelpspec (some r.longname) r.hasArg r.shortname
  opt := r.opt
  opt_name := rfl

/-! ## The context -/

/-- What the running `mncommand_ctx_getopt` keeps: the storage `options` points
to and the symbols in `bs`. -/
structure Parse where
  table : Nat
  symbols : List UInt8
deriving DecidableEq, Repr

/-- `mncommand_ctx_t`, and the call of `mncommand_ctx_getopt` on it. -/
structure Ctx where
  progname : Option (List UInt8)
  commands : MnArray Cmd
  options : MnArray Opt
  running : Option Parse
deriving DecidableEq, Repr

/-- `mncommand_ctx_init`. -/
def Ctx.init : Ctx := ⟨none, ⟨0, []⟩, ⟨0, []⟩, none⟩

/-- What `mncommand_ctx_add_cmd` returns: 0, or its class plus 1 or 2. -/
inductive Added where
  | ok | noCommand | noOption
deriving DecidableEq, Repr

/-- `mncommand_ctx_add_cmd`. -/
def mncommandCtxAddCmd (c : Ctx) (r : Registration) (onCommands onOptions : Grow) : Added × Ctx :=
  match c.commands.incr onCommands r.cmd with
  | none => (.noCommand, c)
  | some commands =>
      match c.options.incr onOptions r.cmd.opt with
      -- the command is not taken back
      | none => (.noOption, { c with commands := commands })
      | some options => (.ok, { c with commands := commands, options := options })

/-- `getopt_symbol`: the command behind it, and what is put behind `bs`. -/
def getoptSymbol (self : Slot) (cmd : Cmd) : Cmd × List UInt8 :=
  (cmd.point self,
    if isalnum cmd.opt.val then
      toChar cmd.opt.val :: if cmd.opt.hasArg ≠ noArgument then [COLON] else []
    else [])

/-- The fixups, on the commands. -/
def fixupCommands (commands : MnArray Cmd) : MnArray Cmd :=
  { commands with items := commands.items.mapIdx fun i cmd => cmd.point ⟨commands.block, i⟩ }

/-- The fixups, on the options.  `ARRAY_GET` does not look at the number of
elements: with more commands than options it writes behind the last one,
where no element is. -/
def fixupOptions (commands : MnArray Cmd) (options : MnArray Opt) : MnArray Opt :=
  { options with items := options.items.mapIdx fun i o =>
      if i < commands.items.length then { o with flag := some ⟨commands.block, i⟩ } else o }

/-- The traversal with `getopt_symbol`, on the commands. -/
def traversed (commands : MnArray Cmd) : MnArray Cmd :=
  { commands with
    items := commands.items.mapIdx fun i cmd => (getoptSymbol ⟨commands.block, i⟩ cmd).1 }

/-- The traversal with `getopt_symbol`, and the terminating NUL: what `bs` holds. -/
def symbols (commands : MnArray Cmd) : List UInt8 :=
  (commands.items.mapIdx fun i cmd => (getoptSymbol ⟨commands.block, i⟩ cmd).2).flatten ++ [NUL]

/-- `mncommand_ctx_getopt` up to its loop, with `basename(argv[0])`.  `none` is
`FFAIL`, with which the process ends. -/
def mncommandCtxGetopt (c : Ctx) (basename : List UInt8) (onOptions : Grow) : Option Ctx :=
  let commands := fixupCommands c.commands
  match (fixupOptions c.commands c.options).incr onOptions Opt.zero with
  | none => none
  | some options =>
      -- the array has an element now, so `array_get(&ctx->options, 0)` finds it
      some
        { progname := some (c.progname.getD basename)
          commands := traversed commands
          options := options
          running := some ⟨options.block, symbols commands⟩ }

/-- `mncommand_ctx_find_cmd`, with `none` for a `curropt` of -1. -/
def mncommandCtxFindCmd (c : Ctx) (curropt : Option Nat) (optch : Int) : Option Cmd :=
  match curropt with
  | none => c.commands.items.find? fun cmd => cmd.opt.val == optch
  | some i => c.commands.items[i]?

/-! ## Histories -/

/-- What is done with a context. -/
inductive Event where
  | addCmd (r : Registration) (onCommands onOptions : Grow)
  | getopt (basename : List UInt8) (onOptions : Grow)
  | getoptLong
deriving DecidableEq, Repr

/-- One event; `getopt_long` is called by a `mncommand_ctx_getopt` that runs. -/
def step (c : Ctx) : Event → Option Ctx
  | .addCmd r onCommands onOptions => some (mncommandCtxAddCmd c r onCommands onOptions).2
  | .getopt basename onOptions => mncommandCtxGetopt c basename onOptions
  | .getoptLong => if c.running.isSome then some c else none

/-! ## What the calls do -/

theorem incr_eq_some {α : Type} {a a' : MnArray α} {g : Grow} {x : α}
    (h : a.incr g x = some a') : g ≠ .fails ∧ a'.items = a.items ++ [x] := by
  cases g with
  | fails => cases h
  | inPlace =>
      cases h
      exact ⟨by decide, rfl⟩
  | moves =>
      cases h
      exact ⟨by decide, rfl⟩

theorem incr_eq_none {α : Type} {a : MnArray α} {g : Grow} {x : α} :
    a.incr g x = none ↔ g = .fails := by
  cases g with
  | fails => exact ⟨fun _ => rfl, fun _ => rfl⟩
  | inPlace => exact ⟨fun h => (by cases h), fun h => (by cases h)⟩
  | moves => exact ⟨fun h => (by cases h), fun h => (by cases h)⟩

/-- What a registration does: nothing, or a new command with no option, or both. -/
theorem addCmd_cases (c : Ctx) (r : Registration) (g h : Grow) :
    (g = .fails ∧ mncommandCtxAddCmd c r g h = (.noCommand, c)) ∨
    (g ≠ .fails ∧ h = .fails ∧ ∃ commands, commands.items = c.commands.items ++ [r.cmd] ∧
      mncommandCtxAddCmd c r g h = (.noOption, { c with commands := commands })) ∨
    (g ≠ .fails ∧ h ≠ .fails ∧ ∃ commands options,
      commands.items = c.commands.items ++ [r.cmd] ∧ options.items = c.options.items ++ [r.opt] ∧
      mncommandCtxAddCmd c r g h =
        (.ok, { c with commands := commands, options := options })) := by
  cases hc : c.commands.incr g r.cmd with
  | none => exact .inl ⟨incr_eq_none.mp hc, by rw [mncommandCtxAddCmd, hc]⟩
  | some commands =>
      obtain ⟨hg, hitems⟩ := incr_eq_some hc
      cases ho : c.options.incr h r.cmd.opt with
      | none =>
          exact .inr (.inl ⟨hg, incr_eq_none.mp ho, commands, hitems,
            by rw [mncommandCtxAddCmd, hc]; simp only [ho]⟩)
      | some options =>
          obtain ⟨hh, hopts⟩ := incr_eq_some ho
          exact .inr (.inr ⟨hg, hh, commands, options, hitems, hopts,
            by rw [mncommandCtxAddCmd, hc]; simp only [ho]⟩)

@[simp] theorem point_point (self self' : Slot) (cmd : Cmd) :
    (cmd.point self').point self = cmd.point self := rfl

theorem traversed_fixup (commands : MnArray Cmd) :
    traversed (fixupCommands commands) = fixupCommands commands := by
  simp only [traversed, fixupCommands, getoptSymbol, List.mapIdx_mapIdx, Function.comp_def,
    point_point]

theorem getopt_cases {c c' : Ctx} {basename : List UInt8} {g : Grow}
    (h : mncommandCtxGetopt c basename g = some c') :
    c'.commands = fixupCommands c.commands ∧
      c'.options.items = (fixupOptions c.commands c.options).items ++ [Opt.zero] ∧
      c'.running = some ⟨c'.options.block, symbols (fixupCommands c.commands)⟩ := by
  unfold mncommandCtxGetopt at h
  cases ho : (fixupOptions c.commands c.options).incr g Opt.zero with
  | none =>
      rw [ho] at h
      cases h
  | some options =>
      rw [ho] at h
      cases h
      exact ⟨traversed_fixup c.commands, (incr_eq_some ho).2, rfl⟩

end MnCommand
