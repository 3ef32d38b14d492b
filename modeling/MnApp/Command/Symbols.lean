/-
# `MnApp.Command.Symbols` — the short options, as `getopt` reads them

`mncommand_ctx_getopt` builds the string of short options from the commands
(`symbols`): the character, and a colon if the command takes an argument.
`getopt` reads such a string with a grammar of its own,

    x      no argument
    x:     an argument, which is required
    x::    an argument, which is optional

and `decodeSymbols` is that grammar.  No second colon is ever written, so a
command whose argument is optional under its long name requires it under its
short one.  **The short and the long forms agree exactly if no command with a
short name has an optional argument** (`short_forms_agree_iff`).
-/
import MnApp.Command.Context

namespace MnCommand

open CLib

/-! ## The grammar -/

/-- The short options of a string, each with its `has_arg`. -/
def decodeSymbols : List UInt8 → List (Int × Int)
  | [] => []
  | [x] => [(x.toNat, noArgument)]
  | [x, y] =>
      if y = COLON then [(x.toNat, requiredArgument)]
      else (x.toNat, noArgument) :: decodeSymbols [y]
  | x :: y :: z :: rest =>
      if y = COLON then
        if z = COLON then (x.toNat, optionalArgument) :: decodeSymbols rest
        else (x.toNat, requiredArgument) :: decodeSymbols (z :: rest)
      else (x.toNat, noArgument) :: decodeSymbols (y :: z :: rest)

theorem decodeSymbols_plain (x : UInt8) {s : List UInt8} (hs : s.head? ≠ some COLON) :
    decodeSymbols (x :: s) = ((x.toNat : Int), noArgument) :: decodeSymbols s := by
  match s, hs with
  | [], _ => rfl
  | [y], hs =>
      exact if_neg fun h => hs (by rw [h]; rfl)
  | y :: z :: rest, hs =>
      exact if_neg fun h => hs (by rw [h]; rfl)

theorem decodeSymbols_colon (x : UInt8) {s : List UInt8} (hs : s.head? ≠ some COLON) :
    decodeSymbols (x :: COLON :: s) = ((x.toNat : Int), requiredArgument) :: decodeSymbols s := by
  match s, hs with
  | [], _ => rfl
  | z :: rest, hs =>
      have hz : z ≠ COLON := fun h => hs (by rw [h]; rfl)
      rw [decodeSymbols, if_pos rfl, if_neg hz]

/-! ## The string that is built -/

/-- The short options of the commands, each with its `has_arg`. -/
def shortForms (commands : List Cmd) : List (Int × Int) :=
  (commands.map fun cmd => (cmd.opt.val, cmd.opt.hasArg)).filter fun p => isalnum p.1

theorem shortForms_fixup (commands : MnArray Cmd) :
    shortForms (fixupCommands commands).items = shortForms commands.items := by
  have h : (fixupCommands commands).items.map (fun cmd => (cmd.opt.val, cmd.opt.hasArg)) =
      commands.items.map fun cmd => (cmd.opt.val, cmd.opt.hasArg) := by
    apply List.ext_getElem?
    intro i
    rw [List.getElem?_map, List.getElem?_map, fixupCommands, List.getElem?_mapIdx, Option.map_map]
    rfl
  rw [shortForms, h, shortForms]

theorem mem_shortForms {commands : List Cmd} {p : Int × Int} : p ∈ shortForms commands ↔
    ∃ cmd ∈ commands, isalnum cmd.opt.val = true ∧ p = (cmd.opt.val, cmd.opt.hasArg) := by
  rw [shortForms, List.mem_filter, List.mem_map]
  constructor
  · rintro ⟨⟨cmd, hcmd, rfl⟩, hal⟩
    exact ⟨cmd, hcmd, hal, rfl⟩
  · rintro ⟨cmd, hcmd, hal, rfl⟩
    exact ⟨⟨cmd, hcmd, rfl⟩, hal⟩

/-- What `getopt_symbol` puts behind `bs`. -/
def symbol (cmd : Cmd) : List UInt8 :=
  if isalnum cmd.opt.val then
    toChar cmd.opt.val :: if cmd.opt.hasArg ≠ noArgument then [COLON] else []
  else []

theorem symbols_eq (commands : MnArray Cmd) :
    symbols commands = commands.items.flatMap symbol ++ [NUL] := by
  have h : (commands.items.mapIdx fun i cmd => (getoptSymbol ⟨commands.block, i⟩ cmd).2) =
      commands.items.map symbol := by
    apply List.ext_getElem?
    intro i
    rw [List.getElem?_mapIdx, List.getElem?_map]
    rfl
  rw [symbols, h, List.flatMap_def]

theorem toChar_alnum {val : Int} (h : isalnum val = true) :
    ((toChar val).toNat : Int) = val ∧ toChar val ≠ COLON ∧ toChar val ≠ NUL := by
  have hrange : (48 ≤ val ∧ val ≤ 57) ∨ (65 ≤ val ∧ val ≤ 122) := by
    simp only [isalnum, Bool.or_eq_true, Bool.and_eq_true, decide_eq_true_eq] at h
    omega
  have hval : ((toChar val).toNat : Int) = val := by
    rw [toChar, UInt8.toNat_ofNat', Nat.mod_eq_of_lt (by omega)]
    omega
  refine ⟨hval, fun hc => ?_, fun hc => ?_⟩
  · rw [hc] at hval
    have : ((COLON.toNat : Nat) : Int) = 58 := rfl
    omega
  · rw [hc] at hval
    have : ((NUL.toNat : Nat) : Int) = 0 := rfl
    omega

theorem symbol_of_alnum {cmd : Cmd} (h : isalnum cmd.opt.val = true) : symbol cmd =
    toChar cmd.opt.val :: if cmd.opt.hasArg ≠ noArgument then [COLON] else [] := if_pos h

theorem symbol_of_not {cmd : Cmd} (h : isalnum cmd.opt.val = false) : symbol cmd = [] :=
  if_neg (by rw [h]; decide)

theorem head_symbols (commands : List Cmd) : (commands.flatMap symbol).head? ≠ some COLON := by
  induction commands with
  | nil => exact fun h => by cases h
  | cons cmd commands ih =>
      rw [List.flatMap_cons]
      cases hal : isalnum cmd.opt.val with
      | false =>
          rw [symbol_of_not hal]
          exact ih
      | true =>
          rw [symbol_of_alnum hal]
          exact fun h => (toChar_alnum hal).2.1 (Option.some.inj h)

theorem no_nul_symbols (commands : List Cmd) : ∀ b ∈ commands.flatMap symbol, b ≠ NUL := by
  intro b hb
  obtain ⟨cmd, -, hb⟩ := List.mem_flatMap.mp hb
  cases hal : isalnum cmd.opt.val with
  | false =>
      rw [symbol_of_not hal] at hb
      cases hb
  | true =>
      rw [symbol_of_alnum hal] at hb
      rcases List.mem_cons.mp hb with rfl | hb
      · exact (toChar_alnum hal).2.2
      · split at hb
        · cases List.mem_singleton.mp hb
          decide
        · cases hb

/-- What the string says of an argument: it is there or not. -/
def argumentSign (hasArg : Int) : Int :=
  if hasArg ≠ noArgument then requiredArgument else noArgument

theorem argumentSign_eq_iff (hasArg : Int) :
    argumentSign hasArg = hasArg ↔ hasArg = noArgument ∨ hasArg = requiredArgument := by
  unfold argumentSign
  split
  · rename_i h
    exact ⟨fun h => .inr h.symm, fun h' => (h'.resolve_left h).symm⟩
  · rename_i h
    have := Decidable.not_not.mp h
    exact ⟨fun _ => .inl this, fun _ => this.symm⟩

theorem decodeSymbols_symbols (commands : List Cmd) : decodeSymbols (commands.flatMap symbol) =
    (shortForms commands).map fun p => (p.1, argumentSign p.2) := by
  induction commands with
  | nil => rfl
  | cons cmd commands ih =>
      have hhead := head_symbols commands
      rw [List.flatMap_cons, shortForms, List.map_cons, List.filter_cons]
      cases hal : isalnum cmd.opt.val with
      | false =>
          rw [symbol_of_not hal, List.nil_append, ih]
          rfl
      | true =>
          obtain ⟨hval, -, -⟩ := toChar_alnum hal
          rw [symbol_of_alnum hal]
          simp only [if_pos, List.map_cons, argumentSign]
          split
          · rw [List.cons_append, List.cons_append, List.nil_append,
              decodeSymbols_colon _ hhead, hval, ih]
            rfl
          · rw [List.cons_append, List.nil_append, decodeSymbols_plain _ hhead, hval, ih]
            rfl

theorem decodeSymbols_eq_iff (commands : List Cmd) :
    decodeSymbols (commands.flatMap symbol) = shortForms commands ↔
      ∀ p ∈ shortForms commands, p.2 = noArgument ∨ p.2 = requiredArgument := by
  rw [decodeSymbols_symbols]
  conv_lhs => rhs; rw [← List.map_id (shortForms commands)]
  rw [List.map_inj_left]
  constructor
  · intro h p hp
    exact (argumentSign_eq_iff p.2).mp (congrArg Prod.snd (h p hp))
  · intro h p hp
    exact Prod.ext rfl ((argumentSign_eq_iff p.2).mpr (h p hp))

/-- **The string that `mncommand_ctx_getopt` builds is read as the short options
of the commands, each with its own `has_arg`, exactly if every command with a
short name takes no argument or requires one.** -/
theorem short_forms_agree_iff (c c' : Ctx) (basename : List UInt8) (onOptions : Grow)
    (h : step c (.getopt basename onOptions) = some c') : ∃ p, c'.running = some p ∧
      (decodeSymbols (cstr p.symbols) = shortForms c.commands.items ↔
        ∀ cmd ∈ c.commands.items, isalnum cmd.opt.val = true →
          cmd.opt.hasArg = noArgument ∨ cmd.opt.hasArg = requiredArgument) := by
  obtain ⟨-, -, hrun⟩ := getopt_cases h
  refine ⟨_, hrun, ?_⟩
  have hcstr : cstr (symbols (fixupCommands c.commands)) =
      (fixupCommands c.commands).items.flatMap symbol := by
    rw [symbols_eq, cstr_stop (no_nul_symbols _)]
  have hiff := decodeSymbols_eq_iff (fixupCommands c.commands).items
  rw [shortForms_fixup] at hiff
  rw [hcstr, hiff]
  constructor
  · intro h cmd hcmd hal
    exact h _ (mem_shortForms.mpr ⟨cmd, hcmd, hal, rfl⟩)
  · intro h p hp
    obtain ⟨cmd, hcmd, hal, rfl⟩ := mem_shortForms.mp hp
    exact h cmd hcmd hal

/-- `--quiet` or `-q`, `--file ARG` or `-f ARG`, and a command with no short name. -/
def plainCommands : Ctx :=
  { Ctx.init with commands := ⟨0, [Registration.cmd ⟨ascii "quiet", 113, noArgument, none⟩,
      Registration.cmd ⟨ascii "file", 102, requiredArgument, none⟩,
      Registration.cmd ⟨ascii "trace", 0, optionalArgument, none⟩]⟩ }

/-- `--color[=ARG]` or `-c`. -/
def optionalCommand : List Event :=
  [.addCmd ⟨ascii "color", 99, optionalArgument, none⟩ .inPlace .inPlace]

theorem short_forms_agree_plain : ∃ c', step plainCommands (.getopt (ascii "prog") .inPlace) =
    some c' ∧ ∃ p, c'.running = some p ∧
      decodeSymbols (cstr p.symbols) = shortForms plainCommands.commands.items := by
  obtain ⟨p, hp, hiff⟩ := short_forms_agree_iff plainCommands _ (ascii "prog") .inPlace rfl
  exact ⟨_, rfl, p, hp, hiff.mpr (by decide)⟩

/-- The optional argument is required under the short name. -/
theorem short_form_requires : ∃ c c' p, Run.exec step Ctx.init optionalCommand = some c ∧
    step c (.getopt (ascii "prog") .inPlace) = some c' ∧ c'.running = some p ∧
      shortForms c.commands.items = [(99, optionalArgument)] ∧
      decodeSymbols (cstr p.symbols) = [(99, requiredArgument)] ∧
      decodeSymbols (cstr p.symbols) ≠ shortForms c.commands.items :=
  ⟨_, _, _, rfl, rfl, rfl, by decide, by decide, by decide⟩

end MnCommand
