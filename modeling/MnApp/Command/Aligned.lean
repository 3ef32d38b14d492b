/-
# `MnApp.Command.Aligned` — the option at an index is that of the command there

`getopt_long` answers with an index into the options, and the command is
looked up with it among the commands.  That is right if the two arrays are
aligned (`Aligned`): the entry at `i` has the name, `has_arg` and `val` of the
command at `i` and points to its flag, and the terminator stands where the
commands end.

Each `mncommand_ctx_getopt` puts a terminator behind the options and none is
ever taken away, so a command registered behind one has its option behind the
terminator.  And a registration that runs out of memory between its two
arrays leaves a command without an option.  After a history the context is in
one of four conditions:

| | registrations | arrays |
| :-- | :-- | :-- |
| `Fresh` | all with both elements, no parse yet | the options of the commands |
| `Ready` | all with both elements, all before the first parse | the same, and terminators |
| `Short` | one without its option, no parse yet | fewer options than commands |
| `Broken` | one without its option, or behind a parse | a terminator among them |

**The arrays are aligned at a call of `getopt_long` exactly if every command
that was registered before it got its option, and was registered before the
first parse** (`getopt_long_aligned_iff`).
-/
import MnApp.Command.Context
import Mathlib.Data.List.Induction

namespace MnCommand

open CLib Run

/-! ## What `getopt_long` finds -/

/-- The entries that `getopt_long` looks at. -/
def entries (table : List Opt) : List Opt := table.takeWhile (·.name.isSome)

/-- The entries whose names begin with a word. -/
def abbreviated (table : List Opt) (word : List UInt8) : List Nat :=
  (List.range (entries table).length).filter fun i =>
    ((entries table)[i]?.bind Opt.name).any word.isPrefixOf

/-- The index for a long option: the entry of that name, or else the only one
whose name begins with it. -/
def longIndex (table : List Opt) (word : List UInt8) : Option Nat :=
  match (entries table).findIdx? fun o : Opt => o.name == some word with
  | some i => some i
  | none =>
      match abbreviated table word with
      | [i] => some i
      | _ => none

/-- The table and the commands agree. -/
structure Aligned (c : Ctx) : Prop where
  /-- the table is still where it was when the call began -/
  live : ∀ p ∈ c.running, p.table = c.options.block
  entry : ∀ (i : Nat) (cmd : Cmd), c.commands.items[i]? = some cmd →
    ∃ o : Opt, c.options.items[i]? = some o ∧
    o.name = cmd.opt.name ∧ o.hasArg = cmd.opt.hasArg ∧ o.val = cmd.opt.val ∧
      o.flag = some ⟨c.commands.block, i⟩
  terminator : c.options.items[c.commands.items.length]? = some Opt.zero
  first : ∀ i < c.commands.items.length, c.options.items[i]? ≠ some Opt.zero

/-- A long option selects the command of that name. -/
structure Selects (c : Ctx) : Prop where
  /-- whatever is found, it is a command whose name begins so -/
  sound : ∀ word i ch, longIndex c.options.items word = some i →
    ∃ cmd, mncommandCtxFindCmd c (some i) ch = some cmd ∧ word <+: cstr cmd.longname
  /-- and the name of a command finds a command of that name -/
  complete : ∀ cmd ∈ c.commands.items, ∀ ch, ∃ i found,
    longIndex c.options.items (cstr cmd.longname) = some i ∧
      mncommandCtxFindCmd c (some i) ch = some found ∧ cstr found.longname = cstr cmd.longname

theorem longIndex_sound {table : List Opt} {word : List UInt8} {i : Nat}
    (h : longIndex table word = some i) :
    ∃ o name, (entries table)[i]? = some o ∧ o.name = some name ∧ word <+: name := by
  unfold longIndex at h
  cases hexact : (entries table).findIdx? fun o : Opt => o.name == some word with
  | some k =>
      rw [hexact] at h
      cases h
      obtain ⟨hi, hname, -⟩ := List.findIdx?_eq_some_iff_getElem.mp hexact
      exact ⟨_, word, List.getElem?_eq_getElem hi, beq_iff_eq.mp hname, List.prefix_refl word⟩
  | none =>
      rw [hexact] at h
      simp only at h
      split at h
      · rename_i k hk
        cases h
        have hmem : i ∈ abbreviated table word := by
          rw [hk]
          exact List.mem_singleton_self i
        obtain ⟨name, hname, hword⟩ := (Option.any_eq_true _ _).mp (List.mem_filter.mp hmem).2
        obtain ⟨o, ho, hname⟩ := Option.bind_eq_some_iff.mp hname
        exact ⟨o, name, ho, hname, List.isPrefixOf_iff_prefix.mp hword⟩
      · cases h

theorem longIndex_complete {table : List Opt} {o : Opt} {word : List UInt8}
    (ho : o ∈ entries table) (hname : o.name = some word) :
    ∃ i o', longIndex table word = some i ∧ (entries table)[i]? = some o' ∧
      o'.name = some word := by
  cases hexact : (entries table).findIdx? fun o : Opt => o.name == some word with
  | none =>
      have := List.findIdx?_eq_none_iff.mp hexact o ho
      rw [hname, beq_self_eq_true] at this
      cases this
  | some i =>
      obtain ⟨hi, hfound, -⟩ := List.findIdx?_eq_some_iff_getElem.mp hexact
      refine ⟨i, _, ?_, List.getElem?_eq_getElem hi, beq_iff_eq.mp hfound⟩
      rw [longIndex, hexact]

namespace Aligned

variable {c : Ctx}

theorem entries_eq (h : Aligned c) :
    entries c.options.items = c.options.items.take c.commands.items.length := by
  obtain ⟨hn, hzero⟩ := List.getElem?_eq_some_iff.mp h.terminator
  unfold entries
  rw [List.takeWhile_eq_take_findIdx_not, (List.findIdx_eq hn).mpr]
  refine ⟨by rw [hzero]; rfl, fun i hi => ?_⟩
  obtain ⟨o, ho, hname, -⟩ := h.entry i _ (List.getElem?_eq_getElem hi)
  rw [List.getElem?_eq_getElem (Nat.lt_trans hi hn), Option.some.injEq] at ho
  rw [ho, hname, Cmd.opt_name]
  rfl

theorem command_at (h : Aligned c) {i : Nat} {o : Opt}
    (ho : (entries c.options.items)[i]? = some o) :
    ∃ cmd, c.commands.items[i]? = some cmd ∧ o.name = some (cstr cmd.longname) := by
  rw [h.entries_eq, List.getElem?_take] at ho
  split at ho
  · rename_i hi
    obtain ⟨o', ho', hname, -⟩ := h.entry i _ (List.getElem?_eq_getElem hi)
    cases ho.symm.trans ho'
    exact ⟨_, List.getElem?_eq_getElem hi, hname.trans (Cmd.opt_name _)⟩
  · cases ho

theorem entry_of (h : Aligned c) {cmd : Cmd} (hcmd : cmd ∈ c.commands.items) :
    ∃ o ∈ entries c.options.items, o.name = some (cstr cmd.longname) := by
  obtain ⟨i, hi⟩ := List.mem_iff_getElem?.mp hcmd
  obtain ⟨o, ho, hname, -⟩ := h.entry i cmd hi
  refine ⟨o, List.mem_iff_getElem?.mpr ⟨i, ?_⟩, hname.trans cmd.opt_name⟩
  rw [h.entries_eq, List.getElem?_take, if_pos (List.getElem?_eq_some_iff.mp hi).1]
  exact ho

theorem selects (h : Aligned c) : Selects c where
  sound word i ch hi := by
    obtain ⟨o, name, ho, hname, hword⟩ := longIndex_sound hi
    obtain ⟨cmd, hcmd, hcname⟩ := h.command_at ho
    cases hname.symm.trans hcname
    exact ⟨cmd, hcmd, hword⟩
  complete cmd hcmd ch := by
    obtain ⟨o, ho, hname⟩ := h.entry_of hcmd
    obtain ⟨i, o', hi, ho', hname'⟩ := longIndex_complete ho hname
    obtain ⟨found, hfound, hfname⟩ := h.command_at ho'
    exact ⟨i, found, hi, hfound, Option.some.inj (hfname.symm.trans hname')⟩

end Aligned

/-! ## Histories -/

/-- The event puts a command behind the others. -/
def Event.Appends : Event → Prop
  | .addCmd _ onCommands _ => onCommands ≠ .fails
  | _ => False

/-- And its option behind the options. -/
def Event.Stores : Event → Prop
  | .addCmd _ _ onOptions => onOptions ≠ .fails
  | _ => False

/-- The event is a call of `mncommand_ctx_getopt`. -/
def Event.Parses : Event → Prop
  | .getopt _ _ => True
  | _ => False

/-- Every command that was registered got its option, and none was registered
behind a call of `mncommand_ctx_getopt`. -/
def Undisturbed (es : List Event) : Prop :=
  es.Pairwise (fun e e' => e.Parses → ¬ e'.Appends) ∧ ∀ e ∈ es, e.Appends → e.Stores

theorem undisturbed_nil : Undisturbed [] := ⟨List.Pairwise.nil, fun _ h => by cases h⟩

theorem undisturbed_snoc {es : List Event} {e : Event} :
    Undisturbed (es ++ [e]) ↔
      Undisturbed es ∧ (e.Appends → e.Stores ∧ ∀ e' ∈ es, ¬ e'.Parses) := by
  unfold Undisturbed
  rw [List.pairwise_append, List.forall_mem_append, List.forall_mem_singleton]
  constructor
  · rintro ⟨⟨hpairs, -, hlast⟩, hstores, he⟩
    refine ⟨⟨hpairs, hstores⟩, fun happ => ⟨he happ, fun e' he' hp => ?_⟩⟩
    exact hlast e' he' e (List.mem_singleton_self e) hp happ
  · rintro ⟨⟨hpairs, hstores⟩, he⟩
    refine ⟨⟨hpairs, List.pairwise_singleton _ _, ?_⟩, hstores, fun happ => (he happ).1⟩
    intro e' he' x hx hp happ
    cases List.mem_singleton.mp hx
    exact (he happ).2 e' he' hp

theorem undisturbed_snoc_of_not {es : List Event} {e : Event} (he : ¬ e.Appends) :
    Undisturbed (es ++ [e]) ↔ Undisturbed es := by
  rw [undisturbed_snoc]
  exact ⟨fun h => h.1, fun h => ⟨h, fun happ => absurd happ he⟩⟩

/-! ## The four conditions -/

def Fresh (c : Ctx) : Prop :=
  c.running = none ∧ c.options.items = c.commands.items.map Cmd.opt

def Short (c : Ctx) : Prop :=
  c.running = none ∧ c.options.items.length < c.commands.items.length

structure Ready (c : Ctx) : Prop where
  table : ∃ k, c.options.items = c.commands.items.map Cmd.opt ++ List.replicate (k + 1) Opt.zero
  flags : ∀ (i : Nat) (cmd : Cmd), c.commands.items[i]? = some cmd →
    cmd.opt.flag = some ⟨c.commands.block, i⟩
  live : ∃ p, c.running = some p ∧ p.table = c.options.block

def Broken (c : Ctx) : Prop :=
  ∃ i < c.commands.items.length, ∃ o : Opt, c.options.items[i]? = some o ∧ o.name = none

theorem Ready.aligned {c : Ctx} (h : Ready c) : Aligned c := by
  obtain ⟨k, htable⟩ := h.table
  have hentry : ∀ (i : Nat) (cmd : Cmd), c.commands.items[i]? = some cmd →
      c.options.items[i]? = some cmd.opt := by
    intro i cmd hi
    have hlt := (List.getElem?_eq_some_iff.mp hi).1
    rw [htable, List.getElem?_append_left (by simpa using hlt), List.getElem?_map, hi]
    rfl
  refine ⟨?_, ?_, ?_, ?_⟩
  · obtain ⟨p, hp, hlive⟩ := h.live
    intro q hq
    cases hp.symm.trans hq
    exact hlive
  · intro i cmd hi
    exact ⟨cmd.opt, hentry i cmd hi, rfl, rfl, rfl, h.flags i cmd hi⟩
  · rw [htable, List.getElem?_append_right (by simp), List.length_map, Nat.sub_self]
    rfl
  · intro i hi hzero
    have := (hentry i _ (List.getElem?_eq_getElem hi)).symm.trans hzero
    have hname := congrArg Opt.name (Option.some.inj this)
    rw [Cmd.opt_name] at hname
    cases hname

theorem Broken.not_aligned {c : Ctx} (h : Broken c) : ¬ Aligned c := by
  obtain ⟨i, hi, o, ho, hname⟩ := h
  intro hal
  obtain ⟨o', ho', hname', -⟩ := hal.entry i _ (List.getElem?_eq_getElem hi)
  cases ho.symm.trans ho'
  rw [Cmd.opt_name, hname] at hname'
  cases hname'

/-! ### One event -/

@[simp] theorem length_fixupCommands (commands : MnArray Cmd) :
    (fixupCommands commands).items.length = commands.items.length := List.length_mapIdx

@[simp] theorem length_fixupOptions (commands : MnArray Cmd) (options : MnArray Opt) :
    (fixupOptions commands options).items.length = options.items.length := List.length_mapIdx

theorem fixupOptions_name (commands : MnArray Cmd) {options : MnArray Opt} {i : Nat} {o : Opt}
    (h : options.items[i]? = some o) :
    ∃ o', (fixupOptions commands options).items[i]? = some o' ∧ o'.name = o.name := by
  unfold fixupOptions
  rw [List.getElem?_mapIdx, h]
  refine ⟨_, rfl, ?_⟩
  split <;> rfl

/-- A terminator among the options of the commands stays there. -/
theorem Broken.step {c c' : Ctx} {e : Event} (h : Broken c) (hs : step c e = some c') :
    Broken c' := by
  obtain ⟨i, hi, o, ho, hname⟩ := h
  have hlt := (List.getElem?_eq_some_iff.mp ho).1
  cases e with
  | addCmd r g g' =>
      cases hs
      rcases addCmd_cases c r g g' with
        ⟨-, heq⟩ | ⟨-, -, commands, hc, heq⟩ | ⟨-, -, commands, options, hc, hopts, heq⟩
      · rw [heq]
        exact ⟨i, hi, o, ho, hname⟩
      · rw [heq]
        refine ⟨i, ?_, o, ho, hname⟩
        simp only [hc, List.length_append]
        omega
      · rw [heq]
        refine ⟨i, ?_, o, ?_, hname⟩
        · simp only [hc, List.length_append]
          omega
        · simp only [hopts, List.getElem?_append_left hlt, ho]
  | getopt basename g =>
      obtain ⟨hc, hopts, -⟩ := getopt_cases hs
      obtain ⟨o', ho', hname'⟩ := fixupOptions_name c.commands ho
      refine ⟨i, by rwa [hc, length_fixupCommands], o', ?_, hname'.trans hname⟩
      rw [hopts, List.getElem?_append_left (by rwa [length_fixupOptions]), ho']
  | getoptLong =>
      rw [MnCommand.step] at hs
      split at hs
      · cases hs
        exact ⟨i, hi, o, ho, hname⟩
      · cases hs

theorem Ready.add {c : Ctx} (h : Ready c) {r : Registration} {g g' : Grow} (hg : g ≠ .fails) :
    Broken (mncommandCtxAddCmd c r g g').2 := by
  obtain ⟨k, htable⟩ := h.table
  have hzero : c.options.items[c.commands.items.length]? = some Opt.zero := h.aligned.terminator
  rcases addCmd_cases c r g g' with
    ⟨hf, -⟩ | ⟨-, -, commands, hc, heq⟩ | ⟨-, -, commands, options, hc, hopts, heq⟩
  · exact absurd hf hg
  · rw [heq]
    exact ⟨c.commands.items.length, by simp [hc], Opt.zero, hzero, rfl⟩
  · rw [heq]
    refine ⟨c.commands.items.length, by simp [hc], Opt.zero, ?_, rfl⟩
    have hlt := (List.getElem?_eq_some_iff.mp hzero).1
    simp only [hopts, List.getElem?_append_left hlt, hzero]

theorem fixupOptions_items {commands : MnArray Cmd} {options : MnArray Opt} {k : Nat}
    (h : options.items = commands.items.map Cmd.opt ++ List.replicate k Opt.zero) :
    (fixupOptions commands options).items =
      (fixupCommands commands).items.map Cmd.opt ++ List.replicate k Opt.zero := by
  have hlen : (commands.items.map Cmd.opt).length = commands.items.length := List.length_map _
  have hlen' : ((fixupCommands commands).items.map Cmd.opt).length = commands.items.length := by
    rw [List.length_map, length_fixupCommands]
  apply List.ext_getElem?
  intro i
  unfold fixupOptions
  rw [List.getElem?_mapIdx, h]
  by_cases hi : i < commands.items.length
  · rw [List.getElem?_append_left (hlen ▸ hi), List.getElem?_append_left (hlen' ▸ hi),
      List.getElem?_map, List.getElem?_map, fixupCommands, List.getElem?_mapIdx,
      List.getElem?_eq_getElem hi]
    simp only [Option.map_some, if_pos hi]
    rfl
  · have hle : commands.items.length ≤ i := Nat.le_of_not_lt hi
    rw [List.getElem?_append_right (hlen ▸ hle), List.getElem?_append_right (hlen' ▸ hle), hlen,
      hlen']
    simp only [if_neg hi, Option.map_id']

theorem ready_getopt {c c' : Ctx} {basename : List UInt8} {g : Grow} {k : Nat}
    (h : c.options.items = c.commands.items.map Cmd.opt ++ List.replicate k Opt.zero)
    (hs : mncommandCtxGetopt c basename g = some c') : Ready c' := by
  obtain ⟨hc, hopts, hrun⟩ := getopt_cases hs
  refine ⟨⟨k, ?_⟩, ?_, _, hrun, rfl⟩
  · rw [hopts, fixupOptions_items h, hc, List.append_assoc, ← List.replicate_succ']
  · intro i cmd hi
    rw [hc, fixupCommands, List.getElem?_mapIdx] at hi
    obtain ⟨cmd', -, rfl⟩ := Option.map_eq_some_iff.mp hi
    rw [hc]
    rfl

/-- With fewer options than commands the terminator is put where a command's
option should be. -/
theorem Short.getopt {c c' : Ctx} {basename : List UInt8} {g : Grow} (h : Short c)
    (hs : mncommandCtxGetopt c basename g = some c') : Broken c' := by
  obtain ⟨hc, hopts, -⟩ := getopt_cases hs
  refine ⟨c.options.items.length, ?_, Opt.zero, ?_, rfl⟩
  · rw [hc, length_fixupCommands]
    exact h.2
  · rw [hopts, ← length_fixupOptions c.commands c.options]
    exact List.getElem?_concat_length

theorem Fresh.add {c : Ctx} (h : Fresh c) {r : Registration} {g g' : Grow} (hg : g ≠ .fails)
    (hg' : g' ≠ .fails) : Fresh (mncommandCtxAddCmd c r g g').2 := by
  rcases addCmd_cases c r g g' with
    ⟨hf, -⟩ | ⟨-, hf, -⟩ | ⟨-, -, commands, options, hc, hopts, heq⟩
  · exact absurd hf hg
  · exact absurd hf hg'
  · rw [heq]
    refine ⟨h.1, ?_⟩
    simp only [hopts, hc, h.2, List.map_append, List.map_cons, List.map_nil]
    rfl

theorem Fresh.add_half {c : Ctx} (h : Fresh c) {r : Registration} {g : Grow} (hg : g ≠ .fails) :
    Short (mncommandCtxAddCmd c r g .fails).2 := by
  rcases addCmd_cases c r g .fails with ⟨hf, -⟩ | ⟨-, -, commands, hc, heq⟩ | ⟨-, hf, -⟩
  · exact absurd hf hg
  · rw [heq]
    refine ⟨h.1, ?_⟩
    simp only [hc, h.2, List.length_map, List.length_append, List.length_singleton]
    omega
  · exact absurd rfl hf

theorem Short.add {c : Ctx} (h : Short c) (r : Registration) (g g' : Grow) :
    Short (mncommandCtxAddCmd c r g g').2 := by
  obtain ⟨hrun, hlt⟩ := h
  rcases addCmd_cases c r g g' with
    ⟨-, heq⟩ | ⟨-, -, commands, hc, heq⟩ | ⟨-, -, commands, options, hc, hopts, heq⟩
  · rw [heq]
    exact ⟨hrun, hlt⟩
  · rw [heq]
    refine ⟨hrun, ?_⟩
    simp only [hc, List.length_append, List.length_singleton]
    omega
  · rw [heq]
    refine ⟨hrun, ?_⟩
    simp only [hc, hopts, List.length_append, List.length_singleton]
    omega

/-! ### All events -/

/-- What a history says of the context behind it. -/
inductive After (es : List Event) (c : Ctx) : Prop
  | fresh (h : Undisturbed es) (before : ∀ e ∈ es, ¬ e.Parses) (hc : Fresh c)
  | ready (h : Undisturbed es) (parsed : ∃ e ∈ es, e.Parses) (hc : Ready c)
  | short (h : ¬ Undisturbed es) (hc : Short c)
  | broken (h : ¬ Undisturbed es) (hc : Broken c)

theorem After.idle {es : List Event} {c : Ctx} (h : After es c) {e : Event} (ha : ¬ e.Appends)
    (hp : ¬ e.Parses) : After (es ++ [e]) c := by
  have hsame : Undisturbed (es ++ [e]) ↔ Undisturbed es := undisturbed_snoc_of_not ha
  cases h with
  | fresh h before hc =>
      refine .fresh (hsame.mpr h) ?_ hc
      rw [List.forall_mem_append, List.forall_mem_singleton]
      exact ⟨before, hp⟩
  | ready h parsed hc =>
      obtain ⟨e', he, hp⟩ := parsed
      exact .ready (hsame.mpr h) ⟨e', List.mem_append_left _ he, hp⟩ hc
  | short h hc => exact .short (fun hu => h (hsame.mp hu)) hc
  | broken h hc => exact .broken (fun hu => h (hsame.mp hu)) hc

theorem After.add {es : List Event} {c : Ctx} (h : After es c) (r : Registration) (g g' : Grow) :
    After (es ++ [.addCmd r g g']) (mncommandCtxAddCmd c r g g').2 := by
  by_cases hg : g = .fails
  · subst hg
    exact h.idle (fun happ => happ rfl) id
  · cases h with
    | fresh h before hc =>
        by_cases hg' : g' = .fails
        · refine .short (fun hu => ((undisturbed_snoc.mp hu).2 hg).1 hg') ?_
          rw [hg']
          exact hc.add_half hg
        · refine .fresh (undisturbed_snoc.mpr ⟨h, fun _ => ⟨hg', before⟩⟩) ?_ (hc.add hg hg')
          rw [List.forall_mem_append, List.forall_mem_singleton]
          exact ⟨before, id⟩
    | ready h parsed hc =>
        obtain ⟨e, he, hp⟩ := parsed
        exact .broken (fun hu => ((undisturbed_snoc.mp hu).2 hg).2 e he hp) (hc.add hg)
    | short h hc => exact .short (fun hu => h (undisturbed_snoc.mp hu).1) (hc.add r g g')
    | broken h hc =>
        exact .broken (fun hu => h (undisturbed_snoc.mp hu).1)
          (hc.step (e := .addCmd r g g') rfl)

theorem After.getopt {es : List Event} {c c' : Ctx} {basename : List UInt8} {g : Grow}
    (h : After es c) (hs : mncommandCtxGetopt c basename g = some c') :
    After (es ++ [.getopt basename g]) c' := by
  have hsame : Undisturbed (es ++ [.getopt basename g]) ↔ Undisturbed es :=
    undisturbed_snoc_of_not id
  have hparsed : ∃ e ∈ es ++ [Event.getopt basename g], e.Parses :=
    ⟨_, List.mem_append_right _ (List.mem_singleton_self _), trivial⟩
  cases h with
  | fresh h before hc =>
      have htable : c.options.items =
          c.commands.items.map Cmd.opt ++ List.replicate 0 Opt.zero := by
        rw [hc.2, List.replicate_zero, List.append_nil]
      exact .ready (hsame.mpr h) hparsed (ready_getopt htable hs)
  | ready h parsed hc =>
      obtain ⟨k, htable⟩ := hc.table
      exact .ready (hsame.mpr h) hparsed (ready_getopt htable hs)
  | short h hc => exact .broken (fun hu => h (hsame.mp hu)) (hc.getopt hs)
  | broken h hc =>
      exact .broken (fun hu => h (hsame.mp hu)) (hc.step (e := .getopt basename g) hs)

/-- After any history the context is in one of the four conditions. -/
theorem after_history {es : List Event} {c : Ctx} (h : exec step Ctx.init es = some c) :
    After es c := by
  induction es using List.reverseRecOn generalizing c with
  | nil =>
      cases h
      exact .fresh undisturbed_nil (fun _ he => by cases he) ⟨rfl, rfl⟩
  | append_singleton es e ih =>
      rw [exec_append] at h
      obtain ⟨c₁, h₁, h₂⟩ := Option.bind_eq_some_iff.mp h
      obtain ⟨c₂, hs, h₃⟩ := exec_cons h₂
      cases h₃
      have hafter := ih h₁
      cases e with
      | addCmd r g g' =>
          cases hs
          exact hafter.add r g g'
      | getopt basename g => exact hafter.getopt hs
      | getoptLong =>
          rw [step] at hs
          split at hs
          · cases hs
            exact hafter.idle id id
          · cases hs

/-- **At a call of `getopt_long` the arrays are aligned, and a long option
selects the command of its name, exactly if every command that was registered
before got its option and was registered before the first
`mncommand_ctx_getopt`.** -/
theorem getopt_long_aligned_iff (es : List Event) (c : Ctx)
    (hrun : exec step Ctx.init es = some c) (hcall : step c .getoptLong ≠ none) :
    (Aligned c ∧ Selects c) ↔ Undisturbed es := by
  have hrunning : c.running ≠ none := by
    intro hnone
    rw [step, hnone] at hcall
    exact hcall rfl
  cases after_history hrun with
  | fresh h before hc => exact absurd hc.1 hrunning
  | ready h parsed hc => exact iff_of_true ⟨hc.aligned, hc.aligned.selects⟩ h
  | short h hc => exact absurd hc.1 hrunning
  | broken h hc => exact iff_of_false (fun hal => hc.not_aligned hal.1) h

/-! ### Two registrations, and two with a parse between them -/

def verbose : Registration := ⟨ascii "verbose", 118, noArgument, none⟩
def output : Registration := ⟨ascii "output", 111, requiredArgument, none⟩

/-- Both commands are registered, then the arguments are parsed. -/
def registeredFirst : List Event :=
  [.addCmd verbose .inPlace .inPlace, .addCmd output .moves .moves,
    .getopt (ascii "prog") .moves, .getoptLong]

/-- The second command is registered between two parses. -/
def registeredLate : List Event :=
  [.addCmd verbose .inPlace .inPlace, .getopt (ascii "prog") .inPlace, .getoptLong,
    .addCmd output .inPlace .inPlace, .getopt (ascii "prog") .inPlace]

theorem getopt_long_aligned_first : ∃ c, exec step Ctx.init registeredFirst = some c ∧
    Aligned c ∧ Selects c := by
  refine ⟨_, rfl, (getopt_long_aligned_iff registeredFirst _ rfl (by decide)).mpr ?_⟩
  unfold registeredFirst Undisturbed
  simp [Event.Appends, Event.Stores, Event.Parses]

theorem getopt_long_misaligned : ∃ c, exec step Ctx.init registeredLate = some c ∧
    step c .getoptLong ≠ none ∧ ¬ Aligned c ∧
      longIndex c.options.items (cstr output.longname) = none := by
  refine ⟨_, rfl, by decide, ?_, by decide⟩
  exact Broken.not_aligned ⟨1, by decide, ⟨none, 0, some ⟨0, 1⟩, 0⟩, by decide, rfl⟩

end MnCommand
