/-
# `MnApp.Lib.Getopt` — scanning a command line for options

`getopt_long` of the C library, as a function of where it stands.  Each call
answers with one option; the arguments that are no options are passed over and
come to stand behind all others (`operands`).

| argument          | what it is                                              |
| ----------------- | ------------------------------------------------------- |
| `--name`          | a long option; its argument, if one is required, is the |
|                   | next argument of the line                               |
| `--name=text`     | a long option with its argument                         |
| `-xyz`            | short options; the first that takes an argument takes   |
|                   | the rest, or the next argument of the line              |
| `--`              | the end: all that follows are operands                  |
| `-`, `text`       | an operand                                              |

Which names there are is a `Table`.  A `Phrase` is something that can be written
on a line, with what it means; **a line of phrases is answered with their
meanings, in order** (`phrases_yield`).  Each call uses something up
(`getoptLong_weight`).  Nothing here is about a particular program.
-/
import Mathlib.Algebra.GroupWithZero.Nat
import Mathlib.Algebra.Ring.Nat
import Mathlib.Data.List.TakeWhile

namespace Getopt

def HYPHEN : UInt8 := 45
def EQUALS : UInt8 := 61

/-- Whether an option takes an argument. -/
inductive Takes where
  | none | required | optional
deriving DecidableEq, Repr

/-- What is known of the options: the long ones by index, the short ones by letter. -/
structure Table (ι : Type) where
  long : List UInt8 → Option (ι × Takes)
  short : UInt8 → Option Takes

/-- Where the scan stands: inside a group of letters, the arguments to come, and
the operands it has passed over. -/
structure Scan where
  letters : List UInt8
  args : List (List UInt8)
  operands : List (List UInt8)
deriving DecidableEq, Repr

/-- What a call finds. -/
inductive Answer (ι : Type) where
  | long (i : ι) (arg : Option (List UInt8))
  | short (c : UInt8) (arg : Option (List UInt8))
  | bad
  | finished
deriving DecidableEq, Repr

/-! ## One call -/

/-- The argument of an option, from the text that stands with it or from the line;
`none` if it has one too many or one too few. -/
def takeArg (t : Takes) (text : Option (List UInt8)) (args : List (List UInt8)) :
    Option (Option (List UInt8) × List (List UInt8)) :=
  match t, text, args with
  | .none, some _, _ => none
  | .none, none, args => some (none, args)
  | .required, none, [] => none
  | .required, none, a :: args => some (some a, args)
  | .optional, none, args => some (none, args)
  | _, some a, args => some (some a, args)

section
variable {ι : Type} (T : Table ι)

def shortAnswer (c : UInt8) (rest : List UInt8) (args operands : List (List UInt8)) :
    Answer ι × Scan :=
  match T.short c with
  | none => (.bad, ⟨rest, args, operands⟩)
  -- the group goes on
  | some .none => (.short c none, ⟨rest, args, operands⟩)
  | some t =>
      match takeArg t (if rest = [] then none else some rest) args with
      | none => (.bad, ⟨[], args, operands⟩)
      | some (arg, args) => (.short c arg, ⟨[], args, operands⟩)

/-- The text of a long option behind its name, if there is an equals sign. -/
def inlineText (text : List UInt8) : Option (List UInt8) :=
  match text.dropWhile (· != EQUALS) with
  | [] => none
  | _ :: value => some value

def longAnswer (text : List UInt8) (args operands : List (List UInt8)) : Answer ι × Scan :=
  match T.long (text.takeWhile (· != EQUALS)) with
  | none => (.bad, ⟨[], args, operands⟩)
  | some (i, t) =>
      match takeArg t (inlineText text) args with
      | none => (.bad, ⟨[], args, operands⟩)
      | some (arg, args) => (.long i arg, ⟨[], args, operands⟩)

/-- What an argument of the line is. -/
inductive Kind where
  | stop
  | long (text : List UInt8)
  | group (c : UInt8) (rest : List UInt8)
  | operand
deriving DecidableEq, Repr

def kind : List UInt8 → Kind
  | a :: b :: rest =>
      if a = HYPHEN then
        if b = HYPHEN then (if rest = [] then .stop else .long rest) else .group b rest
      else .operand
  | _ => .operand

/-- On to the next argument that is an option. -/
def nextAnswer : List (List UInt8) → List (List UInt8) → Answer ι × Scan
  | [], operands => (.finished, ⟨[], [], operands⟩)
  | a :: args, operands =>
      match kind a with
      | .stop => (.finished, ⟨[], [], operands ++ args⟩)
      | .long text => longAnswer T text args operands
      | .group c rest => shortAnswer T c rest args operands
      | .operand => nextAnswer args (operands ++ [a])

/-- `getopt_long`. -/
def getoptLong (s : Scan) : Answer ι × Scan :=
  match s.letters with
  | c :: rest => shortAnswer T c rest s.args s.operands
  | [] => nextAnswer T s.args s.operands

end

/-! ## Each call uses something up -/

/-- What is still to be looked at. -/
def Scan.weight (s : Scan) : Nat :=
  s.letters.length + (s.args.map fun a => a.length + 1).sum

section
variable {ι : Type} {T : Table ι}

theorem takeArg_weight {t : Takes} {text arg : Option (List UInt8)} {args args' : List (List UInt8)}
    (h : takeArg t text args = some (arg, args')) :
    (args'.map fun a => a.length + 1).sum ≤ (args.map fun a => a.length + 1).sum := by
  unfold takeArg at h
  split at h
  all_goals cases h
  all_goals simp

theorem shortAnswer_weight (c : UInt8) (rest : List UInt8) (args operands : List (List UInt8)) :
    (shortAnswer T c rest args operands).2.weight ≤
      rest.length + (args.map fun a => a.length + 1).sum := by
  unfold shortAnswer
  split
  · exact Nat.le_refl _
  · exact Nat.le_refl _
  · split
    · simp [Scan.weight]
    · rename_i harg
      have := takeArg_weight harg
      simp only [Scan.weight, List.length_nil]
      omega

theorem longAnswer_weight (text : List UInt8) (args operands : List (List UInt8)) :
    (longAnswer T text args operands).2.weight ≤ (args.map fun a => a.length + 1).sum := by
  unfold longAnswer
  split
  · simp [Scan.weight]
  · split
    · simp [Scan.weight]
    · rename_i harg
      have := takeArg_weight harg
      simp only [Scan.weight, List.length_nil]
      omega

theorem kind_group_length {a rest : List UInt8} {c : UInt8} (h : kind a = .group c rest) :
    rest.length < a.length := by
  unfold kind at h
  split at h
  · split at h
    · split at h
      · split at h <;> cases h
      · cases h
        simp only [List.length_cons]
        omega
    · cases h
  · cases h

theorem nextAnswer_weight (args : List (List UInt8)) : ∀ operands : List (List UInt8),
    (nextAnswer T args operands).1 ≠ .finished →
      (nextAnswer T args operands).2.weight < (args.map fun a => a.length + 1).sum := by
  induction args with
  | nil => exact fun _ h => absurd rfl h
  | cons a args ih =>
      intro operands h
      unfold nextAnswer at h ⊢
      rw [List.map_cons, List.sum_cons]
      cases hk : kind a with
      | stop =>
          simp only [hk] at h
          exact absurd rfl h
      | long text =>
          have := longAnswer_weight (T := T) text args operands
          simp only
          omega
      | group c rest =>
          have := kind_group_length hk
          have := shortAnswer_weight (T := T) c rest args operands
          simp only
          omega
      | operand =>
          simp only [hk] at h
          have := ih _ h
          simp only
          omega

/-- **A call that has not come to the end leaves less to be looked at.** -/
theorem getoptLong_weight {s s' : Scan} {a : Answer ι} (h : getoptLong T s = (a, s'))
    (ha : a ≠ .finished) : s'.weight < s.weight := by
  have hs : (getoptLong T s).2.weight < s.weight := by
    have hne : (getoptLong T s).1 ≠ .finished := by rw [h]; exact ha
    unfold getoptLong at hne ⊢
    unfold Scan.weight
    cases hl : s.letters with
    | nil =>
        simp only [hl] at hne ⊢
        have := nextAnswer_weight s.args s.operands hne
        simpa [Scan.weight] using this
    | cons c rest =>
        have := shortAnswer_weight (T := T) c rest s.args s.operands
        simp only [Scan.weight] at this
        simp only [List.length_cons]
        omega
  rw [h] at hs
  exact hs

end

/-! ## Lines -/

/-- Something that can be written on a line. -/
inductive Phrase (ι : Type) where
  /-- `--name` or `--name=arg` -/
  | long (i : ι) (name : List UInt8) (arg : Option (List UInt8))
  /-- `--name arg` -/
  | longNext (i : ι) (name arg : List UInt8)
  /-- `-abc` -/
  | letters (c : UInt8) (cs : List UInt8)
  /-- `-abcarg`, where `c` takes the argument -/
  | lettersArg (cs : List UInt8) (c : UInt8) (arg : List UInt8)
  /-- `-abc arg` -/
  | lettersNext (cs : List UInt8) (c : UInt8) (arg : List UInt8)
  | operand (text : List UInt8)
deriving DecidableEq, Repr

namespace Phrase

variable {ι : Type}

/-- The arguments that are written. -/
def render : Phrase ι → List (List UInt8)
  | .long _ name none => [HYPHEN :: HYPHEN :: name]
  | .long _ name (some arg) => [HYPHEN :: HYPHEN :: (name ++ EQUALS :: arg)]
  | .longNext _ name arg => [HYPHEN :: HYPHEN :: name, arg]
  | .letters c cs => [HYPHEN :: c :: cs]
  | .lettersArg cs c arg => [HYPHEN :: (cs ++ c :: arg)]
  | .lettersNext cs c arg => [HYPHEN :: (cs ++ [c]), arg]
  | .operand text => [text]

/-- The options that are meant. -/
def answers : Phrase ι → List (Answer ι)
  | .long i _ arg => [.long i arg]
  | .longNext i _ arg => [.long i (some arg)]
  | .letters c cs => (c :: cs).map fun x => .short x none
  | .lettersArg cs c arg => cs.map (fun x => .short x none) ++ [.short c (some arg)]
  | .lettersNext cs c arg => cs.map (fun x => .short x none) ++ [.short c (some arg)]
  | .operand _ => []

/-- And the operands. -/
def operands : Phrase ι → List (List UInt8)
  | .operand text => [text]
  | _ => []

/-- The names are those of options that take arguments as they are given here. -/
def Ok (T : Table ι) : Phrase ι → Prop
  | .long i name none => (name ≠ [] ∧ EQUALS ∉ name) ∧
      ∃ t, T.long name = some (i, t) ∧ t ≠ .required
  | .long i name (some _) => EQUALS ∉ name ∧ ∃ t, T.long name = some (i, t) ∧ t ≠ .none
  | .longNext i name _ => (name ≠ [] ∧ EQUALS ∉ name) ∧ T.long name = some (i, .required)
  | .letters c cs => HYPHEN ∉ c :: cs ∧ ∀ x ∈ c :: cs, T.short x = some .none
  | .lettersArg cs c arg => HYPHEN ∉ cs ++ [c] ∧ (∀ x ∈ cs, T.short x = some .none) ∧ arg ≠ [] ∧
      ∃ t, T.short c = some t ∧ t ≠ .none
  | .lettersNext cs c _ => HYPHEN ∉ cs ++ [c] ∧ (∀ x ∈ cs, T.short x = some .none) ∧
      T.short c = some .required
  | .operand text => kind text = .operand

end Phrase

section
variable {ι : Type} (T : Table ι)

/-- Calls from one place on have these answers, and the next call is as it would be
from the other place. -/
inductive Yields : Scan → List (Answer ι) → Scan → Prop
  | same {s t : Scan} (eq : getoptLong T s = getoptLong T t) : Yields s [] t
  | call {s s' t : Scan} {a : Answer ι} {as : List (Answer ι)} (eq : getoptLong T s = (a, s'))
      (more : a ≠ .finished) (rest : Yields s' as t) : Yields s (a :: as) t

variable {T}

theorem Yields.trans {s t u : Scan} {as bs : List (Answer ι)} (h : Yields T s as t)
    (h' : Yields T t bs u) : Yields T s (as ++ bs) u := by
  induction h with
  | same eq =>
      cases h' with
      | same eq' => exact .same (eq.trans eq')
      | call eq' more rest => exact .call (eq.trans eq') more rest
  | call eq more _ ih => exact .call eq more (ih h')

theorem takeWhile_name {name : List UInt8} (h : EQUALS ∉ name) :
    name.takeWhile (· != EQUALS) = name ∧ inlineText name = none := by
  have hall : ∀ x ∈ name, (x != EQUALS) = true :=
    fun x hx => bne_iff_ne.mpr fun heq => h (heq ▸ hx)
  refine ⟨List.takeWhile_eq_self_iff.mpr hall, ?_⟩
  rw [inlineText, List.dropWhile_eq_nil_iff.mpr hall]

theorem takeWhile_name_value {name : List UInt8} (h : EQUALS ∉ name) (value : List UInt8) :
    (name ++ EQUALS :: value).takeWhile (· != EQUALS) = name ∧
      inlineText (name ++ EQUALS :: value) = some value := by
  have hall : ∀ x ∈ name, (x != EQUALS) = true :=
    fun x hx => bne_iff_ne.mpr fun heq => h (heq ▸ hx)
  constructor
  · rw [List.takeWhile_append_of_pos hall]
    simp
  · rw [inlineText, List.dropWhile_append_of_pos hall]
    simp

theorem getoptLong_long {text : List UInt8} (h : text ≠ []) (args operands : List (List UInt8)) :
    getoptLong T ⟨[], (HYPHEN :: HYPHEN :: text) :: args, operands⟩ =
      longAnswer T text args operands := by
  have hk : kind (HYPHEN :: HYPHEN :: text) = .long text := by
    rw [kind, if_pos rfl, if_pos rfl, if_neg h]
  rw [getoptLong, nextAnswer, hk]

theorem getoptLong_group {c : UInt8} (hc : c ≠ HYPHEN) (rest : List UInt8)
    (args operands : List (List UInt8)) :
    getoptLong T ⟨[], (HYPHEN :: c :: rest) :: args, operands⟩ =
      getoptLong T ⟨c :: rest, args, operands⟩ := by
  have hk : kind (HYPHEN :: c :: rest) = .group c rest := by
    rw [kind, if_pos rfl, if_neg hc]
  rw [getoptLong, nextAnswer, hk]
  rfl

theorem letters_yield {cs : List UInt8} (h : ∀ x ∈ cs, T.short x = some .none)
    (rest : List UInt8) (args operands : List (List UInt8)) :
    Yields T ⟨cs ++ rest, args, operands⟩ (cs.map fun x => .short x none)
      ⟨rest, args, operands⟩ := by
  induction cs with
  | nil => exact .same rfl
  | cons c cs ih =>
      refine .call ?_ nofun (ih fun x hx => h x (List.mem_cons_of_mem _ hx))
      rw [getoptLong, List.cons_append]
      simp only [shortAnswer, h c List.mem_cons_self]

theorem letter_yields {c : UInt8} {t : Takes} {text arg : List UInt8}
    {args args' operands : List (List UInt8)} (h : T.short c = some t) (ht : t ≠ .none)
    (harg : takeArg t (if text = [] then none else some text) args = some (some arg, args')) :
    Yields T ⟨c :: text, args, operands⟩ [.short c (some arg)] ⟨[], args', operands⟩ := by
  refine .call ?_ nofun (.same rfl)
  cases t with
  | none => exact absurd rfl ht
  | required | optional => simp only [getoptLong, shortAnswer, h, harg]

theorem group_yields {cs : List UInt8} {as : List (Answer ι)} {t : Scan}
    {args operands : List (List UInt8)} (hne : cs ≠ []) (hdash : ∀ rest, cs ≠ HYPHEN :: rest)
    (h : Yields T ⟨cs, args, operands⟩ as t) :
    Yields T ⟨[], (HYPHEN :: cs) :: args, operands⟩ as t := by
  cases cs with
  | nil => exact absurd rfl hne
  | cons c cs =>
      have hc : c ≠ HYPHEN := fun heq => hdash cs (by rw [heq])
      exact Yields.trans (.same (getoptLong_group hc cs args operands)) h

theorem letters_ne_dash {cs : List UInt8} {c : UInt8} (h : HYPHEN ∉ cs ++ [c])
    (text rest : List UInt8) : cs ++ c :: text ≠ HYPHEN :: rest := by
  intro heq
  cases cs with
  | nil => exact h (List.mem_singleton.mpr (List.cons.inj heq).1.symm)
  | cons x cs => exact h (List.mem_cons.mpr (.inl (List.cons.inj heq).1.symm))

/-- **A phrase is answered with what it means.** -/
theorem Phrase.yields {p : Phrase ι} (h : p.Ok T) (args operands : List (List UInt8)) :
    Yields T ⟨[], p.render ++ args, operands⟩ p.answers ⟨[], args, operands ++ p.operands⟩ := by
  cases p with
  | long i name arg =>
      show Yields T _ _ ⟨[], args, operands ++ []⟩
      rw [List.append_nil]
      cases arg with
      | none =>
          obtain ⟨⟨hne, heq⟩, t, ht, hreq⟩ := h
          obtain ⟨hname, htext⟩ := takeWhile_name heq
          refine .call ?_ nofun (.same rfl)
          simp only [Phrase.render, List.cons_append, List.nil_append, getoptLong_long hne,
            longAnswer, hname, ht, htext]
          cases t with
          | required => exact absurd rfl hreq
          | none | optional => rfl
      | some arg =>
          obtain ⟨heq, t, ht, hno⟩ := h
          obtain ⟨hname, htext⟩ := takeWhile_name_value heq arg
          have hne : name ++ EQUALS :: arg ≠ [] := by simp
          refine .call ?_ nofun (.same rfl)
          simp only [Phrase.render, List.cons_append, List.nil_append, getoptLong_long hne,
            longAnswer, hname, ht, htext]
          cases t with
          | none => exact absurd rfl hno
          | required | optional => rfl
  | longNext i name arg =>
      show Yields T _ _ ⟨[], args, operands ++ []⟩
      rw [List.append_nil]
      obtain ⟨⟨hne, heq⟩, ht⟩ := h
      obtain ⟨hname, htext⟩ := takeWhile_name heq
      refine .call ?_ nofun (.same rfl)
      simp only [Phrase.render, List.cons_append, List.nil_append, getoptLong_long hne, longAnswer,
        hname, ht, htext]
      rfl
  | letters c cs =>
      show Yields T _ _ ⟨[], args, operands ++ []⟩
      rw [List.append_nil]
      obtain ⟨hdash, h⟩ := h
      have hyields := letters_yield h [] args operands
      rw [List.append_nil] at hyields
      exact group_yields (List.cons_ne_nil _ _)
        (fun _ heq => hdash (List.mem_cons.mpr (.inl (List.cons.inj heq).1.symm))) hyields
  | lettersArg cs c arg =>
      show Yields T _ _ ⟨[], args, operands ++ []⟩
      rw [List.append_nil]
      obtain ⟨hdash, hcs, hne, t, ht, hno⟩ := h
      refine group_yields (by simp) (letters_ne_dash hdash arg)
        ((letters_yield hcs _ _ _).trans (letter_yields ht hno ?_))
      rw [if_neg hne]
      cases t with
      | none => exact absurd rfl hno
      | required | optional => rfl
  | lettersNext cs c arg =>
      show Yields T _ _ ⟨[], args, operands ++ []⟩
      rw [List.append_nil]
      obtain ⟨hdash, hcs, ht⟩ := h
      exact group_yields (by simp) (letters_ne_dash hdash [])
        ((letters_yield hcs _ _ _).trans (letter_yields ht nofun rfl))
  | operand text =>
      refine .same ?_
      have hk : kind text = .operand := h
      simp only [Phrase.render, List.cons_append, List.nil_append, Phrase.operands, getoptLong,
        nextAnswer, hk]

/-- **A line of phrases is answered with what they mean, in order.** -/
theorem phrases_yield {ps : List (Phrase ι)} (h : ∀ p ∈ ps, p.Ok T) (args : List (List UInt8)) :
    ∀ operands : List (List UInt8), Yields T ⟨[], ps.flatMap Phrase.render ++ args, operands⟩
      (ps.flatMap Phrase.answers) ⟨[], args, operands ++ ps.flatMap Phrase.operands⟩ := by
  induction ps with
  | nil =>
      intro operands
      rw [List.flatMap_nil, List.flatMap_nil, List.flatMap_nil, List.append_nil, List.nil_append]
      exact .same rfl
  | cons p ps ih =>
      intro operands
      rw [List.flatMap_cons, List.flatMap_cons, List.flatMap_cons, List.append_assoc,
        ← List.append_assoc operands]
      exact (Phrase.yields (h p List.mem_cons_self) _ _).trans
        (ih (fun q hq => h q (List.mem_cons_of_mem _ hq)) _)

end

end Getopt
