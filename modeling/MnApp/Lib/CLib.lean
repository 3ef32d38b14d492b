/-
# `MnApp.Lib.CLib` — bytes, C strings and `strtol`

The part of the C library that byte-level parsers lean on, over lists of
bytes.  A pointer into memory is the list of bytes from it on; a C string is
what stands before the first NUL.

    int            `toInt`, the narrowing a C implementation makes of a wider
                   value (two's complement, 32 bits)
    strtol         `strtol`: white space, a sign, for base 16 an optional
                   `0x`, digits; the value is clamped to `long`, and
                   `endptr` stays on `nptr` when there is no digit
    strcmp,
    strcasecmp,
    strncasecmp    the test "the result is 0", which is all that is used

What `strtol` does on a text that starts with its digits is `strtol_digits`; what
`%d` prints is read back by `strtol_printInt` and `strtoul_printInt`.
-/
import Mathlib.Algebra.GroupWithZero.Nat
import Mathlib.Algebra.Ring.Int.Defs
import Mathlib.Algebra.Ring.Nat
import Mathlib.Data.List.Basic

namespace CLib

/-! ## Integers -/

/-- The largest `int`. -/
def intMax : Int := 2147483647

/-- The largest `long`. -/
def longMax : Int := 9223372036854775807

/-- The smallest `long`. -/
def longMin : Int := -9223372036854775808

/-- Conversion to a 32-bit `int`. -/
def toInt (x : Int) : Int := x.bmod 4294967296

theorem toInt_of_le {x : Int} (h₁ : -2147483648 ≤ x) (h₂ : x ≤ intMax) : toInt x = x := by
  unfold toInt intMax at *
  apply Int.bmod_eq_of_le <;> omega

theorem toInt_le {x : Int} (h : 0 ≤ x) : toInt x ≤ x := by
  unfold toInt
  rw [Int.bmod_def]
  split <;> omega

@[simp] theorem toInt_toInt_add (x y : Int) : toInt (toInt x + y) = toInt (x + y) := by
  unfold toInt
  exact Int.bmod_add_bmod

theorem toInt_range (x : Int) : -2147483648 ≤ toInt x ∧ toInt x ≤ intMax := by
  unfold toInt intMax
  rw [Int.bmod_def]
  split <;> omega

/-! ## Bytes -/

-- a fact about the bytes of a text is decided over the text, not over all bytes
instance (priority := 2000) decidableForallBytes (P : UInt8 → Prop) [DecidablePred P]
    (l : List UInt8) :
    Decidable (∀ b ∈ l, P b) := List.decidableBAll P l

instance (priority := 2000) decidableForallByte (P : UInt8 → Prop) [DecidablePred P]
    (o : Option UInt8) :
    Decidable (∀ b ∈ o, P b) := Option.decidableForallMem o

/-- The bytes of an ASCII text. -/
def ascii (s : String) : List UInt8 := s.toList.map fun c => c.toNat.toUInt8

def NUL : UInt8 := 0
def TAB : UInt8 := 9
def LF : UInt8 := 10
def CR : UInt8 := 13
def SP : UInt8 := 32
def COLON : UInt8 := 58

/-- `isspace` in the C locale: SP, and TAB, LF, VT, FF, CR. -/
def isspace (b : UInt8) : Bool := b == 32 || (9 ≤ b && b ≤ 13)

/-- `isalnum` in the C locale.  Its argument is an `int`. -/
def isalnum (c : Int) : Bool :=
  (48 ≤ c && c ≤ 57) || (65 ≤ c && c ≤ 90) || (97 ≤ c && c ≤ 122)

/-- `tolower` in the C locale. -/
def tolower (b : UInt8) : UInt8 := if 65 ≤ b && b ≤ 90 then b + 32 else b

/-- The value of a letter or figure as a digit, whatever the base. -/
def digitVal (b : UInt8) : Option Nat :=
  if 48 ≤ b && b ≤ 57 then some (b.toNat - 48)
  else if 97 ≤ b && b ≤ 122 then some (b.toNat - 87)
  else if 65 ≤ b && b ≤ 90 then some (b.toNat - 55)
  else none

/-- `b` is a digit of the base. -/
def isDigit (base : Nat) (b : UInt8) : Bool :=
  match digitVal b with
  | some d => decide (d < base)
  | none => false

/-- The number a list of digits writes, most significant first. -/
def ofDigits (base : Nat) (ds : List UInt8) : Nat :=
  ds.foldl (fun acc b => acc * base + (digitVal b).getD 0) 0

/-! ## C strings -/

/-- The C string at a pointer. -/
def cstr (p : List UInt8) : List UInt8 := p.takeWhile (· != NUL)

/-- `strcmp(p, q) == 0`. -/
def strcmpEq (p q : List UInt8) : Bool := cstr p == cstr q

/-- `strcasecmp(p, q) == 0`. -/
def strcasecmpEq (p q : List UInt8) : Bool := (cstr p).map tolower == (cstr q).map tolower

/-- `strncasecmp(p, q, n) == 0`. -/
def strncasecmpEq (p q : List UInt8) (n : Nat) : Bool :=
  ((cstr p).take n).map tolower == ((cstr q).take n).map tolower

/-! ### What they are made of -/

theorem cstr_append {a b : List UInt8} (ha : ∀ x ∈ a, x ≠ NUL) : cstr (a ++ b) = a ++ cstr b := by
  induction a with
  | nil => rfl
  | cons x a ih =>
      have hx := ha x List.mem_cons_self
      have := ih fun y hy => ha y (List.mem_cons_of_mem _ hy)
      unfold cstr at this ⊢
      simp [hx, this]

theorem cstr_of_no_nul {p : List UInt8} (h : ∀ b ∈ p, b ≠ NUL) : cstr p = p := by
  have := cstr_append (b := []) h
  rwa [List.append_nil, show cstr [] = [] from rfl, List.append_nil] at this

theorem cstr_stop {a b : List UInt8} (ha : ∀ x ∈ a, x ≠ NUL) : cstr (a ++ NUL :: b) = a := by
  rw [cstr_append ha]
  simp [cstr]

theorem cstr_nul (a b : List UInt8) : cstr (a ++ NUL :: b) = cstr a := by
  unfold cstr
  rw [List.takeWhile_append]
  split
  · rename_i h
    simp only [bne_self_eq_false, Bool.false_eq_true, not_false_eq_true, List.takeWhile_cons_of_neg,
      List.append_nil]
    exact ((List.takeWhile_sublist _).eq_of_length h).symm
  · rfl

/-- The same text up to the case of its letters. -/
def SameLetters (a b : List UInt8) : Prop := a.map tolower = b.map tolower

instance (a b : List UInt8) : Decidable (SameLetters a b) :=
  inferInstanceAs (Decidable (a.map tolower = b.map tolower))

theorem tolower_eq_nul {b : UInt8} : tolower b = NUL ↔ b = NUL := by
  unfold tolower
  split
  · rename_i h
    have hr := (Bool.and_eq_true _ _).mp h
    have h1 : 65 ≤ b.toNat := by simpa [UInt8.le_iff_toNat_le] using hr.1
    have h2 : b.toNat ≤ 90 := by simpa [UInt8.le_iff_toNat_le] using hr.2
    refine iff_of_false (fun h0 => ?_) (fun h0 => ?_)
    · have := congrArg UInt8.toNat h0
      rw [UInt8.toNat_add] at this
      simp [NUL] at this
      omega
    · rw [h0] at h1
      simp [NUL] at h1
  · exact Iff.rfl

theorem SameLetters.lower_begins {a b : List UInt8} (h : SameLetters a b) :
    a.map tolower <+: b.map tolower := ⟨[], by rw [List.append_nil]; exact h⟩

/-- A text that is the same up to case has its NULs at the same places. -/
theorem nul_mem_of_tolower {a b : List UInt8} (h : a.map tolower <+: b.map tolower)
    (ha : NUL ∈ a) : NUL ∈ b := by
  have hlow : tolower NUL ∈ b.map tolower := h.subset (List.mem_map_of_mem ha)
  obtain ⟨x, hx, hxl⟩ := List.mem_map.mp hlow
  have : tolower x = NUL := hxl.trans (tolower_eq_nul.mpr rfl)
  exact tolower_eq_nul.mp this ▸ hx

theorem cstr_tolower (s : List UInt8) : (cstr s).map tolower = cstr (s.map tolower) := by
  induction s with
  | nil => rfl
  | cons b s ih =>
      unfold cstr at ih ⊢
      rw [List.map_cons, List.takeWhile_cons, List.takeWhile_cons]
      have hb : (tolower b != NUL) = (b != NUL) := by
        rw [Bool.eq_iff_iff, bne_iff_ne, bne_iff_ne, ne_eq, ne_eq, tolower_eq_nul]
      rw [hb]
      split
      · rw [List.map_cons, ih]
      · rfl

theorem SameLetters.strcasecmp {a b : List UInt8} (h : SameLetters a b) (t : List UInt8) :
    strcasecmpEq a t = strcasecmpEq b t := by
  unfold strcasecmpEq
  rw [cstr_tolower a, cstr_tolower b, h]

theorem strncasecmpEq_token {token rest t : List UInt8} (h : ∀ x ∈ token, x ≠ NUL) :
    strncasecmpEq (token ++ rest) t token.length =
      (token.map tolower == ((cstr t).take token.length).map tolower) := by
  unfold strncasecmpEq
  rw [cstr_append h, List.take_left]

/-- Comparing as many bytes as a word has: the word is a beginning of the name,
or the name ends where the word has a NUL. -/
theorem strncasecmpEq_word {s rest name : List UInt8} (hname : NUL ∉ name) :
    strncasecmpEq (s ++ rest) name s.length = true ↔
      (NUL ∉ s ∧ s.map tolower <+: name.map tolower) ∨
        (NUL ∈ s ∧ SameLetters (cstr s) name) := by
  have hname' : cstr name = name := cstr_of_no_nul fun b hb h => hname (h ▸ hb)
  by_cases hs : NUL ∈ s
  · obtain ⟨t, u, rfl, ht⟩ := List.eq_append_cons_of_mem hs
    have ht' : ∀ b ∈ t, b ≠ NUL := fun b hb h => ht (h ▸ hb)
    have htake : t.take (t ++ NUL :: u).length = t := List.take_of_length_le (by simp)
    unfold strncasecmpEq
    rw [List.append_assoc, List.cons_append, cstr_stop ht', cstr_stop ht', hname', htake,
      beq_iff_eq]
    constructor
    · intro h
      -- one byte more than the text in front of the NUL is compared, so the name is no longer
      refine .inr ⟨hs, ?_⟩
      have hlen := congrArg List.length h
      simp only [List.length_map, List.length_take, List.length_append, List.length_cons] at hlen
      rw [List.take_of_length_le (by simp only [List.length_append, List.length_cons]; omega)] at h
      exact h
    · rintro (⟨h, -⟩ | ⟨-, h⟩)
      · exact absurd hs h
      · have hlen := congrArg List.length h
        rw [List.length_map, List.length_map] at hlen
        rw [List.take_of_length_le (by simp only [List.length_append, List.length_cons]; omega)]
        exact h
  · rw [strncasecmpEq_token fun b hb h => hs (h ▸ hb), hname', List.map_take, beq_iff_eq]
    constructor
    · intro h
      exact .inl ⟨hs, List.prefix_iff_eq_take.mpr (by rwa [List.length_map])⟩
    · rintro (⟨-, h⟩ | ⟨h, -⟩)
      · have := List.prefix_iff_eq_take.mp h
        rwa [List.length_map] at this
      · exact absurd h hs

/-! ## `strtol` -/

/-- The sign: whether it is a minus, and how many bytes it takes. -/
def strtolSign : List UInt8 → Bool × Nat
  | 45 :: _ => (true, 1)
  | 43 :: _ => (false, 1)
  | _ => (false, 0)

/-- The bytes a `0x` takes: it counts only before a hexadecimal digit. -/
def strtolPrefix (base : Nat) : List UInt8 → Nat
  | 48 :: x :: d :: _ => if base = 16 ∧ tolower x = 120 ∧ isDigit 16 d = true then 2 else 0
  | _ => 0

/-- The result of `strtol`: the value, `endptr - nptr`, and whether `errno`
was set to `ERANGE`. -/
structure Strtol where
  val : Int
  len : Nat
  erange : Bool
deriving DecidableEq, Repr

/-- The value of the digits found at `off`, clamped to `long`. -/
def strtolValue (neg : Bool) (base off : Nat) (ds : List UInt8) : Strtol :=
  let v : Int := if neg then -(ofDigits base ds : Int) else ofDigits base ds
  if ds = [] then ⟨0, 0, false⟩
  else if v > longMax then ⟨longMax, off + ds.length, true⟩
  else if v < longMin then ⟨longMin, off + ds.length, true⟩
  else ⟨v, off + ds.length, false⟩

/-- `strtol(p, &endptr, base)` for the bases 10 and 16. -/
def strtol (p : List UInt8) (base : Nat) : Strtol :=
  let ws := (p.takeWhile isspace).length
  let sg := strtolSign (p.drop ws)
  let off := ws + sg.2 + strtolPrefix base (p.drop (ws + sg.2))
  strtolValue sg.1 base off ((p.drop off).takeWhile (isDigit base))

/-- The number that `strtol` finds, before it is clamped to `long`. -/
def numeral (p : List UInt8) (base : Nat) : Int :=
  let ws := (p.takeWhile isspace).length
  let sg := strtolSign (p.drop ws)
  let off := ws + sg.2 + strtolPrefix base (p.drop (ws + sg.2))
  let n : Int := ofDigits base ((p.drop off).takeWhile (isDigit base))
  if sg.1 then -n else n

theorem strtol_val (p : List UInt8) (base : Nat) :
    (strtol p base).val = max longMin (min (numeral p base) longMax) := by
  unfold strtol numeral strtolValue
  simp only
  generalize strtolSign (p.drop _) = sg
  generalize (p.drop _).takeWhile (isDigit base) = ds
  generalize hv : (if sg.1 = true then -(ofDigits base ds : Int) else ofDigits base ds) = v
  unfold longMax longMin at *
  split
  · rename_i hnil
    subst hnil
    have h0 : v = 0 := by
      rw [← hv]
      simp [ofDigits]
    subst h0
    rfl
  · split
    · simp only
      omega
    · split <;> (simp only; omega)

theorem isDigit_range {base : Nat} {b : UInt8} (h : isDigit base b = true) :
    (48 ≤ b.toNat ∧ b.toNat ≤ 57) ∨ (97 ≤ b.toNat ∧ b.toNat ≤ 122) ∨
      (65 ≤ b.toNat ∧ b.toNat ≤ 90) := by
  unfold isDigit digitVal at h
  simp only [Bool.and_eq_true, decide_eq_true_eq, UInt8.le_iff_toNat_le] at h
  split at h
  · rename_i d hd
    split at hd
    · rename_i h1; exact .inl h1
    · split at hd
      · rename_i h1; exact .inr (.inl h1)
      · split at hd
        · rename_i h1; exact .inr (.inr h1)
        · cases hd
  · cases h

theorem not_isspace_of_isDigit {base : Nat} {b : UInt8} (h : isDigit base b = true) :
    isspace b = false := by
  have hr := isDigit_range h
  have h32 : b ≠ 32 := by rintro rfl; simp at hr
  simp only [isspace, beq_eq_false_iff_ne.mpr h32, Bool.false_or, Bool.and_eq_false_iff,
    decide_eq_false_iff_not, UInt8.le_iff_toNat_le]
  right
  show ¬ b.toNat ≤ 13
  omega

theorem strtolSign_of_isDigit {base : Nat} {b : UInt8} (h : isDigit base b = true)
    (l : List UInt8) : strtolSign (b :: l) = (false, 0) := by
  have hr := isDigit_range h
  have h45 : b ≠ 45 := by rintro rfl; simp at hr
  have h43 : b ≠ 43 := by rintro rfl; simp at hr
  unfold strtolSign
  split
  · rename_i heq; simp only [List.cons.injEq] at heq; exact absurd heq.1 h45
  · rename_i heq; simp only [List.cons.injEq] at heq; exact absurd heq.1 h43
  · rfl

theorem takeWhile_stop {p : UInt8 → Bool} {ds : List UInt8} {b : UInt8} (rest : List UInt8)
    (hds : ∀ d ∈ ds, p d = true) (hb : p b = false) :
    (ds ++ b :: rest).takeWhile p = ds := by
  induction ds with
  | nil => simp [hb]
  | cons d ds ih =>
      have hd := hds d List.mem_cons_self
      simp [hd, ih fun x hx => hds x (List.mem_cons_of_mem _ hx)]

theorem not_isDigit_x {b : UInt8} (h : tolower b = 120) : isDigit 16 b = false := by
  have hb : b = 120 ∨ b = 88 := by
    unfold tolower at h
    split at h
    · right
      have := congrArg (· - 32) h
      simpa using this
    · exact .inl h
  rcases hb with rfl | rfl <;> decide

theorem strtol_clamped {base : Nat} {ds : List UInt8} {b : UInt8} (rest : List UInt8)
    (hne : ds ≠ []) (hds : ∀ d ∈ ds, isDigit base d = true) (hb : isDigit base b = false)
    (hx : tolower b ≠ 120) :
    strtol (ds ++ b :: rest) base = strtolValue false base 0 ds := by
  match ds, hne with
  | d :: ds, _ =>
      have hd := hds d List.mem_cons_self
      have hws : ((d :: ds) ++ b :: rest).takeWhile isspace = [] := by
        simp [not_isspace_of_isDigit hd]
      have hpx : strtolPrefix base ((d :: ds) ++ b :: rest) = 0 := by
        unfold strtolPrefix
        split
        · rename_i x c l heq
          rw [if_neg]
          rintro ⟨h16, hxx, -⟩
          -- the second byte is a digit, or it is the `b` that ends the digits
          cases ds with
          | nil =>
              simp only [List.cons_append, List.nil_append, List.cons.injEq] at heq
              exact hx (heq.2.1 ▸ hxx)
          | cons e ds =>
              simp only [List.cons_append, List.cons.injEq] at heq
              have he := hds e (by simp)
              rw [heq.2.1, h16, not_isDigit_x hxx] at he
              cases he
        · rfl
      have hdig : ((d :: ds) ++ b :: rest).takeWhile (isDigit base) = d :: ds :=
        takeWhile_stop rest hds hb
      have hsg : strtolSign ((d :: ds) ++ b :: rest) = (false, 0) :=
        strtolSign_of_isDigit hd _
      generalize (d :: ds) ++ b :: rest = p at hws hpx hdig hsg
      simp only [strtol, hws, List.length_nil, List.drop_zero, hsg, Nat.add_zero, hpx, hdig]

theorem strtol_digits {base : Nat} {ds : List UInt8} {b : UInt8} (rest : List UInt8)
    (hne : ds ≠ []) (hds : ∀ d ∈ ds, isDigit base d = true) (hb : isDigit base b = false)
    (hx : tolower b ≠ 120) (hmax : (ofDigits base ds : Int) ≤ longMax) :
    strtol (ds ++ b :: rest) base = ⟨ofDigits base ds, ds.length, false⟩ := by
  have hmin : ¬ ((ofDigits base ds : Int) < longMin) := by unfold longMin; omega
  rw [strtol_clamped rest hne hds hb hx]
  simp only [strtolValue, Bool.false_eq_true, if_false, Nat.zero_add]
  rw [if_neg hne, if_neg (by omega), if_neg hmin]

/-- Any number is read as itself, or as the greatest `long`. -/
theorem strtol_digits_val {base : Nat} {ds : List UInt8} {b : UInt8} (rest : List UInt8)
    (hne : ds ≠ []) (hds : ∀ d ∈ ds, isDigit base d = true) (hb : isDigit base b = false)
    (hx : tolower b ≠ 120) :
    (strtol (ds ++ b :: rest) base).val = min (ofDigits base ds : Int) longMax := by
  have hmin : ¬ ((ofDigits base ds : Int) < longMin) := by unfold longMin; omega
  rw [strtol_clamped rest hne hds hb hx]
  simp only [strtolValue, Bool.false_eq_true, if_false, if_neg hne, if_neg hmin]
  split
  · rename_i h
    exact (Int.min_eq_right (Int.le_of_lt h)).symm
  · rename_i h
    exact (Int.min_eq_left (Int.not_lt.mp h)).symm

theorem strtolValue_len {neg : Bool} {base off : Nat} {ds : List UInt8} (h : ds ≠ []) :
    (strtolValue neg base off ds).len = off + ds.length := by
  unfold strtolValue
  simp only [if_neg h]
  generalize (if neg = true then -(ofDigits base ds : Int) else ofDigits base ds) = v
  split
  · rfl
  · split <;> rfl

theorem strtol_val_of_len_zero {p : List UInt8} {base : Nat} (h : (strtol p base).len = 0) :
    (strtol p base).val = 0 := by
  unfold strtol at *
  simp only at *
  generalize (p.drop _).takeWhile (isDigit base) = ds at *
  by_cases hds : ds = []
  · simp [strtolValue, hds]
  · have hlen : 0 < ds.length := List.length_pos_iff.mpr hds
    rw [strtolValue_len hds] at h
    omega

theorem takeWhile_inside {p : UInt8 → Bool} {a l m : List UInt8}
    (h : ((a ++ l).takeWhile p).length < a.length) :
    (a ++ m).takeWhile p = (a ++ l).takeWhile p := by
  rw [List.takeWhile_append] at h ⊢
  rw [List.takeWhile_append]
  by_cases hall : (a.takeWhile p).length = a.length
  · rw [if_pos hall] at h
    rw [List.length_append] at h
    omega
  · rw [if_neg hall, if_neg hall]

theorem takeWhile_barrier {p : UInt8 → Bool} {a l l' : List UInt8} {x : UInt8}
    (hx : p x = false) : (a ++ x :: l').takeWhile p = (a ++ x :: l).takeWhile p := by
  rw [List.takeWhile_append, List.takeWhile_append]
  simp [hx]

theorem strtolSign_append {a l l' : List UInt8} (ha : a ≠ []) :
    strtolSign (a ++ l') = strtolSign (a ++ l) := by
  cases a with
  | nil => exact absurd rfl ha
  | cons y a =>
      simp only [List.cons_append]
      unfold strtolSign
      split <;> split <;> simp_all

theorem strtolPrefix_append {base : Nat} {a l l' : List UInt8} {x : UInt8} (ha : a ≠ [])
    (hx : tolower x ≠ 120) :
    strtolPrefix base (a ++ x :: l') = strtolPrefix base (a ++ x :: l) := by
  match a, ha with
  | [y], _ =>
      -- the byte that would be the `x` is not one
      have hnone : ∀ l, strtolPrefix base (y :: x :: l) = 0 := by
        intro l
        unfold strtolPrefix
        split
        · rename_i heq
          simp only [List.cons.injEq] at heq
          rw [if_neg]
          rintro ⟨-, h, -⟩
          exact hx (heq.2.1 ▸ h)
        · rfl
      exact (hnone l').trans (hnone l).symm
  | [y, z], _ =>
      simp only [List.cons_append, List.nil_append]
      unfold strtolPrefix
      split <;> split <;> simp_all
  | y :: z :: w :: a, _ =>
      simp only [List.cons_append]
      unfold strtolPrefix
      split <;> split <;> simp_all

/-- When `strtol` ends at a byte that no number goes on with, what stands
behind that byte does not matter. -/
theorem strtol_congr {base : Nat} {a l l' : List UInt8} {x : UInt8} (ha : a ≠ [])
    (hdig : isDigit base x = false) (hx : tolower x ≠ 120)
    (hlen : (strtol (a ++ x :: l) base).len = a.length) :
    strtol (a ++ x :: l') base = strtol (a ++ x :: l) base := by
  have hpos : 0 < a.length := List.length_pos_iff.mpr ha
  have hds : ∀ {neg : Bool} {off : Nat} {ds : List UInt8},
      (strtolValue neg base off ds).len = a.length → off < a.length := by
    intro neg off ds h
    by_cases hnil : ds = []
    · simp [strtolValue, hnil] at h
      omega
    · rw [strtolValue_len hnil] at h
      have := List.length_pos_iff.mpr hnil
      omega
  unfold strtol at hlen
  simp only at hlen
  have hoff := hds hlen
  clear hds hlen
  have hws := takeWhile_inside (p := isspace) (a := a) (l := x :: l) (m := x :: l') (by omega)
  unfold strtol
  simp only
  rw [hws]
  generalize ((a ++ x :: l).takeWhile isspace).length = ws at *
  have hdrop : ∀ {k : Nat} (m : List UInt8), k < a.length → (a ++ m).drop k = a.drop k ++ m := by
    intro k m hk
    rw [List.drop_append_of_le_length (by omega)]
  have hne : ∀ {k : Nat}, k < a.length → a.drop k ≠ [] := by
    intro k hk h
    have := congrArg List.length h
    rw [List.length_drop, List.length_nil] at this
    omega
  have hsg : strtolSign ((a ++ x :: l').drop ws) = strtolSign ((a ++ x :: l).drop ws) := by
    rw [hdrop _ (by omega), hdrop _ (by omega)]
    exact strtolSign_append (hne (by omega))
  rw [hsg]
  generalize strtolSign ((a ++ x :: l).drop ws) = sg at *
  have hpx : strtolPrefix base ((a ++ x :: l').drop (ws + sg.2)) =
      strtolPrefix base ((a ++ x :: l).drop (ws + sg.2)) := by
    rw [hdrop _ (by omega), hdrop _ (by omega)]
    exact strtolPrefix_append (hne (by omega)) hx
  rw [hpx]
  generalize strtolPrefix base ((a ++ x :: l).drop (ws + sg.2)) = px at *
  rw [hdrop _ hoff, hdrop _ hoff, takeWhile_barrier hdig]

theorem strtolSign_nul (a l l' : List UInt8) :
    strtolSign (a ++ NUL :: l') = strtolSign (a ++ NUL :: l) ∧
      (strtolSign (a ++ NUL :: l)).2 ≤ a.length := by
  cases a with
  | nil => exact ⟨rfl, Nat.le_refl _⟩
  | cons y a =>
      refine ⟨strtolSign_append nofun, ?_⟩
      have hle : ∀ p, (strtolSign p).2 ≤ 1 := by
        intro p
        unfold strtolSign
        split <;> simp
      exact Nat.le_trans (hle _) (Nat.succ_le_succ (Nat.zero_le _))

theorem strtolPrefix_ten (p : List UInt8) : strtolPrefix 10 p = 0 := by
  unfold strtolPrefix
  split <;> simp

/-- A decimal `strtol` does not look behind a NUL. -/
theorem strtol_nul (a l l' : List UInt8) :
    strtol (a ++ NUL :: l') 10 = strtol (a ++ NUL :: l) 10 := by
  have hspace : isspace NUL = false := by decide
  have hdigit : isDigit 10 NUL = false := by decide
  have hws : (a ++ NUL :: l').takeWhile isspace = (a ++ NUL :: l).takeWhile isspace :=
    takeWhile_barrier hspace
  have hle : ((a ++ NUL :: l).takeWhile isspace).length ≤ a.length := by
    rw [List.takeWhile_append]
    simp only [List.takeWhile_cons, hspace]
    split
    · simp
    · exact (List.takeWhile_sublist _).length_le
  unfold strtol
  simp only [strtolPrefix_ten, hws, Nat.add_zero]
  generalize ((a ++ NUL :: l).takeWhile isspace).length = ws at *
  have hdrop : ∀ {k : Nat} (m : List UInt8), k ≤ a.length →
      (a ++ NUL :: m).drop k = a.drop k ++ NUL :: m :=
    fun m hk => List.drop_append_of_le_length hk
  obtain ⟨hsg, hsz⟩ := strtolSign_nul (a.drop ws) l l'
  rw [hdrop l hle, hdrop l' hle, hsg]
  generalize strtolSign (a.drop ws ++ NUL :: l) = sg at *
  rw [List.length_drop] at hsz
  rw [hdrop l (by omega), hdrop l' (by omega), takeWhile_barrier hdigit]

theorem strtolValue_val (neg : Bool) (base off off' : Nat) (ds : List UInt8) :
    (strtolValue neg base off ds).val = (strtolValue neg base off' ds).val := by
  unfold strtolValue
  generalize (if neg = true then -(ofDigits base ds : Int) else ofDigits base ds) = v
  simp only
  split
  · rfl
  · split
    · rfl
    · split <;> rfl

theorem strtol_space {ws : List UInt8} (hws : ∀ b ∈ ws, isspace b = true) (p : List UInt8)
    (base : Nat) : (strtol (ws ++ p) base).val = (strtol p base).val := by
  unfold strtol
  simp only [List.takeWhile_append_of_pos hws, List.length_append, List.drop_length_add_append,
    Nat.add_assoc]
  exact strtolValue_val _ _ _ _ _

theorem takeWhile_before {p : UInt8 → Bool} {x : UInt8} (hx : p x = false) (a l : List UInt8) :
    (a ++ x :: l).takeWhile p = a.takeWhile p := by
  rw [List.takeWhile_append]
  split
  · rename_i h
    rw [List.takeWhile_cons_of_neg (by rw [hx]; exact Bool.false_ne_true), List.append_nil]
    exact ((List.takeWhile_sublist p).eq_of_length h).symm
  · rfl

/-- A decimal `strtol` that finds something in front of a byte which is no digit
stops there, whatever the byte is and whatever stands behind it. -/
theorem strtol_line {a : List UInt8} {x x' : UInt8} (ha : ∃ b ∈ a, isspace b = false)
    (hx : isDigit 10 x = false) (hx' : isDigit 10 x' = false) (l l' : List UInt8) :
    strtol (a ++ x' :: l') 10 = strtol (a ++ x :: l) 10 ∧
      (strtol (a ++ x :: l) 10).len ≤ a.length := by
  obtain ⟨b, hb, hspace⟩ := ha
  have hlt : (a.takeWhile isspace).length < a.length := by
    refine Nat.lt_of_le_of_ne (List.takeWhile_sublist _).length_le fun h => ?_
    have heq := (List.takeWhile_sublist (l := a) isspace).eq_of_length h
    have hall : (a.takeWhile isspace).all isspace = true := List.all_takeWhile
    rw [heq] at hall
    cases hspace.symm.trans (List.all_eq_true.mp hall b hb)
  have hws : ∀ l, (a ++ l).takeWhile isspace = a.takeWhile isspace := fun l => by
    rw [List.takeWhile_append, if_neg (Nat.ne_of_lt hlt)]
  unfold strtol
  simp only [strtolPrefix_ten, hws, Nat.add_zero]
  generalize (a.takeWhile isspace).length = ws at *
  have hdrop : ∀ {k : Nat} (m : List UInt8), k ≤ a.length → (a ++ m).drop k = a.drop k ++ m :=
    fun m hk => List.drop_append_of_le_length hk
  have hne : a.drop ws ≠ [] := fun h => by
    have := congrArg List.length h
    rw [List.length_drop, List.length_nil] at this
    omega
  have hsign : strtolSign (a.drop ws ++ x' :: l') = strtolSign (a.drop ws ++ x :: l) :=
    strtolSign_append hne
  rw [hdrop _ (Nat.le_of_lt hlt), hdrop _ (Nat.le_of_lt hlt), hsign]
  have hsz : (strtolSign (a.drop ws ++ x :: l)).2 ≤ 1 := by
    unfold strtolSign
    split <;> simp
  generalize strtolSign (a.drop ws ++ x :: l) = sg at *
  rw [hdrop _ (show ws + sg.2 ≤ a.length by omega), hdrop _ (show ws + sg.2 ≤ a.length by omega),
    takeWhile_before hx, takeWhile_before hx']
  refine ⟨rfl, ?_⟩
  have hds : ((a.drop (ws + sg.2)).takeWhile (isDigit 10)).length ≤ a.length - (ws + sg.2) := by
    rw [← List.length_drop]
    exact (List.takeWhile_sublist _).length_le
  generalize (a.drop (ws + sg.2)).takeWhile (isDigit 10) = ds at *
  by_cases hnil : ds = []
  · simp [strtolValue, hnil]
  · rw [strtolValue_len hnil]
    omega

theorem strtol_trailing {ws : List UInt8} (hws : ∀ b ∈ ws, isspace b = true) (a : List UInt8) :
    (strtol (a ++ ws ++ [NUL]) 10).val = (strtol (a ++ [NUL]) 10).val := by
  cases ws with
  | nil => rw [List.append_nil]
  | cons b ws =>
      by_cases ha : ∃ x ∈ a, isspace x = false
      · have hb : isDigit 10 b = false := Bool.eq_false_iff.mpr fun hd => by
          have := not_isspace_of_isDigit hd
          rw [hws b List.mem_cons_self] at this
          cases this
        rw [List.append_assoc, List.cons_append,
          (strtol_line ha (by decide : isDigit 10 NUL = false) hb [] (ws ++ [NUL])).1]
      · have ha' : ∀ x ∈ a, isspace x = true := fun x hx =>
          Bool.of_not_eq_false fun h => ha ⟨x, hx, h⟩
        rw [List.append_assoc, strtol_space ha', strtol_space hws, strtol_space ha']

/-! ## Digits -/

theorem ofDigits_foldl (base : Nat) (ds : List UInt8) : ∀ acc : Nat,
    ds.foldl (fun acc b => acc * base + (digitVal b).getD 0) acc =
      acc * base ^ ds.length + ofDigits base ds := by
  induction ds with
  | nil => intro acc; simp [ofDigits]
  | cons d ds ih =>
      intro acc
      have h0 : ofDigits base (d :: ds) =
          (0 * base + (digitVal d).getD 0) * base ^ ds.length + ofDigits base ds := ih _
      rw [List.foldl_cons, ih, h0, List.length_cons, Nat.pow_succ]
      simp only [Nat.zero_mul, Nat.zero_add, Nat.add_mul]
      rw [Nat.mul_assoc, Nat.mul_comm base, Nat.add_assoc]

theorem ofDigits_cons (base : Nat) (d : UInt8) (ds : List UInt8) :
    ofDigits base (d :: ds) = (digitVal d).getD 0 * base ^ ds.length + ofDigits base ds := by
  have := ofDigits_foldl base ds (0 * base + (digitVal d).getD 0)
  simpa [ofDigits] using this

theorem digitVal_eq_zero {b : UInt8} (h : digitVal b = some 0) : b = 48 := by
  unfold digitVal at h
  simp only [Bool.and_eq_true, decide_eq_true_eq, UInt8.le_iff_toNat_le] at h
  split at h
  · rename_i hr
    simp only [Option.some.injEq] at h
    have h48 : (48 : UInt8).toNat = 48 := rfl
    exact UInt8.toNat_inj.mp (by omega)
  · split at h
    · rename_i hr
      have h97 : (97 : UInt8).toNat = 97 := rfl
      simp only [Option.some.injEq] at h
      omega
    · split at h
      · rename_i hr
        have h65 : (65 : UInt8).toNat = 65 := rfl
        simp only [Option.some.injEq] at h
        omega
      · cases h

/-- Dropping the first digit makes the number smaller, unless it is a 0. -/
theorem ofDigits_tail_lt {base : Nat} {d : UInt8} (ds : List UInt8) (hb : 0 < base)
    (hd : isDigit base d = true) (hne : d ≠ 48) : ofDigits base ds < ofDigits base (d :: ds) := by
  rw [ofDigits_cons]
  have hpow : 0 < base ^ ds.length := Nat.pow_pos hb
  have hval : 0 < (digitVal d).getD 0 := by
    unfold isDigit at hd
    cases hv : digitVal d with
    | none => rw [hv] at hd; cases hd
    | some k =>
        cases k with
        | zero => exact absurd (digitVal_eq_zero hv) hne
        | succ k => exact Nat.succ_pos k
  have := Nat.mul_pos hval hpow
  omega

theorem ofDigits_eq_zero {base : Nat} (hb : 0 < base) : ∀ {ds : List UInt8},
    (∀ d ∈ ds, isDigit base d = true) → ofDigits base ds = 0 → ∀ d ∈ ds, d = 48
  | [], _, _ => fun _ h => absurd h List.not_mem_nil
  | d :: ds, hds, h0 => by
      have hd : d = 48 := by
        by_contra hne
        have := ofDigits_tail_lt ds hb (hds d List.mem_cons_self) hne
        omega
      have htail : ofDigits base ds = 0 := by
        rw [ofDigits_cons] at h0
        omega
      intro x hx
      rcases List.mem_cons.mp hx with rfl | hx
      · exact hd
      · exact ofDigits_eq_zero hb (fun y hy => hds y (List.mem_cons_of_mem _ hy)) htail x hx

theorem ofDigits_zero_cons (base : Nat) (ds : List UInt8) :
    ofDigits base (48 :: ds) = ofDigits base ds := by
  rw [ofDigits_cons]
  have : digitVal 48 = some 0 := by decide
  simp [this]

/-! ## Printing -/

/-- `%d` for a number that is not negative, with fuel. -/
def printNatFuel : Nat → Nat → List UInt8
  | 0, _ => []
  | fuel + 1, n =>
      if n < 10 then [UInt8.ofNat (48 + n)]
      else printNatFuel fuel (n / 10) ++ [UInt8.ofNat (48 + n % 10)]

def printNat (n : Nat) : List UInt8 := printNatFuel (n + 1) n

/-- `%d`. -/
def printInt (x : Int) : List UInt8 :=
  if x < 0 then 45 :: printNat x.natAbs else printNat x.natAbs

theorem isDigit_figure : ∀ d < 10, isDigit 10 (UInt8.ofNat (48 + d)) = true ∧
    digitVal (UInt8.ofNat (48 + d)) = some d := by decide

theorem ofDigits_append (base : Nat) (ds : List UInt8) (d : UInt8) :
    ofDigits base (ds ++ [d]) = ofDigits base ds * base + (digitVal d).getD 0 := by
  unfold ofDigits
  rw [List.foldl_append]
  rfl

theorem printNatFuel_spec {fuel n : Nat} (h : n < fuel) :
    printNatFuel fuel n ≠ [] ∧ (∀ d ∈ printNatFuel fuel n, isDigit 10 d = true) ∧
      ofDigits 10 (printNatFuel fuel n) = n := by
  induction fuel generalizing n with
  | zero => omega
  | succ fuel ih =>
      unfold printNatFuel
      split
      · rename_i hlt
        obtain ⟨hd, hv⟩ := isDigit_figure n hlt
        refine ⟨nofun, fun d hm => by rw [List.mem_singleton.mp hm]; exact hd, ?_⟩
        show 0 * 10 + (digitVal _).getD 0 = n
        rw [hv, Option.getD_some]
        omega
      · obtain ⟨-, hds, hval⟩ := ih (n := n / 10) (by omega)
        obtain ⟨hd, hv⟩ := isDigit_figure (n % 10) (by omega)
        refine ⟨by simp, fun d hm => ?_, ?_⟩
        · rcases List.mem_append.mp hm with hm | hm
          · exact hds d hm
          · rw [List.mem_singleton.mp hm]
            exact hd
        · rw [ofDigits_append, hval, hv, Option.getD_some]
          omega

theorem printNatFuel_length {fuel n k : Nat} (h : n < 10 ^ (k + 1)) :
    (printNatFuel fuel n).length ≤ k + 1 := by
  induction fuel generalizing n k with
  | zero => exact Nat.zero_le _
  | succ fuel ih =>
      unfold printNatFuel
      split
      · simp
      · rename_i hge
        cases k with
        | zero => omega
        | succ k =>
            have := ih (n := n / 10) (k := k) (by rw [Nat.pow_succ] at h; omega)
            rw [List.length_append, List.length_singleton]
            omega

theorem printInt_length {x : Int} (h₁ : -2147483648 ≤ x) (h₂ : x ≤ intMax) :
    (printInt x).length ≤ 11 := by
  have hlen : (printNat x.natAbs).length ≤ 10 :=
    printNatFuel_length (k := 9) (by unfold intMax at h₂; omega)
  unfold printInt
  split
  · rw [List.length_cons]
    omega
  · omega

/-! ## Reading what was printed -/

/-- `ULONG_MAX`. -/
def ulongMax : Int := 18446744073709551615

/-- The value of `strtoul(p, NULL, base)`: a minus sign negates the number as an
unsigned one. -/
def strtoul (p : List UInt8) (base : Nat) : Nat :=
  let n := numeral p base
  if ulongMax < n.natAbs then ulongMax.toNat else (n % (ulongMax + 1)).toNat

theorem numeral_digits {ds : List UInt8} {b : UInt8} (rest : List UInt8) (hne : ds ≠ [])
    (hds : ∀ d ∈ ds, isDigit 10 d = true) (hb : isDigit 10 b = false) :
    numeral (ds ++ b :: rest) 10 = ofDigits 10 ds ∧
      numeral (45 :: (ds ++ b :: rest)) 10 = -(ofDigits 10 ds : Int) := by
  obtain ⟨d, ds', rfl⟩ := List.exists_cons_of_ne_nil hne
  have hd := hds d List.mem_cons_self
  have hws : ((d :: ds') ++ b :: rest).takeWhile isspace = [] := by
    simp [not_isspace_of_isDigit hd]
  have hdig : ((d :: ds') ++ b :: rest).takeWhile (isDigit 10) = d :: ds' :=
    takeWhile_stop rest hds hb
  have hsg : strtolSign ((d :: ds') ++ b :: rest) = (false, 0) := strtolSign_of_isDigit hd _
  have hminus : ∀ l : List UInt8, (45 :: l).takeWhile isspace = [] := fun l =>
    List.takeWhile_cons_of_neg (by decide)
  generalize (d :: ds') ++ b :: rest = p at hws hdig hsg
  constructor
  · simp only [numeral, hws, List.length_nil, List.drop_zero, hsg, strtolPrefix_ten, Nat.add_zero,
      hdig, Bool.false_eq_true, if_false]
  · simp only [numeral, hminus, List.length_nil, List.drop_zero, strtolSign, strtolPrefix_ten,
      Nat.add_zero, Nat.zero_add, List.drop_one, List.tail_cons, hdig, if_true]

theorem numeral_printInt (v : Int) : numeral (printInt v ++ [NUL]) 10 = v := by
  obtain ⟨hne, hds, hval⟩ := printNatFuel_spec (Nat.lt_succ_self v.natAbs)
  obtain ⟨hpos, hneg⟩ := numeral_digits [] hne hds (by decide : isDigit 10 NUL = false)
  unfold printInt printNat
  split
  · rw [List.cons_append, hneg, hval]
    omega
  · rw [hpos, hval]
    omega

theorem strtol_printInt {v : Int} (h₁ : longMin ≤ v) (h₂ : v ≤ longMax) :
    (strtol (printInt v ++ [NUL]) 10).val = v := by
  rw [strtol_val, numeral_printInt, Int.min_eq_left h₂, Int.max_eq_right h₁]

theorem strtoul_printInt {n : Nat} (h : (n : Int) ≤ ulongMax) :
    strtoul (printInt n ++ [NUL]) 10 = n := by
  unfold strtoul
  simp only [numeral_printInt]
  rw [if_neg (by omega), Int.emod_eq_of_lt (by omega) (by omega), Int.toNat_natCast]

end CLib
