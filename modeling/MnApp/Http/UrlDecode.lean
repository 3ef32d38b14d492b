/-
# `MnApp.Http.UrlDecode` — decoding in place

`http_urldecode` reads through `src` and writes through `dst` in one buffer.
`decodeText` is what it is for, with the text on one side and its bytes on the
other; it fails on the texts of `BadEscape`, in which the scan meets a `%`
without two digits behind it.

**Integers.**  A `char` is signed: a digit is computed in `int`, shifted, and
narrowed to a `char` whose sign bit it may set, and the second digit is or-ed
to that.

**Accesses.**  `Traced` is an expression together with the loads and stores it
makes, in order.  `iteration` is the loop body written that way, and with the
log taken away it is the step of the loop (`urldecodeStep_eq`).  A condition
like `*src >= '0' && *src <= '9'` loads one byte several times, with no store
in between; it counts as one load here.

What comes out (`urldecode_in_place`):

    loads through `src`    at or before the NUL, and never of a byte that was
                           stored before
    loads through `dst`    one for each `%`, made by `*dst |= ..`: of the byte
                           that the same iteration stored with its first digit

What the encoder wrote is such a text, and it is decoded to what it was made
from (`urldecode_urlencode`).
-/
import MnApp.Http.UrlEncode
import MnApp.Lib.CLib

namespace MnHttp

open Loop CLib

/-! ## The decoder -/

/-- How `http_urldecode` ends: with NULL, with a pointer, or outside the
memory it was given. -/
inductive UrlDecoded where
  | null | fault
  | ptr (dst : Nat) (mem : List UInt8)
deriving DecidableEq, Repr

/-- `src`, `dst` and the memory they point into. -/
structure Decoder where
  src : Nat
  dst : Nat
  mem : List UInt8
deriving DecidableEq, Repr

/-- `*(mem + k)`. -/
def load (mem : List UInt8) (k : Nat) : Except UrlDecoded UInt8 :=
  match mem[k]? with
  | some b => .ok b
  | none => .error .fault

/-- `*dst = b`. -/
def Decoder.assign (d : Decoder) (b : UInt8) : Except UrlDecoded Decoder :=
  match store d.mem d.dst b with
  | some mem => .ok { d with mem }
  | none => .error .fault

/-- The three ranges of digits, compared as signed `char`s; the value is an
`int`. -/
def hexValue (b : UInt8) : Except UrlDecoded Int32 :=
  let c := b.toInt8
  if 48 ≤ c ∧ c ≤ 57 then .ok (c.toInt32 - 48)
  else if 97 ≤ c ∧ c ≤ 102 then .ok (c.toInt32 - 97 + 10)
  else if 65 ≤ c ∧ c ≤ 70 then .ok (c.toInt32 - 65 + 10)
  else .error .null

/-- Assigning an `int` to a `char`. -/
def toChar (x : Int32) : UInt8 := x.toInt8.toUInt8

/-- The body of the loop at the byte `c`. -/
def decodeByte (c : UInt8) (d : Decoder) : Except UrlDecoded Decoder :=
  if c = 37 then do
    let d := { d with src := d.src + 1 }
    let v ← hexValue (← load d.mem d.src)
    let d ← d.assign (toChar (v <<< 4))
    let d := { d with src := d.src + 1 }
    let w ← hexValue (← load d.mem d.src)
    d.assign (toChar ((← load d.mem d.dst).toInt8.toInt32 ||| w))
  else d.assign c

/-- One iteration of `http_urldecode`, or its end. -/
def urldecodeStep (d : Decoder) : Next Decoder UrlDecoded :=
  match load d.mem d.src with
  | .error e => .done e
  | .ok c =>
      if c = 0 then .done (.ptr d.dst d.mem)
      else
        match decodeByte c d with
        | .error e => .done e
        | .ok d => .again { d with src := d.src + 1, dst := d.dst + 1 }

/-- `http_urldecode`, with fuel. -/
def httpUrldecode (fuel : Nat) (mem : List UInt8) : Option UrlDecoded :=
  run urldecodeStep fuel ⟨0, 0, mem⟩

/-! ## Loads and stores -/

section
variable {mem t : List UInt8} {c : UInt8} {k : Nat} {d : Decoder}

theorem load_of_drop (h : mem.drop k = c :: t) : load mem k = .ok c := by
  have hget : mem[k]? = some c := by
    rw [← List.head?_drop, h]
    rfl
  unfold load
  rw [hget]

theorem lt_of_drop (h : mem.drop k = c :: t) : k < mem.length := by
  have hlen := congrArg List.length h
  rw [List.length_drop, List.length_cons] at hlen
  omega

theorem drop_succ (h : mem.drop k = c :: t) : mem.drop (k + 1) = t := by
  rw [← List.drop_drop, h]
  rfl

theorem ok_bind {α β : Type} (x : α) (f : α → Except UrlDecoded β) :
    (Except.ok x >>= f) = f x := rfl

theorem assign_eq (h : d.dst < d.mem.length) (c : UInt8) :
    d.assign c = .ok { d with mem := d.mem.set d.dst c } := by
  unfold Decoder.assign
  rw [store_of_lt h]

end

/-! ## The text -/

/-- The byte two digits stand for. -/
def byteOf (x y : UInt8) : UInt8 := UInt8.ofNat (ofDigits 16 [x, y])

/-- The text with each `%` and its digits replaced by a byte; `none` if there is
one that has no digits. -/
def decodeText : List UInt8 → Option (List UInt8)
  | [] => some []
  | c :: t =>
      if c = 37 then
        match t with
        | x :: y :: u =>
            if isDigit 16 x ∧ isDigit 16 y then (decodeText u).map (byteOf x y :: ·) else none
        | _ => none
      else (decodeText t).map (c :: ·)

/-- Two hexadecimal digits, in either case. -/
def TwoDigits (t : List UInt8) : Prop :=
  ∃ x y u, t = x :: y :: u ∧ isDigit 16 x = true ∧ isDigit 16 y = true

/-- The scan from left to right meets a `%` that two digits do not follow. -/
inductive BadEscape : List UInt8 → Prop
  | here {t : List UInt8} (h : ¬ TwoDigits t) : BadEscape (37 :: t)
  | plain {c : UInt8} {t : List UInt8} (hc : c ≠ 37) (h : BadEscape t) : BadEscape (c :: t)
  | escape {x y : UInt8} {t : List UInt8} (hx : isDigit 16 x = true) (hy : isDigit 16 y = true)
      (h : BadEscape t) : BadEscape (37 :: x :: y :: t)

theorem decodeText_plain {c : UInt8} (hc : c ≠ 37) (t : List UInt8) :
    decodeText (c :: t) = (decodeText t).map (c :: ·) := by
  conv_lhs => unfold decodeText
  simp only [if_neg hc]

theorem decodeText_escape {x y : UInt8} (hx : isDigit 16 x = true) (hy : isDigit 16 y = true)
    (t : List UInt8) : decodeText (37 :: x :: y :: t) = (decodeText t).map (byteOf x y :: ·) := by
  rw [decodeText]
  simp only [if_true, hx, hy, and_self]

theorem decodeText_bad {t : List UInt8} (h : ¬ TwoDigits t) : decodeText (37 :: t) = none := by
  unfold decodeText
  simp only [if_true]
  split
  · rename_i x y u
    exact if_neg fun hxy => h ⟨x, y, u, rfl, hxy⟩
  · rfl

theorem text_cases (c : UInt8) (t : List UInt8) :
    c ≠ 37 ∨ (c = 37 ∧ ¬ TwoDigits t) ∨
      ∃ x y u, c = 37 ∧ t = x :: y :: u ∧ isDigit 16 x = true ∧ isDigit 16 y = true := by
  by_cases hc : c = 37
  · by_cases ht : TwoDigits t
    · obtain ⟨x, y, u, h, hx, hy⟩ := ht
      exact .inr (.inr ⟨x, y, u, hc, h, hx, hy⟩)
    · exact .inr (.inl ⟨hc, ht⟩)
  · exact .inl hc

/-- Induction over a text as the scan goes through it. -/
theorem scan_induction {P : List UInt8 → Prop} (nil : P [])
    (bad : ∀ t, ¬ TwoDigits t → P (37 :: t)) (plain : ∀ c t, c ≠ 37 → P t → P (c :: t))
    (escape : ∀ x y t, isDigit 16 x = true → isDigit 16 y = true → P t → P (37 :: x :: y :: t))
    (t : List UInt8) : P t := by
  induction h : t.length using Nat.strong_induction_on generalizing t with
  | _ n ih =>
      cases t with
      | nil => exact nil
      | cons c t =>
          rw [List.length_cons] at h
          obtain hc | ⟨rfl, ht⟩ | ⟨x, y, u, rfl, rfl, hx, hy⟩ := text_cases c t
          · exact plain c t hc (ih t.length (by omega) t rfl)
          · exact bad t ht
          · rw [List.length_cons, List.length_cons] at h
            exact escape x y u hx hy (ih u.length (by omega) u rfl)

theorem decodeText_eq_none_iff (t : List UInt8) : decodeText t = none ↔ BadEscape t := by
  constructor
  · refine scan_induction (P := fun t => decodeText t = none → BadEscape t) ?_ ?_ ?_ ?_ t
    · intro h
      cases h
    · intro t ht _
      exact .here ht
    · intro c t hc ih h
      rw [decodeText_plain hc, Option.map_eq_none_iff] at h
      exact .plain hc (ih h)
    · intro x y t hx hy ih h
      rw [decodeText_escape hx hy, Option.map_eq_none_iff] at h
      exact .escape hx hy (ih h)
  · intro h
    induction h with
    | here ht => exact decodeText_bad ht
    | plain hc _ ih => rw [decodeText_plain hc, ih]; rfl
    | escape hx hy _ ih => rw [decodeText_escape hx hy, ih]; rfl

theorem decodeText_pct (s : List UInt8) : decodeText (pct s) = some s := by
  induction s with
  | nil => rfl
  | cons c s ih =>
      have hpct : pct (c :: s) = pctByte c ++ pct s := rfl
      rw [hpct]
      unfold pctByte
      cases hc : unreserved c with
      | true =>
          rw [if_pos rfl, List.singleton_append, decodeText_plain (unreserved_ne hc).2, ih]
          rfl
      | false =>
          have hd := forall_byte (P := fun c => isDigit 16 (hexDigit (c >>> 4)) = true ∧
            isDigit 16 (hexDigit (c &&& 0x0f)) = true ∧
            byteOf (hexDigit (c >>> 4)) (hexDigit (c &&& 0x0f)) = c) (by decide +kernel) c
          rw [if_neg nofun]
          simp only [List.cons_append, List.nil_append]
          rw [decodeText_escape hd.1 hd.2.1, ih, hd.2.2]
          rfl

/-! ## The accesses -/

/-- A load through `src` or `dst`, or a store through `dst`. -/
inductive Access where
  | src (k : Nat) | dst (k : Nat) | put (k : Nat)
deriving DecidableEq, Repr

/-- The byte that is touched. -/
def Access.pos : Access → Nat
  | .src k | .dst k | .put k => k

/-- An expression, with its accesses in order. -/
structure Traced (α : Type) where
  log : List Access
  val : Except UrlDecoded α

namespace Traced

variable {α β : Type}

def bind (x : Traced α) (f : α → Traced β) : Traced β :=
  match x.val with
  | .ok a => ⟨x.log ++ (f a).log, (f a).val⟩
  | .error e => ⟨x.log, .error e⟩

instance instMonad : Monad Traced where
  pure a := ⟨[], .ok a⟩
  bind := bind

/-- An expression that touches no memory. -/
def quiet (v : Except UrlDecoded α) : Traced α := ⟨[], v⟩

/-- `*src`. -/
def src (d : Decoder) : Traced UInt8 := ⟨[.src d.src], load d.mem d.src⟩

/-- `*dst`. -/
def dst (d : Decoder) : Traced UInt8 := ⟨[.dst d.dst], load d.mem d.dst⟩

/-- `*dst = b`. -/
def put (d : Decoder) (b : UInt8) : Traced Decoder := ⟨[.put d.dst], d.assign b⟩

theorem bind_val (x : Traced α) (f : α → Traced β) :
    (x >>= f).val = (x.val >>= fun a => (f a).val) := by
  change (bind x f).val = _
  unfold bind
  cases x.val with
  | error e => rfl
  | ok a => rfl

theorem bind_ok {x : Traced α} {a : α} (h : x.val = .ok a) (f : α → Traced β) :
    (x >>= f) = ⟨x.log ++ (f a).log, (f a).val⟩ := by
  change bind x f = _
  unfold bind
  rw [h]

theorem bind_error {x : Traced α} {e : UrlDecoded} (h : x.val = .error e) (f : α → Traced β) :
    (x >>= f) = ⟨x.log, .error e⟩ := by
  change bind x f = _
  unfold bind
  rw [h]

/-- The first digit of an escape. -/
def firstDigit (d : Decoder) : Traced Decoder := do
  let d := { d with src := d.src + 1 }
  let x ← src d
  let v ← quiet (hexValue x)
  put d (toChar (v <<< 4))

/-- The second digit of an escape. -/
def secondDigit (d : Decoder) : Traced Decoder := do
  let d := { d with src := d.src + 1 }
  let y ← src d
  let w ← quiet (hexValue y)
  let z ← dst d
  put d (toChar (z.toInt8.toInt32 ||| w))

/-- The body of the loop at the byte `c`. -/
def decodeByte (c : UInt8) (d : Decoder) : Traced Decoder :=
  if c = 37 then do
    let d ← firstDigit d
    secondDigit d
  else put d c

/-- The test of the loop and, unless it stops there, its body. -/
def iteration (d : Decoder) : Traced (Option Decoder) := do
  let c ← src d
  if c = 0 then pure none
  else do
    let d ← decodeByte c d
    pure (some d)

end Traced

theorem decodeByte_val (c : UInt8) (d : Decoder) :
    (Traced.decodeByte c d).val = decodeByte c d := by
  unfold Traced.decodeByte decodeByte Traced.firstDigit Traced.secondDigit
  split
  · simp only [Traced.bind_val, Traced.src, Traced.quiet, Traced.put, Traced.dst]
    cases load d.mem (d.src + 1) with
    | error e => rfl
    | ok x =>
        simp only [ok_bind]
        cases hexValue x with
        | error e => rfl
        | ok v => rfl
  · rfl

theorem urldecodeStep_eq (d : Decoder) :
    urldecodeStep d = match (Traced.iteration d).val with
      | .error e => .done e
      | .ok none => .done (.ptr d.dst d.mem)
      | .ok (some d') => .again { d' with src := d'.src + 1, dst := d'.dst + 1 } := by
  unfold urldecodeStep Traced.iteration
  rw [Traced.bind_val]
  have hsrc : (Traced.src d).val = load d.mem d.src := rfl
  rw [hsrc]
  cases load d.mem d.src with
  | error e => rfl
  | ok c =>
      simp only [ok_bind]
      by_cases hc : c = 0
      · rw [if_pos hc, if_pos hc]
        rfl
      · rw [if_neg hc, if_neg hc, Traced.bind_val, decodeByte_val]
        cases decodeByte c d with
        | error e => rfl
        | ok d' => rfl

/-- The accesses of one iteration. -/
def accesses (d : Decoder) : List Access := (Traced.iteration d).log

/-- The accesses of `http_urldecode`, with fuel. -/
def urldecodeLog (fuel : Nat) (mem : List UInt8) : List Access :=
  emitted urldecodeStep accesses fuel ⟨0, 0, mem⟩

/-! ## What a log may contain -/

/-- No byte is loaded through `src` once it has been stored. -/
def ReadsFresh (log : List Access) : Prop :=
  log.Pairwise fun x y => ∀ k, x = .put k → y ≠ .src k

/-- No byte is loaded once it has been stored. -/
def NeverRereads (log : List Access) : Prop :=
  log.Pairwise fun x y => ∀ k, x = .put k → y ≠ .src k ∧ y ≠ .dst k

/-- A load through `dst` is of the byte that was stored last, with one load
through `src` in between. -/
def Accumulates (log : List Access) : Prop :=
  ∀ a b k, log = a ++ .dst k :: b → ∃ a' j, a = a' ++ [.put k, .src j]

theorem accumulates_append {l m : List Access} (hl : Accumulates l) (hm : Accumulates m) :
    Accumulates (l ++ m) := by
  intro a b k heq
  obtain ⟨a', rfl, hm'⟩ | ⟨l', rfl, hb⟩ := List.append_eq_append_iff.mp heq
  · obtain ⟨a'', j, rfl⟩ := hm a' b k hm'
    exact ⟨l ++ a'', j, by rw [List.append_assoc]⟩
  · cases l' with
    | nil =>
        obtain ⟨a'', j, h⟩ := hm [] b k hb.symm
        exact absurd h (by simp)
    | cons x l' =>
        rw [List.cons_append, List.cons.injEq] at hb
        obtain ⟨rfl, -⟩ := hb
        exact hl a l' k rfl

theorem accumulates_of_no_dst {l : List Access} (h : ∀ k, .dst k ∉ l) : Accumulates l := by
  rintro a b k rfl
  exact absurd (List.mem_append_right a List.mem_cons_self) (h k)

/-- The log of a run from `d` on. -/
structure LogFrom (d : Decoder) (limit : Nat) (log : List Access) : Prop where
  inside : ∀ x ∈ log, x.pos ≤ limit
  ahead : ∀ k, .src k ∈ log → d.src ≤ k
  fresh : ReadsFresh log
  accumulates : Accumulates log

theorem LogFrom.append {d d' : Decoder} {limit : Nat} {l m : List Access}
    (h : LogFrom d limit l) (h' : LogFrom d' limit m) (hle : d.src ≤ d'.src)
    (hputs : ∀ k, .put k ∈ l → k < d'.src) : LogFrom d limit (l ++ m) where
  inside := by
    intro x hx
    obtain hx | hx := List.mem_append.mp hx
    · exact h.inside x hx
    · exact h'.inside x hx
  ahead := by
    intro k hk
    obtain hk | hk := List.mem_append.mp hk
    · exact h.ahead k hk
    · exact Nat.le_trans hle (h'.ahead k hk)
  fresh := by
    refine List.pairwise_append.mpr ⟨h.fresh, h'.fresh, ?_⟩
    rintro _ hx _ hy k rfl rfl
    have := hputs k hx
    have := h'.ahead k hy
    omega
  accumulates := accumulates_append h.accumulates h'.accumulates

section
variable {d : Decoder} {limit : Nat}

theorem logFrom_stop (h : d.src ≤ limit) : LogFrom d limit [.src d.src] where
  inside := by simpa [Access.pos] using h
  ahead := by simp
  fresh := List.pairwise_singleton _ _
  accumulates := accumulates_of_no_dst (by simp)

theorem logFrom_plain (h : d.src ≤ limit) (hle : d.dst ≤ d.src) :
    LogFrom d limit [.src d.src, .put d.dst] where
  inside := by
    simp only [List.mem_cons, List.not_mem_nil, or_false, forall_eq_or_imp, forall_eq, Access.pos]
    omega
  ahead := by simp
  fresh := by simp [ReadsFresh]
  accumulates := accumulates_of_no_dst (by simp)

theorem logFrom_one_digit (h : d.src + 1 ≤ limit) :
    LogFrom d limit [.src d.src, .src (d.src + 1)] where
  inside := by
    simp only [List.mem_cons, List.not_mem_nil, or_false, forall_eq_or_imp, forall_eq, Access.pos]
    omega
  ahead := by
    simp only [List.mem_cons, List.not_mem_nil, or_false, Access.src.injEq]
    omega
  fresh := by simp [ReadsFresh]
  accumulates := accumulates_of_no_dst (by simp)

theorem logFrom_two_digits (h : d.src + 2 ≤ limit) (hle : d.dst ≤ d.src) :
    LogFrom d limit [.src d.src, .src (d.src + 1), .put d.dst, .src (d.src + 2)] where
  inside := by
    simp only [List.mem_cons, List.not_mem_nil, or_false, forall_eq_or_imp, forall_eq, Access.pos]
    omega
  ahead := by
    simp only [List.mem_cons, List.not_mem_nil, or_false, Access.src.injEq, reduceCtorEq, false_or]
    omega
  fresh := by
    have hne : d.src + 2 ≠ d.dst := by omega
    simp [ReadsFresh, hne]
  accumulates := accumulates_of_no_dst (by simp)

theorem logFrom_escape (h : d.src + 2 ≤ limit) (hle : d.dst ≤ d.src) :
    LogFrom d limit [.src d.src, .src (d.src + 1), .put d.dst, .src (d.src + 2), .dst d.dst,
      .put d.dst] where
  inside := by
    simp only [List.mem_cons, List.not_mem_nil, or_false, forall_eq_or_imp, forall_eq, Access.pos]
    omega
  ahead := by
    simp only [List.mem_cons, List.not_mem_nil, or_false, Access.src.injEq, reduceCtorEq, false_or]
    omega
  fresh := by
    have hne : d.src + 2 ≠ d.dst := by omega
    simp [ReadsFresh, hne]
  accumulates := by
    -- the one load through `dst` is the fifth access
    intro a b k heq
    have hget := congrArg (fun l : List Access => l[a.length]?) heq
    have htake := congrArg (fun l : List Access => l.take a.length) heq
    simp only [List.getElem?_append_right (Nat.le_refl a.length), Nat.sub_self,
      List.getElem?_cons_zero, List.take_left] at hget htake
    generalize a.length = n at hget htake
    rcases n with _ | _ | _ | _ | _ | _ | n
    · simp at hget
    · simp at hget
    · simp at hget
    · simp at hget
    · simp only [List.getElem?_cons_succ, List.getElem?_cons_zero, Option.some.injEq,
        Access.dst.injEq] at hget
      subst hget
      exact ⟨[.src d.src, .src (d.src + 1)], d.src + 2, htake.symm⟩
    · simp at hget
    · simp at hget

/-! ## One iteration -/

theorem hexValue_eq (b : UInt8) : hexValue b =
    if isDigit 16 b = true then .ok (Int32.ofNat ((digitVal b).getD 0)) else .error .null :=
  forall_byte (P := fun b => hexValue b =
    if isDigit 16 b = true then .ok (Int32.ofNat ((digitVal b).getD 0)) else .error .null)
    (by decide +kernel) b

theorem toChar_nibbles : ∀ v < 16, ∀ w < 16,
    toChar ((toChar (Int32.ofNat v <<< 4)).toInt8.toInt32 ||| Int32.ofNat w) =
      UInt8.ofNat (v * 16 + w) := by decide +kernel

theorem digitVal_lt {b : UInt8} (h : isDigit 16 b = true) : (digitVal b).getD 0 < 16 := by
  unfold isDigit at h
  cases hv : digitVal b with
  | none => rw [hv] at h; cases h
  | some v => rw [hv] at h; simpa using h

theorem toChar_byteOf {x y : UInt8} (hx : isDigit 16 x = true) (hy : isDigit 16 y = true) :
    toChar ((toChar (Int32.ofNat ((digitVal x).getD 0) <<< 4)).toInt8.toInt32 |||
      Int32.ofNat ((digitVal y).getD 0)) = byteOf x y := by
  rw [toChar_nibbles _ (digitVal_lt hx) _ (digitVal_lt hy)]
  unfold byteOf ofDigits
  simp

section
variable {c x y : UInt8} {r : List UInt8}

theorem iteration_stop (h : d.mem.drop d.src = 0 :: r) :
    Traced.iteration d = ⟨[.src d.src], .ok none⟩ := by
  unfold Traced.iteration
  rw [Traced.bind_ok (show (Traced.src d).val = .ok 0 from load_of_drop h), if_pos rfl]
  rfl

theorem iteration_body (h : d.mem.drop d.src = c :: r) (hc : c ≠ 0) :
    Traced.iteration d = ⟨.src d.src :: (Traced.decodeByte c d).log,
      (Traced.decodeByte c d).val.map some⟩ := by
  unfold Traced.iteration
  rw [Traced.bind_ok (show (Traced.src d).val = .ok c from load_of_drop h), if_neg hc]
  cases hval : (Traced.decodeByte c d).val with
  | error e => rw [Traced.bind_error hval]; rfl
  | ok d' =>
      rw [Traced.bind_ok hval]
      simp only [Traced.src, List.singleton_append]
      rw [show (pure (some d') : Traced (Option Decoder)).log = [] from rfl, List.append_nil]
      rfl

theorem iteration_plain (h : d.mem.drop d.src = c :: r) (hc : c ≠ 0) (hp : c ≠ 37)
    (hlt : d.dst < d.mem.length) :
    Traced.iteration d =
      ⟨[.src d.src, .put d.dst], .ok (some { d with mem := d.mem.set d.dst c })⟩ := by
  rw [iteration_body h hc, Traced.decodeByte, if_neg hp]
  simp only [Traced.put, assign_eq hlt]
  rfl

theorem firstDigit_eq (h : d.mem.drop d.src = 37 :: x :: r) (hx : isDigit 16 x = true)
    (hlt : d.dst < d.mem.length) :
    Traced.firstDigit d = ⟨[.src (d.src + 1), .put d.dst], .ok ⟨d.src + 1, d.dst,
      d.mem.set d.dst (toChar (Int32.ofNat ((digitVal x).getD 0) <<< 4))⟩⟩ := by
  have hload : load d.mem (d.src + 1) = .ok x := load_of_drop (drop_succ h)
  have hhex : hexValue x = .ok (Int32.ofNat ((digitVal x).getD 0)) := by
    rw [hexValue_eq, hx, if_pos rfl]
  unfold Traced.firstDigit
  simp only [Traced.src, hload]
  rw [Traced.bind_ok rfl, Traced.bind_ok (show (Traced.quiet (hexValue x)).val = _ from hhex)]
  simp only [Traced.put]
  rw [assign_eq (show (⟨d.src + 1, d.dst, d.mem⟩ : Decoder).dst < _ from hlt)]
  rfl

theorem firstDigit_none (h : d.mem.drop d.src = 37 :: x :: r) (hx : isDigit 16 x = false) :
    Traced.firstDigit d = ⟨[.src (d.src + 1)], .error .null⟩ := by
  have hload : load d.mem (d.src + 1) = .ok x := load_of_drop (drop_succ h)
  have hhex : hexValue x = .error .null := by rw [hexValue_eq, hx, if_neg nofun]
  unfold Traced.firstDigit
  simp only [Traced.src, hload]
  rw [Traced.bind_ok rfl, Traced.bind_error (show (Traced.quiet (hexValue x)).val = _ from hhex)]
  rfl

theorem secondDigit_eq (h : d.mem.drop d.src = x :: y :: r) (hy : isDigit 16 y = true)
    (hlt : d.dst < d.src) {z : UInt8} (hz : load d.mem d.dst = .ok z) :
    Traced.secondDigit d = ⟨[.src (d.src + 1), .dst d.dst, .put d.dst], .ok ⟨d.src + 1, d.dst,
      d.mem.set d.dst (toChar (z.toInt8.toInt32 ||| Int32.ofNat ((digitVal y).getD 0)))⟩⟩ := by
  have hload : load d.mem (d.src + 1) = .ok y := load_of_drop (drop_succ h)
  have hhex : hexValue y = .ok (Int32.ofNat ((digitVal y).getD 0)) := by
    rw [hexValue_eq, hy, if_pos rfl]
  have hin : d.dst < d.mem.length := by
    have := lt_of_drop h
    omega
  unfold Traced.secondDigit
  simp only [Traced.src, hload]
  rw [Traced.bind_ok rfl, Traced.bind_ok (show (Traced.quiet (hexValue y)).val = _ from hhex)]
  simp only [Traced.dst, hz]
  rw [Traced.bind_ok rfl]
  simp only [Traced.put]
  rw [assign_eq (show (⟨d.src + 1, d.dst, d.mem⟩ : Decoder).dst < _ from hin)]
  rfl

theorem secondDigit_none (h : d.mem.drop d.src = x :: y :: r) (hy : isDigit 16 y = false) :
    Traced.secondDigit d = ⟨[.src (d.src + 1)], .error .null⟩ := by
  have hload : load d.mem (d.src + 1) = .ok y := load_of_drop (drop_succ h)
  have hhex : hexValue y = .error .null := by rw [hexValue_eq, hy, if_neg nofun]
  unfold Traced.secondDigit
  simp only [Traced.src, hload]
  rw [Traced.bind_ok rfl, Traced.bind_error (show (Traced.quiet (hexValue y)).val = _ from hhex)]
  rfl

theorem iteration_one_digit (h : d.mem.drop d.src = 37 :: x :: r) (hx : isDigit 16 x = false) :
    Traced.iteration d = ⟨[.src d.src, .src (d.src + 1)], .error .null⟩ := by
  rw [iteration_body h (by decide), Traced.decodeByte, if_pos rfl, firstDigit_none h hx,
    Traced.bind_error rfl]
  rfl

section
variable (h : d.mem.drop d.src = 37 :: x :: y :: r) (hx : isDigit 16 x = true)
  (hle : d.dst ≤ d.src)
include h hx hle

theorem iteration_digit : ∃ d' : Decoder, d'.src = d.src + 1 ∧ d'.dst = d.dst ∧
    d'.mem = d.mem.set d.dst (toChar (Int32.ofNat ((digitVal x).getD 0) <<< 4)) ∧
    d'.mem.drop d'.src = x :: y :: r ∧
    Traced.iteration d = ⟨[.src d.src, .src (d.src + 1), .put d.dst] ++ (Traced.secondDigit d').log,
      (Traced.secondDigit d').val.map some⟩ := by
  have hin : d.dst < d.mem.length := by
    have := lt_of_drop h
    omega
  have hfirst := firstDigit_eq h hx hin
  refine ⟨⟨d.src + 1, d.dst, _⟩, rfl, rfl, rfl, ?_, ?_⟩
  · -- the store is behind what is read next
    have := drop_succ h
    simp only
    rw [List.drop_set_of_lt (by omega), this]
  · rw [iteration_body h (by decide), Traced.decodeByte, if_pos rfl, hfirst, Traced.bind_ok rfl]
    rfl

theorem iteration_two_digits (hy : isDigit 16 y = false) :
    Traced.iteration d =
      ⟨[.src d.src, .src (d.src + 1), .put d.dst, .src (d.src + 2)], .error .null⟩ := by
  obtain ⟨d', hsrc, -, -, hdrop, hit⟩ := iteration_digit h hx hle
  rw [hit, secondDigit_none hdrop hy, hsrc]
  rfl

theorem iteration_escape (hy : isDigit 16 y = true) :
    Traced.iteration d =
      ⟨[.src d.src, .src (d.src + 1), .put d.dst, .src (d.src + 2), .dst d.dst, .put d.dst],
        .ok (some ⟨d.src + 2, d.dst, d.mem.set d.dst (byteOf x y)⟩)⟩ := by
  obtain ⟨d', hsrc, hdst, hmem, hdrop, hit⟩ := iteration_digit h hx hle
  have hin : d.dst < d.mem.length := by
    have := lt_of_drop h
    omega
  have hz : load d'.mem d'.dst = .ok (toChar (Int32.ofNat ((digitVal x).getD 0) <<< 4)) := by
    unfold load
    rw [hmem, hdst, List.getElem?_set_self hin]
  rw [hit, secondDigit_eq hdrop hy (by omega) hz, toChar_byteOf hx hy, hsrc, hdst, hmem,
    List.set_set]
  rfl

end

end

/-! ## The run -/

/-- Where the decoder is: `a` is decoded, `b` is still to come of a text of
`size` bytes. -/
structure DecodingAt (size : Nat) (rest a b : List UInt8) (d : Decoder) : Prop where
  le : d.dst ≤ d.src
  done : d.mem.take d.dst = a
  dst : d.dst = a.length
  src : d.src + b.length = size
  ahead : d.mem.drop d.src = b ++ 0 :: rest

theorem DecodingAt.next {size : Nat} {rest a b b' : List UInt8} {n : Nat}
    (h : DecodingAt size rest a b d) (c : UInt8) (hn : 0 < n) (hb : b'.length + n = b.length)
    (hdrop : d.mem.drop (d.src + n) = b' ++ 0 :: rest) :
    DecodingAt size rest (a ++ [c]) b' ⟨d.src + n, d.dst + 1, d.mem.set d.dst c⟩ where
  le := by have := h.le; simp only; omega
  done := by
    have hlt : d.dst < d.mem.length := by
      have := h.le
      have := congrArg List.length h.ahead
      rw [List.length_drop, List.length_append, List.length_cons] at this
      omega
    have hget : (d.mem.set d.dst c)[d.dst]? = some c := List.getElem?_set_self hlt
    simp only
    rw [List.take_add_one, hget, List.take_set_of_le (Nat.le_refl _), h.done]
    rfl
  dst := by simp [h.dst]
  src := by
    have := h.src
    simp only
    omega
  ahead := by
    have := h.le
    simp only
    rw [List.drop_set_of_lt (by omega), hdrop]

/-- How a run from `d` ends, given what is still to be decoded. -/
def EndsAs (a : List UInt8) (o : Option (List UInt8)) (out : UrlDecoded) : Prop :=
  match o with
  | none => out = .null
  | some o => ∃ mem, out = .ptr (a ++ o).length mem ∧ mem.take (a ++ o).length = a ++ o

/-- The run from `d` on, with its log. -/
def RunsFrom (size : Nat) (a b : List UInt8) (d : Decoder) : Prop :=
  ∃ fuel out, run urldecodeStep fuel d = some out ∧ EndsAs a (decodeText b) out ∧
    LogFrom d size (emitted urldecodeStep accesses fuel d)

theorem RunsFrom.of_done {size : Nat} {a b : List UInt8} {out : UrlDecoded} {log : List Access}
    (hstep : urldecodeStep d = .done out) (hlog : accesses d = log)
    (hend : EndsAs a (decodeText b) out) (hfrom : LogFrom d size log) : RunsFrom size a b d := by
  refine ⟨1, out, ?_, hend, ?_⟩
  · rw [run, hstep]
  · rw [emitted_done hstep, hlog]
    exact hfrom

theorem RunsFrom.of_again {size : Nat} {a b b' : List UInt8} {c : UInt8} {d' : Decoder}
    {log : List Access} (hstep : urldecodeStep d = .again d') (hlog : accesses d = log)
    (htext : decodeText b = (decodeText b').map (c :: ·)) (hle : d.src ≤ d'.src)
    (hputs : ∀ k, .put k ∈ log → k < d'.src) (hfrom : LogFrom d size log)
    (hrun : RunsFrom size (a ++ [c]) b' d') : RunsFrom size a b d := by
  obtain ⟨fuel, out, hfuel, hend, hrest⟩ := hrun
  refine ⟨fuel + 1, out, ?_, ?_, ?_⟩
  · rw [run, hstep]
    exact hfuel
  · rw [htext]
    cases ho : decodeText b' with
    | none => rwa [ho] at hend
    | some o =>
        rw [ho] at hend
        simpa [EndsAs] using hend
  · rw [emitted_again hstep, hlog]
    exact hfrom.append hrest hle hputs

/-- The decoder on any text: the scan of the loop is the scan of `decodeText`. -/
theorem decoding_runs {size : Nat} {rest : List UInt8} (b : List UInt8) :
    ∀ a d, NUL ∉ b → DecodingAt size rest a b d → RunsFrom size a b d := by
  refine scan_induction (P := fun b => ∀ a d, NUL ∉ b → DecodingAt size rest a b d →
    RunsFrom size a b d) ?_ ?_ ?_ ?_ b
  · intro a d _ h
    have hit := iteration_stop h.ahead
    have hsrc := h.src
    refine .of_done (by rw [urldecodeStep_eq, hit]) (congrArg Traced.log hit) ?_
      (logFrom_stop (by rw [List.length_nil] at hsrc; omega))
    refine ⟨d.mem, ?_, ?_⟩
    · rw [List.append_nil, ← h.dst]
    · rw [List.append_nil, ← h.dst]
      exact h.done
  · -- a `%` without its digits; the NUL is none, so that it is not read over
    intro t ht a d _ h
    have hsrc := h.src
    have hahead : d.mem.drop d.src = 37 :: (t ++ 0 :: rest) := h.ahead
    rw [List.length_cons] at hsrc
    have hend : EndsAs a (decodeText (37 :: t)) .null := by
      rw [decodeText_bad ht]
      rfl
    have hnul : isDigit 16 0 = false := by decide
    cases t with
    | nil =>
        have hit := iteration_one_digit hahead hnul
        exact .of_done (by rw [urldecodeStep_eq, hit]) (congrArg Traced.log hit) hend
          (logFrom_one_digit (by omega))
    | cons x t =>
        rw [List.length_cons] at hsrc
        by_cases hx : isDigit 16 x = true
        · have hstop : ∃ y r, t ++ 0 :: rest = y :: r ∧ isDigit 16 y = false := by
            cases t with
            | nil => exact ⟨0, rest, rfl, hnul⟩
            | cons y u =>
                refine ⟨y, u ++ 0 :: rest, rfl, ?_⟩
                cases hy : isDigit 16 y with
                | false => rfl
                | true => exact absurd ⟨x, y, u, rfl, hx, hy⟩ ht
          obtain ⟨y, r, heq, hy⟩ := hstop
          rw [List.cons_append, heq] at hahead
          have hit := iteration_two_digits hahead hx h.le hy
          exact .of_done (by rw [urldecodeStep_eq, hit]) (congrArg Traced.log hit) hend
            (logFrom_two_digits (by omega) h.le)
        · have hit := iteration_one_digit hahead (Bool.eq_false_iff.mpr hx)
          exact .of_done (by rw [urldecodeStep_eq, hit]) (congrArg Traced.log hit) hend
            (logFrom_one_digit (by omega))
  · intro c t hc ih a d hnul h
    have hle := h.le
    have hsrc := h.src
    have hahead : d.mem.drop d.src = c :: (t ++ 0 :: rest) := h.ahead
    have hlt := lt_of_drop hahead
    have hc0 : c ≠ 0 := fun h0 => hnul (h0 ▸ List.mem_cons_self)
    have hit := iteration_plain hahead hc0 hc (by omega)
    rw [List.length_cons] at hsrc
    refine .of_again (by rw [urldecodeStep_eq, hit]) (congrArg Traced.log hit)
      (decodeText_plain hc t) (Nat.le_succ _) ?_ (logFrom_plain (by omega) h.le)
      (ih (a ++ [c]) _ (fun hmem => hnul (List.mem_cons_of_mem _ hmem))
        (h.next c Nat.one_pos rfl (drop_succ hahead)))
    simp only [List.mem_cons, reduceCtorEq, List.not_mem_nil, or_false, false_or,
      Access.put.injEq, forall_eq]
    omega
  · intro x y t hx hy ih a d hnul h
    have hle := h.le
    have hsrc := h.src
    have hahead : d.mem.drop d.src = 37 :: x :: y :: (t ++ 0 :: rest) := h.ahead
    have hit := iteration_escape hahead hx h.le hy
    simp only [List.length_cons] at hsrc
    have hstep : urldecodeStep d =
        .again ⟨d.src + 3, d.dst + 1, d.mem.set d.dst (byteOf x y)⟩ := by
      rw [urldecodeStep_eq, hit]
    refine .of_again hstep (congrArg Traced.log hit) (decodeText_escape hx hy t)
      (Nat.le_add_right _ 3) ?_ (logFrom_escape (by omega) h.le)
      (ih (a ++ [byteOf x y]) _ (fun hmem => hnul (by simp [hmem]))
        (h.next (byteOf x y) (by omega) rfl (drop_succ (drop_succ (drop_succ hahead)))))
    simp only [List.mem_cons, reduceCtorEq, List.not_mem_nil, or_false, false_or,
      Access.put.injEq, or_self, forall_eq]
    omega

end

theorem urldecode_runs (t rest : List UInt8) (ht : NUL ∉ t) :
    RunsFrom t.length [] t ⟨0, 0, t ++ 0 :: rest⟩ :=
  decoding_runs t [] _ ht ⟨Nat.le_refl _, rfl, rfl, Nat.zero_add _, rfl⟩

theorem urldecode_returns {t o : List UInt8} (rest : List UInt8) (ht : NUL ∉ t)
    (ho : decodeText t = some o) : ∃ fuel mem,
    httpUrldecode fuel (t ++ 0 :: rest) = some (.ptr o.length mem) ∧ mem.take o.length = o := by
  obtain ⟨fuel, out, hfuel, hend, -⟩ := urldecode_runs t rest ht
  rw [ho] at hend
  obtain ⟨mem, rfl, hmem⟩ := hend
  exact ⟨fuel, mem, hfuel, hmem⟩

/-- **Decoding in place computes the decoding.**  On any text the loop stops, with
NULL if the scan meets an escape without its digits and with the decoded text
otherwise.  It touches nothing behind the NUL, loads nothing through `src` that
it has stored, and what it loads through `dst` is the digit it has just stored
there. -/
theorem urldecode_in_place (t rest : List UInt8) (ht : NUL ∉ t) :
    ∃ fuel out, httpUrldecode fuel (t ++ 0 :: rest) = some out ∧
      (out = .null ↔ BadEscape t) ∧
      (¬ BadEscape t → ∃ o mem, decodeText t = some o ∧ out = .ptr o.length mem ∧
        mem.take o.length = o) ∧
      (∀ x ∈ urldecodeLog fuel (t ++ 0 :: rest), x.pos ≤ t.length) ∧
      ReadsFresh (urldecodeLog fuel (t ++ 0 :: rest)) ∧
      Accumulates (urldecodeLog fuel (t ++ 0 :: rest)) := by
  obtain ⟨fuel, out, hfuel, hend, hlog⟩ := urldecode_runs t rest ht
  refine ⟨fuel, out, hfuel, ?_, ?_, hlog.inside, hlog.fresh, hlog.accumulates⟩
  · rw [← decodeText_eq_none_iff]
    cases ho : decodeText t with
    | none =>
        rw [ho] at hend
        exact iff_of_true hend rfl
    | some o =>
        rw [ho] at hend
        obtain ⟨mem, rfl, -⟩ := hend
        exact iff_of_false (by intro h; cases h) (by intro h; cases h)
  · intro hgood
    cases ho : decodeText t with
    | none => exact absurd ((decodeText_eq_none_iff t).mp ho) hgood
    | some o =>
        rw [ho] at hend
        obtain ⟨mem, hout, hmem⟩ := hend
        exact ⟨o, mem, rfl, hout, hmem⟩

theorem urldecode_in_place_escape : NUL ∉ ascii "a%4a" ∧
    ∃ fuel out, httpUrldecode fuel (ascii "a%4a" ++ 0 :: []) = some out ∧
      (out = .null ↔ BadEscape (ascii "a%4a")) ∧
      (¬ BadEscape (ascii "a%4a") → ∃ o mem, decodeText (ascii "a%4a") = some o ∧
        out = .ptr o.length mem ∧ mem.take o.length = o) ∧
      (∀ x ∈ urldecodeLog fuel (ascii "a%4a" ++ 0 :: []), x.pos ≤ (ascii "a%4a").length) ∧
      ReadsFresh (urldecodeLog fuel (ascii "a%4a" ++ 0 :: [])) ∧
      Accumulates (urldecodeLog fuel (ascii "a%4a" ++ 0 :: [])) :=
  ⟨by decide, urldecode_in_place (ascii "a%4a") [] (by decide)⟩

/-- The second digit is or-ed to a byte that was stored before it was loaded. -/
theorem urldecode_rereads : NUL ∉ ascii "%41" ∧
    httpUrldecode 2 (ascii "%41" ++ [0]) = some (.ptr 1 (ascii "A41" ++ [0])) ∧
    ¬ NeverRereads (urldecodeLog 2 (ascii "%41" ++ [0])) := by
  refine ⟨by decide, by decide, fun h => ?_⟩
  have hlog : urldecodeLog 2 (ascii "%41" ++ [0]) =
      [.src 0, .src 1] ++ (.put 0 :: [.src 2, .dst 0, .put 0, .src 3]) := by decide
  rw [hlog] at h
  have hput := List.pairwise_cons.mp (List.pairwise_append.mp h).2.1
  exact (hput.1 (.dst 0) (by decide) 0 rfl).2 rfl

/-- **Percent decoding undoes percent encoding.**  The encoder stays inside its
buffer and writes no NUL before the one that ends the text; the decoder, in
that buffer, returns the pointer behind the bytes it was made from. -/
theorem urldecode_urlencode (s res : List UInt8) (hs : s.length < 2 ^ 30)
    (hres : res.length = 3 * s.length + 1) :
    ∃ fuel buf, httpUrlencodeReserved fuel res s s.length = some (some buf) ∧
      buf.length = 3 * s.length + 1 ∧
      (∃ n ≤ 3 * s.length, buf[n]? = some 0 ∧ ∀ k < n, buf[k]? ≠ some 0) ∧
      ∃ fuel' mem, httpUrldecode fuel' buf = some (.ptr s.length mem) ∧ mem.take s.length = s := by
  have hlen := length_pct s
  have hroom : (pct s).length < res.length := by omega
  obtain ⟨hrounds, hend⟩ := encode_run (by omega) hroom
  obtain ⟨fuel, hfuel⟩ := (reaches_of_steps hrounds).returns (.of_done hend)
  obtain ⟨fuel', mem, hfuel', hmem⟩ := urldecode_returns (res.drop ((pct s).length + 1))
    (fun hnul => pct_ne_zero 0 hnul rfl) (decodeText_pct s)
  refine ⟨fuel, _, hfuel, ?_, ⟨(pct s).length, hlen, ?_, fun k hk hzero => ?_⟩, fuel', mem,
    hfuel', hmem⟩
  · simp only [List.length_append, List.length_cons, List.length_drop]
    omega
  · simp
  · rw [List.getElem?_append_left hk] at hzero
    exact pct_ne_zero 0 (List.mem_of_getElem? hzero) rfl

theorem urldecode_urlencode_percent : ∃ fuel buf,
    httpUrlencodeReserved fuel (List.replicate 10 7) [0, 37, 255] 3 = some (some buf) ∧
      buf.length = 10 ∧ (∃ n ≤ 9, buf[n]? = some 0 ∧ ∀ k < n, buf[k]? ≠ some 0) ∧
      ∃ fuel' mem, httpUrldecode fuel' buf = some (.ptr 3 mem) ∧ mem.take 3 = [0, 37, 255] :=
  urldecode_urlencode [0, 37, 255] (List.replicate 10 7) (by decide) (by decide)

end MnHttp
