/-
# `MnApp.Http.UrlEncode` — percent encoding

`http_urlencode_reserved` writes into a buffer of `3 * sz + 1` bytes that
`malloc` has just returned, so it starts with whatever was there.

**Memory.**  A buffer is a list of bytes, and a store outside of it is a
result of its own, so that a run that ends with a text has stayed inside.

**Integers.**  The two indices of the encoder are `unsigned int`.

`pct` is what the encoder is for, and `encode_run` says that it writes it, in a
round for each byte.  `MnApp.Http.UrlDecode` takes it apart again.
-/
import Mathlib.Algebra.Ring.Nat
import Mathlib.Data.List.Basic
import MnApp.Lib.Loop

namespace MnHttp

open Loop

/-! ## Buffers -/

/-- A store at `k`; `none` is a store outside the buffer. -/
def store (buf : List UInt8) (k : Nat) (b : UInt8) : Option (List UInt8) :=
  if k < buf.length then some (buf.set k b) else none

theorem store_append (a b : List UInt8) (x y : UInt8) :
    store (a ++ x :: b) a.length y = some (a ++ y :: b) := by
  unfold store
  rw [if_pos (by simp), List.set_append_right _ _ (Nat.le_refl _), Nat.sub_self]
  rfl

theorem store_of_lt {buf : List UInt8} {k : Nat} (h : k < buf.length) (b : UInt8) :
    store buf k b = some (buf.set k b) := if_pos h

/-! ## The encoder -/

def RFC3986_UNRESERVED : UInt8 := 4

/-- `charflags`. -/
def charflags : List UInt8 := [
  2,2,2,2,2,2,2,2,2,2,2,2,2,2,2,2,2,2,2,2,2,2,2,2,2,2,2,2,2,2,2,2,
  2,1,2,1,1,2,1,1,1,1,1,1,1,4,4,1,2,2,2,2,2,2,2,2,2,2,1,1,2,1,2,1,
  1,4,4,4,4,4,4,4,4,4,4,4,4,4,4,4,4,4,4,4,4,4,4,4,4,4,4,1,2,1,2,4,
  2,4,4,4,4,4,4,4,4,4,4,4,4,4,4,4,4,4,4,4,4,4,4,4,4,4,4,2,2,2,4,2,
  2,2,2,2,2,2,2,2,2,2,2,2,2,2,2,2,2,2,2,2,2,2,2,2,2,2,2,2,2,2,2,2,
  2,2,2,2,2,2,2,2,2,2,2,2,2,2,2,2,2,2,2,2,2,2,2,2,2,2,2,2,2,2,2,2,
  2,2,2,2,2,2,2,2,2,2,2,2,2,2,2,2,2,2,2,2,2,2,2,2,2,2,2,2,2,2,2,2,
  2,2,2,2,2,2,2,2,2,2,2,2,2,2,2,2,2,2,2,2,2,2,2,2,2,2,2,2,2,2,2,2]

/-- `charflags[c] & RFC3986_UNRESERVED`. -/
def unreserved (c : UInt8) : Bool := charflags.getD c.toNat 0 &&& RFC3986_UNRESERVED != 0

/-- `'0' + cc` or `'A' + cc - 10`. -/
def hexDigit (cc : UInt8) : UInt8 := if cc < 10 then 48 + cc else 65 + cc - 10

/-- `i`, `j` and what `res` points to. -/
structure Encoder where
  i : UInt32
  j : UInt32
  res : List UInt8
deriving DecidableEq, Repr

/-- `*(res + j++) = b`. -/
def Encoder.put (e : Encoder) (b : UInt8) : Option Encoder := do
  let res ← store e.res e.j.toNat b
  return { e with j := e.j + 1, res }

/-- The body of the loop: it leaves `j` on the last byte it has written. -/
def encodeByte (c : UInt8) (e : Encoder) : Option Encoder :=
  if !unreserved c then do
    let e ← e.put 37
    let e ← e.put (hexDigit (c >>> 4))
    let res ← store e.res e.j.toNat (hexDigit (c &&& 0x0f))
    return { e with res }
  else do
    let res ← store e.res e.j.toNat c
    return { e with res }

/-- One iteration of `http_urlencode_reserved`, or its end. -/
def urlencodeStep (s : List UInt8) (sz : Nat) (e : Encoder) : Next Encoder (Option (List UInt8)) :=
  if e.i.toNat < sz then
    match s[e.i.toNat]?.bind fun c => encodeByte c e with
    | some e => .again { e with i := e.i + 1, j := e.j + 1 }
    | none => .done none
  else .done (store e.res e.j.toNat 0)

/-- `http_urlencode_reserved`, with fuel: `res` is what `malloc` returned. -/
def httpUrlencodeReserved (fuel : Nat) (res s : List UInt8) (sz : Nat) :
    Option (Option (List UInt8)) := run (urlencodeStep s sz) fuel ⟨0, 0, res⟩

/-! ## The text -/

/-- A byte as it is written. -/
def pctByte (c : UInt8) : List UInt8 :=
  if unreserved c then [c] else [37, hexDigit (c >>> 4), hexDigit (c &&& 0x0f)]

/-- A text as it is written. -/
def pct (s : List UInt8) : List UInt8 := s.flatMap pctByte

/-- What holds of every byte is checked for each of them. -/
theorem forall_byte {P : UInt8 → Prop} (h : ∀ n < 256, P (UInt8.ofNat n)) (c : UInt8) : P c := by
  have := h c.toNat c.toNat_lt
  rwa [UInt8.ofNat_toNat] at this

theorem pctByte_ne_zero (c : UInt8) : ∀ b ∈ pctByte c, b ≠ 0 :=
  forall_byte (P := fun c => ∀ b ∈ pctByte c, b ≠ 0) (by decide +kernel) c

/-- A byte that is written as it is does not look like the start of another
one. -/
theorem unreserved_ne {c : UInt8} (h : unreserved c = true) : c ≠ 0 ∧ c ≠ 37 :=
  forall_byte (P := fun c => unreserved c = true → c ≠ 0 ∧ c ≠ 37) (by decide +kernel) c h

theorem length_pctByte (c : UInt8) : (pctByte c).length ≤ 3 := by
  unfold pctByte
  split <;> simp

theorem length_pct (s : List UInt8) : (pct s).length ≤ 3 * s.length := by
  induction s with
  | nil => exact Nat.le_refl _
  | cons c s ih =>
      have := length_pctByte c
      simp only [pct, List.flatMap_cons, List.length_append, List.length_cons] at *
      omega

theorem length_le_pct (s : List UInt8) : s.length ≤ (pct s).length := by
  induction s with
  | nil => exact Nat.le_refl _
  | cons c s ih =>
      have hpos : 0 < (pctByte c).length := by
        unfold pctByte
        split <;> simp
      simp only [pct, List.flatMap_cons, List.length_append, List.length_cons] at *
      omega

theorem pct_append (a b : List UInt8) : pct (a ++ b) = pct a ++ pct b := List.flatMap_append

theorem pct_ne_zero {s : List UInt8} : ∀ b ∈ pct s, b ≠ 0 := by
  intro b hb
  obtain ⟨c, -, hc⟩ := List.mem_flatMap.mp hb
  exact pctByte_ne_zero c b hc

/-! ## The encoder writes it -/

theorem toNat_ofNat_of_lt {n : Nat} (h : n < 4294967296) : (UInt32.ofNat n).toNat = n := by
  rw [UInt32.toNat_ofNat']
  exact Nat.mod_eq_of_lt h

theorem ofNat_succ (n : Nat) : UInt32.ofNat n + 1 = UInt32.ofNat (n + 1) :=
  (UInt32.ofNat_add n 1).symm

theorem put_append (i : UInt32) {done : List UInt8} (hj : done.length < 4294967296)
    (x b : UInt8) (tail : List UInt8) :
    Encoder.put ⟨i, UInt32.ofNat done.length, done ++ x :: tail⟩ b =
      some ⟨i, UInt32.ofNat (done ++ [b]).length, (done ++ [b]) ++ tail⟩ := by
  unfold Encoder.put
  simp only [toNat_ofNat_of_lt hj, store_append, ofNat_succ, List.length_append,
    List.length_singleton, List.append_assoc, List.singleton_append]
  rfl

theorem encodeByte_eq (c : UInt8) (i : UInt32) (done tail : List UInt8)
    (hj : (done ++ pctByte c).length < 4294967296) (htail : (pctByte c).length ≤ tail.length) :
    ∃ j, encodeByte c ⟨i, UInt32.ofNat done.length, done ++ tail⟩ =
        some ⟨i, j, (done ++ pctByte c) ++ tail.drop (pctByte c).length⟩ ∧
      j + 1 = UInt32.ofNat (done ++ pctByte c).length := by
  rw [List.length_append] at hj
  unfold encodeByte
  unfold pctByte at *
  cases hc : unreserved c with
  | true =>
      rw [hc] at htail hj
      match tail, htail with
      | x :: tail, _ =>
          refine ⟨UInt32.ofNat done.length, ?_, ?_⟩
          · simp only [Bool.not_true, Bool.false_eq_true, if_false, if_true]
            rw [toNat_ofNat_of_lt (Nat.lt_of_le_of_lt (Nat.le_add_right _ _) hj), store_append]
            simp
          · rw [ofNat_succ]
            simp
  | false =>
      rw [hc, if_neg nofun, List.length_cons, List.length_cons, List.length_singleton] at hj
      rw [hc] at htail
      match tail, htail with
      | x :: y :: z :: tail, _ =>
          have hlen : (done ++ [(37 : UInt8)] ++ [hexDigit (c >>> 4)]).length =
              done.length + 2 := by
            simp
          refine ⟨UInt32.ofNat (done ++ [(37 : UInt8)] ++ [hexDigit (c >>> 4)]).length, ?_, ?_⟩
          · simp only [Bool.not_false, if_true]
            rw [put_append i (by omega) x 37]
            simp only [Option.bind_eq_bind, Option.bind_some]
            rw [put_append i (by simp; omega) y]
            simp only [Option.bind_some]
            rw [toNat_ofNat_of_lt (by omega), store_append]
            simp
          · rw [ofNat_succ, hlen, if_neg nofun, List.length_append]
            rfl

/-- Where the encoder is when `a` is written and `tail` is left of the buffer. -/
def Encoder.wrote (a tail : List UInt8) : Encoder :=
  ⟨UInt32.ofNat a.length, UInt32.ofNat (pct a).length, pct a ++ tail⟩

section
variable {s a b tail : List UInt8} {c : UInt8}

theorem encode_step (heq : s = a ++ c :: b) (hlt : (pct (a ++ [c])).length < 4294967296)
    (htail : (pctByte c).length ≤ tail.length) :
    urlencodeStep s s.length (.wrote a tail) =
      .again (.wrote (a ++ [c]) (tail.drop (pctByte c).length)) := by
  have hdone : pct (a ++ [c]) = pct a ++ pctByte c := by rw [pct_append]; simp [pct]
  have hslen : s.length = a.length + (b.length + 1) := by rw [heq]; simp
  have halen : a.length < 4294967296 := by
    have := length_le_pct (a ++ [c])
    rw [List.length_append, List.length_singleton] at this
    omega
  obtain ⟨j, henc, hj⟩ := encodeByte_eq c (UInt32.ofNat a.length) (pct a) tail
    (by rw [← hdone]; exact hlt) htail
  have hget : s[a.length]? = some c := by rw [heq]; simp
  unfold urlencodeStep Encoder.wrote
  simp only [toNat_ofNat_of_lt halen]
  rw [if_pos (by omega), hget, Option.bind_some, henc]
  simp only [hj, hdone, ofNat_succ, List.length_append, List.length_singleton]

theorem encode_end (hlt : (pct s).length < 4294967296) {x : UInt8} :
    urlencodeStep s s.length (.wrote s (x :: tail)) = .done (some (pct s ++ 0 :: tail)) := by
  have hle := length_le_pct s
  unfold urlencodeStep Encoder.wrote
  simp only [toNat_ofNat_of_lt (Nat.lt_of_le_of_lt hle hlt), toNat_ofNat_of_lt hlt, Nat.lt_irrefl,
    if_false, store_append]

theorem encode_rounds (hlt : (pct s).length < 4294967296) (b : List UInt8) :
    ∀ (a tail d : List UInt8), s = a ++ (b ++ d) → (pct b).length ≤ tail.length →
      steps (urlencodeStep s s.length) b.length (.wrote a tail) =
        some (.wrote (a ++ b) (tail.drop (pct b).length)) := by
  induction b with
  | nil =>
      intro a tail d _ _
      rw [List.append_nil]
      rfl
  | cons c b ih =>
      intro a tail d heq htail
      have hpct : pct (c :: b) = pctByte c ++ pct b := rfl
      have hsplit : s = (a ++ [c]) ++ (b ++ d) := by rw [heq]; simp
      have hac : (pct (a ++ [c])).length < 4294967296 := by
        rw [hsplit, pct_append, List.length_append] at hlt
        exact Nat.lt_of_le_of_lt (Nat.le_add_right _ _) hlt
      rw [hpct, List.length_append] at htail
      rw [List.length_cons, steps, encode_step heq hac (by omega)]
      have hrun := ih (a ++ [c]) (tail.drop (pctByte c).length) d hsplit
        (by rw [List.length_drop]; omega)
      rw [List.drop_drop, ← List.length_append, ← hpct, List.append_assoc] at hrun
      exact hrun

theorem encode_run (hlt : (pct s).length < 4294967296) {res : List UInt8}
    (hres : (pct s).length < res.length) :
    steps (urlencodeStep s s.length) s.length ⟨0, 0, res⟩ =
        some (.wrote s (res.drop (pct s).length)) ∧
      urlencodeStep s s.length (.wrote s (res.drop (pct s).length)) =
        .done (some (pct s ++ 0 :: res.drop ((pct s).length + 1))) := by
  refine ⟨encode_rounds hlt s [] res [] (by simp) (Nat.le_of_lt hres), ?_⟩
  rw [List.drop_eq_getElem_cons hres]
  exact encode_end hlt

end

end MnHttp
