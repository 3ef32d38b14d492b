/-
# `MnApp.Http.Stream` — the byte stream under the parser, and its scans

`mnbytestream_t` is mncommon's and not part of this repository; what the
parser uses of it is

    SEOD, SPOS         `eod`, `pos`
    SNEEDMORE          `pos >= eod`
    SADVANCEPOS        adds its signed argument to `pos`
    SDATA(in, off)     the memory at an offset
    consume_data       one read, appended at `eod`
    recycle            drops a prefix of the buffer and shifts `pos`

`data` is what has been received, so `eod` is its length.  C string
functions do not stop at `eod`: `slack` is what the buffer's memory happens
to hold from there on, and every read may leave other bytes in it.

How much `bytestream_recycle` drops is not this repository's business
either.  A `Recycler` is any such choice that stays inside the received
bytes and does not pass the offset it is given.

The scans `findcrlf`, `findsp` and `findnosp` take their length as an `int`,
so a caller's `SEOD - start` is narrowed on the way in.
-/
import MnApp.Lib.CLib

namespace MnHttp

open CLib

/-- `byterange_t`. -/
structure Range where
  start : Int
  stop : Int
deriving DecidableEq, Repr

structure Stream where
  data : List UInt8
  slack : List UInt8
  pos : Int
deriving DecidableEq, Repr

namespace Stream

/-- `SEOD`. -/
def eod (s : Stream) : Int := s.data.length

/-- `SNEEDMORE`. -/
def needMore (s : Stream) : Bool := decide (s.eod ≤ s.pos)

/-- `SDATA`: the memory from an offset on. -/
def mem (s : Stream) (off : Int) : List UInt8 := (s.data ++ s.slack).drop off.toNat

/-- `SADVANCEPOS`. -/
def advance (s : Stream) (n : Int) : Stream := { s with pos := s.pos + n }

/-- A read that delivered `bs`. -/
def consume (s : Stream) (bs slack : List UInt8) : Stream :=
  { s with data := s.data ++ bs, slack := slack }

/-- `*p = '\0'` for a pointer into the received bytes. -/
def zero (s : Stream) (off : Int) : Stream := { s with data := s.data.set off.toNat NUL }

/-- The bytes a range addresses. -/
def slice (s : Stream) (r : Range) : List UInt8 :=
  (s.data.drop r.start.toNat).take (r.stop - r.start).toNat

@[simp] theorem eod_advance (s : Stream) (n : Int) : (s.advance n).eod = s.eod := rfl
@[simp] theorem data_advance (s : Stream) (n : Int) : (s.advance n).data = s.data := rfl
@[simp] theorem pos_advance (s : Stream) (n : Int) : (s.advance n).pos = s.pos + n := rfl
@[simp] theorem slack_advance (s : Stream) (n : Int) : (s.advance n).slack = s.slack := rfl
@[simp] theorem mem_advance (s : Stream) (n off : Int) : (s.advance n).mem off = s.mem off := rfl
@[simp] theorem data_consume (s : Stream) (bs sl : List UInt8) :
    (s.consume bs sl).data = s.data ++ bs := rfl
@[simp] theorem pos_consume (s : Stream) (bs sl : List UInt8) :
    (s.consume bs sl).pos = s.pos := rfl
@[simp] theorem eod_consume (s : Stream) (bs sl : List UInt8) :
    (s.consume bs sl).eod = s.eod + bs.length := by simp [eod]
@[simp] theorem pos_zero (s : Stream) (off : Int) : (s.zero off).pos = s.pos := rfl
@[simp] theorem data_zero (s : Stream) (off : Int) :
    (s.zero off).data = s.data.set off.toNat NUL := rfl
@[simp] theorem eod_zero (s : Stream) (off : Int) : (s.zero off).eod = s.eod := by simp [eod]

theorem eod_le_pos_advance (s : Stream) :
    (s.advance (s.eod - s.pos)).eod ≤ (s.advance (s.eod - s.pos)).pos := by
  simp only [eod_advance, pos_advance]
  omega

end Stream

/-! ## Recycling -/

/-- `bytestream_recycle(in, nonempty, until)`: how much it drops, and what the
memory behind `eod` holds afterwards. -/
structure Recycler where
  amount : Stream → Int → Int → Nat
  slack : Stream → Int → Int → List UInt8
  amount_le_eod : ∀ s nonempty upto, amount s nonempty upto ≤ s.data.length
  amount_le_until : ∀ s nonempty upto, 0 ≤ upto → (amount s nonempty upto : Int) ≤ upto

/-- The stream after `bytestream_recycle`. -/
def Recycler.apply (rc : Recycler) (s : Stream) (nonempty upto : Int) : Stream :=
  { data := s.data.drop (rc.amount s nonempty upto),
    slack := rc.slack s nonempty upto,
    pos := s.pos - rc.amount s nonempty upto }

/-- A recycler that never drops anything. -/
def Recycler.keep : Recycler where
  amount _ _ _ := 0
  slack s _ _ := s.slack
  amount_le_eod _ _ _ := Nat.zero_le _
  amount_le_until _ _ _ h := h

/-! ## Scans -/

/-- The first CR LF pair of a window. -/
def firstCrlf : List UInt8 → Option Nat
  | [] => none
  | b :: bs => if b = CR ∧ bs.head? = some LF then some 0 else (firstCrlf bs).map (· + 1)

/-- `findcrlf(s, sz)`, as an offset from `s`. -/
def findcrlf (s : List UInt8) (sz : Int) : Option Nat := firstCrlf (s.take sz.toNat)

/-- `ISSPACE`. -/
def ISSPACE (b : UInt8) : Bool := b == SP || b == TAB

/-- `findsp(s, sz)`, as an offset from `s`. -/
def findsp (s : List UInt8) (sz : Int) : Option Nat := (s.take sz.toNat).findIdx? ISSPACE

/-- `findnosp(s, sz)`, as an offset from `s`. -/
def findnosp (s : List UInt8) (sz : Int) : Option Nat :=
  (s.take sz.toNat).findIdx? fun b => !ISSPACE b

/-- No CR LF pair stands in the text. -/
def NoCrlf (l : List UInt8) : Prop := firstCrlf l = none

instance (l : List UInt8) : Decidable (NoCrlf l) := inferInstanceAs (Decidable (_ = _))

theorem noCrlf_cons {b : UInt8} {l : List UInt8} (h : NoCrlf (b :: l)) :
    NoCrlf l ∧ ¬ (b = CR ∧ l.head? = some LF) := by
  unfold NoCrlf firstCrlf at h
  split at h
  · cases h
  · rename_i hb
    exact ⟨by simpa [NoCrlf] using h, hb⟩

theorem noCrlf_of_not_mem {l : List UInt8} (h : CR ∉ l) : NoCrlf l := by
  induction l with
  | nil => rfl
  | cons b l ih =>
      have hb : b ≠ CR := fun hb => h (by simp [hb])
      have hl : CR ∉ l := fun hl => h (List.mem_cons_of_mem _ hl)
      have := ih hl
      unfold NoCrlf at this ⊢
      simp [firstCrlf, hb, this]

/-- A window that starts with an unbroken line and its CR LF: the scan finds
the CR as soon as the LF is inside, and nothing before that. -/
theorem firstCrlf_take {line : List UInt8} (h : NoCrlf line) (rest : List UInt8) (k : Nat) :
    firstCrlf ((line ++ CR :: LF :: rest).take k) =
      if line.length + 2 ≤ k then some line.length else none := by
  induction line generalizing k with
  | nil =>
      match k with
      | 0 => rfl
      | 1 => simp [firstCrlf]
      | k + 2 => simp [firstCrlf]
  | cons b line ih =>
      obtain ⟨hl, hb⟩ := noCrlf_cons h
      cases k with
      | zero => rfl
      | succ k =>
          have hhead : ¬ (b = CR ∧ ((line ++ CR :: LF :: rest).take k).head? = some LF) := by
            rintro ⟨rfl, h2⟩
            cases line with
            | nil =>
                cases k with
                | zero => simp at h2
                | succ k => exact absurd h2 (by simp [CR, LF])
            | cons c line =>
                cases k with
                | zero => simp at h2
                | succ k => exact hb ⟨rfl, by simpa using h2⟩
          simp only [List.cons_append, List.take_succ_cons, firstCrlf, hhead, if_false,
            ih hl, List.length_cons]
          by_cases hk : line.length + 2 ≤ k
          · rw [if_pos hk, if_pos (by omega)]; rfl
          · rw [if_neg hk, if_neg (by omega)]; rfl

theorem firstCrlf_eq_some {l : List UInt8} {n : Nat} (h : firstCrlf l = some n) :
    ∃ rest, l = l.take n ++ CR :: LF :: rest ∧ (l.take n).length = n ∧ NoCrlf (l.take n) := by
  induction l generalizing n with
  | nil => cases h
  | cons b l ih =>
      unfold firstCrlf at h
      split at h
      · rename_i hb
        obtain ⟨rfl, hl⟩ := hb
        cases h
        cases l with
        | nil => cases hl
        | cons c l =>
            simp only [List.head?_cons, Option.some.injEq] at hl
            subst hl
            exact ⟨l, rfl, rfl, rfl⟩
      · rename_i hb
        cases hl : firstCrlf l with
        | none => rw [hl] at h; cases h
        | some m =>
            rw [hl] at h
            simp only [Option.map_some, Option.some.injEq] at h
            subst h
            obtain ⟨rest, h1, h2, h3⟩ := ih hl
            refine ⟨rest, by simpa using h1, by simpa using h2, ?_⟩
            have hhead : ¬ (b = CR ∧ (l.take m).head? = some LF) := by
              rintro ⟨hbc, hlf⟩
              apply hb
              refine ⟨hbc, ?_⟩
              cases m with
              | zero => simp at hlf
              | succ m =>
                  cases l with
                  | nil => cases hlf
                  | cons c l => simpa using hlf
            unfold NoCrlf at h3 ⊢
            simp [List.take_succ_cons, firstCrlf, hhead, h3]

theorem findIdx?_stop {p : UInt8 → Bool} {pre : List UInt8} {b : UInt8} (rest : List UInt8)
    (hpre : ∀ x ∈ pre, p x = false) (hb : p b = true) {k : Nat} (hk : pre.length < k) :
    ((pre ++ b :: rest).take k).findIdx? p = some pre.length := by
  induction pre generalizing k with
  | nil =>
      match k with
      | 0 => simp at hk
      | k + 1 => simp [List.findIdx?_cons, hb]
  | cons a pre ih =>
      match k with
      | 0 => simp at hk
      | k + 1 =>
          have ha : p a = false := hpre a List.mem_cons_self
          have := ih (fun x hx => hpre x (List.mem_cons_of_mem _ hx)) (k := k)
            (by simpa using hk)
          simp [List.findIdx?_cons, ha, this]

end MnHttp
