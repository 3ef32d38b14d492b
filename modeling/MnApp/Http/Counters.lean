/-
# `MnApp.Http.Counters` — the counters of `http_urlencode_reserved`

The length is a `size_t`, and the two counters of the loop are `unsigned
int`: `i` counts the bytes that are read, `j` those that are written, up to
three for each.  The test `i < sz` widens `i`.

    sz = 2^32 or more       `i` wraps before it gets there: the loop does
                            not stop
    text of 2^32 or more    `j` wraps: the rest overwrites the start of the
                            buffer, and the terminator with it

`Counted` is what the counters are for: a round for each byte, neither of
them ever goes back, and the terminator is put behind the text.  **It holds
exactly when the text is shorter than 2^32** (`counted_iff`), which is
stated in the bytes of the input: each of them, and two more for each that is
not unreserved.  That is below 2^32 for every length up to 2^32 / 3.

One round adds 1 to `i` and the length of the text of a byte to `j`, both
modulo 2^32 (`again_counters`).  A counter that only goes up has not
wrapped, so `j` is the length of the text that is written, and fits.
-/
import MnApp.Http.UrlEncode

namespace MnHttp

open Loop

/-- The counters of the encoder do not wrap: there is a round for each byte, each
round takes `i` one further and `j` forward, and the terminator stands right
behind the text. -/
structure Counted (s res : List UInt8) : Prop where
  stops : ∃ e, steps (urlencodeStep s s.length) s.length ⟨0, 0, res⟩ = some e ∧
    urlencodeStep s s.length e = .done (some (pct s ++ 0 :: res.drop ((pct s).length + 1)))
  grows : ∀ n e e', steps (urlencodeStep s s.length) n ⟨0, 0, res⟩ = some e →
    urlencodeStep s s.length e = .again e' →
    e'.i.toNat = e.i.toNat + 1 ∧ e.j.toNat < e'.j.toNat

theorem length_pct_countP (s : List UInt8) :
    (pct s).length = s.length + 2 * s.countP fun c => !unreserved c := by
  induction s with
  | nil => rfl
  | cons c s ih =>
      have hpct : pct (c :: s) = pctByte c ++ pct s := rfl
      rw [hpct, List.length_append, ih, List.length_cons, List.countP_cons]
      cases hc : unreserved c <;> simp [pctByte, hc] <;> omega

section
variable {s res : List UInt8} {e e' : Encoder}

theorem Encoder.put_counters {b : UInt8} (h : e.put b = some e') :
    e'.i = e.i ∧ e'.j = e.j + 1 := by
  obtain ⟨buf, -, hbuf⟩ := Option.bind_eq_some_iff.mp h
  cases hbuf
  exact ⟨rfl, rfl⟩

/-- The body of the loop leaves `j` on the last byte of the text. -/
theorem encodeByte_counters {c : UInt8} (h : encodeByte c e = some e') :
    e'.i = e.i ∧ e'.j + 1 = e.j + UInt32.ofNat (pctByte c).length := by
  unfold encodeByte at h
  unfold pctByte
  cases hc : unreserved c with
  | true =>
      rw [hc] at h
      obtain ⟨buf, -, hbuf⟩ := Option.bind_eq_some_iff.mp h
      cases hbuf
      exact ⟨rfl, rfl⟩
  | false =>
      rw [hc] at h
      obtain ⟨e₁, h₁, h⟩ := Option.bind_eq_some_iff.mp h
      obtain ⟨e₂, h₂, h⟩ := Option.bind_eq_some_iff.mp h
      obtain ⟨buf, -, hbuf⟩ := Option.bind_eq_some_iff.mp h
      cases hbuf
      obtain ⟨hi₁, hj₁⟩ := Encoder.put_counters h₁
      obtain ⟨hi₂, hj₂⟩ := Encoder.put_counters h₂
      refine ⟨hi₂.trans hi₁, ?_⟩
      show e₂.j + 1 = e.j + 3
      rw [hj₂, hj₁, UInt32.add_assoc, UInt32.add_assoc]
      rfl

theorem again_counters {sz : Nat} (h : urlencodeStep s sz e = .again e') :
    ∃ c, s[e.i.toNat]? = some c ∧ e'.i = e.i + 1 ∧
      e'.j = e.j + UInt32.ofNat (pctByte c).length := by
  unfold urlencodeStep at h
  split at h
  · split at h
    · rename_i e₁ hbind
      obtain ⟨c, hc, henc⟩ := Option.bind_eq_some_iff.mp hbind
      obtain ⟨hi, hj⟩ := encodeByte_counters henc
      cases h
      exact ⟨c, hc, congrArg (· + 1) hi, hj⟩
    · cases h
  · cases h

theorem toNat_add_of_grows {j : UInt32} {n : Nat} (hn : n < 4294967296)
    (h : j.toNat < (j + UInt32.ofNat n).toNat) : (j + UInt32.ofNat n).toNat = j.toNat + n := by
  rw [UInt32.toNat_add, toNat_ofNat_of_lt hn] at h ⊢
  omega

theorem Counted.after (h : Counted s res) {n : Nat} :
    n ≤ s.length → ∃ e, steps (urlencodeStep s s.length) n ⟨0, 0, res⟩ = some e ∧
      e.i.toNat = n ∧ e.j.toNat = (pct (s.take n)).length := by
  induction n with
  | zero => exact fun _ => ⟨_, rfl, rfl, rfl⟩
  | succ n ih =>
      intro hn
      obtain ⟨e, he, hi, hj⟩ := ih (Nat.le_of_succ_le hn)
      obtain ⟨e', hnext⟩ : ∃ e', urlencodeStep s s.length e = .again e' := by
        obtain ⟨last, hlast, -⟩ := h.stops
        obtain ⟨e', he'⟩ := steps_of_le hn hlast
        obtain ⟨e₀, he₀, hnext⟩ := steps_succ.mp he'
        cases he.symm.trans he₀
        exact ⟨e', hnext⟩
      obtain ⟨c, hc, -, hj'⟩ := again_counters hnext
      obtain ⟨hi', hgrows⟩ := h.grows n e e' he hnext
      have hlen := length_pctByte c
      rw [hj'] at hgrows
      have hexact := toNat_add_of_grows (by omega) hgrows
      refine ⟨e', steps_succ.mpr ⟨e, he, hnext⟩, by rw [hi', hi], ?_⟩
      have htake : s.take (n + 1) = s.take n ++ [c] := by
        rw [hi] at hc
        rw [List.take_add_one, hc]
        rfl
      rw [hj', hexact, hj, htake, pct_append, List.length_append]
      simp [pct]

/-- **If the counters do not wrap, the text is shorter than 2^32.** -/
theorem Counted.lt (h : Counted s res) : (pct s).length < 2 ^ 32 := by
  obtain ⟨e, -, -, hj⟩ := h.after (Nat.le_refl _)
  rw [List.take_length] at hj
  rw [← hj]
  exact e.j.toNat_lt

/-- **If the text is shorter than 2^32, the counters do not wrap.** -/
theorem counted_of_lt (hlt : (pct s).length < 2 ^ 32) (hres : res.length = s.length * 3 + 1) :
    Counted s res := by
  have hlen := length_pct s
  have hroom : (pct s).length < res.length := by omega
  obtain ⟨hrounds, hend⟩ := encode_run hlt hroom
  refine ⟨⟨_, hrounds, hend⟩, fun n e e' he hnext => ?_⟩
  -- the loop is left after the last round, so this is an earlier one
  have hn : n < s.length := by
    by_contra hge
    obtain ⟨u, hu⟩ := steps_of_le (Nat.succ_le_succ (Nat.not_lt.mp hge))
      (steps_succ.mpr ⟨e, he, hnext⟩)
    obtain ⟨last, hlast, hmore⟩ := steps_succ.mp hu
    cases hrounds.symm.trans hlast
    cases hend.symm.trans hmore
  have hsplit : s = s.take n ++ s[n] :: s.drop (n + 1) := by
    rw [← List.drop_eq_getElem_cons hn, List.take_append_drop]
  have hpct : pct s = pct (s.take n ++ [s[n]]) ++ pct (s.drop (n + 1)) := by
    rw [← pct_append, List.append_assoc, List.singleton_append, ← hsplit]
  have hnew : pct (s.take n ++ [s[n]]) = pct (s.take n) ++ pctByte s[n] := by
    rw [pct_append]
    simp [pct]
  have hbyte : 1 ≤ (pctByte s[n]).length := by
    have := length_le_pct [s[n]]
    simpa [pct] using this
  have htotal := congrArg List.length hpct
  rw [hnew, List.length_append, List.length_append] at htotal
  have htake := length_le_pct (s.take n)
  have hat := encode_rounds hlt (s.take n) [] res (s.drop n) (by simp) (by omega)
  rw [List.length_take_of_le (Nat.le_of_lt hn)] at hat
  cases hat.symm.trans he
  cases (encode_step hsplit (by rw [hnew, List.length_append]; omega)
    (by rw [List.length_drop]; omega)).symm.trans hnext
  unfold Encoder.wrote
  simp only [List.nil_append, hnew, List.length_append, List.length_singleton]
  rw [toNat_ofNat_of_lt (by omega), toNat_ofNat_of_lt (by omega), toNat_ofNat_of_lt (by omega),
    toNat_ofNat_of_lt (by omega)]
  omega

end

/-- **The counters of `http_urlencode_reserved` do not wrap exactly when its text
is shorter than 2^32.**  `res` is what `malloc(sz * 3 + 1)` returned. -/
theorem counted_iff (s res : List UInt8) (hsz : s.length * 3 + 1 < 2 ^ 64)
    (hres : res.length = (s.length * 3 + 1) % 2 ^ 64) :
    Counted s res ↔ s.length + 2 * s.countP (fun c => !unreserved c) < 2 ^ 32 := by
  rw [Nat.mod_eq_of_lt hsz] at hres
  rw [← length_pct_countP]
  exact ⟨Counted.lt, fun hlt => counted_of_lt hlt hres⟩

theorem counted_iff_blank : Counted [97, 32, 98] (List.replicate 10 0) :=
  (counted_iff [97, 32, 98] (List.replicate 10 0) (by decide) (by decide)).mpr (by decide)

/-! ## Texts that are too long -/

/-- A text of 2^32 unreserved bytes: `i` is below its length whatever it is, and
`j` inside the buffer. -/
theorem encode_forever {s res : List UInt8} (hs : s.length = 2 ^ 32)
    (hplain : ∀ c ∈ s, unreserved c = true) (hres : res.length = s.length * 3 + 1)
    (out : Option (List UInt8)) :
    ¬ Returns (urlencodeStep s s.length) ⟨0, 0, res⟩ out := by
  refine not_returns_of_forever (I := fun e => e.res.length = res.length) (fun e he => ?_) rfl out
  have hi : e.i.toNat < s.length := by
    rw [hs]
    exact e.i.toNat_lt
  have hj : e.j.toNat < e.res.length := by
    have := e.j.toNat_lt
    omega
  have hget : s[e.i.toNat]? = some s[e.i.toNat] := List.getElem?_eq_getElem hi
  have hc := hplain _ (List.getElem_mem hi)
  refine ⟨⟨e.i + 1, e.j + 1, e.res.set e.j.toNat s[e.i.toNat]⟩, ?_, ?_⟩
  · unfold urlencodeStep
    rw [if_pos hi, hget, Option.bind_some, encodeByte, hc]
    simp only [Bool.not_true, Bool.false_eq_true, if_false, store_of_lt hj]
    rfl
  · rw [List.length_set]
    exact he

/-- 2^32 bytes `'a'`. -/
def manyPlain : List UInt8 := List.replicate (2 ^ 32) 97

/-- A few more blanks than 2^32 / 3. -/
def manyBlanks : List UInt8 := List.replicate 1431655766 32

/-- The buffer for a text, full of zeros. -/
def zeroed (s : List UInt8) : List UInt8 := List.replicate (s.length * 3 + 1) 0

/-- **2^32 bytes `'a'` are never encoded.  1431655766 blanks are, but `j` wraps, and
the terminator is not behind their text.** -/
theorem counters_wrap :
    manyPlain.length * 3 + 1 < 2 ^ 64 ∧
      (∀ out, ¬ Returns (urlencodeStep manyPlain manyPlain.length) ⟨0, 0, zeroed manyPlain⟩ out) ∧
      ¬ Counted manyPlain (zeroed manyPlain) ∧
      manyBlanks.length * 3 + 1 < 2 ^ 64 ∧ ¬ Counted manyBlanks (zeroed manyBlanks) := by
  have hplain : manyPlain.length = 2 ^ 32 := List.length_replicate
  have hblanks : manyBlanks.length = 1431655766 := List.length_replicate
  have hforever : ∀ out,
      ¬ Returns (urlencodeStep manyPlain manyPlain.length) ⟨0, 0, zeroed manyPlain⟩ out :=
    encode_forever hplain
      (fun c hc => by rw [List.eq_of_mem_replicate hc]; decide) List.length_replicate
  refine ⟨by rw [hplain]; decide, hforever, fun h => ?_, by rw [hblanks]; decide, fun h => ?_⟩
  · obtain ⟨e, he, hend⟩ := h.stops
    exact hforever _ ((reaches_of_steps he).returns (.of_done hend))
  · have hlt := h.lt
    rw [length_pct_countP, hblanks, manyBlanks, List.countP_replicate] at hlt
    exact absurd hlt (by decide)

end MnHttp
