/-
# `MnApp.Http.UrlCanonical` — the encoder against RFC 3986

`canonical` is the percent encoding of RFC 3986: unreserved bytes as they are,
the others as `%` and two upper-case digits.  `charflags` agrees with it on
every byte but `0` to `9`, which it does not mark as unreserved, so that the
encoder writes `%30` to `%39` for them.

**Long texts.**  The indices of the encoder are 32 bits wide and the length of
the text is not.  From 2^32 bytes on the loop has no end (`encode_endless`).
Below that it ends, with `j` at the length of what was written modulo 2^32, and
in front of `j` stands the end of what was written (`Lap`).  That could be the
canonical encoding of the text after all, and it takes an argument to see that
it is not: the last digit of the text would be written over its own escape, and
the bytes in front of it would have to end in `%3` (`digits_of_suffix`).

`urlencode_canonical_iff` is the result.
-/
import MnApp.Http.UrlEncode
import MnApp.Lib.CLib

namespace MnHttp

open Loop CLib

/-! ## The encoding of RFC 3986 -/

/-- DIGIT. -/
def decimal (c : UInt8) : Bool := 48 ≤ c && c ≤ 57

/-- ALPHA, DIGIT, `-`, `.`, `_` and `~`. -/
def rfcUnreserved (c : UInt8) : Bool :=
  (65 ≤ c && c ≤ 90) || (97 ≤ c && c ≤ 122) || decimal c || c == 45 || c == 46 || c == 95 ||
    c == 126

def upperHex (n : Nat) : UInt8 := (ascii "0123456789ABCDEF").getD n 0

def canonicalByte (c : UInt8) : List UInt8 :=
  if rfcUnreserved c then [c] else [37, upperHex (c.toNat / 16), upperHex (c.toNat % 16)]

/-- The percent encoding of RFC 3986. -/
def canonical (s : List UInt8) : List UInt8 := s.flatMap canonicalByte

theorem canonical_of_unreserved {s : List UInt8} (h : ∀ c ∈ s, rfcUnreserved c = true) :
    canonical s = s := by
  induction s with
  | nil => rfl
  | cons c s ih =>
      have hrest := ih fun x hx => h x (List.mem_cons_of_mem _ hx)
      unfold canonical canonicalByte at *
      rw [List.flatMap_cons, if_pos (h c List.mem_cons_self), hrest]
      rfl

/-! ### Where the table differs -/

theorem canonicalByte_other {c : UInt8} (h : decimal c = false) : canonicalByte c = pctByte c :=
  forall_byte (P := fun c => decimal c = false → canonicalByte c = pctByte c)
    (by decide +kernel) c h

theorem canonicalByte_decimal {c : UInt8} (h : decimal c = true) :
    canonicalByte c = [c] ∧ pctByte c = [37, 51, c] :=
  forall_byte (P := fun c => decimal c = true → canonicalByte c = [c] ∧ pctByte c = [37, 51, c])
    (by decide +kernel) c h

/-- An escape has its `%` in front of two other bytes, and nothing else is one. -/
theorem canonicalByte_cases (c : UInt8) :
    (canonicalByte c = [c] ∧ c ≠ 37) ∨
      ∃ x y, canonicalByte c = [37, x, y] ∧ x ≠ 37 ∧ y ≠ 37 := by
  have h := forall_byte (P := fun c => (rfcUnreserved c = true → c ≠ 37) ∧
    upperHex (c.toNat / 16) ≠ 37 ∧ upperHex (c.toNat % 16) ≠ 37) (by decide +kernel) c
  unfold canonicalByte
  by_cases hc : rfcUnreserved c = true
  · rw [if_pos hc]
    exact .inl ⟨rfl, h.1 hc⟩
  · rw [if_neg hc]
    exact .inr ⟨_, _, rfl, h.2.1, h.2.2⟩

theorem canonical_append (a b : List UInt8) : canonical (a ++ b) = canonical a ++ canonical b :=
  List.flatMap_append

theorem canonical_snoc (a : List UInt8) (c : UInt8) :
    canonical (a ++ [c]) = canonical a ++ canonicalByte c := by
  rw [canonical_append]
  simp [canonical]

theorem canonical_eq_pct {s : List UInt8} (h : ∀ c ∈ s, decimal c = false) :
    canonical s = pct s := by
  induction s with
  | nil => rfl
  | cons c s ih =>
      have hrest := ih fun x hx => h x (List.mem_cons_of_mem _ hx)
      unfold canonical pct at *
      rw [List.flatMap_cons, List.flatMap_cons, hrest, canonicalByte_other (h c List.mem_cons_self)]

/-- Each digit makes the text two bytes longer than it should be. -/
theorem length_pct_eq (s : List UInt8) :
    (pct s).length = (canonical s).length + 2 * s.countP decimal := by
  induction s with
  | nil => rfl
  | cons c s ih =>
      have hc : (pctByte c).length =
          (canonicalByte c).length + 2 * (if decimal c = true then 1 else 0) := by
        cases hd : decimal c with
        | false => rw [canonicalByte_other hd]; simp
        | true =>
            obtain ⟨h1, h2⟩ := canonicalByte_decimal hd
            rw [h1, h2]
            rfl
      have hp : pct (c :: s) = pctByte c ++ pct s := rfl
      have hk : canonical (c :: s) = canonicalByte c ++ canonical s := rfl
      rw [hp, hk, List.length_append, List.length_append, ih, hc, List.countP_cons]
      omega

theorem length_le_canonical (s : List UInt8) : s.length ≤ (canonical s).length := by
  induction s with
  | nil => exact Nat.le_refl _
  | cons c s ih =>
      have hk : canonical (c :: s) = canonicalByte c ++ canonical s := rfl
      have hpos : 1 ≤ (canonicalByte c).length := by
        obtain ⟨h, -⟩ | ⟨x, y, h, -⟩ := canonicalByte_cases c <;> rw [h] <;> simp
      rw [hk, List.length_append, List.length_cons]
      omega

theorem canonical_ne_percent {a p q : List UInt8} (h : p ++ canonical a = q ++ [37]) : a = [] := by
  obtain rfl | ⟨a, c, rfl⟩ := List.eq_nil_or_concat a
  · rfl
  · exfalso
    rw [List.concat_eq_append, canonical_snoc, ← List.append_assoc] at h
    obtain ⟨hc, hne⟩ | ⟨x, y, hc, -, hne⟩ := canonicalByte_cases c
    · rw [hc] at h
      exact hne (List.append_inj_right' h rfl |> List.singleton_inj.mp)
    · rw [hc, show [37, x, y] = [37, x] ++ [y] from rfl, ← List.append_assoc] at h
      exact hne (List.append_inj_right' h rfl |> List.singleton_inj.mp)

theorem exists_last_decimal {s : List UInt8} (h : ¬ ∀ c ∈ s, decimal c = false) :
    ∃ a d b, s = a ++ d :: b ∧ decimal d = true ∧ ∀ c ∈ b, decimal c = false := by
  induction s with
  | nil => exact absurd (by simp) h
  | cons c s ih =>
      by_cases hs : ∀ c ∈ s, decimal c = false
      · refine ⟨[], c, s, rfl, ?_, hs⟩
        by_contra hc
        refine h fun x hx => ?_
        obtain rfl | hx := List.mem_cons.mp hx
        · exact Bool.eq_false_iff.mpr hc
        · exact hs x hx
      · obtain ⟨a, d, b, rfl, hd, hb⟩ := ih hs
        exact ⟨c :: a, d, b, rfl, hd, hb⟩

/-- What the encoder writes ends in the canonical encoding only if there is next
to no digit: the escape of the last one would have to end the encoding of what
is in front of it. -/
theorem digits_of_suffix {s p : List UInt8} (h : p ++ canonical s = pct s) :
    s.countP decimal ≤ 2 := by
  by_cases hnone : ∀ c ∈ s, decimal c = false
  · rw [List.countP_eq_zero.mpr fun c hc => by simp [hnone c hc]]
    exact Nat.zero_le _
  · obtain ⟨a, d, b, rfl, hd, hb⟩ := exists_last_decimal hnone
    have hcount : (a ++ d :: b).countP decimal = a.countP decimal + 1 := by
      have hzero : b.countP decimal = 0 := List.countP_eq_zero.mpr fun c hc => by simp [hb c hc]
      rw [List.countP_append, List.countP_cons_of_pos hd, hzero]
    rw [hcount]
    obtain ⟨hcanon, hpct⟩ := canonicalByte_decimal hd
    have hk : canonical (a ++ d :: b) = canonical a ++ ([d] ++ pct b) := by
      rw [canonical_append, ← canonical_eq_pct hb, ← hcanon]
      rfl
    have hp : pct (a ++ d :: b) = (pct a ++ [37, 51]) ++ ([d] ++ pct b) := by
      rw [pct_append, show pct (d :: b) = pctByte d ++ pct b from rfl, hpct]
      simp
    rw [hk, hp, ← List.append_assoc] at h
    have hfront : p ++ canonical a = pct a ++ [37, 51] := List.append_cancel_right h
    obtain rfl | ⟨a', x, rfl⟩ := List.eq_nil_or_concat a
    · simp
    · rw [List.concat_eq_append, canonical_snoc, ← List.append_assoc] at hfront
      obtain ⟨hx, -⟩ | ⟨u, v, hx, hu, -⟩ := canonicalByte_cases x
      · rw [hx, show [37, 51] = [37] ++ [(51 : UInt8)] from rfl, ← List.append_assoc] at hfront
        have hnil : a' = [] := canonical_ne_percent (List.append_inj_left' hfront rfl)
        subst hnil
        have := List.countP_le_length (p := decimal) (l := [x])
        simpa using this
      · rw [hx, show [37, u, v] = [37] ++ [u, v] from rfl, ← List.append_assoc] at hfront
        have hlast := List.append_inj_right' hfront rfl
        rw [List.cons.injEq] at hlast
        exact absurd hlast.1 hu

/-! ## The encoder on texts of any length -/

/-- The state of the encoder when it has written `w` into a buffer of `cap`
bytes, possibly over itself. -/
structure Lap (cap : Nat) (w : List UInt8) (e : Encoder) : Prop where
  size : e.res.length = cap
  pos : e.j.toNat = w.length % 4294967296
  last : e.res.take e.j.toNat = w.drop (w.length - e.j.toNat)

section
variable {cap : Nat} {w s : List UInt8} {e : Encoder}

theorem Lap.put (h : Lap cap w e) (hcap : w.length < cap) (b : UInt8) :
    ∃ e', e.put b = some e' ∧ Lap cap (w ++ [b]) e' ∧ e'.i = e.i := by
  have hpos := h.pos
  have hle : e.j.toNat ≤ w.length := by rw [hpos]; exact Nat.mod_le _ _
  have hlt : e.j.toNat < e.res.length := by rw [h.size]; omega
  refine ⟨{ e with j := e.j + 1, res := e.res.set e.j.toNat b }, ?_, ?_, rfl⟩
  · unfold Encoder.put
    rw [store_of_lt hlt]
    rfl
  · have hj : (e.j + 1).toNat = (e.j.toNat + 1) % 4294967296 := UInt32.toNat_add e.j 1
    have hmod : (w.length + 1) % 4294967296 = (e.j.toNat + 1) % 4294967296 := by omega
    have hrange := e.j.toNat_lt
    refine ⟨by rw [List.length_set, h.size], ?_, ?_⟩
    · rw [List.length_append, List.length_singleton, hmod]
      exact hj
    · simp only [List.length_append, List.length_singleton, hj]
      obtain hfull | hroom := Nat.lt_or_ge (e.j.toNat + 1) 4294967296
      · have hget : (e.res.set e.j.toNat b)[e.j.toNat]? = some b := List.getElem?_set_self hlt
        rw [Nat.mod_eq_of_lt hfull, List.take_add_one, hget, List.take_set_of_le (Nat.le_refl _),
          h.last, Nat.add_sub_add_right, List.drop_append_of_le_length (Nat.sub_le _ _)]
        rfl
      · -- the lap is complete, and `j` starts again
        have hlap : e.j.toNat + 1 = 4294967296 := by omega
        rw [hlap, Nat.mod_self, Nat.sub_zero]
        simp

theorem Lap.puts (bs : List UInt8) : ∀ {w : List UInt8} {e : Encoder}, Lap cap w e →
    w.length + bs.length ≤ cap →
    ∃ e', bs.foldlM Encoder.put e = some e' ∧ Lap cap (w ++ bs) e' ∧ e'.i = e.i := by
  induction bs with
  | nil =>
      intro w e h _
      exact ⟨e, rfl, by rwa [List.append_nil], rfl⟩
  | cons b bs ih =>
      intro w e h hcap
      rw [List.length_cons] at hcap
      obtain ⟨e', hput, hlap, hi⟩ := h.put (by omega) b
      obtain ⟨e'', hputs, hlap', hi'⟩ := ih hlap (by
        rw [List.length_append, List.length_singleton]; omega)
      refine ⟨e'', ?_, ?_, hi'.trans hi⟩
      · rw [List.foldlM_cons, hput]
        exact hputs
      · rwa [List.append_assoc, List.singleton_append] at hlap'

theorem encodeByte_puts (c : UInt8) (e : Encoder) :
    (encodeByte c e).map (fun e => { e with j := e.j + 1 }) =
      (pctByte c).foldlM Encoder.put e := by
  have hstore : ∀ (e : Encoder) (b : UInt8),
      ((store e.res e.j.toNat b).map fun res => { e with j := e.j + 1, res }) = e.put b := by
    intro e b
    unfold Encoder.put
    cases store e.res e.j.toNat b <;> rfl
  unfold encodeByte pctByte
  cases hc : unreserved c with
  | true =>
      simp only [Bool.not_true, Bool.false_eq_true, if_false, if_true, List.foldlM_cons,
        List.foldlM_nil, ← hstore]
      cases store e.res e.j.toNat c <;> rfl
  | false =>
      simp only [Bool.not_false, Bool.false_eq_true, if_false, if_true, List.foldlM_cons,
        List.foldlM_nil]
      cases e.put 37 with
      | none => rfl
      | some e1 =>
          simp only [Option.bind_eq_bind, Option.bind_some]
          cases e1.put (hexDigit (c >>> 4)) with
          | none => rfl
          | some e2 =>
              simp only [Option.bind_some, ← hstore]
              cases store e2.res e2.j.toNat (hexDigit (c &&& 0x0f)) <;> rfl

theorem urlencodeStep_again {a b : List UInt8} {c : UInt8} (hs : s = a ++ c :: b)
    (hi : e.i.toNat = a.length) (hlen : s.length < 4294967296)
    (h : Lap (3 * s.length + 1) (pct a) e) :
    ∃ e', urlencodeStep s s.length e = .again e' ∧ e'.i.toNat = (a ++ [c]).length ∧
      Lap (3 * s.length + 1) (pct (a ++ [c])) e' := by
  have hslen : s.length = a.length + (b.length + 1) := by rw [hs]; simp
  have hpa := length_pct a
  have hpc := length_pctByte c
  obtain ⟨e', hputs, hlap, hi'⟩ := h.puts (pctByte c) (by omega)
  have hget : s[e.i.toNat]? = some c := by rw [hi, hs]; simp
  rw [← encodeByte_puts] at hputs
  obtain ⟨e1, henc, he1⟩ := Option.map_eq_some_iff.mp hputs
  have hii : e'.i = e1.i := by rw [← he1]
  refine ⟨{ e' with i := e'.i + 1 }, ?_, ?_, ?_⟩
  · unfold urlencodeStep
    rw [if_pos (by omega), hget, Option.bind_some, henc]
    simp only [← he1]
  · have hadd : (e'.i + 1).toNat = (e'.i.toNat + 1) % 4294967296 := UInt32.toNat_add e'.i 1
    simp only [List.length_append, List.length_singleton]
    rw [hadd, hi', hi]
    omega
  · have hp : pct (a ++ [c]) = pct a ++ pctByte c := by rw [pct_append]; simp [pct]
    rw [hp]
    exact ⟨hlap.size, hlap.pos, hlap.last⟩

/-- What the encoder leaves of a text below 2^32 bytes. -/
structure EncodedInto (s buf : List UInt8) : Prop where
  size : buf.length = 3 * s.length + 1
  nul : buf[(pct s).length % 4294967296]? = some 0
  front : buf.take ((pct s).length % 4294967296) =
    (pct s).drop ((pct s).length - (pct s).length % 4294967296)

theorem encode_ends (hlen : s.length < 4294967296) (b : List UInt8) :
    ∀ (a : List UInt8) (e : Encoder), s = a ++ b → e.i.toNat = a.length →
      Lap (3 * s.length + 1) (pct a) e →
      ∃ buf, Returns (urlencodeStep s s.length) e (some buf) ∧ EncodedInto s buf := by
  induction b with
  | nil =>
      intro a e heq hi h
      rw [List.append_nil] at heq
      subst heq
      have hpos := h.pos
      have hpct := length_pct s
      have hlt : e.j.toNat < e.res.length := by
        rw [h.size, hpos]
        have := Nat.mod_le (pct s).length 4294967296
        omega
      refine ⟨e.res.set e.j.toNat 0, .of_done ?_, ?_, ?_, ?_⟩
      · unfold urlencodeStep
        rw [if_neg (by omega), store_of_lt hlt]
      · rw [List.length_set, h.size]
      · rw [← hpos, List.getElem?_set_self hlt]
      · rw [← hpos, List.take_set_of_le (Nat.le_refl _), h.last]
  | cons c b ih =>
      intro a e heq hi h
      obtain ⟨e', hstep, hi', h'⟩ := urlencodeStep_again heq hi hlen h
      obtain ⟨buf, hret, hbuf⟩ := ih (a ++ [c]) e' (by rw [heq]; simp) hi' h'
      exact ⟨buf, .of_again hstep hret, hbuf⟩

/-- From 2^32 bytes on `i` never gets to the end. -/
theorem encode_endless {sz : Nat} (hsz : 4294967296 ≤ sz) {buf : List UInt8} :
    ¬ Returns (urlencodeStep s sz) e (some buf) := by
  intro h
  refine Returns.rec_run (P := fun _ => False) ?_ ?_ h
  · intro e hdone
    have hlt : e.i.toNat < sz := Nat.lt_of_lt_of_le e.i.toNat_lt hsz
    unfold urlencodeStep at hdone
    rw [if_pos hlt] at hdone
    split at hdone <;> cases hdone
  · intro _ _ _ _ hfalse
    exact hfalse

theorem EncodedInto.cstr_eq {buf : List UInt8} (h : EncodedInto s buf) :
    cstr buf = (pct s).drop ((pct s).length - (pct s).length % 4294967296) := by
  rw [← h.front]
  generalize hJ : (pct s).length % 4294967296 = J
  have hnul : buf[J]? = some 0 := hJ ▸ h.nul
  have hlt : J < buf.length := (List.getElem?_eq_some_iff.mp hnul).1
  have hsplit : buf = buf.take J ++ NUL :: buf.drop (J + 1) := by
    have hdrop : buf.drop J = 0 :: buf.drop (J + 1) := by
      rw [List.drop_eq_getElem_cons hlt, (List.getElem?_eq_some_iff.mp hnul).2]
    conv_lhs => rw [← List.take_append_drop J buf, hdrop]
    rfl
  conv_lhs => rw [hsplit]
  refine cstr_stop fun x hx => ?_
  rw [← hJ, h.front] at hx
  exact pct_ne_zero x (List.mem_of_mem_drop hx)

end

theorem Lap.init (res : List UInt8) : Lap res.length [] ⟨0, 0, res⟩ := ⟨rfl, rfl, rfl⟩

theorem encode_below (s res : List UInt8) (hlen : s.length < 4294967296)
    (hres : res.length = 3 * s.length + 1) :
    ∃ buf, Returns (urlencodeStep s s.length) ⟨0, 0, res⟩ (some buf) ∧ EncodedInto s buf :=
  encode_ends hlen s [] _ rfl rfl (hres ▸ Lap.init res)

/-- **The encoder computes the canonical encoding exactly when** there is no
digit in the text and the encoding is shorter than 2^32 bytes.  `res` is what
`malloc` returned for `sz * 3 + 1`. -/
theorem urlencode_canonical_iff (s res : List UInt8)
    (hres : res.length = (3 * s.length + 1) % 2 ^ 64) :
    ((∃ fuel buf, httpUrlencodeReserved fuel res s s.length = some (some buf) ∧
        cstr buf = canonical s) ↔
      (∀ c ∈ s, decimal c = false) ∧ (canonical s).length < 2 ^ 32) ∧
    ((∀ c ∈ s, rfcUnreserved c = true) → canonical s = s) := by
  have hle := length_le_canonical s
  refine ⟨⟨?_, ?_⟩, canonical_of_unreserved⟩
  · rintro ⟨fuel, buf, hrun, hbuf⟩
    have hret : Returns (urlencodeStep s s.length) ⟨0, 0, res⟩ (some buf) := ⟨fuel, hrun⟩
    obtain hlen | hlen := Nat.lt_or_ge s.length 4294967296
    · rw [Nat.mod_eq_of_lt (by omega)] at hres
      obtain ⟨buf', hret', hinto⟩ := encode_below s res hlen hres
      have hsame : buf' = buf := Option.some.inj (hret'.unique hret)
      subst hsame
      rw [hinto.cstr_eq] at hbuf
      have hmod := Nat.mod_lt (pct s).length (show 0 < 4294967296 by decide)
      have hdiv := Nat.div_add_mod (pct s).length 4294967296
      have hsuffix : (pct s).take ((pct s).length - (pct s).length % 4294967296) ++ canonical s =
          pct s := by
        rw [← hbuf, List.take_append_drop]
      have hcount := digits_of_suffix hsuffix
      have hpct := length_pct_eq s
      have hcanon := congrArg List.length hbuf
      rw [List.length_drop] at hcanon
      have hzero : s.countP decimal = 0 := by omega
      refine ⟨fun c hc => ?_, by omega⟩
      have := List.countP_eq_zero.mp hzero c hc
      simpa using this
    · exact absurd hret (encode_endless hlen)
  · rintro ⟨hnone, hshort⟩
    have hpct := canonical_eq_pct hnone
    rw [Nat.mod_eq_of_lt (by omega)] at hres
    obtain ⟨buf, ⟨fuel, hrun⟩, hinto⟩ := encode_below s res (by omega) hres
    refine ⟨fuel, buf, hrun, ?_⟩
    have hmod : (canonical s).length % 4294967296 = (canonical s).length := Nat.mod_eq_of_lt hshort
    rw [hinto.cstr_eq, ← hpct, hmod, Nat.sub_self, List.drop_zero]

theorem urlencode_canonical_blank : (List.replicate 10 (7 : UInt8)).length =
      (3 * (ascii "a b").length + 1) % 2 ^ 64 ∧
    ∃ fuel buf, httpUrlencodeReserved fuel (List.replicate 10 7) (ascii "a b") 3 =
      some (some buf) ∧ cstr buf = canonical (ascii "a b") :=
  ⟨by decide, (urlencode_canonical_iff (ascii "a b") (List.replicate 10 7) (by decide)).1.mpr
    ⟨by decide, by decide⟩⟩

/-- A digit is unreserved, and encoded. -/
theorem urlencode_digit : (∀ c ∈ ascii "0", rfcUnreserved c = true) ∧
    canonical (ascii "0") = ascii "0" ∧
    httpUrlencodeReserved 2 (List.replicate 4 7) (ascii "0") 1 = some (some (ascii "%30" ++ [0])) ∧
    ¬ ∃ fuel buf, httpUrlencodeReserved fuel (List.replicate 4 7) (ascii "0") 1 =
      some (some buf) ∧ cstr buf = canonical (ascii "0") := by
  have hrun : httpUrlencodeReserved 2 (List.replicate 4 7) (ascii "0") 1 =
      some (some (ascii "%30" ++ [0])) := by decide
  refine ⟨by decide, by decide, hrun, ?_⟩
  rintro ⟨fuel, buf, hbuf, hcstr⟩
  have hret : Returns (urlencodeStep (ascii "0") 1) ⟨0, 0, List.replicate 4 7⟩ _ := ⟨2, hrun⟩
  have hsame := hret.unique ⟨fuel, hbuf⟩
  cases hsame
  exact absurd hcstr (by decide)

end MnHttp
