/-
# `MnApp.Http.Errno` — what the parse makes of an old `errno`

The first line's parsers check a number that is 0 against `errno`, and
`strtol` sets `errno` only when a number overflows: what is checked may have
been left by earlier work of the process.  This is a statement about two
runs on the same bytes:

    two values of `errno` at entry, the same callbacks with the same
    contexts, the same result                      (`ErrnoBlind`)

Nothing but the first line reads `errno`, so everything depends on the
memory the first line is parsed in (`lineMemory`: the reads may cut the line
anywhere, and the numbers may run on behind it).  The runs are the same for
all values of `errno` exactly when no number of the line reads as 0 before
one of them overflowed (`errno_blind_iff`).  The 0 of `HTTP/1.0` is such a
number.
-/
import MnApp.Http.ContentLength
import MnApp.Http.LineText

namespace MnHttp

open CLib Loop

/-! ## Numbers under two values of `errno` -/

/-- `errno` in two readings of one line, `c₀` in the clean one and `c` in one
that started with `e`: both were set, or both are still what they were. -/
def Trails (e c₀ c : Int) : Prop := c₀ = ERANGE ∧ c = ERANGE ∨ c₀ = 0 ∧ c = e

/-- The number does not depend on what `errno` was: it is not 0, or an overflow
has set `errno`. -/
def Number.steady (x : Number) : Prop := x.val = 0 → x.errno = ERANGE

instance (x : Number) : Decidable x.steady := inferInstanceAs (Decidable (_ → _))

section
variable {e c₀ c : Int} {M : List UInt8}

theorem Trails.number (h : Trails e c₀ c) (M : List UInt8) :
    Trails e (number M c₀).errno (number M c).errno := by
  unfold MnHttp.number
  simp only
  split
  · exact .inl ⟨rfl, rfl⟩
  · exact h

theorem zeroErrno_of_ne {v : Int} (h : v ≠ 0) (x : Int) : zeroErrno v x = false := by
  unfold zeroErrno
  rw [beq_eq_false_iff_ne.mpr h, Bool.false_and]

/-- A steady number is refused in both readings or in neither. -/
theorem Trails.refused (h : Trails e c₀ c) (hs : (MnHttp.number M c₀).steady) :
    (MnHttp.number M c).refused = (MnHttp.number M c₀).refused := by
  have hval : (MnHttp.number M c).val = (MnHttp.number M c₀).val := rfl
  unfold Number.refused
  rw [hval]
  by_cases h0 : (MnHttp.number M c₀).val = 0
  · rcases h.number M with ⟨h₁, h₂⟩ | ⟨h₁, -⟩
    · rw [h₁, h₂]
    · cases (hs h0).symm.trans h₁
  · rw [zeroErrno_of_ne h0, zeroErrno_of_ne h0]

/-- A number that is not steady passes in the clean reading and is refused where
`errno` was `EINVAL`. -/
theorem Trails.unsteady (h : Trails EINVAL c₀ c) (hs : ¬ (MnHttp.number M c₀).steady) :
    (MnHttp.number M c₀).refused = false ∧ (MnHttp.number M c).refused = true := by
  obtain ⟨h0, herr⟩ := Classical.not_imp.mp hs
  have hval : (MnHttp.number M c).val = (MnHttp.number M c₀).val := rfl
  unfold Number.refused
  rw [hval, h0]
  rcases h.number M with ⟨h₁, -⟩ | ⟨h₁, h₂⟩
  · exact absurd h₁ herr
  · rw [h₁, h₂]
    decide

end

/-! ## The version -/

section
variable {M : List UInt8}

theorem versionText_steady (e : Int) (h : ∀ x ∈ versionNumbers M, x.2.steady) :
    (versionText M e).res = (versionText M 0).res ∧
      (versionText M e).major = (versionText M 0).major ∧
      (versionText M e).minor = (versionText M 0).minor ∧
      Trails e (versionText M 0).errno (versionText M e).errno := by
  have h0 : Trails e 0 e := .inr ⟨rfl, rfl⟩
  unfold versionText
  by_cases hhttp : strncasecmpEq M (ascii "HTTP/") 5 = true
  swap
  · simp only [Bool.eq_false_iff.mpr hhttp, Bool.not_false, if_true]
    exact ⟨trivial, trivial, trivial, h0⟩
  have hmajor := h _ (mem_versionNumbers_major hhttp)
  have ha := h0.refused hmajor
  have h1 := h0.number (M.drop 5)
  have hlen : (number (M.drop 5) e).len = (number (M.drop 5) 0).len := rfl
  have hval : (number (M.drop 5) e).val = (number (M.drop 5) 0).val := rfl
  simp only [hhttp, Bool.not_true, Bool.false_eq_true, if_false, ha, hlen, hval]
  by_cases hok : (number (M.drop 5) 0).refused = true
  · simp only [if_pos hok]
    exact ⟨trivial, trivial, trivial, h1⟩
  simp only [if_neg hok]
  by_cases hdot : (M.drop (5 + (number (M.drop 5) 0).len)).head? = some 46
  swap
  · simp only [ne_eq, hdot, not_false_eq_true, if_true]
    exact ⟨trivial, trivial, trivial, h1⟩
  have hminor := h _ (mem_versionNumbers_minor hhttp rfl (Bool.eq_false_iff.mpr hok) hdot)
  have hb := h1.refused hminor
  have h2 := h1.number (M.drop (5 + (number (M.drop 5) 0).len + 1))
  simp only [ne_eq, hdot, not_true, if_false, hb]
  split <;> exact ⟨rfl, rfl, rfl, h2⟩

/-- A number of the version that is not steady makes two results of the two
readings. -/
theorem versionText_unsteady (h : ¬ ∀ x ∈ versionNumbers M, x.2.steady) :
    ∃ k, (k = 3 ∨ k = 5) ∧ (versionText M EINVAL).res = .error (.diag .httpParseMessage k) ∧
      (versionText M 0).res ≠ .error (.diag .httpParseMessage k) := by
  have h0 : Trails EINVAL 0 EINVAL := .inr ⟨rfl, rfl⟩
  unfold versionNumbers at h
  unfold versionText
  by_cases hhttp : strncasecmpEq M (ascii "HTTP/") 5 = true
  swap
  · simp only [Bool.eq_false_iff.mpr hhttp, Bool.not_false, if_true] at h
    exact absurd (fun _ hx => absurd hx List.not_mem_nil) h
  have h1 := h0.number (M.drop 5)
  have hlen : (number (M.drop 5) EINVAL).len = (number (M.drop 5) 0).len := rfl
  simp only [hhttp, Bool.not_true, Bool.false_eq_true, if_false, hlen] at h ⊢
  by_cases hmajor : (number (M.drop 5) 0).steady
  swap
  · obtain ⟨hclean, hold⟩ := h0.unsteady hmajor
    refine ⟨3, .inl rfl, ?_, ?_⟩
    · rw [if_pos hold]
    · rw [if_neg (Bool.eq_false_iff.mp hclean)]
      split
      · exact nofun
      · split <;> exact nofun
  have ha := h0.refused hmajor
  rw [ha]
  split at h
  · exact absurd (fun x hx => by rw [List.mem_singleton.mp hx]; exact hmajor) h
  rename_i hgo
  obtain ⟨hok, hdot⟩ := not_or.mp hgo
  have hminor : ¬ (number (M.drop (5 + (number (M.drop 5) 0).len + 1))
      (number (M.drop 5) 0).errno).steady := fun hminor => h fun x hx => by
    rcases List.mem_cons.mp hx with rfl | hx
    · exact hmajor
    · rw [List.mem_singleton.mp hx]
      exact hminor
  obtain ⟨hclean, hold⟩ := h1.unsteady hminor
  refine ⟨5, .inr rfl, ?_, ?_⟩
  · rw [if_neg hok, if_neg hdot, if_pos hold]
  · rw [if_neg hok, if_neg hdot, if_neg (Bool.eq_false_iff.mp hclean)]
    exact nofun

end

/-! ## The line -/

/-- No number of the line reads as 0 before one of them overflowed. -/
def FirstLine.Steady (l : FirstLine) (M : List UInt8) (n : Int) : Prop :=
  ∀ x ∈ l.numbers M n, x.2.steady

instance (l : FirstLine) (M : List UInt8) (n : Int) : Decidable (l.Steady M n) :=
  inferInstanceAs (Decidable (∀ x ∈ _, _))

section
variable {l : FirstLine} {M : List UInt8} {n : Int}

theorem FirstLine.restText_steady {e c₀ c : Int} (hc : Trails e c₀ c)
    (h : ∀ x ∈ l.restNumbers M n c₀, x.2.steady) (o : LineOut) :
    { l.restText M n { o with errno := c } with errno := 0 } =
      { l.restText M n { o with errno := c₀ } with errno := 0 } := by
  cases l with
  | request l => rfl
  | status l =>
      simp only [FirstLine.restText]
      simp only [FirstLine.restNumbers] at h
      cases hk : findnosp M (toInt n) with
      | none => rfl
      | some k =>
          rw [hk] at h
          have hstatus := h _ List.mem_cons_self
          simp only [hc.refused hstatus]
          rfl

theorem FirstLine.restText_ne {o : LineOut} {k : Nat} (h : o.res = .ok) (hk : k = 3 ∨ k = 5) :
    (l.restText M n o).res ≠ .diag .httpParseMessage k := by
  cases l with
  | request l =>
      simp only [FirstLine.restText, h]
      intro heq
      cases heq
  | status l =>
      simp only [FirstLine.restText]
      split
      · intro heq
        cases heq
        omega
      · simp only
        split
        · intro heq
          cases heq
          omega
        · intro heq
          cases heq

/-- A status that is not steady makes two results of the two readings. -/
theorem FirstLine.restText_unsteady {c₀ c : Int} (hc : Trails EINVAL c₀ c)
    (h : ¬ ∀ x ∈ l.restNumbers M n c₀, x.2.steady) :
    (∀ o : LineOut, o.errno = c → (l.restText M n o).res = .diag .httpParseMessage 7) ∧
      ∀ o : LineOut, o.errno = c₀ → (l.restText M n o).res = .ok := by
  cases l with
  | request l => exact absurd (fun _ hx => absurd hx List.not_mem_nil) h
  | status l =>
      simp only [FirstLine.restText]
      simp only [FirstLine.restNumbers] at h
      cases hk : findnosp M (toInt n) with
      | none =>
          rw [hk] at h
          exact absurd (fun _ hx => absurd hx List.not_mem_nil) h
      | some k =>
          rw [hk] at h
          have hstatus : ¬ (number (M.drop k) c₀).steady := fun hs => h fun x hx => by
            rw [List.mem_singleton.mp hx]
            exact hs
          obtain ⟨hclean, hold⟩ := hc.unsteady hstatus
          constructor
          · intro o ho
            simp only [ho, hold, if_true]
          · intro o ho
            simp only [ho, hclean, Bool.false_eq_true, if_false]

/-- **Every reading of a steady line is the clean one**, but for `errno`. -/
theorem FirstLine.text_steady (h : l.Steady M n) (e : Int) :
    { l.text M n e with errno := 0 } = { l.text M n 0 with errno := 0 } := by
  cases hv : (l.words M n).version with
  | none => rw [text_none rfl hv, text_none rfl hv]
  | some off =>
      obtain ⟨hres, hmajor, hminor, herrno⟩ := versionText_steady (M := M.drop off) e
        fun x hx => h (off + x.1, x.2) (mem_numbers_version hv hx)
      cases hr : (versionText (M.drop off) 0).res with
      | error r =>
          rw [text_error rfl hv hr, text_error rfl hv (hres.trans hr), hmajor, hminor]
      | ok k =>
          rw [text_ok rfl hv hr, text_ok rfl hv (hres.trans hr), hmajor, hminor]
          exact restText_steady herrno
            (fun x hx => h (off + k + x.1, x.2) (mem_numbers_rest hv hr hx))
            ⟨.ok, (l.words M n).code, (l.words M n).uri, (versionText (M.drop off) 0).major,
              (versionText (M.drop off) 0).minor, 0⟩

/-- **A line that is not steady has two results**, one for a clean `errno` and one
for `EINVAL`. -/
theorem FirstLine.text_unsteady (h : ¬ l.Steady M n) :
    ∃ k ≤ 7, (l.text M n EINVAL).res = .diag .httpParseMessage k ∧
      (l.text M n 0).res ≠ .diag .httpParseMessage k := by
  unfold FirstLine.Steady FirstLine.numbers at h
  cases hv : (l.words M n).version with
  | none =>
      rw [hv] at h
      exact absurd (fun _ hx => absurd hx List.not_mem_nil) h
  | some off =>
      simp only [hv] at h
      by_cases hver : ∀ x ∈ versionNumbers (M.drop off), x.2.steady
      swap
      · obtain ⟨k, hk, hold, hclean⟩ := versionText_unsteady hver
        refine ⟨k, by omega, by rw [text_error rfl hv hold], ?_⟩
        cases hr : (versionText (M.drop off) 0).res with
        | error r =>
            rw [text_error rfl hv hr]
            intro heq
            rw [hr] at hclean
            exact hclean (by rw [← heq])
        | ok j =>
            rw [text_ok rfl hv hr]
            exact restText_ne rfl hk
      · -- the version is steady, so it is the status that is not
        obtain ⟨hres, hmajor, hminor, herrno⟩ := versionText_steady EINVAL hver
        cases hr : (versionText (M.drop off) 0).res with
        | error r =>
            rw [hr] at h
            refine absurd (fun x hx => ?_) h
            obtain ⟨y, hy, rfl⟩ := List.mem_map.mp (List.append_nil _ ▸ hx)
            exact hver y hy
        | ok k =>
            rw [hr] at h
            have hstatus : ¬ ∀ x ∈ l.restNumbers (M.drop (off + k)) (n - (off + k : Nat))
                (versionText (M.drop off) 0).errno, x.2.steady := fun hs => h fun x hx => by
              rcases List.mem_append.mp hx with hx | hx
              · obtain ⟨y, hy, rfl⟩ := List.mem_map.mp hx
                exact hver y hy
              · obtain ⟨y, hy, rfl⟩ := List.mem_map.mp hx
                exact hs y hy
            rw [text_ok rfl hv hr, text_ok rfl hv (hres.trans hr)]
            obtain ⟨hold, hclean⟩ := restText_unsteady herrno hstatus
            refine ⟨7, by decide, hold _ rfl, ?_⟩
            rw [hclean _ rfl]
            intro heq
            cases heq

end

/-! ## Equal but for `errno` -/

/-- Equal but for `errno`. -/
def Parser.Like (p q : Parser) : Prop := ∃ e, q = { p with errno := e }

/-- Two answers that are equal but for `errno`. -/
def LikeRes {α : Type} (x y : α × Parser) : Prop := y.1 = x.1 ∧ x.2.Like y.2

inductive Iter.Like : Iter → Iter → Prop
  | again {p q : Parser} (like : p.Like q) : Iter.Like (.again p) (.again q)
  | ret {r : Res} {p q : Parser} (like : p.Like q) : Iter.Like (.ret r p) (.ret r q)

inductive Outcome.Like : Outcome → Outcome → Prop
  | blocked {p q : Parser} (like : p.Like q) : Outcome.Like (.blocked p) (.blocked q)
  | returned {r : Res} {p q : Parser} {rest : List Read} (like : p.Like q) :
      Outcome.Like (.returned r p rest) (.returned r q rest)

structure LoopState.Like (t u : LoopState) : Prop where
  pc : t.pc = u.pc
  par : t.par.Like u.par
  reads : t.reads = u.reads

section
variable {p q : Parser}

theorem callback_like (kind : CallKind) (cb : Option Callback) (h : p.Like q) :
    LikeRes (p.callback kind cb) (q.callback kind cb) := by
  obtain ⟨e, rfl⟩ := h
  cases cb with
  | none => exact ⟨rfl, e, rfl⟩
  | some f => exact ⟨rfl, e, rfl⟩

theorem noteErrno_like (r : Strtol) (h : p.Like q) : (p.noteErrno r).Like (q.noteErrno r) := by
  obtain ⟨e, rfl⟩ := h
  unfold Parser.noteErrno
  split
  · exact ⟨ERANGE, rfl⟩
  · exact ⟨e, rfl⟩

theorem processHeader_like (h : p.Like q) : LikeRes (processHeader p) (processHeader q) := by
  obtain ⟨e, rfl⟩ := h
  unfold processHeader
  simp only
  split
  · split
    · exact ⟨rfl, e, rfl⟩
    · obtain ⟨e', he'⟩ := noteErrno_like (q := { p with errno := e })
        (strtol (p.inp.mem p.ctx.currentHeaderValue.start) 10) ⟨e, rfl⟩
      rw [he']
      exact ⟨rfl, e', rfl⟩
  · split
    · split
      · exact ⟨rfl, e, rfl⟩
      · split <;> exact ⟨rfl, e, rfl⟩
    · exact ⟨rfl, e, rfl⟩

theorem processChunkSize_like (h : p.Like q) :
    LikeRes (processChunkSize p) (processChunkSize q) := by
  obtain ⟨e, rfl⟩ := h
  unfold processChunkSize
  simp only
  split
  · exact ⟨rfl, e, rfl⟩
  · obtain ⟨e', he'⟩ := noteErrno_like (q := { p with errno := e })
      (strtol (p.inp.mem p.ctx.currentChunk.start) 16) ⟨e, rfl⟩
    rw [he']
    split <;> exact ⟨rfl, e', rfl⟩

theorem processChunkData_like (rc : Recycler) (cb : Option Callback) (h : p.Like q) :
    LikeRes (processChunkData rc cb p) (processChunkData rc cb q) := by
  obtain ⟨h₁, e', he'⟩ := callback_like .body cb h
  obtain ⟨e, rfl⟩ := h
  unfold processChunkData
  simp only at *
  split
  · exact ⟨rfl, e, rfl⟩
  · rw [h₁, he']
    split
    · exact ⟨rfl, e', rfl⟩
    · split <;> exact ⟨rfl, e', rfl⟩

theorem processPlainBody_like (rc : Recycler) (cb : Option Callback) (h : p.Like q) :
    LikeRes (processPlainBody rc cb p) (processPlainBody rc cb q) := by
  obtain ⟨e, rfl⟩ := h
  have htaken : plainTaken { p with errno := e } = { plainTaken p with errno := e } := rfl
  obtain ⟨h₁, e', he'⟩ := callback_like .body cb (p := plainTaken p)
    (q := { plainTaken p with errno := e }) ⟨e, rfl⟩
  rw [processPlainBody_eq, processPlainBody_eq, htaken]
  simp only [h₁, he']
  split
  · exact ⟨rfl, e, rfl⟩
  · split <;> exact ⟨rfl, e', rfl⟩

theorem processBody_like (rc : Recycler) (cb : Option Callback) (h : p.Like q) :
    LikeRes (processBody rc cb p) (processBody rc cb q) := by
  have hdata := processChunkData_like rc cb h
  have hsize := processChunkSize_like h
  have hplain := processPlainBody_like rc cb h
  obtain ⟨e, rfl⟩ := h
  unfold processBody
  simp only
  split
  · split
    · exact hsize
    · exact hdata
    · exact ⟨rfl, e, rfl⟩
  · exact hplain

theorem bodyIter_like (rc : Recycler) (cb : Option Callback) (n : Nat) (h : p.Like q) :
    (bodyIter rc cb n p).Like (bodyIter rc cb n q) := by
  obtain ⟨h₁, e, he⟩ := processBody_like rc cb h
  unfold bodyIter
  generalize processBody rc cb p = x at *
  generalize processBody rc cb q = y at *
  obtain ⟨r, p'⟩ := x
  obtain ⟨r', q'⟩ := y
  simp only at h₁ he
  subst h₁ he
  cases r' with
  | needMore => exact .again ⟨e, rfl⟩
  | _ => exact .ret ⟨e, rfl⟩

theorem headerFieldOut_like (pf : Platform) (cbs : Callbacks) (h : p.Like q) :
    (headerFieldOut pf cbs p).Like (headerFieldOut pf cbs q) := by
  obtain ⟨e, rfl⟩ := h
  unfold headerFieldOut
  simp only
  split
  · exact .again ⟨e, rfl⟩
  · exact bodyIter_like _ _ _ ⟨e, rfl⟩
  · rename_i n hn
    split
    · exact .ret ⟨e, rfl⟩
    · rename_i c hc
      obtain ⟨h₁, e', he'⟩ := processHeader_like (p := headerLine pf.nullOff
        (p.ctx.currentHeaderName.start + (n + 1)) (p.ctx.currentHeaderName.start + c) p)
        (q := headerLine pf.nullOff (p.ctx.currentHeaderName.start + (n + 1))
          (p.ctx.currentHeaderName.start + c) { p with errno := e }) ⟨e, rfl⟩
      generalize processHeader (headerLine pf.nullOff
        (p.ctx.currentHeaderName.start + (n + 1)) (p.ctx.currentHeaderName.start + c) p) = x at *
      generalize processHeader (headerLine pf.nullOff (p.ctx.currentHeaderName.start + (n + 1))
          (p.ctx.currentHeaderName.start + c) { p with errno := e }) = y at *
      obtain ⟨r, p'⟩ := x
      obtain ⟨r', q'⟩ := y
      simp only at h₁ he'
      subst h₁ he'
      cases r' with
      | needMore =>
          obtain ⟨h₂, e'', he''⟩ := callback_like .header cbs.header
            (q := { p' with errno := e' }) ⟨e', rfl⟩
          simp only [h₂, he'']
          split
          · exact .ret ⟨e'', rfl⟩
          · exact .again ⟨e'', rfl⟩
      | _ => exact .ret ⟨e', rfl⟩

theorem FirstLine.parse_like_wait (l : FirstLine) (h : p.Like q)
    (hscan : p.inp.scan p.ctx.firstLine.start = none) (h0 : 0 ≤ p.ctx.firstLine.start) :
    LikeRes (l.parse p) (l.parse q) := by
  obtain ⟨e, rfl⟩ := h
  obtain ⟨st, hst⟩ := Int.eq_ofNat_of_zero_le h0
  rw [hst] at hscan
  rw [l.parse_wait hst hscan, l.parse_wait (p := { p with errno := e }) hst hscan]
  exact ⟨rfl, e, rfl⟩

theorem FirstLine.parse_like {l : FirstLine} {n : Nat} (h : p.Like q)
    (h0 : 0 ≤ p.ctx.firstLine.start) (hscan : p.inp.scan p.ctx.firstLine.start = some n)
    (hsteady : l.Steady (p.inp.mem p.ctx.firstLine.start) n) :
    LikeRes (l.parse p) (l.parse q) := by
  obtain ⟨e, rfl⟩ := h
  obtain ⟨st, hst⟩ := Int.eq_ofNat_of_zero_le h0
  rw [hst] at hscan hsteady
  rw [l.parse_text hst hscan, l.parse_text (p := { p with errno := e }) hst hscan]
  have hp := FirstLine.text_steady hsteady p.errno
  have hq := (FirstLine.text_steady hsteady e).trans hp.symm
  simp only
  generalize l.text (p.inp.mem st) n p.errno = o at *
  generalize l.text (p.inp.mem st) n e = o' at *
  simp only [LineOut.mk.injEq] at hq
  obtain ⟨hres, hcode, huri, hmajor, hminor, -⟩ := hq
  unfold LineOut.finish LineOut.write
  simp only [hres, hcode, huri, hmajor, hminor]
  refine ⟨rfl, o'.errno, ?_⟩
  split <;> rfl

/-- **The dispatch reads `errno` in the first line only.** -/
theorem dispatch_like (pf : Platform) (l : FirstLine) (cbs : Callbacks) (h : p.Like q)
    (hline : p.ctx.parserState = .line → LikeRes (l.parse p) (l.parse q)) :
    (dispatch pf l.parse cbs p).Like (dispatch pf l.parse cbs q) := by
  have hstate : q.ctx.parserState = p.ctx.parserState := by
    obtain ⟨e, rfl⟩ := h
    rfl
  unfold dispatch
  rw [hstate]
  cases hs : p.ctx.parserState with
  | start =>
      obtain ⟨e, rfl⟩ := h
      exact .again ⟨e, rfl⟩
  | line =>
      obtain ⟨h₁, e, he⟩ := hline hs
      generalize l.parse p = x at *
      generalize l.parse q = y at *
      obtain ⟨r, p'⟩ := x
      obtain ⟨r', q'⟩ := y
      simp only at h₁ he
      subst h₁ he
      cases r' with
      | needMore => exact .again ⟨e, rfl⟩
      | ok =>
          obtain ⟨h₂, e', he'⟩ := callback_like .line cbs.line
            (q := { p' with errno := e }) ⟨e, rfl⟩
          simp only [h₂, he']
          split
          · exact .ret ⟨e', rfl⟩
          · exact .again ⟨e', rfl⟩
      | _ => exact .ret ⟨e, rfl⟩
  | headerFieldIn =>
      obtain ⟨e, rfl⟩ := h
      exact .again ⟨e, rfl⟩
  | headerFieldOut => exact headerFieldOut_like pf cbs h
  | bodyIn => exact bodyIter_like _ _ _ h
  | body => exact bodyIter_like _ _ _ h

end

/-! ## The memory the first line is parsed in -/

/-- The memory from `st` on and the length of the line that starts there, when
the end of the line is found; the reads come in while it is not. -/
def lineMemory (st : Int) (s : Stream) : List Read → Option (List UInt8 × Nat)
  | [] => (s.scan st).map fun n => (s.mem st, n)
  | .fail _ :: _ => (s.scan st).map fun n => (s.mem st, n)
  | .bytes bs slack :: reads =>
      match s.scan st with
      | some n => some (s.mem st, n)
      | none => lineMemory st (s.consume bs slack) reads

section
variable {st : Int} {s : Stream}

theorem lineMemory_found {n : Nat} (h : s.scan st = some n) (reads : List Read) :
    lineMemory st s reads = some (s.mem st, n) := by
  match reads with
  | [] => simp only [lineMemory, h, Option.map_some]
  | .fail _ :: _ => simp only [lineMemory, h, Option.map_some]
  | .bytes _ _ :: _ => simp only [lineMemory, h]

theorem lineMemory_wait (h : s.scan st = none) (bs slack : List UInt8) (reads : List Read) :
    lineMemory st s (.bytes bs slack :: reads) = lineMemory st (s.consume bs slack) reads := by
  simp only [lineMemory, h]

theorem lineMemory_advance (k : Int) (reads : List Read) :
    lineMemory st (s.advance k) reads = lineMemory st s reads := by
  have hscan : ∀ s : Stream, (s.advance k).scan st = s.scan st := fun _ => rfl
  induction reads generalizing s with
  | nil => rfl
  | cons r reads ih =>
      cases r with
      | fail _ => rfl
      | bytes bs slack =>
          have hconsume : (s.advance k).consume bs slack = (s.consume bs slack).advance k := rfl
          simp only [lineMemory, hscan, Stream.mem_advance, hconsume, ih]

theorem scan_none_of_le (h : s.eod ≤ st) (hle : st ≤ s.eod + 2) : s.scan st = none := by
  have hwin : toInt (s.eod - st) = s.eod - st := toInt_of_le (by omega) (by unfold intMax; omega)
  have hzero : (s.eod - st).toNat = 0 := by omega
  unfold Stream.scan findcrlf
  rw [hwin, hzero, List.take_zero]
  rfl

end

/-! ## Two runs -/

/-- Where the first line starts. -/
def Parser.lineAt (p : Parser) : Int :=
  if p.ctx.parserState = .start then p.inp.pos else p.ctx.firstLine.start

/-- While the first line is not parsed: where the run stands, and that the line
will be steady. -/
structure AwaitsLine (l : FirstLine) (t : LoopState) : Prop where
  lo : 0 ≤ t.par.lineAt
  hi : t.par.ctx.parserState = .start → t.par.inp.pos ≤ t.par.inp.eod + 2
  wait : t.pc = .top → t.par.inp.eod ≤ t.par.inp.pos → t.par.inp.scan t.par.lineAt = none
  steady : ∀ M n, lineMemory t.par.lineAt t.par.inp t.reads = some (M, n) → l.Steady M n

/-- The first line has not been parsed. -/
def Ctx.early (c : Ctx) : Prop := c.parserState = .start ∨ c.parserState = .line

section
variable {pf : Platform} {l : FirstLine} {cbs : Callbacks} {p q : Parser} {reads : List Read}

theorem AwaitsLine.read {bs slack : List UInt8}
    (h : AwaitsLine l ⟨.top, p, .bytes bs slack :: reads⟩) (hmore : p.inp.eod ≤ p.inp.pos) :
    AwaitsLine l ⟨.dispatch, { p with inp := p.inp.consume bs slack }, reads⟩ := by
  have hnone := h.wait rfl hmore
  refine ⟨h.lo, fun hs => ?_, nofun, fun M n hM => h.steady M n ?_⟩
  · have := h.hi hs
    simp only at this
    simp only [Stream.pos_consume, Stream.eod_consume]
    omega
  · rw [lineMemory_wait hnone]
    exact hM

theorem AwaitsLine.pass (h : AwaitsLine l ⟨.dispatch, p, reads⟩) (hpass : Pass p q)
    (hq : q.ctx.early) : AwaitsLine l ⟨.top, q, reads⟩ := by
  have hlate : q.ctx.parserState = .headerFieldIn ∨ q.ctx.parserState = .headerFieldOut ∨
      q.ctx.parserState = .body → False := by
    unfold Ctx.early at hq
    rintro (hs | hs | hs) <;> rw [hs] at hq <;> rcases hq with hq | hq <;> cases hq
  cases hpass with
  | start state eq =>
      subst eq
      have hat : p.lineAt = p.inp.pos := if_pos state
      have hlo : 0 ≤ p.lineAt := h.lo
      have hsteady : ∀ M n, lineMemory p.lineAt p.inp reads = some (M, n) → l.Steady M n := h.steady
      rw [hat] at hlo hsteady
      exact ⟨hlo, nofun, fun _ hmore => scan_none_of_le hmore (h.hi state), hsteady⟩
  | lineWait state none eq =>
      subst eq
      have hat : p.lineAt = p.ctx.firstLine.start := if_neg (by rw [state]; exact nofun)
      have hat' : p.toEod.lineAt = p.lineAt := by
        rw [hat]
        exact if_neg (by show ¬ p.ctx.parserState = _; rw [state]; exact nofun)
      refine ⟨hat' ▸ h.lo, fun hs => ?_, fun _ _ => ?_, fun M n hM => h.steady M n ?_⟩
      · cases state.symm.trans hs
      · rw [hat', hat]
        exact none
      · rw [hat'] at hM
        exact (lineMemory_advance _ _).symm.trans hM
  | line _ _ _ state' => exact (hlate (.inl state')).elim
  | fieldIn _ eq => exact (hlate (.inr (.inl (by rw [eq])))).elim
  | fieldWait state _ eq => exact (hlate (.inr (.inl (by rw [eq]; exact state)))).elim
  | header _ _ _ state' => exact (hlate (.inl state')).elim
  | blank _ _ state' => exact (hlate (.inr (.inr state'))).elim
  | bodyIn _ state' => exact (hlate (.inr (.inr state'))).elim
  | body _ state' => exact (hlate (.inr (.inr state'))).elim

theorem Pass.late (h : Pass p q) (hp : ¬ p.ctx.early) : ¬ q.ctx.early := by
  have hlate : ∀ {s : ParserState}, q.ctx.parserState = s → s ≠ .start → s ≠ .line →
      ¬ q.ctx.early := by
    rintro s hs h₁ h₂ (h | h)
    · exact h₁ (hs.symm.trans h)
    · exact h₂ (hs.symm.trans h)
  cases h with
  | start state => exact absurd (.inl state) hp
  | lineWait state => exact absurd (.inr state) hp
  | line _ state => exact absurd (.inr state) hp
  | fieldIn _ eq => exact hlate (s := .headerFieldOut) (by rw [eq]) nofun nofun
  | fieldWait state _ eq =>
      exact hlate (s := .headerFieldOut) (by rw [eq]; exact state) nofun nofun
  | header _ _ _ state' => exact hlate state' nofun nofun
  | blank _ _ state' => exact hlate state' nofun nofun
  | bodyIn _ state' => exact hlate state' nofun nofun
  | body _ state' => exact hlate state' nofun nofun

/-- The two runs stand alike, with a steady line to come if it is still to come. -/
structure Alike (l : FirstLine) (t u : LoopState) : Prop where
  like : t.Like u
  early : t.par.ctx.early → AwaitsLine l t

theorem Alike.dispatch {u : LoopState} (h : Alike l ⟨.dispatch, p, reads⟩ u) :
    (MnHttp.dispatch pf l.parse cbs p).Like (MnHttp.dispatch pf l.parse cbs u.par) := by
  refine dispatch_like pf l cbs h.like.par fun hs => ?_
  have hat : p.lineAt = p.ctx.firstLine.start := if_neg (by rw [hs]; exact nofun)
  have haw := h.early (.inr hs)
  have hlo : 0 ≤ p.lineAt := haw.lo
  have hsteady : ∀ M n, lineMemory p.lineAt p.inp reads = some (M, n) → l.Steady M n := haw.steady
  rw [hat] at hlo hsteady
  cases hscan : p.inp.scan p.ctx.firstLine.start with
  | none => exact l.parse_like_wait h.like.par hscan hlo
  | some n =>
      exact FirstLine.parse_like h.like.par hlo hscan (hsteady _ _ (lineMemory_found hscan _))

theorem Alike.again {t u t' : LoopState} (h : Alike l t u)
    (hs : loopStep pf l.parse cbs t = .again t') :
    ∃ u', loopStep pf l.parse cbs u = .again u' ∧ Alike l t' u' := by
  obtain ⟨pc, q, rest⟩ := u
  cases loopStep_again_iff.mp hs with
  | @read p bs slack reads more =>
      obtain ⟨rfl, ⟨e, rfl⟩, rfl⟩ := h.like
      exact ⟨_, loopStep_again_iff.mpr (.read more), ⟨rfl, ⟨e, rfl⟩, rfl⟩,
        fun hearly => (h.early hearly).read more⟩
  | @look p reads lt =>
      obtain ⟨rfl, ⟨e, rfl⟩, rfl⟩ := h.like
      exact ⟨_, loopStep_again_iff.mpr (.look lt), ⟨rfl, ⟨e, rfl⟩, rfl⟩,
        fun hearly => ⟨(h.early hearly).lo, (h.early hearly).hi, nofun, (h.early hearly).steady⟩⟩
  | @pass p p' reads hagain =>
      have hd : (MnHttp.dispatch pf l.parse cbs p).Like (MnHttp.dispatch pf l.parse cbs q) :=
        h.dispatch
      obtain ⟨rfl, -, rfl⟩ := h.like
      rw [hagain] at hd
      generalize hq : MnHttp.dispatch pf l.parse cbs q = x at hd
      cases hd with
      | again like =>
          refine ⟨_, loopStep_again_iff.mpr (.pass hq), ⟨rfl, like, rfl⟩, fun hearly => ?_⟩
          by_cases hp : p.ctx.early
          · exact (h.early hp).pass (dispatch_again hagain) hearly
          · exact absurd hearly ((dispatch_again hagain).late hp)

theorem Alike.done {t u : LoopState} {out : Outcome} (h : Alike l t u)
    (hs : loopStep pf l.parse cbs t = .done out) :
    ∃ out', loopStep pf l.parse cbs u = .done out' ∧ out.Like out' := by
  obtain ⟨pc, q, rest⟩ := u
  cases loopStep_done_iff.mp hs with
  | @blocked p more =>
      obtain ⟨rfl, ⟨e, rfl⟩, rfl⟩ := h.like
      exact ⟨_, loopStep_done_iff.mpr (.blocked more), .blocked ⟨e, rfl⟩⟩
  | @fail p lres reads more =>
      obtain ⟨rfl, ⟨e, rfl⟩, rfl⟩ := h.like
      exact ⟨_, loopStep_done_iff.mpr (.fail more), .returned ⟨e, rfl⟩⟩
  | @ret p p' r reads hret =>
      have hd : (MnHttp.dispatch pf l.parse cbs p).Like (MnHttp.dispatch pf l.parse cbs q) :=
        h.dispatch
      obtain ⟨rfl, -, rfl⟩ := h.like
      rw [hret] at hd
      generalize hq : MnHttp.dispatch pf l.parse cbs q = x at hd
      cases hd with
      | ret like => exact ⟨_, loopStep_done_iff.mpr (.ret hq), .returned like⟩

/-! ### The run comes to the line -/

/-- The first line is parsed here: its end is found in the memory `M`. -/
structure AtLine (M : List UInt8) (n : Nat) (errno : Int) (p : Parser) : Prop where
  state : p.ctx.parserState = .line
  start : 0 ≤ p.ctx.firstLine.start
  mem : p.inp.mem p.ctx.firstLine.start = M
  scan : p.inp.scan p.ctx.firstLine.start = some n
  errno : p.errno = errno

theorem dispatch_lineWait (hs : p.ctx.parserState = .line) (h0 : 0 ≤ p.ctx.firstLine.start)
    (hscan : p.inp.scan p.ctx.firstLine.start = none) :
    dispatch pf l.parse cbs p = .again p.toEod := by
  obtain ⟨st, hst⟩ := Int.eq_ofNat_of_zero_le h0
  rw [hst] at hscan
  unfold dispatch
  simp only [hs, l.parse_wait hst hscan]

theorem reaches_line {M : List UInt8} {n : Nat} (hs : p.ctx.parserState = .line)
    (h0 : 0 ≤ p.ctx.firstLine.start)
    (hM : lineMemory p.ctx.firstLine.start p.inp reads = some (M, n)) :
    ∃ q rest, Reaches (loopStep pf l.parse cbs) ⟨.dispatch, p, reads⟩ ⟨.dispatch, q, rest⟩ ∧
      AtLine M n p.errno q := by
  induction reads generalizing p with
  | nil =>
      obtain ⟨n', hn', heq⟩ := Option.map_eq_some_iff.mp hM
      cases heq
      exact ⟨p, [], .refl _, hs, h0, rfl, hn', rfl⟩
  | cons r reads ih =>
      cases hscan : p.inp.scan p.ctx.firstLine.start with
      | some n' =>
          rw [lineMemory_found hscan] at hM
          cases hM
          exact ⟨p, _, .refl _, hs, h0, rfl, hscan, rfl⟩
      | none =>
          cases r with
          | fail lres =>
              simp only [lineMemory, hscan] at hM
              cases hM
          | bytes bs slack =>
              rw [lineMemory_wait hscan] at hM
              have hmore : p.toEod.inp.eod ≤ p.toEod.inp.pos := by
                show p.inp.eod ≤ p.inp.pos + (p.inp.eod - p.inp.pos)
                omega
              obtain ⟨q, rest, hreach, hq⟩ :=
                ih (p := { p.toEod with inp := p.toEod.inp.consume bs slack }) hs h0
                  ((lineMemory_advance _ _).trans hM)
              exact ⟨q, rest, .head (loopStep_again_iff.mpr (.pass (dispatch_lineWait hs h0 hscan)))
                (.head (loopStep_again_iff.mpr (.read hmore)) hreach), hq⟩

theorem reaches_line_top {M : List UInt8} {n : Nat} (hs : p.ctx.parserState = .line)
    (h0 : 0 ≤ p.ctx.firstLine.start)
    (hwait : p.inp.eod ≤ p.inp.pos → p.inp.scan p.ctx.firstLine.start = none)
    (hM : lineMemory p.ctx.firstLine.start p.inp reads = some (M, n)) :
    ∃ q rest, Reaches (loopStep pf l.parse cbs) ⟨.top, p, reads⟩ ⟨.dispatch, q, rest⟩ ∧
      AtLine M n p.errno q := by
  by_cases hmore : p.inp.eod ≤ p.inp.pos
  · have hscan := hwait hmore
    match reads, hM with
    | [], hM =>
        simp only [lineMemory, hscan] at hM
        cases hM
    | .fail lres :: _, hM =>
        simp only [lineMemory, hscan] at hM
        cases hM
    | .bytes bs slack :: reads, hM =>
        rw [lineMemory_wait hscan] at hM
        obtain ⟨q, rest, hreach, hq⟩ :=
          reaches_line (p := { p with inp := p.inp.consume bs slack }) hs h0 hM
        exact ⟨q, rest, .head (loopStep_again_iff.mpr (.read hmore)) hreach, hq⟩
  · obtain ⟨q, rest, hreach, hq⟩ := reaches_line hs h0 hM
    exact ⟨q, rest, .head (loopStep_again_iff.mpr (.look (Int.not_le.mp hmore))) hreach, hq⟩

/-- **A run whose first line gets complete comes to its parse.** -/
theorem init_reaches_line {s : Stream} {M : List UInt8} {n : Nat} (errno : Int) (h0 : 0 ≤ s.pos)
    (hle : s.pos ≤ s.eod + 2) (hM : lineMemory s.pos s reads = some (M, n)) :
    ∃ q rest, Reaches (loopStep pf l.parse cbs) ⟨.top, .init s errno, reads⟩ ⟨.dispatch, q, rest⟩ ∧
      AtLine M n errno q := by
  have hstart : ∀ s' : Stream, dispatch pf l.parse cbs (.init s' errno) = .again
      { Parser.init s' errno with ctx := { httpCtxInit with
        firstLine := ⟨s'.pos, 0⟩, parserState := .line } } := fun _ => rfl
  by_cases hmore : s.eod ≤ s.pos
  · have hscan := scan_none_of_le hmore hle
    match reads, hM with
    | [], hM =>
        simp only [lineMemory, hscan] at hM
        cases hM
    | .fail lres :: _, hM =>
        simp only [lineMemory, hscan] at hM
        cases hM
    | .bytes bs slack :: reads, hM =>
        rw [lineMemory_wait hscan] at hM
        obtain ⟨q, rest, hreach, hq⟩ :=
          reaches_line_top (p := { Parser.init (s.consume bs slack) errno with
            ctx := { httpCtxInit with firstLine := ⟨s.pos, 0⟩, parserState := .line } }) rfl h0
            (fun hmore => scan_none_of_le hmore (by
              show s.pos ≤ (s.consume bs slack).eod + 2
              rw [Stream.eod_consume]
              omega)) hM
        exact ⟨q, rest, .head (loopStep_again_iff.mpr (.read hmore))
          (.head (loopStep_again_iff.mpr (.pass (hstart _))) hreach), hq⟩
  · obtain ⟨q, rest, hreach, hq⟩ :=
      reaches_line_top (p := { Parser.init s errno with ctx := { httpCtxInit with
        firstLine := ⟨s.pos, 0⟩, parserState := .line } }) rfl h0
        (fun hmore' => absurd hmore' hmore) hM
    exact ⟨q, rest, .head (loopStep_again_iff.mpr (.look (Int.not_le.mp hmore)))
      (.head (loopStep_again_iff.mpr (.pass (hstart _))) hreach), hq⟩

/-! ### What an unsteady line does -/

theorem bodyIter_ret_res {rc : Recycler} {cb : Option Callback} {n : Nat} {r : Res}
    (h : bodyIter rc cb n p = .ret r q) : r = .ok ∨ r = .diag .httpParseMessage n := by
  unfold bodyIter at h
  split at h
  · cases h
  · cases h
    exact .inl rfl
  · cases h
    exact .inr rfl

theorem processHeader_res (p : Parser) :
    (processHeader p).1 = .needMore ∨ (processHeader p).1 = .crash := by
  unfold processHeader
  simp only
  split
  · split
    · exact .inr rfl
    · exact .inl rfl
  · split
    · split
      · exact .inr rfl
      · split <;> exact .inl rfl
    · exact .inl rfl

/-- The results of the first line are not results of what follows. -/
theorem dispatch_late_ret {r : Res} {k : Nat} (hk : k ≤ 7) (hp : ¬ p.ctx.early)
    (h : dispatch pf l.parse cbs p = .ret r q) : r ≠ .diag .httpParseMessage k := by
  have hbody : ∀ {n : Nat} {p' : Parser}, 8 ≤ n →
      bodyIter pf.recycler cbs.body n p' = .ret r q → r ≠ .diag .httpParseMessage k := by
    rintro n p' hn hret rfl
    rcases bodyIter_ret_res hret with h | h
    · cases h
    · cases h
      omega
  unfold dispatch at h
  cases hs : p.ctx.parserState with
  | start => exact absurd (.inl hs) hp
  | line => exact absurd (.inr hs) hp
  | headerFieldIn =>
      rw [hs] at h
      cases h
  | headerFieldOut =>
      rw [hs] at h
      simp only [headerFieldOut] at h
      split at h
      · cases h
      · exact hbody (by decide) h
      · split at h
        · rintro rfl
          cases h
          omega
        · split at h
          · split at h
            · rintro rfl
              cases h
              omega
            · cases h
          · rename_i e p' hne heq
            rintro rfl
            cases h
            have hres := congrArg Prod.fst heq
            rcases processHeader_res (headerLine pf.nullOff _ _ p) with h' | h'
            · cases h'.symm.trans hres
            · cases h'.symm.trans hres
  | bodyIn =>
      rw [hs] at h
      exact hbody (by decide) h
  | body =>
      rw [hs] at h
      exact hbody (by decide) h

theorem late_returns {t : LoopState} {r : Res} {k : Nat} {rest : List Read} (hk : k ≤ 7)
    (ht : ¬ t.par.ctx.early) (h : Returns (loopStep pf l.parse cbs) t (.returned r q rest)) :
    r ≠ .diag .httpParseMessage k := by
  obtain ⟨u, hu, hdone⟩ := h.invariant (I := fun t => ¬ t.par.ctx.early)
    (fun t u ht hs => by
      cases loopStep_again_iff.mp hs with
      | read => exact ht
      | look => exact ht
      | pass hagain => exact (dispatch_again hagain).late ht) ht
  cases loopStep_done_iff.mp hdone with
  | fail more =>
      split <;> exact nofun
  | ret hret => exact dispatch_late_ret hk hu hret

theorem AtLine.parse {M : List UInt8} {n : Nat} {e : Int} (h : AtLine M n e p) :
    (l.parse p).1 = (l.text M n e).res := by
  obtain ⟨st, hst⟩ := Int.eq_ofNat_of_zero_le h.start
  have hmem := h.mem
  have hscan := h.scan
  rw [hst] at hmem hscan
  rw [l.parse_text hst hscan, hmem, h.errno]
  rfl

/-- The parse of the line returns what is an error of the line only if the line
says so. -/
theorem AtLine.returns {M : List UInt8} {n k : Nat} {e : Int} {u : Parser}
    {rest rest' : List Read} (h : AtLine M n e p) (hk : k ≤ 7)
    (hret : Returns (loopStep pf l.parse cbs) ⟨.dispatch, p, rest⟩
      (.returned (.diag .httpParseMessage k) u rest')) :
    (l.text M n e).res = .diag .httpParseMessage k := by
  cases hd : dispatch pf l.parse cbs p with
  | again q =>
      have hlate : ¬ q.ctx.early := by
        cases dispatch_again hd with
        | line _ _ _ state' =>
            rintro (hs | hs) <;> cases state'.symm.trans hs
        | lineWait _ none => cases none.symm.trans h.scan
        | start state => cases state.symm.trans h.state
        | fieldIn state => cases state.symm.trans h.state
        | fieldWait state => cases state.symm.trans h.state
        | header _ state => cases state.symm.trans h.state
        | blank state => cases state.symm.trans h.state
        | bodyIn state => cases state.symm.trans h.state
        | body state => cases state.symm.trans h.state
      have hret' := (Reaches.single (loopStep_again_iff.mpr (.pass hd))).returns_iff.mp hret
      exact absurd rfl (late_returns (t := ⟨.top, q, rest⟩) hk hlate hret')
  | ret r q =>
      have hdone : loopStep pf l.parse cbs ⟨.dispatch, p, rest⟩ = .done (.returned r q rest) :=
        loopStep_done_iff.mpr (.ret hd)
      cases Returns.unique hret (.of_done hdone)
      rw [← h.parse]
      unfold dispatch at hd
      rw [h.state] at hd
      simp only at hd
      split at hd
      · cases hd
      · split at hd
        · cases hd
          omega
        · cases hd
      · rename_i heq
        cases hd
        rw [heq]

end

/-- **The parse does not depend on `errno`**: whatever it was at entry, the run
passes through the same states and stops alike. -/
def ErrnoBlind (pf : Platform) (l : FirstLine) (cbs : Callbacks) (s : Stream)
    (reads : List Read) : Prop :=
  ∀ e e' : Int,
    (∀ out, Returns (loopStep pf l.parse cbs) ⟨.top, .init s e, reads⟩ out →
      ∃ out', Returns (loopStep pf l.parse cbs) ⟨.top, .init s e', reads⟩ out' ∧ out.Like out') ∧
    ∀ t, Reaches (loopStep pf l.parse cbs) ⟨.top, .init s e, reads⟩ t →
      ∃ u, Reaches (loopStep pf l.parse cbs) ⟨.top, .init s e', reads⟩ u ∧ t.Like u

section
variable {pf : Platform} {l : FirstLine} {cbs : Callbacks} {s : Stream} {reads : List Read}

theorem alike_init (e e' : Int) (h0 : 0 ≤ s.pos) (hle : s.pos ≤ s.eod + 2)
    (h : ∀ M n, lineMemory s.pos s reads = some (M, n) → l.Steady M n) :
    Alike l ⟨.top, .init s e, reads⟩ ⟨.top, .init s e', reads⟩ :=
  ⟨⟨rfl, ⟨e', rfl⟩, rfl⟩, fun _ => ⟨h0, fun _ => hle, fun _ hmore => scan_none_of_le hmore hle, h⟩⟩

end

/-- **The parse does not depend on `errno` if and only if no number of the first
line reads as 0 before one of them overflowed.**  Of every stream, cut in any
way: the line is what the memory holds when its end is found. -/
theorem errno_blind_iff (pf : Platform) (l : FirstLine) (cbs : Callbacks) (s : Stream)
    (reads : List Read) (h0 : 0 ≤ s.pos) (hle : s.pos ≤ s.eod + 2) :
    ErrnoBlind pf l cbs s reads ↔
      ∀ M n, lineMemory s.pos s reads = some (M, n) → l.Steady M n := by
  constructor
  · intro hblind M n hM
    by_contra hsteady
    obtain ⟨k, hk, hold, hclean⟩ := FirstLine.text_unsteady hsteady
    have hline : ∀ e, ∃ q rest, Reaches (loopStep pf l.parse cbs) ⟨.top, .init s e, reads⟩
        ⟨.dispatch, q, rest⟩ ∧ AtLine M n e q := fun e => init_reaches_line e h0 hle hM
    obtain ⟨p, rest, hreach, hp⟩ := hline EINVAL
    obtain ⟨q, rest', hreach', hq⟩ := hline 0
    have hret : ∃ p', dispatch pf l.parse cbs p = .ret (.diag .httpParseMessage k) p' := by
      unfold dispatch
      rw [hp.state]
      have hres := hp.parse (l := l)
      rw [hold] at hres
      generalize l.parse p = x at *
      obtain ⟨r, p'⟩ := x
      cases hres
      exact ⟨p', rfl⟩
    obtain ⟨p', hret⟩ := hret
    have hreturns := hreach.returns (.of_done (loopStep_done_iff.mpr (.ret hret)))
    obtain ⟨out', hout', hlike⟩ := (hblind EINVAL 0).1 _ hreturns
    cases hlike with
    | returned _ => exact hclean (hq.returns hk (hreach'.returns_iff.mp hout'))
  · intro hsteady e e'
    have halike := alike_init e e' h0 hle hsteady
    refine ⟨fun out hout => ?_, fun t ht => ?_⟩
    · exact hout.simulate (fun t u t' h hs => h.again hs) (fun t u out h hs => h.done hs) halike
    · obtain ⟨u, hu, hlike⟩ := ht.simulate (fun t u t' h hs => Alike.again h hs) halike
      exact ⟨u, hu, hlike.like⟩

theorem errno_blind_ok :
    ErrnoBlind .keeping (.status .ok) .accepting ⟨[], [], 0⟩
      [.bytes (ascii "HTTP/1.1 200 OK\r\nContent-Length: 0\r\n\r\n") []] := by
  refine (errno_blind_iff _ _ _ _ _ (by decide) (by decide)).mpr fun M n hM => ?_
  have hmem : lineMemory 0 ⟨[], [], 0⟩
      [.bytes (ascii "HTTP/1.1 200 OK\r\nContent-Length: 0\r\n\r\n") []] =
      some (ascii "HTTP/1.1 200 OK\r\nContent-Length: 0\r\n\r\n", 15) := by decide +kernel
  cases hmem.symm.trans hM
  decide +kernel

theorem returned_of_run (parseLine : Parser → Res × Parser) (fuel : Nat) (t : LoopState) {r : Res}
    {z : Int} (h : (Loop.run (loopStep .keeping parseLine .accepting) fuel t).bind Outcome.bodysz =
      some (r, z)) :
    ∃ q rest, Returns (loopStep .keeping parseLine .accepting) t (.returned r q rest) := by
  obtain ⟨out, hout, hobs⟩ := Option.bind_eq_some_iff.mp h
  cases out with
  | blocked _ => cases hobs
  | returned r' q rest =>
      cases hobs
      exact ⟨q, rest, fuel, hout⟩

/-- **An HTTP/1.0 response is refused when `errno` was `EINVAL`**, and accepted
when it was 0. -/
theorem http10_refused :
    (∃ q rest, Returns (loopStep .keeping parseStatusLine .accepting)
      ⟨.top, .init ⟨[], [], 0⟩ 0,
        [.bytes (ascii "HTTP/1.0 200 OK\r\nContent-Length: 0\r\n\r\n") []]⟩
      (.returned .ok q rest)) ∧
    (∃ q rest, Returns (loopStep .keeping parseStatusLine .accepting)
      ⟨.top, .init ⟨[], [], 0⟩ EINVAL,
        [.bytes (ascii "HTTP/1.0 200 OK\r\nContent-Length: 0\r\n\r\n") []]⟩
      (.returned (.diag .httpParseMessage 5) q rest)) ∧
    ¬ ErrnoBlind .keeping (.status .ok) .accepting ⟨[], [], 0⟩
      [.bytes (ascii "HTTP/1.0 200 OK\r\nContent-Length: 0\r\n\r\n") []] := by
  obtain ⟨q, rest, hclean⟩ := returned_of_run parseStatusLine 20
    ⟨.top, .init ⟨[], [], 0⟩ 0,
      [.bytes (ascii "HTTP/1.0 200 OK\r\nContent-Length: 0\r\n\r\n") []]⟩ (r := .ok) (z := 0)
    (by decide +kernel)
  obtain ⟨q', rest', hold⟩ := returned_of_run parseStatusLine 20
    ⟨.top, .init ⟨[], [], 0⟩ EINVAL,
      [.bytes (ascii "HTTP/1.0 200 OK\r\nContent-Length: 0\r\n\r\n") []]⟩
    (r := .diag .httpParseMessage 5) (z := -1) (by decide +kernel)
  refine ⟨⟨q, rest, hclean⟩, ⟨q', rest', hold⟩, fun hblind => ?_⟩
  obtain ⟨out, hout, hlike⟩ := (hblind 0 EINVAL).1 _ hclean
  cases hlike with
  | returned _ => cases Returns.unique hout hold

end MnHttp
