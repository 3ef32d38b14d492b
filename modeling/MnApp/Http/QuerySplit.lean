/-
# `MnApp.Http.QuerySplit` — how a query string is split

`MNHTTP_PARSE_KVP_BODY` is one loop over the bytes of a `mnbytes_t`, its NUL
among them, with a search for the inner delimiter at each outer one and once
more behind the loop.  Here it is kept with its indices, and every byte it
looks at and every range it copies is checked: `none` is a read outside of the
bytes.

    for (i0 = i1 = 0; i1 < BSZ; ++i1)      `loop`
      if (ss[i1] == rdelim)
        FIND_PAIR(i0, i1), i0 = i1 + 1     `findPair`, and in it the search
    --i1, FIND_PAIR(i0, i1)                `findFdelim` and the two copies

What it computes has no index in it (`pairs`): the text is split at every
`rdelim`, pieces without a key are dropped, and the others are cut at their
first `fdelim`.  `kvp_complete` says so for both functions made from the macro,
for any hash and any decoder.
-/
import MnApp.Lib.CLib
import MnApp.Lib.Cut

namespace MnHttp

open CLib

def AMP : UInt8 := 38
def EQUALS : UInt8 := 61

/-- `BSZ` of a text. -/
def BSZ (b : List UInt8) : Nat := b.length + 1

/-- `BDATA` of a text. -/
def BDATA (b : List UInt8) : List UInt8 := b ++ [NUL]

end MnHttp

namespace MnHttp.Kvp

open CLib

/-! ## The macro -/

section
variable {σ : Type} (setItem : σ → List UInt8 → List UInt8 → σ)
  (keydecode valdecode : List UInt8 → List UInt8) (fdelim rdelim : UInt8) (ss : List UInt8)

/-- `for (j = i0; j < i1; ++j)`, with `n` iterations to go. -/
def findFdelim : Nat → Nat → Option Nat
  | 0, j => some j
  | n + 1, j => do
      let cc ← ss[j]?
      if cc = fdelim then some j else findFdelim n (j + 1)

/-- `bytes_new_from_str_len(ss + start, n)`. -/
def copy (start n : Nat) : Option (List UInt8) :=
  if start + n ≤ ss.length then some ((ss.drop start).take n) else none

/-- The value, from `j` on; if that is behind the piece, an empty one. -/
def valueFrom (j i1 : Nat) : Option (List UInt8) :=
  if i1 ≥ j then copy ss j (i1 - j) else some []

/-- `MNHTTP_PARSE_QTERMS_FIND_PAIR`. -/
def findPair (i0 i1 : Nat) (hash : σ) : Option σ := do
  let j ← findFdelim fdelim ss (i1 - i0) i0
  if j > i0 then do
    let key ← copy ss i0 (j - i0)
    let value ← valueFrom ss (j + 1) i1
    some (setItem hash (keydecode key) (valdecode value))
  else some hash

/-- The loop over `i1`, with `n` iterations to go; it leaves `i0`, `i1` and the
hash. -/
def loop : Nat → Nat → Nat → σ → Option (Nat × Nat × σ)
  | 0, i0, i1, hash => some (i0, i1, hash)
  | n + 1, i0, i1, hash => do
      let c ← ss[i1]?
      if c = rdelim then do
        let hash ← findPair setItem keydecode valdecode fdelim ss i0 i1 hash
        loop n (i1 + 1) (i1 + 1) hash
      else loop n i0 (i1 + 1) hash

/-- The pair behind the loop; with no byte at all `--i1` would wrap around. -/
def last (i0 i1 : Nat) (hash : σ) : Option σ :=
  if i1 = 0 then none else findPair setItem keydecode valdecode fdelim ss i0 (i1 - 1) hash

/-- `MNHTTP_PARSE_KVP_BODY`; the result is what it returns and the hash. -/
def body (hash : σ) : Option (Int × σ) := do
  let (i0, i1, hash) ← loop setItem keydecode valdecode fdelim rdelim ss ss.length 0 0 hash
  let hash ← last setItem keydecode valdecode fdelim ss i0 i1 hash
  some (0, hash)

/-- `mnhttp_parse_qterms`, given `bytes_urldecode`. -/
def mnhttpParseQterms (bytesUrldecode : List UInt8 → List UInt8) (hash : σ) : Option (Int × σ) :=
  body setItem bytesUrldecode bytesUrldecode fdelim rdelim ss hash

/-- `mnhttp_parse_kvpbd`, given `bytes_brushdown`. -/
def mnhttpParseKvpbd (bytesBrushdown : List UInt8 → List UInt8) (hash : σ) : Option (Int × σ) :=
  body setItem bytesBrushdown bytesBrushdown fdelim rdelim ss hash

end

/-! ## What it is for -/

/-- The key and the value of a piece; without a key it is dropped. -/
def pairOf (fdelim : UInt8) (seg : List UInt8) : Option (List UInt8 × List UInt8) :=
  if seg = [] ∨ seg.head? = some fdelim then none
  else some (Cut.before fdelim seg, (Cut.behind fdelim seg).getD [])

/-- The pairs of a text. -/
def pairs (fdelim rdelim : UInt8) (s : List UInt8) : List (List UInt8 × List UInt8) :=
  (s.splitOn rdelim).filterMap (pairOf fdelim)

example : pairs EQUALS AMP (ascii "a=1&&=2&b&c=d=e") =
    [(ascii "a", ascii "1"), (ascii "b", []), (ascii "c", ascii "d=e")] := by decide

section
variable {fdelim rdelim : UInt8} {seg : List UInt8}

theorem pairOf_absent (h : fdelim ∉ seg) (hne : seg ≠ []) :
    pairOf fdelim seg = some (seg, []) := by
  have hhead : ¬ (seg = [] ∨ seg.head? = some fdelim) := by
    rintro (h0 | h0)
    · exact hne h0
    · exact h (List.mem_of_mem_head? h0)
  rw [pairOf, if_neg hhead, Cut.before_of_not_mem h, Cut.behind_of_not_mem h]
  rfl

theorem pairOf_cut {a b : List UInt8} (h : fdelim ∉ a) :
    pairOf fdelim (a ++ fdelim :: b) = if a = [] then none else some (a, b) := by
  unfold pairOf
  cases a with
  | nil => simp
  | cons x a =>
      have hx : x ≠ fdelim := fun hx => h (hx ▸ List.mem_cons_self)
      have hhead : ¬ (x :: a ++ fdelim :: b = [] ∨
          (x :: a ++ fdelim :: b).head? = some fdelim) := by
        simp [hx]
      rw [if_neg hhead, Cut.before_append_cons h, Cut.behind_append_cons h, if_neg (by simp)]
      rfl

theorem pairs_append (a b : List UInt8) :
    pairs fdelim rdelim (a ++ rdelim :: b) = pairs fdelim rdelim a ++ pairs fdelim rdelim b := by
  unfold pairs
  rw [← List.filterMap_append]
  congr 1
  exact List.splitOnP_append_cons (p := fun x => x == rdelim) a b (beq_self_eq_true rdelim)

theorem pairs_single (h : rdelim ∉ seg) :
    pairs fdelim rdelim seg = (pairOf fdelim seg).toList := by
  unfold pairs
  rw [List.splitOn_eq_singleton h]
  cases hpair : pairOf fdelim seg with
  | none => rw [List.filterMap_cons_none hpair]; rfl
  | some t => rw [List.filterMap_cons_some hpair]; rfl

end

/-! ## One piece -/

section
variable {σ : Type} {setItem : σ → List UInt8 → List UInt8 → σ}
  {keydecode valdecode : List UInt8 → List UInt8} {fdelim rdelim : UInt8}

/-- What a pair does to the hash. -/
def storePair (setItem : σ → List UInt8 → List UInt8 → σ)
    (keydecode valdecode : List UInt8 → List UInt8) (hash : σ) (t : List UInt8 × List UInt8) : σ :=
  setItem hash (keydecode t.1) (valdecode t.2)

theorem copy_append (a b c : List UInt8) : copy (a ++ (b ++ c)) a.length b.length = some b := by
  unfold copy
  rw [if_pos (by simp only [List.length_append]; omega), List.drop_left, List.take_left]

theorem findFdelim_absent (seg : List UInt8) : ∀ pre post : List UInt8, fdelim ∉ seg →
    findFdelim fdelim (pre ++ (seg ++ post)) seg.length pre.length =
      some (pre.length + seg.length) := by
  induction seg with
  | nil =>
      intro pre post _
      rfl
  | cons x seg ih =>
      intro pre post h
      have hx : x ≠ fdelim := fun hx => h (hx ▸ List.mem_cons_self)
      have hget : (pre ++ (x :: seg ++ post))[pre.length]? = some x := by simp
      have hrest := ih (pre ++ [x]) post fun hmem => h (List.mem_cons_of_mem _ hmem)
      rw [List.length_cons, findFdelim, hget]
      simp only [Option.bind_eq_bind, Option.bind_some, if_neg hx]
      simp only [List.append_assoc, List.singleton_append, List.length_append,
        List.length_singleton] at hrest
      rw [List.cons_append, hrest]
      exact congrArg some (by omega)

theorem findFdelim_found (a : List UInt8) (b : List UInt8) : ∀ pre post : List UInt8, fdelim ∉ a →
    findFdelim fdelim (pre ++ (a ++ fdelim :: b ++ post)) (a ++ fdelim :: b).length pre.length =
      some (pre.length + a.length) := by
  induction a with
  | nil =>
      intro pre post _
      have hget : (pre ++ (fdelim :: b ++ post))[pre.length]? = some fdelim := by simp
      rw [List.nil_append, List.length_cons, findFdelim, hget]
      simp only [Option.bind_eq_bind, Option.bind_some, if_true]
      rfl
  | cons x a ih =>
      intro pre post h
      have hx : x ≠ fdelim := fun hx => h (hx ▸ List.mem_cons_self)
      have hget : (pre ++ (x :: a ++ fdelim :: b ++ post))[pre.length]? = some x := by simp
      have hrest := ih (pre ++ [x]) post fun hmem => h (List.mem_cons_of_mem _ hmem)
      rw [List.cons_append, List.length_cons, findFdelim, ← List.cons_append, hget]
      simp only [Option.bind_eq_bind, Option.bind_some, if_neg hx]
      simp only [List.append_assoc, List.length_append, List.length_singleton, List.cons_append,
        List.nil_append] at hrest ⊢
      rw [hrest, List.length_cons]
      exact congrArg some (by omega)

theorem findPair_seg (pre seg post : List UInt8) (hash : σ) :
    findPair setItem keydecode valdecode fdelim (pre ++ (seg ++ post)) pre.length
        (pre.length + seg.length) hash =
      some (((pairOf fdelim seg).toList).foldl (storePair setItem keydecode valdecode) hash) := by
  unfold findPair
  rw [Nat.add_sub_cancel_left]
  obtain habs | ⟨a, b, rfl, ha⟩ := Cut.cases fdelim seg
  · rw [findFdelim_absent seg pre post habs]
    simp only [Option.bind_eq_bind, Option.bind_some]
    by_cases hne : seg = []
    · subst hne
      rw [if_neg (by simp)]
      rfl
    · have hpos := List.length_pos_iff.mpr hne
      rw [if_pos (by omega), Nat.add_sub_cancel_left, copy_append, valueFrom, if_neg (by omega),
        pairOf_absent habs hne]
      rfl
  · rw [findFdelim_found a b pre post ha]
    simp only [Option.bind_eq_bind, Option.bind_some]
    rw [pairOf_cut ha]
    by_cases hne : a = []
    · subst hne
      rw [if_neg (by simp), if_pos rfl]
      rfl
    · have hpos := List.length_pos_iff.mpr hne
      have hkey : copy (pre ++ (a ++ fdelim :: b ++ post)) pre.length a.length = some a := by
        rw [List.append_assoc]
        exact copy_append pre a _
      have hvalue : copy (pre ++ (a ++ fdelim :: b ++ post)) (pre.length + a.length + 1)
          b.length = some b := by
        have := copy_append (pre ++ a ++ [fdelim]) b post
        simpa [Nat.add_assoc] using this
      have hlen : pre.length + (a ++ fdelim :: b).length - (pre.length + a.length + 1) =
          b.length := by
        rw [List.length_append, List.length_cons]
        omega
      have hle : pre.length + (a ++ fdelim :: b).length ≥ pre.length + a.length + 1 := by
        rw [List.length_append, List.length_cons]
        omega
      rw [if_pos (by omega), Nat.add_sub_cancel_left, hkey, valueFrom, if_pos hle, hlen, hvalue,
        if_neg hne]
      rfl

/-! ## The loop -/

/-- The invariant of the loop: the piece that has begun is `seg`, `todo` is still
to come, and what the loop and the pair behind it will store is what the pieces
of the two hold. -/
theorem loop_last (hr : rdelim ≠ NUL) (todo : List UInt8) :
    ∀ (pre seg : List UInt8) (hash : σ), rdelim ∉ seg →
      ((loop setItem keydecode valdecode fdelim rdelim (pre ++ (seg ++ (todo ++ [NUL])))
          (todo.length + 1) pre.length (pre.length + seg.length) hash).bind fun r =>
        last setItem keydecode valdecode fdelim (pre ++ (seg ++ (todo ++ [NUL]))) r.1 r.2.1 r.2.2) =
      some ((pairs fdelim rdelim (seg ++ todo)).foldl
        (storePair setItem keydecode valdecode) hash) := by
  induction todo with
  | nil =>
      intro pre seg hash hseg
      have hget : (pre ++ (seg ++ ([] ++ [NUL])))[pre.length + seg.length]? = some NUL := by
        rw [← List.append_assoc, ← List.length_append]
        simp
      rw [List.length_nil, Nat.zero_add, loop, hget]
      simp only [Option.bind_eq_bind, Option.bind_some, if_neg hr.symm, loop]
      rw [last, if_neg (by omega), Nat.add_sub_cancel, findPair_seg, List.append_nil,
        pairs_single hseg]
  | cons c todo ih =>
      intro pre seg hash hseg
      have hget : (pre ++ (seg ++ (c :: todo ++ [NUL])))[pre.length + seg.length]? = some c := by
        rw [← List.append_assoc, ← List.length_append]
        simp
      rw [List.length_cons, loop, hget]
      simp only [Option.bind_eq_bind, Option.bind_some]
      by_cases hc : c = rdelim
      · -- the piece is complete
        subst hc
        have hrest := ih (pre ++ seg ++ [c]) []
          ((pairOf fdelim seg).toList.foldl (storePair setItem keydecode valdecode) hash)
          List.not_mem_nil
        have hmem : (pre ++ seg ++ [c]) ++ ([] ++ (todo ++ [NUL])) =
            pre ++ (seg ++ (c :: todo ++ [NUL])) := by simp
        have hlen : (pre ++ seg ++ [c]).length = pre.length + seg.length + 1 := by
          simp [Nat.add_assoc]
        rw [hmem, hlen, List.nil_append, List.length_nil, Nat.add_zero] at hrest
        rw [if_pos rfl, findPair_seg, Option.bind_some, hrest, pairs_append, pairs_single hseg,
          List.foldl_append]
      · have hrest := ih pre (seg ++ [c]) hash (by simp [hseg, Ne.symm hc])
        have hmem : pre ++ (seg ++ [c] ++ (todo ++ [NUL])) =
            pre ++ (seg ++ (c :: todo ++ [NUL])) := by simp
        have hlen : pre.length + (seg ++ [c]).length = pre.length + seg.length + 1 := by
          simp [Nat.add_assoc]
        have htext : seg ++ [c] ++ todo = seg ++ c :: todo := by simp
        rw [hmem, hlen, htext] at hrest
        rw [if_neg hc]
        exact hrest

theorem body_eq (hr : rdelim ≠ NUL) (s : List UInt8) (hash : σ) :
    body setItem keydecode valdecode fdelim rdelim (BDATA s) hash =
      some (0, (pairs fdelim rdelim s).foldl (storePair setItem keydecode valdecode) hash) := by
  have h := @loop_last _ setItem keydecode valdecode fdelim rdelim hr s [] [] hash
    List.not_mem_nil
  have hlen : (BDATA s).length = s.length + 1 := by simp [BDATA]
  unfold body
  rw [hlen]
  rw [Option.bind_eq_some_iff] at h
  obtain ⟨⟨i0, i1, hash'⟩, hloop, hlast⟩ := h
  have hloop' : loop setItem keydecode valdecode fdelim rdelim (BDATA s) (s.length + 1) 0 0 hash =
      some (i0, i1, hash') := hloop
  have hlast' : last setItem keydecode valdecode fdelim (BDATA s) i0 i1 hash' = _ := hlast
  rw [hloop']
  simp only [Option.bind_eq_bind, Option.bind_some]
  rw [hlast']
  rfl

end

/-- **A query string is split completely.**  Both functions store the pairs of
the text, decoded, one after the other, and look at no byte outside of it. -/
theorem kvp_complete {σ : Type} (setItem : σ → List UInt8 → List UInt8 → σ)
    (bytesUrldecode bytesBrushdown : List UInt8 → List UInt8) (fdelim rdelim : UInt8)
    (hr : rdelim ≠ NUL) (s : List UInt8) (hash : σ) :
    mnhttpParseQterms setItem fdelim rdelim (BDATA s) bytesUrldecode hash =
        some (0, (pairs fdelim rdelim s).foldl
          (fun h t => setItem h (bytesUrldecode t.1) (bytesUrldecode t.2)) hash) ∧
      mnhttpParseKvpbd setItem fdelim rdelim (BDATA s) bytesBrushdown hash =
        some (0, (pairs fdelim rdelim s).foldl
          (fun h t => setItem h (bytesBrushdown t.1) (bytesBrushdown t.2)) hash) :=
  ⟨body_eq hr s hash, body_eq hr s hash⟩

theorem kvp_complete_terms :
    AMP ≠ NUL ∧
      mnhttpParseQterms (fun h k v => h ++ [(k, v)]) EQUALS AMP (BDATA (ascii "a=1&b&=c&")) id [] =
        some (0, [(ascii "a", ascii "1"), (ascii "b", [])]) :=
  ⟨by decide, (kvp_complete (fun h k v => h ++ [(k, v)]) id id EQUALS AMP (by decide)
    (ascii "a=1&b&=c&") []).1.trans (by decide)⟩

end MnHttp.Kvp
