/-
# `MnApp.Http.HeaderOrder` — `Content-Length` and `chunked` in one head

`bodysz` is the declared length, the mark for "no length" and the running
total of the chunks, all in one `int`.  `Transfer-Encoding: chunked` sets it
to 0 and a `Content-Length` sets it to its value, whichever comes last:

    Content-Length: 5              Transfer-Encoding: chunked
    Transfer-Encoding: chunked     Content-Length: 5

    bodysz starts at 0             bodysz starts at 5

The chunks themselves are read in the same way from either start, since the
chunked branch of `process_body` only adds to `bodysz`.  So the total at the
end is the sum of the sizes exactly when the length came first or is stored as
0, and the sum fits in an `int` (`header_order_iff`); what else can go wrong
with the chunks is what `MnApp.Http.ChunkedFraming` says of a read that ends
inside the empty line.
-/
import MnApp.Http.ChunkedFraming
import MnApp.Http.RawHead

namespace MnHttp

open CLib Loop

/-! ## The two headers -/

/-- One `Transfer-Encoding: chunked` and one `Content-Length: n`. -/
structure OneEach (hs : List Header) (n : Nat) : Prop where
  chunked : hs.countP (fun h => h.IsChunked) = 1
  one : hs.countP (fun h => h.Named contentLength) = 1
  length : ∃ h ∈ hs, h.IsContentLength n

theorem OneEach.perm {hs hs' : List Header} {n : Nat} (h : OneEach hs n) (hp : hs'.Perm hs) :
    OneEach hs' n where
  chunked := (hp.countP_eq _).trans h.chunked
  one := (hp.countP_eq _).trans h.one
  length := by
    obtain ⟨x, hx, hlen⟩ := h.length
    exact ⟨x, hp.mem_iff.mpr hx, hlen⟩

/-- No `Content-Length` behind a `Transfer-Encoding: chunked`. -/
def LengthFirst (hs : List Header) : Prop :=
  ∀ pre h post, hs = pre ++ h :: post → h.IsChunked → ∀ x ∈ post, ¬ x.Named contentLength

/-- What is stored for `Content-Length: n`: `strtol` stops at the greatest
`long`, and the `int` keeps 32 bits of that. -/
def storedLength (n : Nat) : Int := toInt (min (n : Int) longMax)

theorem Header.IsContentLength.stored {h : Header} {n : Nat} (hn : h.IsContentLength n) :
    h.stored = storedLength n := by
  rw [Header.stored_of_digits hn.digits, hn.value]
  rfl

theorem not_named_of_isChunked {h : Header} (hc : h.IsChunked) : ¬ h.Named contentLength := by
  intro hn
  have hsame : transferEncoding.map tolower = contentLength.map tolower := hc.1.symm.trans hn
  exact absurd hsame (by decide)

section
variable {hs : List Header} {n : Nat}

theorem storedFrom_plain {f : Framing}
    (h : ∀ h ∈ hs, ¬ h.Named contentLength ∧ ¬ h.IsChunked) : storedFrom f hs = f := by
  induction hs with
  | nil => rfl
  | cons a hs ih =>
      obtain ⟨h1, h2⟩ := h a List.mem_cons_self
      have hrest := ih fun x hx => h x (List.mem_cons_of_mem _ hx)
      unfold storedFrom at hrest ⊢
      rw [List.foldl_cons]
      simp only [Header.store, h1, h2, if_false]
      exact hrest

theorem storedFrom_append (f : Framing) (a b : List Header) :
    storedFrom f (a ++ b) = storedFrom (storedFrom f a) b := List.foldl_append

/-- **The framing that such a head leaves**: chunks, with what the length has
left in `bodysz` if it came last. -/
theorem OneEach.framing (h : OneEach hs n) :
    ∃ z, storedFrom .unset hs = ⟨z, true, .size⟩ ∧ -2147483648 ≤ z ∧ z ≤ intMax ∧
      (z = 0 ↔ LengthFirst hs ∨ storedLength n = 0) := by
  obtain ⟨te, hte, hch⟩ := List.countP_pos_iff.mp
    (show 0 < hs.countP (fun h => h.IsChunked) by rw [h.chunked]; exact Nat.one_pos)
  have hch : te.IsChunked := of_decide_eq_true hch
  obtain ⟨pre, post, rfl⟩ := List.append_of_mem hte
  -- there is no other such header
  have hcount := h.chunked
  rw [List.countP_append, List.countP_cons_of_pos (by simpa using hch)] at hcount
  have hnone : ∀ l : List Header, l.countP (fun h => h.IsChunked) = 0 → ∀ x ∈ l, ¬ x.IsChunked :=
    fun l hl x hx => by simpa using List.countP_eq_zero.mp hl x hx
  have hpre := hnone pre (by omega)
  have hpost := hnone post (by omega)
  have hstart : storedFrom .unset (pre ++ te :: post) = storedFrom .chunks post := by
    rw [storedFrom_append]
    show storedFrom (te.store _) post = _
    rw [Header.store, if_neg (not_named_of_isChunked hch), if_pos hch]
  rw [hstart]
  by_cases hlen : ∃ x ∈ post, x.Named contentLength
  · -- the length comes behind it
    obtain ⟨cl, hcl, hname⟩ := hlen
    obtain ⟨mid, last, rfl⟩ := List.append_of_mem hcl
    have hone := h.one
    rw [List.countP_append, List.countP_cons_of_neg (by simpa using not_named_of_isChunked hch),
      List.countP_append, List.countP_cons_of_pos (by simpa using hname)] at hone
    have hno : ∀ l : List Header, l.countP (fun h => h.Named contentLength) = 0 →
        ∀ x ∈ l, ¬ x.Named contentLength :=
      fun l hl x hx => by simpa using List.countP_eq_zero.mp hl x hx
    have hstored : cl.stored = storedLength n := by
      obtain ⟨x, hx, hxn⟩ := h.length
      have hxcl : x = cl := by
        rcases List.mem_append.mp hx with hx | hx
        · exact absurd hxn.named (hno pre (by omega) x hx)
        rcases List.mem_cons.mp hx with rfl | hx
        · exact absurd hxn.named (not_named_of_isChunked hch)
        rcases List.mem_append.mp hx with hx | hx
        · exact absurd hxn.named (hno mid (by omega) x hx)
        rcases List.mem_cons.mp hx with rfl | hx
        · rfl
        · exact absurd hxn.named (hno last (by omega) x hx)
      rw [← hxcl]
      exact hxn.stored
    refine ⟨storedLength n, ?_, (toInt_range _).1, (toInt_range _).2, ?_⟩
    · rw [storedFrom_append, storedFrom_plain fun x hx => ⟨hno mid (by omega) x hx,
        hpost x (List.mem_append_left _ hx)⟩]
      show storedFrom (cl.store .chunks) last = _
      rw [storedFrom_plain fun x hx => ⟨hno last (by omega) x hx,
        hpost x (List.mem_append_right _ (List.mem_cons_of_mem _ hx))⟩, Header.store,
        if_pos hname, hstored]
      rfl
    · refine ⟨.inr, fun hor => hor.resolve_left fun hfirst => ?_⟩
      exact hfirst pre te _ rfl hch cl hcl hname
  · -- the length came before it
    have hno : ∀ x ∈ post, ¬ x.Named contentLength := fun x hx hn => hlen ⟨x, hx, hn⟩
    refine ⟨0, ?_, by decide, by decide, iff_of_true rfl (.inl fun pre' h' post' heq hch' => ?_)⟩
    · rw [storedFrom_plain fun x hx => ⟨hno x hx, hpost x hx⟩]
      rfl
    · -- there is one place where it stands
      rcases List.append_eq_append_iff.mp heq with ⟨a, rfl, ha⟩ | ⟨a, rfl, ha⟩
      · cases a with
        | nil =>
            obtain ⟨-, rfl⟩ := List.cons.inj ha
            exact hno
        | cons x a =>
            obtain ⟨-, rfl⟩ := List.cons.inj ha
            exact absurd hch' (hpost h' (by simp))
      · cases a with
        | nil =>
            obtain ⟨-, rfl⟩ := List.cons.inj ha
            exact hno
        | cons x a =>
            obtain ⟨rfl, -⟩ := List.cons.inj ha
            exact absurd hch' (hpre h' (by simp))

end

/-! ## The size is an `int` -/

theorem ReadOn.bodysz_le {p x : Parser} (on : ReadOn p x) (h : p.ctx.bodysz ≤ intMax) :
    x.ctx.bodysz ≤ intMax := by
  rcases on.bodysz with hsame | ⟨e, hnew⟩
  · rw [hsame]
    exact h
  · rw [hnew]
    exact (toInt_range e).2

theorem processBody_bodysz (rc : Recycler) (cb : Option Callback) {p : Parser}
    (h : p.ctx.bodysz ≤ intMax) : (processBody rc cb p).2.ctx.bodysz ≤ intMax := by
  have hcb : ∀ x : Parser, (x.callback .body cb).2.ctx.bodysz = x.ctx.bodysz :=
    fun x => by rw [(callback_frame .body cb).1]
  cases processBody_frame rc cb p with
  | read on => exact on.bodysz_le h
  | call on after =>
      rw [after, hcb]
      exact on.bodysz_le h
  | recycle on behind after =>
      rw [after]
      refine behind.bodysz_le ?_
      rw [hcb]
      exact on.bodysz_le h

/-! ## The whole message -/

/-- The head was read, the data of each chunk was delivered by a call of its
own, and `bodysz` is the sum of their sizes. -/
structure ChunksSummed (l : FirstLine) (hs : List Header) (cs : List Chunk) (q : Parser) :
    Prop where
  calls : ∃ more, HeadCalls l hs q.calls more ∧
    List.Forall₂ ChunkCall (cs.map Chunk.data ++ [[]]) more
  bodysz : q.ctx.bodysz = chunkedSize cs

/-- **Whatever the order of the headers, the chunks are delivered and `bodysz`
is their sum if and only if** the `Content-Length` comes first or is stored
as 0, the sum fits in an `int`, and no digit that matters is lost to a read
that ends inside the empty line. -/
theorem header_order_iff (pf : Platform) {cbs : Callbacks} (errno : Int) {R n : Nat}
    {l : FirstLine} {hs hs' : List Header} {cs : List Chunk} {rest : List UInt8} {s : Stream}
    {reads : List Read} (hcb : cbs.Succeeding) (hone : OneEach hs n) (hperm : hs'.Perm hs)
    (hfits : HeadFits R l hs') (hcf : ChunksFit R cs)
    (harr : Arrives R (headBytes l hs' ++ CR :: LF :: (chunkedBytes cs ++ rest)) s reads) :
    (∃ q reads', Parses l pf cbs errno s reads (.returned .ok q reads') ∧
      ChunksSummed l hs' cs q) ↔
      (LengthFirst hs' ∨ storedLength n = 0) ∧ (chunkedSize cs : Int) ≤ intMax ∧
      (Cuts s.eod reads (s.pos + (headBytes l hs').length + 1) →
        HarmlessLoss ((receive (s.pos + (headBytes l hs').length + 5) s reads).mem
          (s.pos + (headBytes l hs').length + 3)) cs) := by
  obtain ⟨z, hframing, hlo, hhi, hz⟩ := (hone.perm hperm).framing
  obtain ⟨p, reads₁, c₀, cs₀, hr, hblank, hfr, hcalls, hline, hall⟩ :=
    head_stores pf (p := .init s errno) hcb l hs' hfits.line hfits.headers rfl harr
  rw [show (Parser.init s errno).ctx.framing = .unset from rfl, hframing] at hfr
  rw [← hz]
  have hiff := fun hmax => (hblank.delivers_chunks pf (l := l) hcb hfr hcf hmax harr.pos_nonneg
    rfl).of_reaches hr
  constructor
  · rintro ⟨q, reads', hparse, hsummed⟩
    have hrun := hr.returns_iff.mp (parses_iff.mp hparse)
    have hmax : (chunkedSize cs : Int) ≤ intMax := by
      rw [← hsummed.bodysz]
      refine blank_invariant (I := fun q => q.ctx.bodysz ≤ intMax) (fun _ _ _ h => h)
        (fun x h => processBody_bodysz _ _ h) (fun _ h => h)
        (dispatch_blank hblank.state hblank.start hblank.found) ?_ hrun
      show p.ctx.framing.bodysz ≤ intMax
      rw [hfr]
      exact hhi
    obtain ⟨more, hhead, hmore⟩ := hsummed.calls
    have hpre := (hblank.calls_extend hrun).calls_before
    have hloss := (hiff hmax).bad q reads' (parses_iff.mp hparse) (by
      rw [hcalls] at hpre ⊢
      exact hhead.chunkCalls hmore hall hpre)
    refine ⟨?_, hmax, hloss⟩
    -- the call returns once, with `z` and the sum in `bodysz`
    obtain ⟨q', reads'', hret', hdone⟩ := (hiff hmax).good hloss
    cases (parses_iff.mp hparse).unique hret'
    have hsum := hdone.bodysz.symm.trans hsummed.bodysz
    unfold toInt intMax at *
    rw [Int.bmod_def] at hsum
    split at hsum <;> omega
  · rintro ⟨rfl, hmax, hloss⟩
    obtain ⟨q, reads', hret, hdone⟩ := (hiff hmax).good hloss
    have hsum : toInt (0 + (chunkedSize cs : Int)) = chunkedSize cs := by
      rw [Int.zero_add]
      exact toInt_of_le (by omega) hmax
    rw [hsum] at hdone
    obtain ⟨more, hmore, hforall⟩ := hdone.calls
    exact ⟨q, reads', parses_iff.mpr hret,
      ⟨more, ⟨c₀, cs₀, by rw [hmore, hcalls]; rfl, hline, hall⟩, hforall⟩, hdone.bodysz⟩

/-! ### Both orders -/

theorem oneEach_lengthOne : OneEach [.lengthOne, .chunkedEncoding] 1 :=
  ⟨by decide, by decide, .lengthOne, List.mem_cons_self, ⟨by decide, by decide, by decide⟩⟩

theorem header_order_length_first :
    ∃ q reads, Parses (.request .getRoot) .keeping .accepting 0 ⟨[], [], 0⟩
        [.bytes (ascii "GET / HTTP/1.1\r\nContent-Length: 1\r\nTransfer-Encoding: chunked\r\n") [],
          .bytes (ascii "\r\n3\r\nxyz\r\n0\r\n\r\n") []] (.returned .ok q reads) ∧
      ChunksSummed (.request .getRoot) [.lengthOne, .chunkedEncoding] [.xyz] q := by
  have harr : Arrives 96 (headBytes (.request .getRoot) [.lengthOne, .chunkedEncoding] ++
        CR :: LF :: (chunkedBytes [.xyz] ++ [])) ⟨[], [], 0⟩
      [.bytes (ascii "GET / HTTP/1.1\r\nContent-Length: 1\r\nTransfer-Encoding: chunked\r\n") [],
        .bytes (ascii "\r\n3\r\nxyz\r\n0\r\n\r\n") []] :=
    ⟨by decide, by decide, by decide, .cons (by decide) (by decide) (.cons (by decide) (by decide)
      (.nil _)), by decide⟩
  refine (header_order_iff .keeping 0 Callbacks.accepting_succeeding oneEach_lengthOne (.refl _)
    ⟨by decide, by decide⟩ ⟨by decide, by decide⟩ harr).mpr
    ⟨.inl ?_, by decide, fun h => absurd h (by decide)⟩
  intro pre h post heq hch x hx
  match pre, heq with
  | [], heq =>
      obtain ⟨rfl, -⟩ := List.cons.inj heq
      exact absurd hch (by decide)
  | [_], heq =>
      obtain ⟨-, rfl⟩ := List.cons.inj (List.cons.inj heq).2
      cases hx
  | _ :: _ :: _, heq => simp at heq

/-- **The other order**: the length is counted into the sum. -/
theorem chunked_then_length :
    OneEach [.lengthOne, .chunkedEncoding] 1 ∧
    [.chunkedEncoding, .lengthOne].Perm [Header.lengthOne, .chunkedEncoding] ∧
    (∃ q reads, Parses (.request .getRoot) .keeping .accepting 0 ⟨[], [], 0⟩
        [.bytes (headBytes (.request .getRoot) [.lengthOne, .chunkedEncoding] ++
          crlf ++ chunkedBytes [.xyz]) []] (.returned .ok q reads) ∧ q.ctx.bodysz = 3) ∧
    ∃ q reads, Parses (.request .getRoot) .keeping .accepting 0 ⟨[], [], 0⟩
        [.bytes (headBytes (.request .getRoot) [.chunkedEncoding, .lengthOne] ++
          crlf ++ chunkedBytes [.xyz]) []] (.returned .ok q reads) ∧ q.ctx.bodysz = 4 ∧
      ¬ ChunksSummed (.request .getRoot) [.chunkedEncoding, .lengthOne] [.xyz] q := by
  refine ⟨oneEach_lengthOne, List.Perm.swap .., parses_bodysz 30 _ (by decide +kernel), ?_⟩
  obtain ⟨q, reads, hparse, hz⟩ := parses_bodysz 30
    [.bytes (headBytes (.request .getRoot) [.chunkedEncoding, .lengthOne] ++
      crlf ++ chunkedBytes [.xyz]) []] (r := .ok) (z := 4) (by decide +kernel)
  refine ⟨q, reads, hparse, hz, fun hsummed => ?_⟩
  have hthree : q.ctx.bodysz = 3 := hsummed.bodysz
  omega

end MnHttp
