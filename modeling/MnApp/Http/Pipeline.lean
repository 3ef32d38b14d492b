/-
# `MnApp.Http.Pipeline` — a connection, message after message

A peer may send its next message without waiting for anything.  The stream
then holds the end of one message, some more, and the start of another, in any
reads; and each call of `http_parse_request` or `http_parse_response` starts
where the call before it stopped.

    Sent         a message: its first line, its headers, its body
    ReadInTurn   one call after the other returns 0, each with the calls of
                 its own message, and stands at the next one
    Unsplit      no read ends inside the empty line of a message

**What a call leaves behind.**  A call must not only stop at the right byte.
Its successor scans what is buffered with lengths that are `int`s, so what was
received ahead has to stay small; and it loses a byte if a read ends inside its
empty line, so the ends of the reads that are still ahead have to be the same
as before.  Both come from one cut of the reads (`split_reads`): those up to
the first that brings a byte of the next message are enough for the call, and
the later ones it does not see.

**Positions.**  `recycle_stream_buffer` moves the data, so positions before and
after a call are compared from `pos` on.
-/
import MnApp.Http.Piecewise

namespace MnHttp

open CLib Loop

/-! ## Messages on a connection -/

/-- A message. -/
structure Sent where
  line : FirstLine
  headers : List Header
  payload : Payload

def Sent.head (m : Sent) : List UInt8 := headBytes m.line m.headers

def Sent.bytes (m : Sent) : List UInt8 := messageBytes m.line m.headers m.payload

def Sent.Well (R : Nat) (m : Sent) : Prop := WellSent R m.line m.headers m.payload

theorem Sent.bytes_ne (m : Sent) : m.bytes ≠ [] := by
  unfold Sent.bytes messageBytes
  exact List.append_ne_nil_of_right_ne_nil _ (List.cons_ne_nil _ _)

/-- The messages are read by one call after the other, whatever the callbacks
and `errno` are at each call, and `rest` is left. -/
def ReadInTurn (pf : Platform) : List Sent → List UInt8 → Stream → List Read → Prop
  | [], rest, s, reads => StandsAt rest s reads
  | m :: ms, rest, s, reads => ∀ (cbs : Callbacks) (errno : Int), cbs.Succeeding →
      ∃ q reads', Parses m.line pf cbs errno s reads (.returned .ok q reads') ∧
        DoneWith m.line m.headers m.payload (ms.flatMap Sent.bytes ++ rest) q reads' ∧
        ReadInTurn pf ms rest q.inp reads'

/-- No read ends between the CR and the LF of the empty line of a message. -/
def Unsplit (s : Stream) (reads : List Read) (ms : List Sent) : Prop :=
  ∀ pre m post, ms = pre ++ m :: post →
    ¬ Cuts s.eod reads (s.pos + (pre.flatMap Sent.bytes).length + m.head.length + 1)

theorem unsplit_nil (s : Stream) (reads : List Read) : Unsplit s reads [] :=
  fun _ _ _ h => absurd h (List.append_ne_nil_of_right_ne_nil _ (List.cons_ne_nil _ _)).symm

theorem unsplit_cons {s : Stream} {reads : List Read} {m : Sent} {ms : List Sent} :
    Unsplit s reads (m :: ms) ↔ ¬ Cuts s.eod reads (s.pos + m.head.length + 1) ∧
      ∀ pre m' post, ms = pre ++ m' :: post → ¬ Cuts s.eod reads
        (s.pos + m.bytes.length + ((pre.flatMap Sent.bytes).length + m'.head.length + 1)) := by
  have hfirst : s.pos + (([] : List Sent).flatMap Sent.bytes).length + m.head.length + 1 =
      s.pos + m.head.length + 1 := by simp
  have hlater : ∀ (pre : List Sent) (m' : Sent),
      s.pos + ((m :: pre).flatMap Sent.bytes).length + m'.head.length + 1 =
        s.pos + m.bytes.length + ((pre.flatMap Sent.bytes).length + m'.head.length + 1) := by
    intro pre m'
    rw [List.flatMap_cons, List.length_append]
    push_cast
    omega
  constructor
  · intro h
    refine ⟨?_, fun pre m' post hms => ?_⟩
    · rw [← hfirst]
      exact h [] m ms rfl
    · rw [← hlater]
      exact h (m :: pre) m' post (by rw [hms]; rfl)
  · rintro ⟨hm, hms⟩ pre m' post heq
    cases pre with
    | nil =>
        cases heq
        rw [hfirst]
        exact hm
    | cons m₀ pre =>
        cases heq
        rw [hlater]
        exact hms pre m' post rfl

/-! ## The reads of one message -/

/-- The reads up to the first that comes to `n`: it does not go much further,
and none of the others comes to it. -/
theorem split_reads {R : Nat} {n : Int} : ∀ {reads : List Read} {e : Int}, Delivers R reads →
    n ≤ e + (pending reads).length → e < n + R →
    ∃ rs more, reads = rs ++ more ∧ n ≤ e + (pending rs).length ∧
      e + (pending rs).length < n + R ∧
      ∀ x, Cuts e rs x → n ≤ x → x = e + (pending rs).length := by
  intro reads
  induction reads with
  | nil =>
      intro e _ hn he
      exact ⟨[], [], rfl, hn, by simpa using he, fun x hx _ => by simpa using hx.symm⟩
  | cons r reads ih =>
      intro e hdel hn he
      by_cases hcome : n ≤ e
      · exact ⟨[], r :: reads, rfl, by simpa using hcome, by simpa using he,
          fun x hx _ => by simpa using hx.symm⟩
      · obtain ⟨bs, slack, rfl, -, hR⟩ := hdel.head
        have hlen : ∀ rs : List Read, e + (bs.length : Int) + (pending rs).length =
            e + (pending (.bytes bs slack :: rs)).length := by
          intro rs
          rw [pending_cons, List.length_append]
          push_cast
          exact Int.add_assoc ..
        obtain ⟨rs, more, rfl, hcover, hshort, hcuts⟩ :=
          ih (e := e + bs.length) hdel.tail (by rw [hlen]; exact hn) (by omega)
        refine ⟨.bytes bs slack :: rs, more, rfl, ?_, ?_, ?_⟩
        · rw [← hlen]
          exact hcover
        · rw [← hlen]
          exact hshort
        · intro x hx hnx
          rw [← hlen]
          rcases hx with hx | hx
          · omega
          · exact hcuts x hx hnx

section
variable {R : Nat} {text rest : List UInt8} {s : Stream} {reads : List Read}

theorem StandsAt.length_eq (h : StandsAt rest s reads) (hne : rest ≠ []) :
    s.eod + (pending reads).length = s.pos + rest.length := by
  have h0 := h.pos_nonneg
  have hlen := congrArg List.length h.stream
  have hpos : 0 < rest.length := List.length_pos_iff.mpr hne
  rw [List.length_drop, List.length_append] at hlen
  unfold Stream.eod
  omega

theorem Arrives.standsAt (h : Arrives R rest s reads) : StandsAt rest s reads :=
  ⟨h.pos_nonneg, h.stream⟩

theorem StandsAt.more (more : List Read) (h : StandsAt rest s reads) (hne : rest ≠ []) :
    StandsAt (rest ++ pending more) s (reads ++ more) := by
  have hlen := h.length_eq hne
  have h0 := h.pos_nonneg
  refine ⟨h0, ?_⟩
  rw [pending_append, ← List.append_assoc, List.drop_append_of_le_length, h.stream]
  rw [List.length_append]
  unfold Stream.eod at hlen
  omega

/-- **The reads that bring a text and a little of what is behind it.** -/
theorem Arrives.split (h : Arrives R (text ++ rest) s reads) (hne : rest ≠ []) :
    ∃ rs more rest₁, reads = rs ++ more ∧ rest = rest₁ ++ pending more ∧ rest₁ ≠ [] ∧
      rest₁.length ≤ R ∧ Arrives R (text ++ rest₁) s rs ∧
      ∀ x, Cuts s.eod rs x → s.pos + text.length < x → x = s.eod + (pending rs).length := by
  have hpos : 0 < rest.length := List.length_pos_iff.mpr hne
  have hall := h.standsAt.length_eq (List.append_ne_nil_of_right_ne_nil text hne)
  have hbounded := h.bounded
  have h0 := h.pos_nonneg
  rw [List.length_append] at hall
  obtain ⟨rs, more, rfl, hcover, hshort, hcuts⟩ := split_reads (n := s.pos + text.length + 1)
    (e := s.eod) h.delivers (by omega) (by omega)
  have hle : s.pos.toNat + text.length ≤ (s.data ++ pending rs).length := by
    rw [List.length_append]
    unfold Stream.eod at hcover
    omega
  have hstream := h.stream
  rw [pending_append, ← List.append_assoc, List.drop_append_of_le_length (by omega)] at hstream
  obtain ⟨rest₁, hrest₁⟩ : text <+: (s.data ++ pending rs).drop s.pos.toNat := by
    refine List.prefix_of_prefix_length_le ⟨rest, rfl⟩ ⟨pending more, hstream⟩ ?_
    rw [List.length_drop]
    omega
  have hlen : (rest₁.length : Int) = s.eod + (pending rs).length - (s.pos + text.length) := by
    have := congrArg List.length hrest₁
    rw [List.length_append, List.length_drop, List.length_append] at this
    rw [List.length_append] at hle
    unfold Stream.eod
    omega
  rw [← hrest₁, List.append_assoc, List.append_cancel_left_eq] at hstream
  refine ⟨rs, more, rest₁, rfl, hstream.symm, ?_, by omega, ?_,
    fun x hx hlt => hcuts x hx (by omega)⟩
  · intro hnil
    rw [hnil, List.length_nil] at hlen
    omega
  · exact ⟨h0, h.pos_le, hrest₁.symm, fun r hr => h.delivers r (List.mem_append_left _ hr),
      hbounded⟩

/-- Where reads end, seen from behind the first of them: nothing is lost when those
that come before end there at the last only. -/
theorem cuts_resume {e n : Int} {pre reads' more : List Read}
    (hlast : Cuts e (pre ++ reads') n → n = e + (pending (pre ++ reads')).length) :
    Cuts (e + (pending pre).length) (reads' ++ more) n ↔ Cuts e (pre ++ (reads' ++ more)) n := by
  have hsum : e + (pending pre).length + (pending reads').length =
      e + (pending (pre ++ reads')).length := by
    rw [pending_append, List.length_append]
    omega
  constructor
  · exact fun h => (cuts_append pre e).mpr (.inr h)
  · intro h
    refine (cuts_append reads' _).mpr ?_
    rw [← List.append_assoc] at h
    rcases (cuts_append (pre ++ reads') e).mp h with h | h
    · rw [hlast h, ← hsum]
      exact .inl (Cuts.last reads' _)
    · rw [hsum]
      exact .inr h

end

/-! ## One message -/

section
variable (pf : Platform) {cbs : Callbacks} (errno : Int) {R : Nat} {m : Sent}
variable {rest : List UInt8} {s : Stream} {reads : List Read}

/-- What stands behind a message that was read: it arrives as the message did,
and reads end there where they did before. -/
structure Behind (R : Nat) (m : Sent) (rest : List UInt8) (s : Stream) (reads : List Read)
    (s' : Stream) (reads' : List Read) : Prop where
  arrives : Arrives R rest s' reads'
  cuts : ∀ k : Int, 0 < k →
    (Cuts s'.eod reads' (s'.pos + k) ↔ Cuts s.eod reads (s.pos + m.bytes.length + k))

/-- **A call reads its message and leaves the next one as it would have been
found.** -/
theorem Sent.read (hcb : cbs.Succeeding) (hw : m.Well R) (hne : rest ≠ [])
    (harr : Arrives R (m.bytes ++ rest) s reads)
    (hcut : ¬ Cuts s.eod reads (s.pos + m.head.length + 1)) :
    ∃ q reads', Parses m.line pf cbs errno s reads (.returned .ok q reads') ∧
      DoneWith m.line m.headers m.payload rest q reads' ∧
      Behind R m rest s reads q.inp reads' := by
  obtain ⟨rs, more, rest₁, rfl, rfl, hne₁, hR, harr₁, hcuts⟩ := harr.split hne
  have hcut₁ : ¬ Cuts s.eod rs (s.pos + m.head.length + 1) :=
    fun h => hcut ((cuts_append rs s.eod).mpr (.inl h))
  -- the first reads are enough
  obtain ⟨q, reads₁, hparse, hdone⟩ := message_exact pf errno hcb hw harr₁ hcut₁
  have hstands := hdone.stands.more more hne₁
  have hret := returns_more more (parses_iff.mp hparse)
  obtain ⟨pre, hpre⟩ := returns_suffix (parses_iff.mp hparse)
  have hpre : pre ++ reads₁ = rs := hpre
  have hnear := hdone.near hne₁
  have hend := hdone.stands.length_eq hne₁
  have hstart := harr₁.standsAt.length_eq (List.append_ne_nil_of_right_ne_nil m.bytes hne₁)
  have hpend : (pending rs).length = (pending pre).length + (pending reads₁).length := by
    rw [← hpre, pending_append, List.length_append]
  rw [List.length_append] at hstart
  refine ⟨q, reads₁ ++ more, parses_iff.mpr hret, ⟨hdone.calls, hstands, fun _ => hnear⟩,
    ⟨hstands.pos_nonneg, hnear, hstands.stream, ?_, by omega⟩, ?_⟩
  · intro r hr
    refine harr.delivers r ?_
    rw [← hpre, List.append_assoc]
    exact List.mem_append_right pre hr
  · intro k hk
    -- the same place, counted from the start of the data before the call
    have hshift : Cuts q.inp.eod (reads₁ ++ more) (q.inp.pos + k) ↔
        Cuts (s.eod + (pending pre).length) (reads₁ ++ more) (s.pos + m.bytes.length + k) := by
      rw [← cuts_shift (s.pos + m.bytes.length - q.inp.pos)]
      have h1 : q.inp.eod + (s.pos + m.bytes.length - q.inp.pos) =
          s.eod + (pending pre).length := by omega
      have h2 : q.inp.pos + k + (s.pos + m.bytes.length - q.inp.pos) =
          s.pos + m.bytes.length + k := by omega
      rw [h1, h2]
    rw [hshift, ← hpre, List.append_assoc]
    refine cuts_resume fun h => ?_
    rw [hpre] at h ⊢
    exact hcuts _ h (by omega)

theorem Behind.unsplit {s' : Stream} {reads' : List Read} {ms : List Sent}
    (h : Behind R m rest s reads s' reads') :
    Unsplit s' reads' ms ↔ ∀ pre m' post, ms = pre ++ m' :: post → ¬ Cuts s.eod reads
      (s.pos + m.bytes.length + ((pre.flatMap Sent.bytes).length + m'.head.length + 1)) := by
  refine forall_congr' fun pre => forall_congr' fun m' => forall_congr' fun post =>
    imp_congr_right fun _ => not_congr ?_
  have hcuts := h.cuts ((pre.flatMap Sent.bytes).length + m'.head.length + 1) (by omega)
  rw [← hcuts, ← Int.add_assoc, ← Int.add_assoc]

end

/-! ## One message after the other -/

section
variable (pf : Platform) {R : Nat} {ms : List Sent} {rest : List UInt8}

theorem behind_ne (m : Sent) (ms : List Sent) (rest : List UInt8) :
    (m :: ms).flatMap Sent.bytes ++ rest ≠ [] := by
  rw [List.flatMap_cons, List.append_assoc]
  exact List.append_ne_nil_of_left_ne_nil m.bytes_ne _

/-- Messages that no read splits are read one by one. -/
theorem readInTurn_of_unsplit (hw : ∀ m ∈ ms, Sent.Well R m) {s : Stream} {reads : List Read}
    (harr : Arrives R (ms.flatMap Sent.bytes ++ rest) s reads) (hcut : Unsplit s reads ms) :
    ReadInTurn pf ms rest s reads := by
  -- the stream moves on with every message
  induction ms generalizing s reads with
  | nil => exact harr.standsAt
  | cons m ms ih =>
      intro cbs errno hcb
      have hm := hw m List.mem_cons_self
      have hms : ∀ m' ∈ ms, m'.Well R := fun m' h => hw m' (List.mem_cons_of_mem _ h)
      obtain ⟨hfirst, hlater⟩ := unsplit_cons.mp hcut
      rw [List.flatMap_cons, List.append_assoc] at harr
      cases ms with
      | nil =>
          obtain ⟨q, reads', hparse, hdone⟩ := message_exact pf errno hcb hm harr hfirst
          exact ⟨q, reads', hparse, hdone, hdone.stands⟩
      | cons m' ms =>
          obtain ⟨q, reads', hparse, hdone, hbehind⟩ :=
            Sent.read pf errno hcb hm (behind_ne m' ms rest) harr hfirst
          exact ⟨q, reads', hparse, hdone, ih hms hbehind.arrives (hbehind.unsplit.mpr hlater)⟩

theorem DoneWith.uncut {cbs : Callbacks} {errno : Int} {m : Sent} {body : List UInt8}
    {s : Stream} {reads reads' : List Read} {q : Parser} (hcb : cbs.Succeeding) (hw : m.Well R)
    (hplain : m.payload = .length body) (harr : Arrives R (m.bytes ++ rest) s reads)
    (hparse : Parses m.line pf cbs errno s reads (.returned .ok q reads'))
    (hdone : DoneWith m.line m.headers m.payload rest q reads') :
    ¬ Cuts s.eod reads (s.pos + m.head.length + 1) := by
  intro hcut
  have hframed := hw.framed
  have hcalls := hdone.calls
  unfold Sent.bytes messageBytes at harr
  rw [hplain] at hframed hcalls harr
  obtain ⟨_, hhead, c, rfl, hcall⟩ := hcalls
  rw [List.append_assoc] at harr
  exact length_lost pf errno hcb hw.head hframed rfl harr hcut hparse
    ⟨⟨c, hhead, hcall⟩, hdone.stands⟩

/-- Messages with a `Content-Length` are read one by one only if no read splits
them. -/
theorem ReadInTurn.unsplit (hw : ∀ m ∈ ms, Sent.Well R m)
    (hplain : ∀ m ∈ ms, ∃ body, m.payload = .length body) {s : Stream} {reads : List Read}
    (harr : Arrives R (ms.flatMap Sent.bytes ++ rest) s reads) (h : ReadInTurn pf ms rest s reads) :
    Unsplit s reads ms := by
  induction ms generalizing s reads with
  | nil => exact unsplit_nil s reads
  | cons m ms ih =>
      have hm := hw m List.mem_cons_self
      obtain ⟨body, hbody⟩ := hplain m List.mem_cons_self
      have hms : ∀ m' ∈ ms, m'.Well R := fun m' h => hw m' (List.mem_cons_of_mem _ h)
      have hcb := Callbacks.accepting_succeeding
      obtain ⟨q, reads', hparse, hdone, hturn⟩ := h .accepting 0 hcb
      rw [List.flatMap_cons, List.append_assoc] at harr
      have hfirst := hdone.uncut pf hcb hm hbody harr hparse
      refine unsplit_cons.mpr ⟨hfirst, ?_⟩
      cases ms with
      | nil =>
          intro pre m' post hnil
          exact absurd hnil (List.append_ne_nil_of_right_ne_nil _ (List.cons_ne_nil _ _)).symm
      | cons m' ms =>
          obtain ⟨q', reads'', hparse', -, hbehind⟩ :=
            Sent.read pf 0 hcb hm (behind_ne m' ms rest) harr hfirst
          cases Returns.unique (parses_iff.mp hparse) (parses_iff.mp hparse')
          exact hbehind.unsplit.mp
            (ih hms (fun x hx => hplain x (List.mem_cons_of_mem _ hx)) hbehind.arrives hturn)

/-- **A connection is read message by message.**  For any messages, with a
`Content-Length` or chunked, in any reads that end inside no empty line, the
calls return 0 one after the other with the messages in order, each leaving the
stream at the next; and if all have a `Content-Length`, in no other reads. -/
theorem pipelined (hw : ∀ m ∈ ms, Sent.Well R m) {s : Stream} {reads : List Read}
    (harr : Arrives R (ms.flatMap Sent.bytes ++ rest) s reads) :
    (Unsplit s reads ms → ReadInTurn pf ms rest s reads) ∧
      ((∀ m ∈ ms, ∃ body, m.payload = .length body) →
        ReadInTurn pf ms rest s reads → Unsplit s reads ms) :=
  ⟨readInTurn_of_unsplit pf hw harr, fun hplain h => h.unsplit pf hw hplain harr⟩

end

/-! ### A chunked message and one behind it -/

/-- `GET /`, chunked, and `GET /` with a body of one byte. -/
def Sent.pair : List Sent :=
  [⟨.request .getRoot, [.chunkedEncoding], .chunks [.xyz]⟩,
    ⟨.request .getRoot, [.lengthOne], .length (ascii "A")⟩]

theorem Sent.pair_well : ∀ m ∈ Sent.pair, Sent.Well 128 m := by
  intro m hm
  rcases List.mem_cons.mp hm with rfl | hm
  · exact ⟨⟨by decide, by decide⟩,
      ⟨hasChunked_chunkedEncoding, ⟨by decide, by decide⟩, by decide⟩,
      fun cs h => by cases h; decide⟩
  · obtain rfl := List.mem_singleton.mp hm
    exact ⟨⟨by decide, by decide⟩, hasLength_lengthOne, nofun⟩

/-- Both come in two reads; the first ends inside the last line end of the
chunked one. -/
def Sent.pairReads : List Read :=
  [.bytes (ascii "GET / HTTP/1.1\r\nTransfer-Encoding: chunked\r\n\r\n3\r\nxyz\r\n0\r\n\r") [],
    .bytes (ascii "\nGET / HTTP/1.1\r\nContent-Length: 1\r\n\r\nAB") []]

theorem pipelined_pair : ReadInTurn .keeping Sent.pair (ascii "B") ⟨[], [], 0⟩ Sent.pairReads := by
  refine (pipelined (R := 128) .keeping Sent.pair_well ⟨by decide, by decide, by decide,
    .cons (by decide) (by decide) (.cons (by decide) (by decide) (.nil _)), by decide⟩).1 ?_
  refine unsplit_cons.mpr ⟨by decide, fun pre m' post h => ?_⟩
  cases pre with
  | nil =>
      cases h
      decide
  | cons _ pre =>
      have hlen := congrArg List.length h
      simp only [List.length_append, List.length_cons, List.length_nil] at hlen
      omega

end MnHttp
