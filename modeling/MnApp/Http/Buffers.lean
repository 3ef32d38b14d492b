/-
# `MnApp.Http.Buffers` — the buffers for the query terms

`mnhttp_uri_add_qterm` adds the sizes of the key and of the value to
`qtermsz`, and `mnhttp_uri_start_request` makes two buffers of

    encsz = qtermsz * 3 + 1

bytes, into which the key and the value of one term after the other are
encoded.  `MnApp.Http.Query` has the sizes as numbers; here they are the
`size_t` they are in the source, and every buffer, size and text the function
works with is noted (`Visit`).

**The two loops.**  `bytes_str_urlencode2` leaves in `sz` what it has used.  The
first term finds new buffers, and for each of the others `sz` is set back
before it is encoded, so that every term finds `encsz` bytes
(`mem_sizedTerms`).

**The sum.**  It dominates every single term as long as it does not wrap.  It
counts a text as often as it is added, so that one large text added many times
takes it past 2^64, after which the buffers are too small.  `RoomFor` says that
nothing wraps: the sum times three, and for each term the size that is passed to
`bytestream_nprintf`.  **The buffers suffice exactly then**
(`buffers_suffice_iff`), and then the request is that of `MnApp.Http.Query`
(`startRequest_eq`).  It is so for every line that a parser could take, whose
length is an `int` (`startRequest_of_line`).
-/
import Mathlib.Algebra.Order.BigOperators.Group.List
import Mathlib.Algebra.Order.Group.Nat
import MnApp.Http.Query

namespace MnHttp

open CLib

/-! ## Sizes as they are -/

/-- `BSZ`, a `size_t`. -/
def bsz (b : List UInt8) : UInt64 := UInt64.ofNat (BSZ b)

/-- `bytes_str_urlencode2` into a buffer of a given size: in one that has three
bytes for each byte of the text and one more, it uses no more than that. -/
structure SizedEncoder where
  encode : Nat → List UInt8 → List UInt8
  used : ∀ sz v, 3 * (BSZ v - 1) + 1 ≤ sz → BSZ (encode sz v) ≤ 3 * (BSZ v - 1) + 1

/-- `mnhttp_uri_t`, with its terms. -/
structure SizedUri where
  uri : Uri
  qterms : Hash
  qtermsz : UInt64

/-- `mnhttp_uri_init`; the parts of the URI are set by `mnhttp_uri_parse`. -/
def SizedUri.init (uri : Uri) : SizedUri := ⟨uri, [], 0⟩

/-- `mnhttp_uri_add_qterm`. -/
def SizedUri.addQterm (H : HashLib) (u : SizedUri) (key value : List UInt8) : SizedUri where
  uri := u.uri
  qterms := H.setItem u.qterms key value
  qtermsz := u.qtermsz + bsz key + bsz value

/-- One call after the other. -/
def SizedUri.added (H : HashLib) (u : SizedUri) (terms : Hash) : SizedUri :=
  terms.foldl (fun u t => u.addQterm H t.1 t.2) u

/-- `keyenc->sz` and `valueenc->sz`. -/
structure EncBuffers where
  keyenc : UInt64
  valueenc : UInt64

/-- An item, with what `mnhttp_uri_start_request` has for it: the sizes of the
buffers before it is encoded, the size it passes to `bytestream_nprintf`, and the
text it formats. -/
structure Visit where
  key : List UInt8
  value : List UInt8
  keyRoom : UInt64
  valueRoom : UInt64
  size : UInt64
  text : List UInt8

section
variable (B : Bytestream) (D : SizedEncoder)

/-- One item is encoded; `sz` of the buffers is then what was used. -/
def SizedEncoder.visit (before : List UInt8) (hit : List UInt8 × List UInt8) (b : EncBuffers) :
    Visit × EncBuffers :=
  let keyenc := D.encode b.keyenc.toNat hit.1
  let valueenc := D.encode b.valueenc.toNat hit.2
  (⟨hit.1, hit.2, b.keyenc, b.valueenc, bsz keyenc + bsz valueenc + 8,
    before ++ (cstr keyenc ++ EQUALS :: cstr valueenc)⟩, ⟨bsz keyenc, bsz valueenc⟩)

/-- The loop over the items: what was returned or written so far, the buffers, and
the items that were visited. -/
structure TermLoop where
  started : Started
  buffers : EncBuffers
  visits : List Visit

/-- The body of the loop. -/
def TermLoop.write (n : Nat) (before : List UInt8) (hit : List UInt8 × List UInt8)
    (l : TermLoop) : TermLoop :=
  let (v, buffers) := D.visit before hit l.buffers
  ⟨startChecked n (B.nprintf l.started.2 v.size.toNat v.text), buffers, l.visits ++ [v]⟩

/-- The item behind another: `sz` of the buffers is set back. -/
def TermLoop.next (encsz : UInt64) (l : TermLoop) (hit : List UInt8 × List UInt8) : TermLoop :=
  match l.started.1 with
  | some _ => l
  | none => TermLoop.write B D 3 [AMP] hit { l with buffers := ⟨encsz, encsz⟩ }

/-- `hash_first`, and then `hash_next` to the end, with new buffers. -/
def sizedTerms (encsz : UInt64) (out : List UInt8) : Hash → TermLoop
  | [] => ⟨(none, out), ⟨encsz, encsz⟩, []⟩
  | hit :: hits =>
      hits.foldl (TermLoop.next B D encsz)
        (TermLoop.write B D 2 [] hit ⟨(none, out), ⟨encsz, encsz⟩, []⟩)

/-- What follows, unless the request was given up. -/
def Started.visiting (w : Started) (f : List UInt8 → Started × List Visit) :
    Started × List Visit :=
  match w with
  | (none, out) => f out
  | (some n, out) => ((some n, out), [])

theorem fits_nil : ∀ t ∈ ([] : Hash), BSZ t.1 + BSZ t.2 ≤ 0 :=
  fun _ h => absurd h List.not_mem_nil

/-- A URI without terms. -/
def QueryUri.bare (uri : Uri) : QueryUri := ⟨uri, [], 0, fits_nil⟩

/-- `mnhttp_uri_start_request`, with the items it visits; `none` is a call that
reads through a NULL `relative`. -/
def SizedUri.startRequest (H : HashLib) (u : SizedUri) (out method : List UInt8) :
    Option (Started × List Visit) :=
  u.uri.relative.map fun rel =>
    let sz := UInt64.ofNat (strlen method) + bsz rel + 16
    let encsz := u.qtermsz * 3 + 1
    let (w, visits) :=
      (startChecked 1 (B.nprintf out sz.toNat (cstr method ++ SP :: cstr (BDATA rel)))).visiting
        fun out =>
          if u.qterms = [] then ((none, out), [])
          else (writeQuery B (.bare u.uri) rel out).visiting fun out =>
            let l := sizedTerms B D encsz out (H.iter u.qterms)
            (l.started, l.visits)
    (w.next fun out => startChecked 4 (B.cat out (ascii " HTTP/1.1\r\n")), visits)

end

/-! ## What is asked -/

/-- What `qtermsz` counts. -/
def total (terms : Hash) : Nat := (terms.map fun t => BSZ t.1 + BSZ t.2).sum

theorem total_cons (t : List UInt8 × List UInt8) (terms : Hash) :
    total (t :: terms) = BSZ t.1 + BSZ t.2 + total terms := List.sum_cons

/-- Both buffers have three times the total and one more, which is enough for the
key and the value, and the size that is passed is larger than the text. -/
structure Visit.Suffices (total : Nat) (v : Visit) : Prop where
  keyRoom : v.keyRoom.toNat = total * 3 + 1
  valueRoom : v.valueRoom.toNat = total * 3 + 1
  key_le : 3 * (BSZ v.key - 1) + 1 ≤ v.keyRoom.toNat
  value_le : 3 * (BSZ v.value - 1) + 1 ≤ v.valueRoom.toNat
  printed : v.text.length < v.size.toNat

/-- After these additions the buffers suffice for every item, whatever the hash, the
encoder and the stream do. -/
def BuffersSuffice (terms : Hash) : Prop :=
  ∀ (H : HashLib) (B : Bytestream) (D : SizedEncoder) (uri : Uri) (out method : List UInt8)
    (w : Started) (visits : List Visit),
    SizedUri.startRequest B D H (SizedUri.added H (.init uri) terms) out method =
      some (w, visits) →
    ∀ v ∈ visits, v.Suffices (total terms)

/-- Nothing wraps. -/
structure RoomFor (terms : Hash) : Prop where
  sum : total terms * 3 + 1 < 2 ^ 64
  each : ∀ t ∈ terms, 3 * (BSZ t.1 + BSZ t.2) + 4 < 2 ^ 64

/-! ## The additions -/

section
variable (H : HashLib)

theorem added_uri (terms : Hash) (u : SizedUri) : (u.added H terms).uri = u.uri := by
  induction terms generalizing u with
  | nil => rfl
  | cons t terms ih => exact ih _

theorem added_qterms (terms : Hash) (u : SizedUri) : (u.added H terms).qterms =
    terms.foldl (fun h t => H.setItem h t.1 t.2) u.qterms := by
  induction terms generalizing u with
  | nil => rfl
  | cons t terms ih => exact ih _

theorem added_qtermsz (terms : Hash) (u : SizedUri) :
    (u.added H terms).qtermsz = u.qtermsz + UInt64.ofNat (total terms) := by
  induction terms generalizing u with
  | nil => exact (UInt64.add_zero _).symm
  | cons t terms ih =>
      refine (ih _).trans ?_
      rw [total_cons, UInt64.ofNat_add, UInt64.ofNat_add]
      simp only [SizedUri.addQterm, bsz, UInt64.add_assoc]

theorem qterms_added (hkeep : ∀ h k v, H.setItem h k v = h ++ [(k, v)]) (terms : Hash)
    (u : SizedUri) : (u.added H terms).qterms = u.qterms ++ terms := by
  induction terms generalizing u with
  | nil => exact (List.append_nil _).symm
  | cons t terms ih =>
      refine (ih _).trans ?_
      simp only [SizedUri.addQterm, hkeep, List.append_assoc, List.singleton_append]

theorem mem_added {terms : Hash} {u : SizedUri} {t : List UInt8 × List UInt8}
    (h : t ∈ (u.added H terms).qterms) : t ∈ u.qterms ∨ t ∈ terms := by
  induction terms generalizing u with
  | nil => exact .inl h
  | cons x terms ih =>
      rcases ih h with h | h
      · rcases H.mem_setItem _ _ _ _ h with rfl | h
        · exact .inr List.mem_cons_self
        · exact .inl h
      · exact .inr (List.mem_cons_of_mem _ h)

theorem le_total {terms : Hash} {t : List UInt8 × List UInt8} (h : t ∈ terms) :
    BSZ t.1 + BSZ t.2 ≤ total terms :=
  List.le_sum_of_mem (List.mem_map_of_mem h)

end

/-! ## The items that are visited -/

section
variable {H : HashLib} {B : Bytestream} {D : SizedEncoder} {encsz : UInt64}

/-- Behind the first, each item finds both buffers as large as they were made. -/
theorem rest_visits (hits : Hash) (l : TermLoop) :
    ∃ more, (hits.foldl (TermLoop.next B D encsz) l).visits = l.visits ++ more ∧
      ∀ v ∈ more, ∃ hit ∈ hits, v = (D.visit [AMP] hit ⟨encsz, encsz⟩).1 := by
  induction hits generalizing l with
  | nil => exact ⟨[], (List.append_nil _).symm, fun v hv => absurd hv List.not_mem_nil⟩
  | cons hit hits ih =>
      obtain ⟨more, hmore, hfrom⟩ := ih (TermLoop.next B D encsz l hit)
      have hrest : ∀ v ∈ more, ∃ x ∈ hit :: hits, v = (D.visit [AMP] x ⟨encsz, encsz⟩).1 := by
        intro v hv
        obtain ⟨x, hx, hv⟩ := hfrom v hv
        exact ⟨x, List.mem_cons_of_mem _ hx, hv⟩
      rw [List.foldl_cons, hmore]
      cases hstarted : l.started.1 with
      | some n => exact ⟨more, by simp only [TermLoop.next, hstarted], hrest⟩
      | none =>
          refine ⟨(D.visit [AMP] hit ⟨encsz, encsz⟩).1 :: more, ?_, ?_⟩
          · simp only [TermLoop.next, hstarted, TermLoop.write, List.append_assoc,
              List.singleton_append]
          · intro v hv
            rcases List.mem_cons.mp hv with rfl | hv
            · exact ⟨hit, List.mem_cons_self, rfl⟩
            · exact hrest v hv

theorem sizedTerms_visits (B : Bytestream) (D : SizedEncoder) (encsz : UInt64) (out : List UInt8)
    (hit : List UInt8 × List UInt8) (hits : Hash) :
    ∃ more, (sizedTerms B D encsz out (hit :: hits)).visits =
        (D.visit [] hit ⟨encsz, encsz⟩).1 :: more ∧
      ∀ v ∈ more, ∃ x ∈ hits, v = (D.visit [AMP] x ⟨encsz, encsz⟩).1 :=
  rest_visits hits _

theorem mem_sizedTerms {out : List UInt8} {hits : Hash} {v : Visit}
    (h : v ∈ (sizedTerms B D encsz out hits).visits) :
    ∃ hit ∈ hits, ∃ before : List UInt8, before.length ≤ 1 ∧
      v = (D.visit before hit ⟨encsz, encsz⟩).1 := by
  cases hits with
  | nil => exact absurd h List.not_mem_nil
  | cons hit hits =>
      obtain ⟨more, hvisits, hmore⟩ := sizedTerms_visits B D encsz out hit hits
      rw [hvisits] at h
      rcases List.mem_cons.mp h with rfl | h
      · exact ⟨hit, List.mem_cons_self, [], Nat.zero_le _, rfl⟩
      · obtain ⟨x, hx, hv⟩ := hmore v h
        exact ⟨x, List.mem_cons_of_mem _ hx, [AMP], Nat.le_refl _, hv⟩

theorem mem_visiting {w : Started} {f : List UInt8 → Started × List Visit} {v : Visit}
    (h : v ∈ (w.visiting f).2) : ∃ out, v ∈ (f out).2 := by
  obtain ⟨_ | n, out⟩ := w
  · exact ⟨out, h⟩
  · exact absurd h List.not_mem_nil

theorem visiting_fst (w : Started) (f : List UInt8 → Started × List Visit) :
    (w.visiting f).1 = w.next fun out => (f out).1 := by
  obtain ⟨_ | n, out⟩ := w <;> rfl

theorem mem_startRequest {u : SizedUri} {out method : List UInt8} {w : Started}
    {visits : List Visit} (h : u.startRequest B D H out method = some (w, visits)) {v : Visit}
    (hv : v ∈ visits) :
    ∃ out, v ∈ (sizedTerms B D (u.qtermsz * 3 + 1) out (H.iter u.qterms)).visits := by
  obtain ⟨rel, -, h⟩ := Option.map_eq_some_iff.mp h
  obtain ⟨-, rfl⟩ := Prod.mk.inj h
  obtain ⟨out, hv⟩ := mem_visiting hv
  split at hv
  · exact absurd hv List.not_mem_nil
  · exact mem_visiting hv

end

/-! ## When they suffice -/

theorem encsz_eq (H : HashLib) (uri : Uri) (terms : Hash) :
    (SizedUri.added H (.init uri) terms).qtermsz * 3 + 1 = UInt64.ofNat (total terms * 3 + 1) := by
  rw [added_qtermsz, UInt64.ofNat_add, UInt64.ofNat_mul]
  exact congrArg (fun n : UInt64 => n * 3 + 1) (UInt64.zero_add _)

theorem toNat_encsz (H : HashLib) (uri : Uri) (terms : Hash) :
    ((SizedUri.added H (.init uri) terms).qtermsz * 3 + 1).toNat =
      (total terms * 3 + 1) % 2 ^ 64 := by
  rw [encsz_eq, UInt64.toNat_ofNat']

theorem toNat_bsz (key value : List UInt8) :
    (bsz key + bsz value + 8).toNat = (BSZ key + BSZ value + 8) % 2 ^ 64 := by
  rw [← UInt64.toNat_ofNat', UInt64.ofNat_add, UInt64.ofNat_add]
  rfl

theorem length_cstr_le (p : List UInt8) : (cstr p).length ≤ p.length :=
  (List.takeWhile_sublist _).length_le

/-- The buffers are large enough for an item, and its size does not wrap. -/
structure ItemFits (encsz : UInt64) (hit : List UInt8 × List UInt8) : Prop where
  key : 3 * (BSZ hit.1 - 1) + 1 ≤ encsz.toNat
  value : 3 * (BSZ hit.2 - 1) + 1 ≤ encsz.toNat
  size : 3 * (BSZ hit.1 + BSZ hit.2) + 4 < 2 ^ 64

theorem ItemFits.size_eq {encsz : UInt64} {hit : List UInt8 × List UInt8}
    (h : ItemFits encsz hit) (D : SizedEncoder) :
    (bsz (D.encode encsz.toNat hit.1) + bsz (D.encode encsz.toNat hit.2) + 8).toNat =
      BSZ (D.encode encsz.toNat hit.1) + BSZ (D.encode encsz.toNat hit.2) + 8 := by
  have hkey := D.used _ _ h.key
  have hvalue := D.used _ _ h.value
  have hsize := h.size
  rw [toNat_bsz, Nat.mod_eq_of_lt]
  unfold BSZ at *
  omega

theorem ItemFits.printed {encsz : UInt64} {hit : List UInt8 × List UInt8} (h : ItemFits encsz hit)
    (D : SizedEncoder) {before : List UInt8} (hbefore : before.length ≤ 1) :
    (D.visit before hit ⟨encsz, encsz⟩).1.text.length <
      (D.visit before hit ⟨encsz, encsz⟩).1.size.toNat := by
  have hkey := length_cstr_le (D.encode encsz.toNat hit.1)
  have hvalue := length_cstr_le (D.encode encsz.toNat hit.2)
  simp only [SizedEncoder.visit, h.size_eq D, List.length_append, List.length_cons, BSZ]
  omega

theorem RoomFor.itemFits {terms : Hash} (hroom : RoomFor terms) (H : HashLib) (uri : Uri)
    {hit : List UInt8 × List UInt8}
    (h : hit ∈ H.iter (SizedUri.added H (.init uri) terms).qterms) :
    ItemFits ((SizedUri.added H (.init uri) terms).qtermsz * 3 + 1) hit := by
  have hmem : hit ∈ terms :=
    (mem_added H ((H.iter_perm _).mem_iff.mp h)).resolve_left List.not_mem_nil
  have hle := le_total hmem
  have hencsz := (toNat_encsz H uri terms).trans (Nat.mod_eq_of_lt hroom.sum)
  exact ⟨by omega, by omega, hroom.each hit hmem⟩

theorem RoomFor.suffices {terms : Hash} (hroom : RoomFor terms) : BuffersSuffice terms := by
  intro H B D uri out method w visits h v hv
  obtain ⟨out', hv⟩ := mem_startRequest h hv
  obtain ⟨hit, hhit, before, hbefore, rfl⟩ := mem_sizedTerms hv
  have hfits := hroom.itemFits H uri hhit
  have hencsz := (toNat_encsz H uri terms).trans (Nat.mod_eq_of_lt hroom.sum)
  exact ⟨hencsz, hencsz, hfits.key, hfits.value, hfits.printed D hbefore⟩

/-! ## When they do not -/

/-- A hash that keeps everything, and has one item in front. -/
def HashLib.fronted (t : List UInt8 × List UInt8) : HashLib where
  setItem h k v := h ++ [(k, v)]
  iter h := if t ∈ h then t :: h.erase t else h
  mem_setItem := HashLib.plain.mem_setItem
  setItem_new := HashLib.plain.setItem_new
  iter_perm h := by
    split
    · rename_i ht
      exact (List.perm_cons_erase ht).symm
    · exact .refl _

theorem length_flatMap_percentByte (v : List UInt8) :
    (v.flatMap percentByte).length = 3 * v.length := by
  induction v with
  | nil => rfl
  | cons c v ih =>
      rw [List.flatMap_cons, List.length_append, ih, List.length_cons]
      simp only [percentByte, List.length_cons, List.length_nil]
      omega

/-- An encoder that escapes every byte. -/
def SizedEncoder.percent : SizedEncoder where
  encode _ v := v.flatMap percentByte
  used _ v _ := by
    simp only [BSZ, length_flatMap_percentByte, Nat.add_sub_cancel, Nat.le_refl]

theorem percent_visit (hit : List UInt8 × List UInt8) (b : EncBuffers) :
    (SizedEncoder.percent.visit [] hit b).1.text.length + 9 = 3 * (BSZ hit.1 + BSZ hit.2) + 4 ∧
      (SizedEncoder.percent.visit [] hit b).1.size.toNat =
        (3 * (BSZ hit.1 + BSZ hit.2) + 4) % 2 ^ 64 := by
  have hcstr : ∀ v : List UInt8, cstr (v.flatMap percentByte) = v.flatMap percentByte :=
    fun v => cstr_of_no_nul fun b hb => by
      obtain ⟨c, -, hc⟩ := List.mem_flatMap.mp hb
      exact (percentByte_clean c b hc).2.2.2.2.2.2.2.2
  constructor
  · simp only [SizedEncoder.visit, SizedEncoder.percent, hcstr, List.nil_append,
      List.length_append, List.length_cons, length_flatMap_percentByte, BSZ]
    omega
  · simp only [SizedEncoder.visit, SizedEncoder.percent, toNat_bsz, BSZ,
      length_flatMap_percentByte]
    congr 1
    omega

/-- A URI with a relative part. -/
def Uri.root : Uri := { Uri.init with relative := some (ascii "/") }

theorem startRequest_first (H : HashLib) (D : SizedEncoder) {u : SizedUri} (huri : u.uri = .root)
    {hit : List UInt8 × List UInt8} {hits : Hash} (hiter : H.iter u.qterms = hit :: hits) :
    ∃ w more, u.startRequest .plain D H [] (ascii "GET") = some (w,
      (D.visit [] hit ⟨u.qtermsz * 3 + 1, u.qtermsz * 3 + 1⟩).1 :: more) := by
  have hne : u.qterms ≠ [] := by
    intro hnil
    have hperm := H.iter_perm u.qterms
    rw [hiter, hnil] at hperm
    exact absurd hperm.eq_nil (List.cons_ne_nil _ _)
  have hrel : u.uri.relative = some (ascii "/") := by
    rw [huri]
    rfl
  have hline : startChecked 1 (Bytestream.plain.nprintf []
      (UInt64.ofNat (strlen (ascii "GET")) + bsz (ascii "/") + 16).toNat
      (cstr (ascii "GET") ++ SP :: cstr (BDATA (ascii "/")))) = (none, ascii "GET /") := by decide
  obtain ⟨more, hvisits, -⟩ := sizedTerms_visits .plain D (u.qtermsz * 3 + 1)
    (ascii "GET /" ++ if u.uri.qstring = none then [QUERY] else []) hit hits
  unfold SizedUri.startRequest
  simp only [hrel, Option.map_some, hline, hiter, Started.visiting, if_neg hne, writeQuery_eq]
  exact ⟨_, more, congrArg some (Prod.ext rfl hvisits)⟩

theorem roomFor_of_suffice {terms : Hash} (h : BuffersSuffice terms) : RoomFor terms := by
  -- every item is the first to be visited in some hash
  have hfirst : ∀ t ∈ terms, ∃ v : Visit, v.Suffices (total terms) ∧
      v.keyRoom.toNat = (total terms * 3 + 1) % 2 ^ 64 ∧
      v.text.length + 9 = 3 * (BSZ t.1 + BSZ t.2) + 4 ∧
      v.size.toNat = (3 * (BSZ t.1 + BSZ t.2) + 4) % 2 ^ 64 := by
    intro t ht
    let u := SizedUri.added (.fronted t) (.init .root) terms
    have hmem : t ∈ u.qterms := by
      rw [qterms_added _ (fun _ _ _ => rfl)]
      exact ht
    obtain ⟨w, more, hrun⟩ := startRequest_first (.fronted t) .percent
      (added_uri _ terms _) (u := u) (if_pos hmem)
    have hroom := toNat_encsz (.fronted t) .root terms
    obtain ⟨htext, hsize⟩ := percent_visit t ⟨u.qtermsz * 3 + 1, u.qtermsz * 3 + 1⟩
    exact ⟨_, h _ _ _ _ _ _ _ _ hrun _ List.mem_cons_self, hroom, htext, hsize⟩
  constructor
  · cases terms with
    | nil => decide
    | cons t terms =>
        obtain ⟨v, hv, hroom, -⟩ := hfirst t List.mem_cons_self
        have := hv.keyRoom
        omega
  · intro t ht
    obtain ⟨v, hv, -, htext, hsize⟩ := hfirst t ht
    have := hv.printed
    omega

/-- **The buffers suffice exactly when nothing wraps.** -/
theorem buffers_suffice_iff (terms : Hash) : BuffersSuffice terms ↔ RoomFor terms :=
  ⟨roomFor_of_suffice, RoomFor.suffices⟩

/-- A total of 2^64 is a sum of 0, and the first text is encoded into one byte. -/
theorem wrapped_first {t : List UInt8 × List UInt8} {ts : Hash}
    (htotal : total (t :: ts) = 2 ^ 64) :
    (SizedUri.added .plain (.init .root) (t :: ts)).qtermsz = 0 ∧
    ∃ w v more, SizedUri.startRequest .plain .percent .plain
        (SizedUri.added .plain (.init .root) (t :: ts)) [] (ascii "GET") = some (w, v :: more) ∧
      v.key = t.1 ∧ v.keyRoom = 1 := by
  have hsum : (SizedUri.added .plain (.init .root) (t :: ts)).qtermsz = 0 := by
    rw [added_qtermsz, htotal]
    rfl
  have hiter : HashLib.plain.iter (SizedUri.added .plain (.init .root) (t :: ts)).qterms =
      t :: ts :=
    qterms_added .plain (fun _ _ _ => rfl) _ _
  obtain ⟨w, more, hrun⟩ := startRequest_first .plain .percent (added_uri _ _ _) hiter
  refine ⟨hsum, w, _, more, hrun, rfl, ?_⟩
  show (SizedUri.added .plain (.init .root) (t :: ts)).qtermsz * 3 + 1 = 1
  rw [hsum]
  rfl

/-- 32 GiB, with the NUL. -/
def bigText : List UInt8 := List.replicate (2 ^ 35 - 1) 97

/-- It is key and value of 2^28 terms. -/
def manyTerms : Hash := (bigText, bigText) :: List.replicate (2 ^ 28 - 1) (bigText, bigText)

theorem BSZ_bigText : BSZ bigText = 2 ^ 35 := by
  have hlen : bigText.length = 2 ^ 35 - 1 := List.length_replicate
  rw [BSZ, hlen]
  rfl

theorem total_replicate (n : Nat) (t : List UInt8 × List UInt8) :
    total (List.replicate n t) = n * (BSZ t.1 + BSZ t.2) := by
  unfold total
  rw [List.map_replicate, List.sum_replicate_nat]

theorem total_manyTerms : total manyTerms = 2 ^ 64 := by
  rw [manyTerms, total_cons, total_replicate]
  simp only [BSZ_bigText]
  rfl

/-- **A key of 2^35 bytes has a buffer of one.** -/
theorem buffers_short :
    (SizedUri.added .plain (.init .root) manyTerms).qtermsz = 0 ∧
    (∃ w v more, SizedUri.startRequest .plain .percent .plain
        (SizedUri.added .plain (.init .root) manyTerms) [] (ascii "GET") = some (w, v :: more) ∧
      v.key = bigText ∧ v.keyRoom = 1 ∧ 3 * (BSZ v.key - 1) + 1 = 103079215102) ∧
    ¬ BuffersSuffice manyTerms := by
  obtain ⟨hsum, w, v, more, hrun, hkey, hroom⟩ := wrapped_first total_manyTerms
  refine ⟨hsum, ⟨w, v, more, hrun, hkey, hroom, ?_⟩, fun h => ?_⟩
  · rw [hkey, BSZ_bigText]
    rfl
  · have hlt := (roomFor_of_suffice h).sum
    rw [total_manyTerms] at hlt
    omega

/-! ## The request is the one with unbounded sizes -/

section
variable {H : HashLib} {B : Bytestream} {D : SizedEncoder} {C : UrlCodec} {encsz : UInt64}
  {n : Nat}

theorem write_started (hD : D.encode = C.encode) (n : Nat) (before : List UInt8)
    {hit : List UInt8 × List UInt8} (hfits : ItemFits encsz hit) (w : Started)
    (visits : List Visit) :
    (TermLoop.write B D n before hit ⟨w, ⟨encsz, encsz⟩, visits⟩).started =
      writeTerm B C encsz.toNat n before hit w.2 := by
  have hsize := hfits.size_eq D
  simp only [TermLoop.write, SizedEncoder.visit, writeTerm, ← hD, hsize]

theorem next_started (hD : D.encode = C.encode) {hit : List UInt8 × List UInt8}
    (hfits : ItemFits encsz hit) (l : TermLoop) :
    (TermLoop.next B D encsz l hit).started =
      l.started.next (writeTerm B C encsz.toNat 3 [AMP] hit) := by
  obtain ⟨⟨_ | n, out⟩, buffers, visits⟩ := l
  · exact write_started hD 3 [AMP] hfits _ _
  · rfl

theorem rest_started (hD : D.encode = C.encode) (hits : Hash) (l : TermLoop)
    (hfits : ∀ hit ∈ hits, ItemFits encsz hit) :
    (hits.foldl (TermLoop.next B D encsz) l).started =
      hits.foldl (fun w hit => Started.next w (writeTerm B C encsz.toNat 3 [AMP] hit))
        l.started := by
  induction hits generalizing l with
  | nil => rfl
  | cons hit hits ih =>
      rw [List.foldl_cons, List.foldl_cons, ih _ fun x hx => hfits x (List.mem_cons_of_mem _ hx),
        next_started hD (hfits hit List.mem_cons_self)]

theorem sizedTerms_started (hD : D.encode = C.encode) (out : List UInt8) {hits : Hash}
    (hfits : ∀ hit ∈ hits, ItemFits encsz hit) :
    (sizedTerms B D encsz out hits).started = writeTerms B C encsz.toNat out hits := by
  cases hits with
  | nil => rfl
  | cons hit hits =>
      refine (rest_started hD hits _ fun x hx => hfits x (List.mem_cons_of_mem _ hx)).trans ?_
      rw [write_started hD 2 [] (hfits hit List.mem_cons_self)]
      rfl

theorem addQterms_qtermsz (terms : Hash) (u : QueryUri) :
    (addQterms H u terms).qtermsz = u.qtermsz + total terms := by
  induction terms generalizing u with
  | nil => rfl
  | cons t terms ih =>
      refine (ih _).trans ?_
      simp only [mnhttpUriAddQterm, total_cons, Nat.add_assoc]

/-- **Where nothing wraps, the request is the one of `MnApp.Http.Query`.** -/
theorem startRequest_eq (hD : D.encode = C.encode) {terms : Hash} (hroom : RoomFor terms)
    (uri : Uri) (out method : List UInt8)
    (hline : ∀ rel, uri.relative = some rel → strlen method + BSZ rel + 16 < 2 ^ 64) :
    (SizedUri.startRequest B D H (SizedUri.added H (.init uri) terms) out method).map Prod.fst =
      mnhttpUriStartRequest H B C (addQterms H (.bare uri) terms) out method := by
  have huri : (SizedUri.added H (.init uri) terms).uri = uri := added_uri H terms _
  have huri' : (addQterms H (.bare uri) terms).uri = uri := addQterms_uri H terms _
  have hqterms : (addQterms H (.bare uri) terms).qterms =
      (SizedUri.added H (.init uri) terms).qterms :=
    (addQterms_qterms H terms (.bare uri)).trans (added_qterms H terms (.init uri)).symm
  have hencsz : (addQterms H (.bare uri) terms).qtermsz * 3 + 1 =
      ((SizedUri.added H (.init uri) terms).qtermsz * 3 + 1).toNat := by
    rw [toNat_encsz, Nat.mod_eq_of_lt hroom.sum, addQterms_qtermsz]
    exact congrArg (fun n => n * 3 + 1) (Nat.zero_add _)
  have hterms := fun out => sizedTerms_started (B := B) hD out
    (fun hit (hit_mem : hit ∈ H.iter _) => hroom.itemFits H uri hit_mem)
  have hquery : ∀ rel out, writeQuery B (.bare uri) rel out =
      writeQuery B (addQterms H (.bare uri) terms) rel out := by
    intro rel out
    rw [writeQuery_eq, writeQuery_eq, huri']
    rfl
  cases hrel : uri.relative with
  | none => simp only [SizedUri.startRequest, mnhttpUriStartRequest, huri, huri', hrel,
      Option.map_none]
  | some rel =>
      have hsz : (UInt64.ofNat (strlen method) + bsz rel + 16).toNat =
          strlen method + BSZ rel + 16 := by
        rw [← Nat.mod_eq_of_lt (hline rel hrel), ← UInt64.toNat_ofNat', UInt64.ofNat_add,
          UInt64.ofNat_add]
        rfl
      simp only [SizedUri.startRequest, mnhttpUriStartRequest, huri, huri', hrel, hsz, hqterms,
        hencsz, Option.map_some, visiting_fst, apply_ite Prod.fst, hterms, hquery]

theorem bsz_le_termText (hlong : ∀ v, v.length ≤ (C.encode n v).length)
    (t : List UInt8 × List UInt8) : BSZ t.1 + BSZ t.2 ≤ 2 * (termText C n t).length := by
  have hkey := hlong t.1
  have hvalue := hlong t.2
  simp only [termText, List.length_append, List.length_cons, BSZ]
  omega

/-- With an encoder that shortens nothing, the terms count for no more than twice what
is written. -/
theorem total_le_queryText (hlong : ∀ v, v.length ≤ (C.encode n v).length) (ts : Hash) :
    total ts ≤ 2 * (queryText C n ts).length := by
  have hrest : ∀ ts : Hash,
      total ts ≤ 2 * (ts.flatMap fun t => AMP :: termText C n t).length := by
    intro ts
    induction ts with
    | nil => exact Nat.le_refl 0
    | cons t ts ih =>
        have hterm := bsz_le_termText hlong t
        rw [total_cons, List.flatMap_cons, List.length_append, List.length_cons]
        omega
  cases ts with
  | nil => exact Nat.le_refl 0
  | cons t ts =>
      have hterm := bsz_le_termText hlong t
      have hmore := hrest ts
      rw [total_cons, queryText, List.length_append]
      omega

/-- **A line that the parser can take has room for its terms.** -/
theorem roomFor_of_line (hlong : ∀ v, v.length ≤ (C.encode n v).length) {ts terms : Hash}
    (hperm : ts.Perm terms) (hline : ((queryText C n ts).length : Int) ≤ intMax) :
    RoomFor terms := by
  have hsame : total ts = total terms := (hperm.map _).sum_nat
  have hle := total_le_queryText hlong ts
  have hmax : intMax = 2147483647 := rfl
  refine ⟨by omega, fun t ht => ?_⟩
  have := le_total ht
  omega

/-- A request whose line is short enough for the parser is the one of `MnApp.Http.Query`. -/
theorem startRequest_of_line (hD : D.encode = C.encode)
    (hlong : ∀ sz v, v.length ≤ (C.encode sz v).length) {terms : Hash}
    (hkeys : (terms.map Prod.fst).Nodup) {uri : Uri} {rel : List UInt8}
    (hrel : uri.relative = some rel) (out method : List UInt8)
    (hline : ((strlen method + rel.length +
      ((addQterms H (.bare uri) terms).tail H C).length : Nat) : Int) ≤ intMax) :
    (SizedUri.startRequest B D H (SizedUri.added H (.init uri) terms) out method).map Prod.fst =
      mnhttpUriStartRequest H B C (addQterms H (.bare uri) terms) out method := by
  have hmax : intMax = 2147483647 := rfl
  have hperm : (addQterms H (.bare uri) terms).qterms.Perm terms := by
    rw [addQterms_qterms]
    exact setItems_perm H terms [] hkeys fun _ _ h => absurd h List.not_mem_nil
  have hroom : RoomFor terms := by
    by_cases hnil : (addQterms H (.bare uri) terms).qterms = []
    · rw [hnil, List.nil_perm] at hperm
      rw [hperm]
      exact ⟨by decide, fun t ht => absurd ht List.not_mem_nil⟩
    · rw [QueryUri.tail, if_neg hnil, List.length_append] at hline
      exact roomFor_of_line (hlong ((addQterms H (.bare uri) terms).qtermsz * 3 + 1))
        ((H.iter_perm _).trans hperm) (by omega)
  refine startRequest_eq hD hroom uri out method fun rel' hrel' => ?_
  cases hrel.symm.trans hrel'
  unfold BSZ
  omega

end

end MnHttp
