/-
# `MnApp.Client.Identity` — connections are told apart by 64 bits

`mnhttpc_connection_cmp` compares two connections by their hashes and by
nothing else.  The hash is chained from those of the proxy, the host and the
port and kept in the connection, with 0 for one that is not computed yet;
keeping it makes no difference (`connectionHash_fst`).  What it does mean:

* two descriptors compare equal exactly when their hashes are the same
  (`connectionCmp_eq_zero_iff`), and whatever the hash functions are, there are
  different ones for which they are (`exists_collision`);
* a sequence of `mnhttpc_new` calls gives each request the connection it asked
  for exactly when no two of the calls that are accepted collide
  (`boundExactly_iff`).  If two do, then the second is bound to the proxy of the
  first, or it fails an assertion and ends the process (`exists_abort`).
-/
import Mathlib.Data.Fintype.Pigeonhole
import MnApp.Client.Cache
import MnApp.Http.UriParts

namespace MnHttpc

open MnHttp CLib Run

/-! ## Comparing two connections -/

section
variable (H : Hasher)

/-- A `mnhttpc_connection_t` as far as it is compared: 0 for a hash that is not
computed yet. -/
structure Descriptor where
  key : Key
  hash : UInt64
  cached : hash = 0 ∨ hash = H.connectionHash key

variable {H}

/-- `mnhttpc_connection_hash`, with the connection it leaves. -/
def mnhttpcConnectionHash (conn : Descriptor H) : UInt64 × Descriptor H :=
  if h : conn.hash = 0 then
    let hash := H.chain conn.hash conn.key
    (hash, { conn with
      hash := hash
      cached := .inr (by rw [show hash = H.chain conn.hash conn.key from rfl, h]; rfl) })
  else (conn.hash, conn)

/-- `MNCMP`. -/
def mncmp (a b : UInt64) : Int := if a < b then -1 else if b < a then 1 else 0

/-- `mnhttpc_connection_cmp`. -/
def mnhttpcConnectionCmp (a b : Descriptor H) : Int :=
  mncmp (mnhttpcConnectionHash a).1 (mnhttpcConnectionHash b).1

/-- The hash does not depend on whether it was there already. -/
theorem connectionHash_fst (conn : Descriptor H) :
    (mnhttpcConnectionHash conn).1 = H.connectionHash conn.key := by
  unfold mnhttpcConnectionHash
  by_cases h : conn.hash = 0
  · rw [dif_pos h]
    simp only [h, Hasher.connectionHash]
  · rw [dif_neg h]
    exact conn.cached.resolve_left h

theorem mncmp_eq_zero_iff (a b : UInt64) : mncmp a b = 0 ↔ a = b := by
  unfold mncmp
  constructor
  · intro h
    by_cases hab : a < b
    · rw [if_pos hab] at h
      cases h
    · by_cases hba : b < a
      · rw [if_neg hab, if_pos hba] at h
        cases h
      · rw [UInt64.lt_iff_toNat_lt] at hab hba
        exact UInt64.toNat_inj.mp (by omega)
  · rintro rfl
    rw [if_neg (by rw [UInt64.lt_iff_toNat_lt]; omega), if_neg (by
      rw [UInt64.lt_iff_toNat_lt]; omega)]

theorem connectionCmp_eq_zero_iff (a b : Descriptor H) :
    mnhttpcConnectionCmp a b = 0 ↔ H.connectionHash a.key = H.connectionHash b.key := by
  unfold mnhttpcConnectionCmp
  rw [mncmp_eq_zero_iff, connectionHash_fst, connectionHash_fst]

theorem connectionCmpEq_iff (a b : Descriptor H) :
    H.connectionCmpEq a.key b.key = true ↔ mnhttpcConnectionCmp a b = 0 := by
  rw [connectionCmp_eq_zero_iff]
  exact beq_iff_eq

end

/-! ## There are collisions -/

theorem exists_collision (H : Hasher) (f : Nat → Key) :
    ∃ m n, m ≠ n ∧ H.connectionHash (f m) = H.connectionHash (f n) := by
  obtain ⟨m, n, hne, heq⟩ := Finite.exists_ne_map_eq_of_infinite
    fun n => (⟨(H.connectionHash (f n)).toNat, UInt64.toNat_lt _⟩ : Fin (2 ^ 64))
  exact ⟨m, n, hne, UInt64.toNat_inj.mp (Fin.mk.inj heq)⟩

/-- `http://aa..a/`. -/
def hostText (n : Nat) : List UInt8 :=
  ascii "http://" ++ (List.replicate (n + 1) 97 ++ [SLASH])

def hostCall (n : Nat) : NewCall := ⟨none, none, hostText n⟩

theorem splitScheme_http (rest : List UInt8) :
    splitScheme (ascii "http://" ++ rest) = (.http, rest) := rfl

theorem hostText_parts (n : Nat) : schemeOf (hostText n) = .http ∧
    authorityOf (hostText n) = List.replicate (n + 1) 97 ∧ restOf (hostText n) = [SLASH] := by
  have hcstr : cstr (hostText n) = hostText n := by
    refine cstr_of_no_nul fun b hb => ?_
    rcases List.mem_append.mp hb with hb | hb
    · exact (by decide : ∀ b ∈ ascii "http://", b ≠ NUL) b hb
    · rcases List.mem_append.mp hb with hb | hb
      · rw [List.eq_of_mem_replicate hb]
        decide
      · rw [List.mem_singleton.mp hb]
        decide
  have hslash : SLASH ∉ List.replicate (n + 1) (97 : UInt8) := fun h =>
    absurd (List.eq_of_mem_replicate h) (by decide)
  have hbehind : behindScheme (hostText n) = List.replicate (n + 1) 97 ++ [SLASH] := by
    unfold behindScheme
    rw [hcstr, hostText, splitScheme_http]
  refine ⟨?_, ?_, ?_⟩
  · unfold schemeOf
    rw [hcstr, hostText, splitScheme_http]
  · unfold authorityOf
    rw [hbehind, Cut.before_append_cons hslash]
  · unfold restOf
    rw [hbehind, Cut.behind_append_cons hslash]
    rfl

theorem hostCall_key (n : Nat) : (hostCall n).accepted = true ∧
    (hostCall n).key = ⟨none, none, some (List.replicate (n + 1) 97), some (ascii "80")⟩ := by
  obtain ⟨hscheme, hauth, hrest⟩ := hostText_parts n
  have hno : ∀ b : UInt8, b ≠ 97 → b ∉ List.replicate (n + 1) (97 : UInt8) := fun b hb h =>
    hb (List.eq_of_mem_replicate h)
  have hhost : hostPort (List.replicate (n + 1) (97 : UInt8)) = List.replicate (n + 1) 97 := by
    unfold hostPort
    rw [Cut.behind_of_not_mem (hno AT (by decide))]
    rfl
  have hparts : partsOf (hostText n) = { Uri.init with
      scheme := .http
      host := some (List.replicate (n + 1) 97)
      relative := some [SLASH]
      path := some [SLASH] } := by
    unfold partsOf Uri.withAuthority userInfo
    rw [hscheme, hauth, hrest, hhost, Cut.behind_of_not_mem (hno AT (by decide)),
      Cut.before_of_not_mem (hno COLON (by decide)), Cut.behind_of_not_mem (hno COLON (by decide))]
    rfl
  have hparse := mnhttpUriParse_parts (hostText n)
  rw [fill_fields, hparts] at hparse
  constructor
  · unfold NewCall.accepted hostCall
    rw [hparse]
    rfl
  · unfold NewCall.key hostCall
    rw [hparse]
    rfl

/-! ## Calls -/

section
variable {H : Hasher}

/-- All calls return, and each request is bound to a connection to the proxy,
host and port it asked for. -/
def BoundExactly (H : Hasher) (calls : List NewCall) : Prop :=
  ∃ cli, exec (mnhttpcNew H) .init calls = some cli ∧
    ∀ r ∈ cli.requests, ∃ x, cli.connections[r.connection]? = some x ∧ x.key = r.key

/-- Two calls that are accepted have different keys and the same hash. -/
def Colliding (H : Hasher) (calls : List NewCall) : Prop :=
  ∃ c ∈ calls, ∃ c' ∈ calls, c.accepted = true ∧ c'.accepted = true ∧ c.key ≠ c'.key ∧
    H.connectionHash c.key = H.connectionHash c'.key

/-- What holds of the client when the calls before were all served as they
asked: its connections are to what one of them asked for. -/
structure Tabled (calls : List NewCall) (cli : Cli) : Prop where
  connection : ∀ x ∈ cli.connections, ∃ c ∈ calls, c.accepted = true ∧ x.key = c.key
  request : ∀ r ∈ cli.requests, ∃ x, cli.connections[r.connection]? = some x ∧ x.key = r.key

theorem bind_exact {cli : Cli} {c : NewCall} {i : Nat} {x : Cached}
    (hx : cli.connections[i]? = some x) (hkey : x.key = c.key) :
    cli.bind c i = some { cli with
      requests := cli.requests ++ [⟨mnhttpUriParse c.uri, c.key, i⟩] } := by
  unfold Cli.bind
  rw [hx]
  simp only [hkey, and_self, if_true]

theorem Tabled.new {done : List NewCall} {cli : Cli} {c : NewCall} (h : Tabled done cli)
    (hno : c.accepted = true → ∀ d ∈ done, d.accepted = true →
      H.connectionHash d.key = H.connectionHash c.key → d.key = c.key) :
    ∃ cli', mnhttpcNew H cli c = some cli' ∧ Tabled (done ++ [c]) cli' := by
  have hold : ∀ x ∈ cli.connections, ∃ d ∈ done ++ [c], d.accepted = true ∧ x.key = d.key := by
    intro x hx
    obtain ⟨d, hd, hdx⟩ := h.connection x hx
    exact ⟨d, List.mem_append_left _ hd, hdx⟩
  by_cases hacc : c.accepted = true
  · cases hget : cli.getItem H c.key with
    | some i =>
        obtain ⟨hlt, hcmp, -⟩ := List.findIdx?_eq_some_iff_getElem.mp hget
        have hx : cli.connections[i]? = some cli.connections[i] := List.getElem?_eq_getElem hlt
        obtain ⟨d, hd, hdacc, hkey⟩ := h.connection _ (List.mem_of_getElem? hx)
        have hhash : H.connectionHash d.key = H.connectionHash c.key := by
          rw [← hkey]
          exact beq_iff_eq.mp hcmp
        have hsame : cli.connections[i].key = c.key := hkey.trans (hno hacc d hd hdacc hhash)
        refine ⟨{ cli with requests := cli.requests ++ [⟨mnhttpUriParse c.uri, c.key, i⟩] }, ?_,
          hold, fun r hr => ?_⟩
        · unfold mnhttpcNew
          rw [if_pos hacc, hget]
          exact bind_exact hx hsame
        · rcases List.mem_append.mp hr with hr | hr
          · exact h.request r hr
          · cases List.mem_singleton.mp hr
            exact ⟨_, hx, hsame⟩
    | none =>
        generalize hfresh : (⟨c.key, Sys.init (mnhttpUriParse c.uri).scheme⟩ : Cached) = fresh
        have hkey : fresh.key = c.key := by rw [← hfresh]
        have hx : (cli.connections ++ [fresh])[cli.connections.length]? = some fresh :=
          List.getElem?_concat_length
        refine ⟨⟨cli.connections ++ [fresh], cli.requests ++
          [⟨mnhttpUriParse c.uri, c.key, cli.connections.length⟩]⟩, ?_, fun x hx => ?_,
          fun r hr => ?_⟩
        · unfold mnhttpcNew
          rw [if_pos hacc, hget]
          simp only [hfresh]
          exact bind_exact hx hkey
        · rcases List.mem_append.mp hx with hx | hx
          · exact hold x hx
          · rw [List.mem_singleton.mp hx]
            exact ⟨c, List.mem_append_right _ List.mem_cons_self, hacc, hkey⟩
        · rcases List.mem_append.mp hr with hr | hr
          · obtain ⟨x, hx, hkey⟩ := h.request r hr
            have hlt := (List.getElem?_eq_some_iff.mp hx).1
            exact ⟨x, (List.getElem?_append_left hlt).trans hx, hkey⟩
          · cases List.mem_singleton.mp hr
            exact ⟨_, hx, hkey⟩
  · refine ⟨cli, ?_, hold, h.request⟩
    unfold mnhttpcNew
    rw [if_neg hacc]

theorem Tabled.exec {calls : List NewCall} : ∀ {done : List NewCall} {cli : Cli},
    Tabled done cli → ¬ Colliding H (done ++ calls) →
    ∃ cli', exec (mnhttpcNew H) cli calls = some cli' ∧ Tabled (done ++ calls) cli' := by
  induction calls with
  | nil =>
      intro done cli h _
      exact ⟨cli, rfl, by rwa [List.append_nil]⟩
  | cons c calls ih =>
      intro done cli h hno
      have happend : done ++ c :: calls = done ++ [c] ++ calls := by simp
      obtain ⟨cli₁, hnew, hserved⟩ := h.new (H := H) (c := c) fun hacc d hd hdacc hhash => by
        by_contra hne
        exact hno ⟨d, by simp [hd], c, by simp, hdacc, hacc, hne, hhash⟩
      obtain ⟨cli', hexec, hserved'⟩ := ih hserved (happend ▸ hno)
      refine ⟨cli', ?_, happend ▸ hserved'⟩
      rw [Run.exec, hnew]
      exact hexec

theorem boundExactly_iff (H : Hasher) (calls : List NewCall) :
    BoundExactly H calls ↔ ¬ Colliding H calls := by
  constructor
  · rintro ⟨cli, hexec, hbound⟩ ⟨c, hc, c', hc', hacc, hacc', hne, hhash⟩
    have hb := bound_of_exec hexec
    obtain ⟨r, hr, -, hkey⟩ := request_of_call hexec hc hacc
    obtain ⟨r', hr', -, hkey'⟩ := request_of_call hexec hc' hacc'
    -- the two requests share a connection, and it has the key of each
    have hshared := hb.same hr hr' (by rw [hkey, hkey', hhash])
    obtain ⟨x, hx, hxr⟩ := hbound r hr
    obtain ⟨x', hx', hxr'⟩ := hbound r' hr'
    rw [hshared, hx'] at hx
    cases hx
    exact hne (by rw [← hkey, ← hkey', ← hxr, hxr'])
  · intro hno
    have hinit : Tabled [] Cli.init :=
      ⟨fun _ h => absurd h List.not_mem_nil, fun _ h => absurd h List.not_mem_nil⟩
    have hno' : ¬ Colliding H ([] ++ calls) := hno
    obtain ⟨cli, hexec, hserved⟩ := hinit.exec hno'
    exact ⟨cli, hexec, hserved.request⟩

/-- Whatever the hash functions are, some two calls fail an assertion. -/
theorem exists_abort (H : Hasher) : ∃ c c', exec (mnhttpcNew H) .init [c, c'] = none := by
  obtain ⟨m, n, hne, hhash⟩ := exists_collision H fun n => (hostCall n).key
  obtain ⟨hacc, hkey⟩ := hostCall_key m
  obtain ⟨hacc', hkey'⟩ := hostCall_key n
  have hhost : (hostCall m).key.host ≠ (hostCall n).key.host := by
    rw [hkey, hkey']
    intro h
    have := congrArg List.length (Option.some.inj h)
    rw [List.length_replicate, List.length_replicate] at this
    omega
  refine ⟨hostCall m, hostCall n, ?_⟩
  have hfirst : mnhttpcNew H .init (hostCall m) =
      some ⟨[⟨(hostCall m).key, Sys.init (mnhttpUriParse (hostCall m).uri).scheme⟩],
        [⟨mnhttpUriParse (hostCall m).uri, (hostCall m).key, 0⟩]⟩ := by
    unfold mnhttpcNew
    rw [if_pos hacc]
    exact bind_exact rfl rfl
  rw [exec, hfirst, Option.bind_some, exec]
  have hget : Cli.getItem H
      ⟨[⟨(hostCall m).key, Sys.init (mnhttpUriParse (hostCall m).uri).scheme⟩],
        [⟨mnhttpUriParse (hostCall m).uri, (hostCall m).key, 0⟩]⟩ (hostCall n).key = some 0 := by
    unfold Cli.getItem
    simp [Hasher.connectionCmpEq, hhash]
  unfold mnhttpcNew
  rw [if_pos hacc', hget]
  unfold Cli.bind
  simp only [List.getElem?_cons_zero, hhost, false_and, if_false]
  rfl

end

/-- **Connections are identified by their hash alone.**  Two descriptors are told
apart exactly when their hashes are; for no hash functions does that make the
comparison one of the keys; and the requests of a client have the connections
they asked for exactly when no two of them collide, which for some they do. -/
theorem connection_identity_iff (H : Hasher) :
    (∀ a b : Descriptor H, (mnhttpcConnectionCmp a b = 0 ↔ a.key = b.key) ↔
      (a.key ≠ b.key → H.connectionHash a.key ≠ H.connectionHash b.key)) ∧
    ¬ (∀ a b : Descriptor H, a.key.host ≠ none → a.key.port ≠ none → b.key.host ≠ none →
      b.key.port ≠ none → (mnhttpcConnectionCmp a b = 0 ↔ a.key = b.key)) ∧
    (∀ calls, BoundExactly H calls ↔ ¬ Colliding H calls) ∧
    ∃ c c', exec (mnhttpcNew H) .init [c, c'] = none := by
  refine ⟨fun a b => ?_, fun hall => ?_, boundExactly_iff H, exists_abort H⟩
  · rw [connectionCmp_eq_zero_iff]
    constructor
    · intro h hne hhash
      exact hne (h.mp hhash)
    · intro h
      refine ⟨fun hhash => ?_, fun hkey => by rw [hkey]⟩
      by_contra hne
      exact h hne hhash
  · obtain ⟨m, n, hne, hhash⟩ := exists_collision H fun n => (hostCall n).key
    have hkey := (hostCall_key m).2
    have hkey' := (hostCall_key n).2
    have hsame := (hall ⟨(hostCall m).key, 0, .inl rfl⟩ ⟨(hostCall n).key, 0, .inl rfl⟩
      (by simp [hkey]) (by simp [hkey]) (by simp [hkey']) (by simp [hkey'])).mp
        ((connectionCmp_eq_zero_iff _ _).mpr hhash)
    have hhost := congrArg Key.host hsame
    simp only [hkey, hkey', Option.some.injEq] at hhost
    have := congrArg List.length hhost
    rw [List.length_replicate, List.length_replicate] at this
    omega

/-- A hash that adds up bytes takes `ab` and `ba` for one host: the second request
ends the process. -/
theorem connection_mistaken :
    let H : Hasher := ⟨fun bs => bs.foldl (fun h b => h + b.toUInt64) 0, fun a b => 31 * a + b⟩
    let a : Descriptor H := ⟨(callOf "http://ab/").key, 0, .inl rfl⟩
    let b : Descriptor H := ⟨(callOf "http://ba/").key, 0, .inl rfl⟩
    a.key.host ≠ none ∧ a.key.port ≠ none ∧ b.key.host ≠ none ∧ b.key.port ≠ none ∧
      mnhttpcConnectionCmp a b = 0 ∧ a.key ≠ b.key ∧
      exec (mnhttpcNew H) .init [callOf "http://ab/", callOf "http://ba/"] = none := by
  refine ⟨by decide, by decide, by decide, by decide, by decide, by decide, rfl⟩

end MnHttpc
