/-
# `MnApp.Client.Cache` — the connections of a client, and which requests share one

A `mnhttpc_t` is a table of connections.  `mnhttpc_new` looks one up by the
proxy, the host and the port of the request and makes one when there is
none.  Two things decide which connection a request gets:

    the key         hashed to 64 bits, and compared by that hash
    the scheme      not part of the key; read only when a connection is made

So what a request gets is decided by the first request with its key.  The
requests are those of the calls that are accepted (`requests_of_exec`), and TLS
follows the URI's own scheme exactly when no two of these calls have one key
and disagree about it (`new_tls_iff`).

**mncommon.**  `bytes_hash` and `fasthash` are any functions (`Hasher`).  The
table returns a stored connection whose hash is the one looked up.
-/
import MnApp.Client.System

namespace MnHttpc

open MnHttp CLib Run

/-! ## Keys -/

/-- `bytes_hash`, and `fasthash` of one more hash. -/
structure Hasher where
  bytesHash : List UInt8 → UInt64
  fasthash : UInt64 → UInt64 → UInt64

/-- What identifies a connection. -/
structure Key where
  proxyHost : Option (List UInt8)
  proxyPort : Option (List UInt8)
  host : Option (List UInt8)
  port : Option (List UInt8)
deriving DecidableEq, Repr

/-- One more text hashed in, unless it is NULL. -/
def Hasher.mix (H : Hasher) (hash : UInt64) : Option (List UInt8) → UInt64
  | some b => H.fasthash hash (H.bytesHash b)
  | none => hash

/-- What `mnhttpc_connection_hash` computes, from what is in `conn->hash`. -/
def Hasher.chain (H : Hasher) (hash : UInt64) (k : Key) : UInt64 :=
  let hash := match k.proxyHost with
    | some b => H.bytesHash b
    | none => hash
  H.mix (H.mix (H.mix hash k.proxyPort) k.host) k.port

/-- `mnhttpc_connection_hash` of a connection whose hash is not computed yet. -/
def Hasher.connectionHash (H : Hasher) (k : Key) : UInt64 := H.chain 0 k

/-- `mnhttpc_connection_cmp(a, b) == 0`. -/
def Hasher.connectionCmpEq (H : Hasher) (a b : Key) : Bool :=
  H.connectionHash a == H.connectionHash b

/-! ## The client -/

/-- A connection of the table. -/
structure Cached where
  key : Key
  sys : Sys

/-- A request that `mnhttpc_new` has returned: its URI, the connection it is
bound to, and the key that was looked up for it. -/
structure Request where
  uri : Uri
  key : Key
  connection : Nat

/-- `mnhttpc_t`, and the requests made with it. -/
structure Cli where
  connections : List Cached
  requests : List Request

/-- `mnhttpc_init`. -/
def Cli.init : Cli := ⟨[], []⟩

/-- The arguments of `mnhttpc_new` that decide about the connection. -/
structure NewCall where
  proxyHost : Option (List UInt8)
  proxyPort : Option (List UInt8)
  uri : List UInt8
deriving DecidableEq, Repr

def NewCall.key (c : NewCall) : Key :=
  ⟨c.proxyHost, c.proxyPort, (mnhttpUriParse c.uri).host, (mnhttpUriParse c.uri).port⟩

/-- The URI has all that a request needs. -/
def NewCall.accepted (c : NewCall) : Bool :=
  let uri := mnhttpUriParse c.uri
  !isNullOrEmpty uri.host && !isNullOrEmpty uri.port && !isNullOrEmpty uri.relative &&
    !isNullOrEmpty uri.path

section
variable (H : Hasher)

/-- `hash_get_item`, as an index. -/
def Cli.getItem (cli : Cli) (k : Key) : Option Nat :=
  cli.connections.findIdx? fun x => H.connectionCmpEq x.key k

/-- `req->connection = conn`, behind the two assertions; a failed one ends the
process. -/
def Cli.bind (cli : Cli) (c : NewCall) (i : Nat) : Option Cli :=
  match cli.connections[i]? with
  | some x =>
      if x.key.host = c.key.host ∧ x.key.port = c.key.port then
        some { cli with requests := cli.requests ++ [⟨mnhttpUriParse c.uri, c.key, i⟩] }
      else none
  | none => none

/-- `mnhttpc_new`; a refused URI gives NULL and changes nothing. -/
def mnhttpcNew (cli : Cli) (c : NewCall) : Option Cli :=
  if c.accepted then
    match cli.getItem H c.key with
    | some i => cli.bind c i
    | none =>
        Cli.bind { cli with connections :=
            cli.connections ++ [⟨c.key, Sys.init (mnhttpUriParse c.uri).scheme⟩] }
          c cli.connections.length
  else some cli

end

/-- A TLS connection. -/
structure Conn.IsTls (c : Conn) : Prop where
  sslctx : c.sslctx = true
  readMore : c.readMore = .ssl
  write : c.write = .ssl

instance (c : Conn) : Decidable c.IsTls :=
  decidable_of_iff (c.sslctx = true ∧ c.readMore = .ssl ∧ c.write = .ssl)
    ⟨fun h => ⟨h.1, h.2.1, h.2.2⟩, fun h => ⟨h.1, h.2, h.3⟩⟩

/-- The request's connection is a TLS connection. -/
def Cli.Tls (cli : Cli) (r : Request) : Prop :=
  ∃ x, cli.connections[r.connection]? = some x ∧ x.sys.conn.IsTls

theorem connectionInit_isTls {scheme : Scheme} :
    (connectionInit scheme).IsTls ↔ scheme = .https := by
  constructor
  · intro h
    have := h.sslctx
    simpa [connectionInit] using this
  · rintro rfl
    exact ⟨rfl, rfl, rfl⟩

/-! ## What the cache keeps -/

section
variable {H : Hasher}

/-- Each request is bound to the connection of its hash, and each connection was
made for one of the requests. -/
structure Bound (H : Hasher) (cli : Cli) : Prop where
  request : ∀ r ∈ cli.requests, ∃ x, cli.connections[r.connection]? = some x ∧
    H.connectionHash x.key = H.connectionHash r.key
  maker : ∀ x ∈ cli.connections, ∃ r ∈ cli.requests,
    H.connectionHash x.key = H.connectionHash r.key ∧ x.sys = Sys.init r.uri.scheme
  distinct : (cli.connections.map fun x => H.connectionHash x.key).Nodup

theorem bound_init : Bound H .init where
  request _ h := by cases h
  maker _ h := by cases h
  distinct := List.nodup_nil

theorem bind_cases {cli cli' : Cli} {c : NewCall} {i : Nat} (h : cli.bind c i = some cli') :
    cli' = { cli with requests := cli.requests ++ [⟨mnhttpUriParse c.uri, c.key, i⟩] } := by
  unfold Cli.bind at h
  split at h
  · split at h
    · exact (Option.some.inj h).symm
    · cases h
  · cases h

theorem mnhttpcNew_cases {cli cli' : Cli} {c : NewCall} (h : mnhttpcNew H cli c = some cli') :
    (c.accepted = false ∧ cli' = cli) ∨ c.accepted = true ∧
    ((∃ i x, cli.connections[i]? = some x ∧
      H.connectionHash x.key = H.connectionHash c.key ∧
      cli' = { cli with requests := cli.requests ++ [⟨mnhttpUriParse c.uri, c.key, i⟩] }) ∨
    ((∀ x ∈ cli.connections, H.connectionHash x.key ≠ H.connectionHash c.key) ∧
      cli' = ⟨cli.connections ++ [⟨c.key, Sys.init (mnhttpUriParse c.uri).scheme⟩],
        cli.requests ++ [⟨mnhttpUriParse c.uri, c.key, cli.connections.length⟩]⟩)) := by
  unfold mnhttpcNew at h
  split at h
  · rename_i hacc
    refine .inr ⟨hacc, ?_⟩
    split at h
    · rename_i i hi
      left
      obtain ⟨hlt, hcmp, -⟩ := List.findIdx?_eq_some_iff_getElem.mp hi
      exact ⟨i, _, List.getElem?_eq_getElem hlt, beq_iff_eq.mp hcmp, bind_cases h⟩
    · rename_i hi
      right
      refine ⟨fun x hx heq => ?_, bind_cases h⟩
      have := List.findIdx?_eq_none_iff.mp hi x hx
      simp [Hasher.connectionCmpEq, heq] at this
  · rename_i hacc
    exact .inl ⟨Bool.eq_false_iff.mpr hacc, (Option.some.inj h).symm⟩

theorem Bound.new {cli cli' : Cli} {c : NewCall} (hb : Bound H cli)
    (h : mnhttpcNew H cli c = some cli') : Bound H cli' := by
  obtain ⟨-, rfl⟩ | ⟨-, ⟨i, x, hx, hkey, rfl⟩ | ⟨hnew, rfl⟩⟩ := mnhttpcNew_cases h
  · exact hb
  · refine ⟨fun r hr => ?_, fun y hy => ?_, hb.distinct⟩
    · rcases List.mem_append.mp hr with hr | hr
      · exact hb.request r hr
      · cases List.mem_singleton.mp hr
        exact ⟨x, hx, hkey⟩
    · obtain ⟨r, hr, hmade⟩ := hb.maker y hy
      exact ⟨r, List.mem_append_left _ hr, hmade⟩
  · refine ⟨fun r hr => ?_, fun y hy => ?_, ?_⟩
    · rcases List.mem_append.mp hr with hr | hr
      · obtain ⟨x, hx, hkey⟩ := hb.request r hr
        exact ⟨x, (List.getElem?_append_left (List.getElem?_eq_some_iff.mp hx).1).trans hx, hkey⟩
      · cases List.mem_singleton.mp hr
        exact ⟨_, List.getElem?_concat_length, rfl⟩
    · rcases List.mem_append.mp hy with hy | hy
      · obtain ⟨r, hr, hmade⟩ := hb.maker y hy
        exact ⟨r, List.mem_append_left _ hr, hmade⟩
      · cases List.mem_singleton.mp hy
        exact ⟨_, List.mem_append_right _ List.mem_cons_self, rfl, rfl⟩
    · rw [List.map_append, List.map_singleton]
      refine List.nodup_append.mpr ⟨hb.distinct, List.pairwise_singleton _ _, ?_⟩
      intro h hmem h' hnewh
      obtain ⟨x, hx, rfl⟩ := List.mem_map.mp hmem
      rw [List.mem_singleton.mp hnewh]
      exact hnew x hx

theorem bound_of_exec {calls : List NewCall} {cli : Cli}
    (h : exec (mnhttpcNew H) .init calls = some cli) : Bound H cli :=
  exec_always (fun _ _ _ hb hs => hb.new hs) bound_init h

theorem Bound.connection {cli : Cli} (hb : Bound H cli) {r : Request} (hr : r ∈ cli.requests) :
    ∃ r' ∈ cli.requests, H.connectionHash r'.key = H.connectionHash r.key ∧
      (cli.Tls r ↔ r'.uri.scheme = .https) := by
  obtain ⟨x, hx, hkey⟩ := hb.request r hr
  obtain ⟨r', hr', hkey', hsys⟩ := hb.maker x (List.mem_of_getElem? hx)
  refine ⟨r', hr', hkey'.symm.trans hkey, ?_⟩
  have htls : cli.Tls r ↔ x.sys.conn.IsTls := by
    constructor
    · rintro ⟨y, hy, ht⟩
      cases Option.some.inj (hx.symm.trans hy)
      exact ht
    · exact fun ht => ⟨x, hx, ht⟩
  rw [htls, hsys]
  exact connectionInit_isTls

theorem Bound.same {cli : Cli} (hb : Bound H cli) {r r' : Request} (hr : r ∈ cli.requests)
    (hr' : r' ∈ cli.requests) (h : H.connectionHash r.key = H.connectionHash r'.key) :
    r.connection = r'.connection := by
  obtain ⟨x, hx, hkey⟩ := hb.request r hr
  obtain ⟨x', hx', hkey'⟩ := hb.request r' hr'
  refine (List.getElem?_inj ?_ hb.distinct).mp ?_
  · rw [List.length_map]
    exact (List.getElem?_eq_some_iff.mp hx).1
  · rw [List.getElem?_map, List.getElem?_map, hx, hx', Option.map_some, Option.map_some, hkey,
      hkey', h]

/-! ## The requests are the calls that were accepted -/

def Request.asked (r : Request) : Uri × Key := (r.uri, r.key)

def NewCall.asked (c : NewCall) : Uri × Key := (mnhttpUriParse c.uri, c.key)

theorem new_requests {cli cli' : Cli} {c : NewCall} (h : mnhttpcNew H cli c = some cli') :
    cli'.requests.map Request.asked =
      cli.requests.map Request.asked ++ ([c].filter NewCall.accepted).map NewCall.asked := by
  obtain ⟨hacc, rfl⟩ | ⟨hacc, ⟨_, _, _, _, rfl⟩ | ⟨_, rfl⟩⟩ := mnhttpcNew_cases h <;>
    simp [hacc, Request.asked, NewCall.asked]

theorem requests_of_run {calls : List NewCall} : ∀ {cli₀ cli : Cli},
    exec (mnhttpcNew H) cli₀ calls = some cli →
    cli.requests.map Request.asked =
      cli₀.requests.map Request.asked ++ (calls.filter NewCall.accepted).map NewCall.asked := by
  induction calls with
  | nil =>
      intro cli₀ cli h
      cases h
      exact (List.append_nil _).symm
  | cons c calls ih =>
      intro cli₀ cli h
      obtain ⟨cli₁, hnew, hrest⟩ := exec_cons h
      rw [ih hrest, new_requests hnew, List.append_assoc, ← List.map_append, ← List.filter_append,
        List.singleton_append]

theorem requests_of_exec {calls : List NewCall} {cli : Cli}
    (h : exec (mnhttpcNew H) .init calls = some cli) :
    cli.requests.map Request.asked = (calls.filter NewCall.accepted).map NewCall.asked :=
  requests_of_run h

theorem request_of_call {calls : List NewCall} {cli : Cli}
    (h : exec (mnhttpcNew H) .init calls = some cli) {c : NewCall} (hc : c ∈ calls)
    (hacc : c.accepted = true) :
    ∃ r ∈ cli.requests, r.uri = mnhttpUriParse c.uri ∧ r.key = c.key := by
  have hmem : c.asked ∈ cli.requests.map Request.asked := by
    rw [requests_of_exec h]
    exact List.mem_map_of_mem (List.mem_filter.mpr ⟨hc, hacc⟩)
  obtain ⟨r, hr, hasked⟩ := List.mem_map.mp hmem
  exact ⟨r, hr, congrArg Prod.fst hasked, congrArg Prod.snd hasked⟩

theorem call_of_request {calls : List NewCall} {cli : Cli}
    (h : exec (mnhttpcNew H) .init calls = some cli) {r : Request} (hr : r ∈ cli.requests) :
    ∃ c ∈ calls, c.accepted = true ∧ r.uri = mnhttpUriParse c.uri ∧ r.key = c.key := by
  have hmem : r.asked ∈ (calls.filter NewCall.accepted).map NewCall.asked := by
    rw [← requests_of_exec h]
    exact List.mem_map_of_mem hr
  obtain ⟨c, hc, hasked⟩ := List.mem_map.mp hmem
  obtain ⟨hc, hacc⟩ := List.mem_filter.mp hc
  exact ⟨c, hc, hacc, (congrArg Prod.fst hasked).symm, (congrArg Prod.snd hasked).symm⟩

/-- **TLS follows each request's scheme exactly when calls that share a key agree
about it.**  For any calls of `mnhttpc_new` that return, with any URIs, proxies
and hash functions; a call whose URI is refused makes no request. -/
theorem new_tls_iff (H : Hasher) (calls : List NewCall) (cli : Cli)
    (h : exec (mnhttpcNew H) .init calls = some cli) :
    (∀ r ∈ cli.requests, cli.Tls r ↔ r.uri.scheme = .https) ↔
      ∀ c ∈ calls, ∀ c' ∈ calls, c.accepted = true → c'.accepted = true →
        H.connectionHash c.key = H.connectionHash c'.key →
        ((mnhttpUriParse c.uri).scheme = .https ↔ (mnhttpUriParse c'.uri).scheme = .https) := by
  have hb := bound_of_exec h
  constructor
  · intro htls c hc c' hc' hacc hacc' hkey
    obtain ⟨r, hr, huri, hrkey⟩ := request_of_call h hc hacc
    obtain ⟨r', hr', huri', hrkey'⟩ := request_of_call h hc' hacc'
    have hsame := hb.same hr hr' (by rw [hrkey, hrkey', hkey])
    rw [← huri, ← huri', ← htls r hr, ← htls r' hr']
    unfold Cli.Tls
    rw [hsame]
  · intro hagree r hr
    obtain ⟨r', hr', hkey, htls⟩ := hb.connection hr
    obtain ⟨c, hc, hacc, huri, hckey⟩ := call_of_request h hr
    obtain ⟨c', hc', hacc', huri', hckey'⟩ := call_of_request h hr'
    rw [htls, huri, huri']
    exact hagree c' hc' c hc hacc' hacc (by rw [← hckey, ← hckey', hkey])

end

/-- Hash functions to compute with. -/
def Hasher.small : Hasher := ⟨fun bs => bs.length.toUInt64, fun a b => 31 * a + b⟩

/-- A call without a proxy. -/
def callOf (uri : String) : NewCall := ⟨none, none, ascii uri⟩

/-- The request such a call gives, bound to connection `i`. -/
def requestOf (uri : String) (i : Nat) : Request :=
  ⟨mnhttpUriParse (ascii uri), (callOf uri).key, i⟩

/-- A client with two connections, one for each scheme. -/
theorem new_tls_iff_two_hosts : ∃ cli,
    exec (mnhttpcNew .small) .init [callOf "http://a/", callOf "https://bc/"] = some cli ∧
    ∀ r ∈ cli.requests, cli.Tls r ↔ r.uri.scheme = .https := by
  have hexec : exec (mnhttpcNew .small) .init [callOf "http://a/", callOf "https://bc/"] =
        some ⟨[⟨(callOf "http://a/").key, .init .http⟩, ⟨(callOf "https://bc/").key, .init .https⟩],
          [requestOf "http://a/" 0, requestOf "https://bc/" 1]⟩ := rfl
  exact ⟨_, hexec, (new_tls_iff _ _ _ hexec).mpr (by decide)⟩

/-- Whatever the hash functions: an http request to port 443 makes a connection
to which an https request is then bound. -/
theorem https_bound_to_plain (H : Hasher) : ∃ cli,
    exec (mnhttpcNew H) .init [callOf "http://h:443/", callOf "https://h/"] = some cli ∧
    ∃ r ∈ cli.requests, r.uri.scheme = .https ∧ ¬ cli.Tls r := by
  have hplain : (callOf "http://h:443/").accepted = true := by decide
  have htls : (callOf "https://h/").accepted = true := by decide
  have hkey : (callOf "http://h:443/").key = (callOf "https://h/").key := by decide
  have hexec : exec (mnhttpcNew H) .init [callOf "http://h:443/", callOf "https://h/"] =
      some ⟨[⟨(callOf "https://h/").key, .init .http⟩],
        [requestOf "http://h:443/" 0, requestOf "https://h/" 0]⟩ := by
    simp only [exec, mnhttpcNew, hplain, htls, if_true, Cli.getItem, Cli.init,
      Hasher.connectionCmpEq, hkey, Cli.bind]
    simp
    exact ⟨congrArg Sys.init (by decide), by rw [← hkey]; rfl, rfl⟩
  refine ⟨_, hexec, requestOf "https://h/" 0, by simp, by decide, ?_⟩
  rintro ⟨x, hx, ht⟩
  cases hx
  exact absurd ht (by decide)

/-- **An https request over a plain connection.** -/
theorem new_https_on_plain : ∃ cli,
    exec (mnhttpcNew .small) .init [callOf "http://h:443/", callOf "https://h/"] = some cli ∧
    ∃ r ∈ cli.requests, r.uri.scheme = .https ∧ ¬ cli.Tls r :=
  https_bound_to_plain _

end MnHttpc
