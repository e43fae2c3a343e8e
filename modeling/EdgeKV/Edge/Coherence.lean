import EdgeKV.Edge.System

/-!
What the edge holds and serves, against the records of the origin. Every entry is an answer the
origin gave, and it expires within the TTL of a record that had its version. Entries are shared
and renewed in place, so the invariant is one of each entry and not of the map.
-/
namespace EdgeKV.Edge

open Server (Gateway Routing Answers Fetched answers_fetched)

section Origin

/-- A record that may be cached has a TTL. -/
def Limited (store : Store) : Prop :=
  ∀ key r, store.data key = some r → r.cacheable = true → r.ttlSeconds ≠ 0

theorem limited_update {store store' : Store} {key : String} {r : Store.Record}
    (h : Limited store) (data : store'.data = Function.update store.data key (some r))
    (limit : r.cacheable = true → r.ttlSeconds ≠ 0) : Limited store' := by
  intro k r' stored
  rw [data] at stored
  by_cases same : k = key
  · subst same
    rw [Function.update_self] at stored
    cases stored
    exact limit
  · rw [Function.update_of_ne same] at stored
    exact h k r' stored

/-- A command gives a key that it makes cacheable a TTL. -/
def Limits (cmd : Command) : Prop := cmd.cacheable = true → cmd.ttlSeconds ≠ 0

theorem issues_limits {g : Gateway} {cmd : Command} (h : Issues g cmd) (now : Int) :
    Limits (cmd.stamp now) := by
  cases h with
  | put named made =>
      intro cacheable
      have ttl : cmd.ttlSeconds ≠ 0 := Server.handlePut_ttl made cacheable
      exact ttl
  | delete named =>
      intro no
      cases no

theorem limited_applyLocked {store store' : Store} {cmd : Command} {res : Result}
    (h : Limited store) (limits : Limits cmd)
    (applied : store.applyLocked cmd = some (store', res)) : Limited store' := by
  simp only [Store.applyLocked] at applied
  split at applied
  · cases applied
    exact h
  · cases op : cmd.op with
    | put =>
        simp only [op] at applied
        cases applied
        exact limited_update h rfl limits
    | delete =>
        simp only [op] at applied
        split at applied
        · cases applied
          exact h
        · obtain ⟨r, stored, eq⟩ := Option.map_eq_some_iff.mp applied
          cases eq
          exact limited_update h rfl (h cmd.key r stored)
    | unknown code =>
        simp only [op] at applied
        cases applied

theorem limited_apply {env : Setting} {store store' : Store} {index : Nat} {cmd : Command}
    {out : Bytes} {res : Result} (h : Limited store) (limits : Limits cmd)
    (applied : store.apply env.codecs index (env.codecs.command.marshal cmd) = some (store', out))
    (result : env.codecs.result.unmarshal out = some res) : Limited store' := by
  have executed := Store.apply_executes (env.codecs.command.round cmd) applied result
  cases Store.execute_spec executed with
  | repeated named found => exact h
  | @fresh store₁ _ new changed =>
      have before : Limited (store.evictDedupLocked index) := h
      have after := limited_applyLocked before limits changed
      unfold Store.remember
      split
      · exact after
      · exact after

end Origin

section Heap

/-- Entries stay where they are, and only their times change. -/
def Cache.Extends (c c' : Cache) : Prop :=
  ∀ (p : Nat) cell, c.heap[p]? = some cell → ∃ cell', c'.heap[p]? = some cell' ∧
    cell'.uri = cell.uri ∧ cell'.entry.response = cell.entry.response ∧
    cell'.entry.etag = cell.entry.etag

/-- The reference, if any, is to an entry for the URI. -/
def Cache.Points (c : Cache) (uri : Bytes) (ent : Option Nat) : Prop :=
  ∀ p, ent = some p → ∃ cell, c.heap[p]? = some cell ∧ cell.uri = uri

variable {c c' : Cache} {uri : Bytes} {ent : Option Nat} {now : Int} {cell : Cell}

theorem extends_heap (same : c'.heap = c.heap) : c.Extends c' := by
  intro p cell there
  exact ⟨cell, same ▸ there, rfl, rfl, rfl⟩

theorem extends_insert (c : Cache) (uri : Bytes) (entry : Entry) : c.Extends (c.insert uri entry) := by
  intro p cell there
  refine ⟨cell, ?_, rfl, rfl, rfl⟩
  rw [Cache.insert, List.getElem?_append_left (List.getElem?_eq_some_iff.mp there).1]
  exact there

theorem extends_renew (c : Cache) (ent : Option Nat) (now ttl : Int) :
    c.Extends (c.renew ent now ttl) := by
  cases ent with
  | none => exact extends_heap rfl
  | some q =>
      intro p cell there
      by_cases same : q = p
      · refine ⟨cell.renew now ttl, ?_, rfl, rfl, rfl⟩
        rw [Cache.renew, same, List.getElem?_modify_eq, there]
        rfl
      · refine ⟨cell, ?_, rfl, rfl, rfl⟩
        rw [Cache.renew, List.getElem?_modify_ne _ _ same]
        exact there

theorem Cache.Points.mono (h : c.Points uri ent) (ext : c.Extends c') : c'.Points uri ent := by
  intro p here
  obtain ⟨cell, there, own⟩ := h p here
  obtain ⟨cell', there', uri', -⟩ := ext p cell there
  exact ⟨cell', there', uri'.trans own⟩

theorem deref_points (h : c.Points uri ent) (found : c.deref ent = some cell) :
    ∃ p, ent = some p ∧ c.heap[p]? = some cell ∧ cell.uri = uri := by
  obtain ⟨p, rfl, there⟩ := Option.bind_eq_some_iff.mp found
  obtain ⟨cell', there', own⟩ := h p rfl
  cases there.symm.trans there'
  exact ⟨p, rfl, there, own⟩

theorem mem_renew {p : Nat} {ttl : Int} (there : cell ∈ (c.renew (some p) now ttl).heap) :
    cell ∈ c.heap ∨ ∃ old, c.heap[p]? = some old ∧ cell = old.renew now ttl := by
  obtain ⟨q, at_⟩ := List.getElem?_of_mem there
  by_cases same : p = q
  · rw [Cache.renew, same, List.getElem?_modify_eq] at at_
    obtain ⟨old, stored, eq⟩ := Option.map_eq_some_iff.mp at_
    exact Or.inr ⟨old, same ▸ stored, eq.symm⟩
  · rw [Cache.renew, List.getElem?_modify_ne _ _ same] at at_
    exact Or.inl (List.mem_of_getElem? at_)

theorem insert_points (h : ∀ uri, c.Points uri (c.entries uri)) (uri : Bytes) (entry : Entry) :
    ∀ u, (c.insert uri entry).Points u ((c.insert uri entry).entries u) := by
  intro u
  by_cases same : u = uri
  · subst same
    rw [show (c.insert u entry).entries u = some c.heap.length from Function.update_self ..]
    intro p here
    cases here
    exact ⟨⟨u, entry⟩, List.getElem?_concat_length, rfl⟩
  · rw [show (c.insert uri entry).entries u = c.entries u from Function.update_of_ne same ..]
    exact (h u).mono (extends_insert c uri entry)

/-- What `handle` does with the reply of the origin. -/
inductive Received (c : Cache) (uri : Bytes) (now : Int) (ent : Option Nat) :
    Except String Server.Response → Cache → Option XCache → Server.Response → Prop
  | stale {cell : Cell} (err : String) (found : c.deref ent = some cell) :
      Received c uri now ent (.error err) c (some .stale) cell.entry.response
  | unreachable (err : String) :
      Received c uri now ent (.error err) c none
        { status := 502, body := .text ("origin unreachable: " ++ err) }
  | refreshed {cell : Cell} {resp : Server.Response} {ttl : Int} (found : c.deref ent = some cell)
      (unchanged : resp.status = 304)
      (limit : maxAge resp.cacheControl ≠ 0 → ttl = maxAge resp.cacheControl) :
      Received c uri now ent (.ok resp) (c.renew ent now ttl) (some .refreshHit) cell.entry.response
  | stored {resp : Server.Response} (ok : resp.status = 200) :
      Received c uri now ent (.ok resp)
        (c.insert uri ⟨resp, resp.etag, now, now + maxAge resp.cacheControl⟩) (some .miss) resp
  | passed (resp : Server.Response) : Received c uri now ent (.ok resp) c (some .miss) resp

theorem receive_spec {reply : Except String Server.Response} {xCache : Option XCache}
    {resp : Server.Response} (h : c.receive uri now ent reply = (c', xCache, resp)) :
    Received c uri now ent reply c' xCache resp := by
  cases reply with
  | error err =>
      rw [Cache.receive] at h
      split at h
      next found =>
        cases h
        exact .stale err found
      · cases h
        exact .unreachable err
  | ok reply =>
      rw [Cache.receive] at h
      split at h
      next found unchanged =>
        cases h
        refine .refreshed found (of_decide_eq_true unchanged) fun some => ?_
        rw [if_neg some]
      · dsimp only at h
        split at h
        next stores =>
          cases h
          exact .stored stores.1
        · cases h
          exact .passed _

end Heap

section Provenance

variable (env : Setting) (run : List System)

/-- The origin gave the response to a request for the URI in some state of the run. -/
def Genuine (uri : Bytes) (resp : Server.Response) : Prop :=
  ∃ s ∈ run, ∃ ifNoneMatch routing e,
    Fetched s.origin (env.request uri ifNoneMatch routing) resp e

/-- The version in the response was current at a time from which its TTL reaches to the
deadline. -/
def Fresh (uri : Bytes) (resp : Server.Response) (deadline : Int) : Prop :=
  ∃ body, resp.body = .entry body ∧ ∃ s ∈ run, ∃ e, s.origin.get (env.route uri).key = .ok e ∧
    e.version = body.version ∧ deadline ≤ s.clock + e.ttlSeconds.toNat * second

/-- An entry is an answer of the origin, and expires in time. -/
structure Backed (cell : Cell) : Prop where
  ok : cell.entry.response.status = 200
  etag : cell.entry.etag = cell.entry.response.etag
  genuine : Genuine env run cell.uri cell.entry.response
  fresh : (env.route cell.uri).v = "" →
    Fresh env run cell.uri cell.entry.response cell.entry.expires

/-- The header that was sent is the tag of the entry, if there is one. -/
def Conditional (cache : Cache) (ent : Option Nat) (ifNoneMatch : String) : Prop :=
  ∀ cell, cache.deref ent = some cell → cell.entry.etag ≠ "" → ifNoneMatch = cell.entry.etag

/-- What is known of a request at its stage. -/
def Tracked (clock : Int) (cache : Cache) (r : Request) : Prop :=
  match r.stage with
  | .arrived => r.arrived ≤ clock
  | .started now => r.arrived ≤ now ∧ now ≤ clock
  | .looked now ent => (r.arrived ≤ now ∧ now ≤ clock) ∧ cache.Points r.uri ent
  | .sent now ent ifNoneMatch =>
      (r.arrived ≤ now ∧ now ≤ clock) ∧ cache.Points r.uri ent ∧ Conditional cache ent ifNoneMatch
  | .replied now ent reply =>
      r.arrived ≤ now ∧ cache.Points r.uri ent ∧
        ∀ resp, reply = .ok resp → ∃ s ∈ run, now ≤ s.clock ∧ ∃ ifNoneMatch routing,
          Conditional cache ent ifNoneMatch ∧
          Answers env.nodes s.origin (env.request r.uri ifNoneMatch routing) resp

/-- A successful response is one of the origin, and its version is not too old unless the edge
says that it may be. -/
def Right (x : Served) : Prop :=
  x.response.status = 200 → Genuine env run x.uri x.response ∧
    ((env.route x.uri).v = "" → ∀ k, x.source = .edge (some k) → k ≠ .stale →
      Fresh env run x.uri x.response x.arrived)

structure Inv (s : System) : Prop where
  here : s ∈ run
  limited : ∀ t ∈ run, Limited t.origin
  cached : ∀ uri, s.cache.Points uri (s.cache.entries uri)
  cells : ∀ cell ∈ s.cache.heap, Backed env run cell
  requests : ∀ i r, s.requests i = some r → Tracked env run s.clock s.cache r
  served : ∀ x ∈ s.served, Right env run x

variable {env run} {run' : List System} {s s' : System} {uri : Bytes} {resp : Server.Response}
  {deadline clock clock' : Int} {cache cache' : Cache} {cell : Cell} {r : Request} {x : Served}

theorem Genuine.mono (h : Genuine env run uri resp) (sub : run ⊆ run') :
    Genuine env run' uri resp := by
  obtain ⟨s, there, rest⟩ := h
  exact ⟨s, sub there, rest⟩

theorem Fresh.mono (h : Fresh env run uri resp deadline) (sub : run ⊆ run') :
    Fresh env run' uri resp deadline := by
  obtain ⟨body, eq, s, there, rest⟩ := h
  exact ⟨body, eq, s, sub there, rest⟩

theorem Fresh.earlier (h : Fresh env run uri resp deadline) {earlier : Int}
    (le : earlier ≤ deadline) : Fresh env run uri resp earlier := by
  obtain ⟨body, eq, s, there, e, current, version, reach⟩ := h
  exact ⟨body, eq, s, there, e, current, version, le.trans reach⟩

theorem Backed.mono (h : Backed env run cell) (sub : run ⊆ run') : Backed env run' cell :=
  ⟨h.ok, h.etag, h.genuine.mono sub, fun plain => (h.fresh plain).mono sub⟩

theorem Right.mono (h : Right env run x) (sub : run ⊆ run') : Right env run' x := by
  intro ok
  obtain ⟨genuine, fresh⟩ := h ok
  exact ⟨genuine.mono sub, fun plain k source known => (fresh plain k source known).mono sub⟩

theorem Conditional.mono {ent : Option Nat} {ifNoneMatch : String}
    (h : Conditional cache ent ifNoneMatch) (points : cache.Points uri ent)
    (ext : cache.Extends cache') : Conditional cache' ent ifNoneMatch := by
  intro cell found tagged
  obtain ⟨p, rfl, there⟩ := Option.bind_eq_some_iff.mp found
  obtain ⟨old, stored, -⟩ := points p rfl
  obtain ⟨cell', there', -, -, etag⟩ := ext p old stored
  cases there.symm.trans there'
  rw [etag] at tagged ⊢
  exact h old stored tagged

theorem Tracked.mono (h : Tracked env run clock cache r) (sub : run ⊆ run') (le : clock ≤ clock')
    (ext : cache.Extends cache') : Tracked env run' clock' cache' r := by
  unfold Tracked at h ⊢
  split at h
  · exact h.trans le
  · exact ⟨h.1, h.2.trans le⟩
  · obtain ⟨⟨before, after⟩, points⟩ := h
    exact ⟨⟨before, after.trans le⟩, points.mono ext⟩
  · obtain ⟨⟨before, after⟩, points, sent⟩ := h
    exact ⟨⟨before, after.trans le⟩, points.mono ext, sent.mono points ext⟩
  · obtain ⟨before, points, reply⟩ := h
    refine ⟨before, points.mono ext, fun resp eq => ?_⟩
    obtain ⟨s, there, later, ifNoneMatch, routing, sent, answer⟩ := reply resp eq
    exact ⟨s, sub there, later, ifNoneMatch, routing, sent.mono points ext, answer⟩

end Provenance

section Replies

variable {env : Setting} {run : List System} {s : System} {uri : Bytes} {now : Int}
  {ifNoneMatch : String} {routing : Routing} {resp : Server.Response} {e : Store.Entry}

theorem limited_get {store : Store} {key : String} (limited : Limited store)
    (read : store.get key = .ok e) (cacheable : e.cacheable = true) : e.ttlSeconds ≠ 0 := by
  simp only [Store.get] at read
  cases stored : store.data key with
  | none => rw [stored] at read; cases read
  | some r =>
      simp only [stored] at read
      split at read
      · cases read
      · cases read
        exact limited key r stored cacheable

/-- The lifetime of a response on a URI without a version is the TTL of the record. -/
theorem fetched_maxAge (fetched : Fetched s.origin (env.request uri ifNoneMatch routing) resp e)
    (plain : (env.route uri).v = "") : maxAge resp.cacheControl = e.ttlSeconds.toNat * second := by
  have header := fetched.cacheControl
  rw [Setting.request, Server.Config.cacheControl, if_pos plain] at header
  rw [← Option.some.inj header]
  exact maxAge_public e.ttlSeconds.toNat_lt

theorem fetched_lasting (fetched : Fetched s.origin (env.request uri ifNoneMatch routing) resp e)
    (plain : (env.route uri).v = "") (limited : Limited s.origin) :
    maxAge resp.cacheControl ≠ 0 := by
  have limit := UInt32.toNat_inj.not.mpr (limited_get limited fetched.current fetched.cacheable)
  rw [fetched_maxAge fetched plain, second]
  change e.ttlSeconds.toNat ≠ 0 at limit
  omega

/-- A version that was current at `s` is fresh for its TTL from any time before. -/
theorem fetched_fresh (there : s ∈ run) (later : now ≤ s.clock)
    (fetched : Fetched s.origin (env.request uri ifNoneMatch routing) resp e)
    (plain : (env.route uri).v = "") {old : Server.Response} {body : Server.ReadResponse}
    (content : old.body = .entry body) (version : e.version = body.version) :
    Fresh env run uri old (now + maxAge resp.cacheControl) := by
  refine ⟨body, content, s, there, e, fetched.current, version, ?_⟩
  rw [fetched_maxAge fetched plain]
  omega

theorem answered_later (fetched : Fetched s.origin (env.request uri ifNoneMatch routing) resp e)
    (plain : (env.route uri).v = "") {arrived : Int} (before : arrived ≤ now) :
    arrived ≤ now + maxAge resp.cacheControl := by
  rw [fetched_maxAge fetched plain, second]
  omega

theorem answered_backed (there : s ∈ run) (later : now ≤ s.clock)
    (fetched : Fetched s.origin (env.request uri ifNoneMatch routing) resp e)
    (ok : resp.status = 200) :
    Backed env run ⟨uri, resp, resp.etag, now, now + maxAge resp.cacheControl⟩ where
  ok := ok
  etag := rfl
  genuine := ⟨s, there, ifNoneMatch, routing, e, fetched⟩
  fresh := fun plain => fetched_fresh there later fetched plain (fetched.body ok) rfl

/-- An entry whose tag the origin has confirmed holds the version that is current. -/
theorem confirmed_fresh {cell : Cell} (backed : Backed env run cell) (there : s ∈ run)
    (later : now ≤ s.clock)
    (fetched : Fetched s.origin (env.request cell.uri ifNoneMatch routing) resp e)
    (unchanged : resp.status = 304) (sent : cell.entry.etag ≠ "" → ifNoneMatch = cell.entry.etag)
    (plain : (env.route cell.uri).v = "") :
    Fresh env run cell.uri cell.entry.response (now + maxAge resp.cacheControl) := by
  obtain ⟨s₀, -, ifNoneMatch₀, routing₀, e₀, made⟩ := backed.genuine
  have tag : cell.entry.etag = Server.etag e₀.version := backed.etag.trans made.etag
  have confirmed : Server.etag e.version = Server.etag e₀.version := by
    rw [← fetched.unchanged unchanged, ← tag]
    exact sent (tag ▸ Server.etag_ne _)
  exact fetched_fresh there later fetched plain (made.body backed.ok) (Server.etag_inj confirmed)

theorem confirmed_backed {cell : Cell} (backed : Backed env run cell) (there : s ∈ run)
    (later : now ≤ s.clock) (limited : Limited s.origin)
    (fetched : Fetched s.origin (env.request cell.uri ifNoneMatch routing) resp e)
    (unchanged : resp.status = 304) (sent : cell.entry.etag ≠ "" → ifNoneMatch = cell.entry.etag)
    {ttl : Int} (limit : maxAge resp.cacheControl ≠ 0 → ttl = maxAge resp.cacheControl) :
    Backed env run (cell.renew now ttl) where
  ok := backed.ok
  etag := backed.etag
  genuine := backed.genuine
  fresh := fun plain => by
    have reach := confirmed_fresh backed there later fetched unchanged sent plain
    rw [← limit (fetched_lasting fetched plain limited)] at reach
    exact reach

end Replies

section Steps

variable {env : Setting} {run : List System} {s s' : System}

/-- A step keeps the invariant if what it adds to memory, requests and answers is right. -/
theorem inv_next (h : Inv env run s) (limited : Limited s'.origin) (clock : s.clock ≤ s'.clock)
    (ext : s.cache.Extends s'.cache)
    (cached : ∀ uri, s'.cache.Points uri (s'.cache.entries uri))
    (cells : ∀ cell ∈ s'.cache.heap, Backed env (s' :: run) cell)
    (requests : ∀ i r, s'.requests i = some r →
      s.requests i = some r ∨ Tracked env (s' :: run) s'.clock s'.cache r)
    (served : ∀ x ∈ s'.served, x ∈ s.served ∨ Right env (s' :: run) x) :
    Inv env (s' :: run) s' where
  here := List.mem_cons_self
  limited := by
    intro t there
    rcases List.mem_cons.mp there with rfl | old
    · exact limited
    · exact h.limited t old
  cached := cached
  cells := cells
  requests := by
    intro i r here
    rcases requests i r here with old | new
    · exact (h.requests i r old).mono (List.subset_cons_self _ _) clock ext
    · exact new
  served := by
    intro x there
    rcases served x there with old | new
    · exact (h.served x old).mono (List.subset_cons_self _ _)
    · exact new

/-- A step that leaves the entries in memory alone; it may evict some. -/
theorem inv_keeps (h : Inv env run s) (limited : Limited s'.origin) (clock : s.clock ≤ s'.clock)
    (heap : s'.cache.heap = s.cache.heap)
    (evicts : ∀ uri p, s'.cache.entries uri = some p → s.cache.entries uri = some p)
    (requests : ∀ i r, s'.requests i = some r →
      s.requests i = some r ∨ Tracked env (s' :: run) s'.clock s'.cache r)
    (served : ∀ x ∈ s'.served, x ∈ s.served ∨ Right env (s' :: run) x) :
    Inv env (s' :: run) s' := by
  refine inv_next h limited clock (extends_heap heap) ?_ ?_ requests served
  · intro uri p here
    rw [heap]
    exact h.cached uri p (evicts uri p here)
  · intro cell there
    rw [heap] at there
    exact (h.cells cell there).mono (List.subset_cons_self _ _)

/-- A step after which requests and answers are as before. -/
theorem inv_evicts (h : Inv env run s) (limited : Limited s'.origin) (clock : s.clock ≤ s'.clock)
    (heap : s'.cache.heap = s.cache.heap)
    (evicts : ∀ uri p, s'.cache.entries uri = some p → s.cache.entries uri = some p)
    (requests : s'.requests = s.requests) (served : s'.served = s.served) :
    Inv env (s' :: run) s' := by
  refine inv_keeps h limited clock heap evicts ?_ ?_
  · intro i r here
    rw [requests] at here
    exact Or.inl here
  · intro x there
    rw [served] at there
    exact Or.inl there

/-- A request that goes on to a stage at which it is tracked. -/
theorem inv_proceed (h : Inv env run s) (i : Nat) (r : Request) (stage : Stage)
    (tracked : Tracked env (s.proceed i r stage :: run) s.clock s.cache { r with stage }) :
    Inv env (s.proceed i r stage :: run) (s.proceed i r stage) := by
  refine inv_keeps h (h.limited s h.here) (Int.le_refl _) rfl (fun _ _ same => same) ?_
    (fun x there => Or.inl there)
  intro j r' here
  by_cases same : j = i
  · subst same
    rw [System.requests_proceed, Function.update_self] at here
    cases here
    exact Or.inr tracked
  · rw [System.requests_proceed, Function.update_of_ne same] at here
    exact Or.inl here

theorem apply_evicts (c : Cache) (paths : List Bytes) (uri : Bytes) (p : Nat)
    (here : (c.apply paths).entries uri = some p) : c.entries uri = some p := by
  unfold Cache.apply at here
  generalize c.entries = entries at here ⊢
  induction paths generalizing entries with
  | nil => exact here
  | cons path paths ih =>
      have before := ih _ here
      dsimp only at before
      split at before
      · cases before
      · exact before

theorem finished_requests {i j : Nat} {r r' : Request} {cache : Cache} {xCache : Option XCache}
    {resp : Server.Response} (here : (s.finish i r cache xCache resp).requests j = some r') :
    s.requests j = some r' := by
  by_cases same : j = i
  · subst same
    rw [System.requests_finish, Function.update_self] at here
    cases here
  · rw [System.requests_finish, Function.update_of_ne same] at here
    exact here

theorem finished_served {i : Nat} {r : Request} {cache : Cache} {xCache : Option XCache}
    {resp : Server.Response} {run' : List System} (right : Right env run' ⟨r.uri, r.arrived, .edge xCache, resp⟩) :
    ∀ x ∈ (s.finish i r cache xCache resp).served, x ∈ s.served ∨ Right env run' x := by
  intro x there
  rcases List.mem_append.mp there with old | new
  · exact Or.inl old
  · rw [List.mem_singleton.mp new]
    exact Or.inr right

/-- A request that is answered rightly, with the cache as it is. -/
theorem inv_finish (h : Inv env run s) {i : Nat} {r : Request} {xCache : Option XCache}
    {resp : Server.Response}
    (right : Right env (s.finish i r s.cache xCache resp :: run)
      ⟨r.uri, r.arrived, .edge xCache, resp⟩) :
    Inv env (s.finish i r s.cache xCache resp :: run) (s.finish i r s.cache xCache resp) := by
  refine inv_keeps h (h.limited s h.here) (Int.le_refl _) rfl (fun _ _ same => same) ?_ ?_
  · intro j r' here
    exact Or.inl (finished_requests here)
  · exact finished_served right

/-- What is known of an entry that a request has found. -/
theorem found_backed (h : Inv env run s) {uri : Bytes} {ent : Option Nat} {cell : Cell}
    (points : s.cache.Points uri ent) (found : s.cache.deref ent = some cell) :
    Genuine env run uri cell.entry.response ∧
      ((env.route uri).v = "" → Fresh env run uri cell.entry.response cell.entry.expires) := by
  obtain ⟨p, -, there, rfl⟩ := deref_points points found
  have backed := h.cells cell (List.mem_of_getElem? there)
  exact ⟨backed.genuine, backed.fresh⟩

/-- A request that comes back from the origin. -/
theorem inv_received (h : Inv env run s) {i : Nat} {r : Request} {now : Int} {ent : Option Nat}
    {reply : Except String Server.Response} {cache : Cache} {xCache : Option XCache}
    {resp : Server.Response} (here : s.requests i = some r) (stage : r.stage = .replied now ent reply)
    (received : Received s.cache r.uri now ent reply cache xCache resp) :
    Inv env (s.finish i r cache xCache resp :: run) (s.finish i r cache xCache resp) := by
  have limited := h.limited s h.here
  have sub := List.subset_cons_self (s.finish i r cache xCache resp) run
  have before := h.requests i r here
  rw [Tracked, stage] at before
  obtain ⟨arrived, points, replied⟩ := before
  cases received with
  | stale err found =>
      obtain ⟨genuine, -⟩ := found_backed h points found
      refine inv_finish h ?_
      intro ok
      refine ⟨genuine.mono sub, fun _ k source known => ?_⟩
      cases source
      exact absurd rfl known
  | unreachable err =>
      refine inv_finish h ?_
      intro no
      cases no
  | @refreshed cell reply ttl found unchanged limit =>
      obtain ⟨t, there, later, ifNoneMatch, routing, sent, answer⟩ := replied _ rfl
      obtain ⟨e, fetched⟩ := answers_fetched answer (Or.inr unchanged)
      obtain ⟨p, rfl, stored, own⟩ := deref_points points found
      rw [← own] at fetched
      have backed := h.cells cell (List.mem_of_getElem? stored)
      refine inv_next h limited (Int.le_refl _) (extends_renew s.cache _ now ttl) ?_ ?_
        (fun j r' here => Or.inl (finished_requests here)) (finished_served ?_)
      · intro uri
        exact (h.cached uri).mono (extends_renew s.cache _ now ttl)
      · intro cell' there'
        rcases mem_renew there' with old | ⟨old, stored', rfl⟩
        · exact (h.cells cell' old).mono sub
        · cases stored.symm.trans stored'
          exact (confirmed_backed backed there later (h.limited t there) fetched unchanged
            (sent cell found) limit).mono sub
      · intro ok
        rw [← own]
        refine ⟨backed.genuine.mono sub, fun plain k _ _ => ?_⟩
        have reach := confirmed_fresh backed there later fetched unchanged (sent cell found) plain
        exact (reach.mono sub).earlier (answered_later fetched plain arrived)
  | stored ok =>
      obtain ⟨t, there, later, ifNoneMatch, routing, -, answer⟩ := replied _ rfl
      obtain ⟨e, fetched⟩ := answers_fetched answer (Or.inl ok)
      have backed := answered_backed there later fetched ok
      refine inv_next h limited (Int.le_refl _) (extends_insert s.cache _ _)
        (insert_points h.cached _ _) ?_ (fun j r' here => Or.inl (finished_requests here))
        (finished_served ?_)
      · intro cell there'
        rcases List.mem_append.mp there' with old | new
        · exact (h.cells cell old).mono sub
        · rw [List.mem_singleton.mp new]
          exact backed.mono sub
      · intro _
        refine ⟨backed.genuine.mono sub, fun plain k _ _ => ?_⟩
        exact ((backed.fresh plain).mono sub).earlier (answered_later fetched plain arrived)
  | passed resp =>
      obtain ⟨t, there, later, ifNoneMatch, routing, -, answer⟩ := replied _ rfl
      refine inv_finish h ?_
      intro ok
      obtain ⟨e, fetched⟩ := answers_fetched answer (Or.inl ok)
      have backed := answered_backed there later fetched ok
      refine ⟨backed.genuine.mono sub, fun plain k _ _ => ?_⟩
      exact ((backed.fresh plain).mono sub).earlier (answered_later fetched plain arrived)

theorem inv_step (h : Inv env run s) (next : Step env s s') : Inv env (s' :: run) s' := by
  have limited := h.limited s h.here
  cases next with
  | tick later =>
      exact inv_evicts h limited later rfl (fun _ _ same => same) rfl rfl
  | write node issued positive bounded rising applied result =>
      exact inv_evicts h (limited_apply limited (issues_limits issued _) applied result)
        (Int.le_refl _) rfl (fun _ _ same => same) rfl rfl
  | @direct uri ifNoneMatch routing resp answer =>
      refine inv_keeps h limited (Int.le_refl _) rfl (fun _ _ same => same)
        (fun i r here => Or.inl here) ?_
      intro x there
      rcases List.mem_append.mp there with old | new
      · exact Or.inl old
      · rw [List.mem_singleton.mp new]
        refine Or.inr fun ok => ⟨?_, fun _ k source => nomatch source⟩
        obtain ⟨e, fetched⟩ := answers_fetched answer (Or.inl ok)
        exact ⟨s, List.mem_cons_of_mem _ h.here, ifNoneMatch, routing, e, fetched⟩
  | arrive free uri ifNoneMatch => exact inv_proceed h _ _ _ (Int.le_refl _)
  | start here stage =>
      have before := h.requests _ _ here
      rw [Tracked, stage] at before
      exact inv_proceed h _ _ _ ⟨before, Int.le_refl _⟩
  | lookup here stage =>
      have before := h.requests _ _ here
      rw [Tracked, stage] at before
      exact inv_proceed h _ _ _ ⟨before, h.cached _⟩
  | @hit i r now ent cell here stage found fresh =>
      have before := h.requests _ _ here
      rw [Tracked, stage] at before
      obtain ⟨genuine, reach⟩ := found_backed h before.2 found
      have sub := List.subset_cons_self (s.finish i r s.cache (some .hit) cell.entry.response) run
      refine inv_finish h ?_
      intro ok
      refine ⟨genuine.mono sub, fun plain k _ _ => ((reach plain).mono sub).earlier ?_⟩
      exact before.1.1.trans fresh.le
  | send here stage expired =>
      have before := h.requests _ _ here
      rw [Tracked, stage] at before
      refine inv_proceed h _ _ _ ⟨before.1, before.2, ?_⟩
      intro cell found tagged
      rw [Cache.conditional, found]
      exact if_pos tagged
  | @answer i r now ent ifNoneMatch routing resp here stage answer =>
      have before := h.requests _ _ here
      rw [Tracked, stage] at before
      refine inv_proceed h _ _ _ ⟨before.1.1, before.2.1, ?_⟩
      intro resp' eq
      cases eq
      exact ⟨s, List.mem_cons_of_mem _ h.here, before.1.2, ifNoneMatch, routing, before.2.2, answer⟩
  | lose here stage err =>
      have before := h.requests _ _ here
      rw [Tracked, stage] at before
      exact inv_proceed h _ _ _ ⟨before.1.1, before.2.1, fun resp no => nomatch no⟩
  | receive here stage received => exact inv_received h here stage (receive_spec received)
  | invalidate paths =>
      unfold System.handleInvalidate
      split
      · exact inv_evicts h limited (Int.le_refl _) rfl (fun _ _ same => same) rfl rfl
      · split
        · exact inv_evicts h limited (Int.le_refl _) rfl (fun _ _ same => same) rfl rfl
        · exact inv_evicts h limited (Int.le_refl _) rfl (apply_evicts s.cache paths) rfl rfl
  | fire timer passed =>
      exact inv_evicts h limited (Int.le_refl _) rfl (apply_evicts s.cache _) rfl rfl
  | flush =>
      exact inv_evicts h limited (Int.le_refl _) rfl (fun _ _ no => nomatch no) rfl rfl

theorem run_inv (h : Run env run s) : Inv env run s := by
  induction h with
  | initial =>
      refine ⟨List.mem_singleton_self _, ?_, fun uri p no => (nomatch no), fun cell no => (nomatch no),
        fun i r no => (nomatch no), fun x no => (nomatch no)⟩
      intro t there
      rw [List.mem_singleton.mp there]
      intro key r no
      cases no
  | step _ next ih => exact inv_step ih next

end Steps

end EdgeKV.Edge
