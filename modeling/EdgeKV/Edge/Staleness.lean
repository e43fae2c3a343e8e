import EdgeKV.Edge.Coherence
import EdgeKV.Edge.Invalidation

/-!
Cached reads are stale by at most the TTL, in any run of the edge.
-/
namespace EdgeKV.Edge

open Server (Gateway)

theorem bounded_staleness (env : Setting) (run : List System) (s : System) (h : Run env run s)
    (x : Served) (served : x ∈ s.served) (k : XCache) (source : x.source = .edge (some k))
    (label : k = .hit ∨ k = .refreshHit ∨ k = .miss) (ok : x.response.status = 200)
    (plain : (env.route x.uri).v = "") :
    ∃ body, x.response.body = .entry body ∧ ∃ t ∈ run, ∃ e,
      t.origin.get (env.route x.uri).key = .ok e ∧ e.version = body.version ∧
      x.arrived - e.ttlSeconds.toNat * second ≤ t.clock := by
  have known : k ≠ .stale := by
    rintro rfl
    simp at label
  obtain ⟨-, fresh⟩ := (run_inv h).served x served ok
  obtain ⟨body, content, t, there, e, current, version, reach⟩ := fresh plain k source known
  refine ⟨body, content, t, there, e, current, version, ?_⟩
  omega

section Example

theorem receive_stored {c : Cache} {uri : Bytes} {now : Int} {ent : Option Nat}
    {resp : Server.Response} (ok : resp.status = 200) (lasting : 0 < maxAge resp.cacheControl)
    (storable : ¬ "no-store".toList <:+: resp.cacheControl.toList) :
    c.receive uri now ent (.ok resp) =
      (c.insert uri (.mk resp resp.etag now (now + maxAge resp.cacheControl)), some .miss, resp) := by
  have changed : decide (resp.status = 304) = false := by
    rw [ok]
    rfl
  rw [Cache.receive]
  split
  next same =>
    rw [changed] at same
    cases same
  · exact if_pos ⟨ok, lasting, storable⟩

/-- A node, some encodings, and one key for all URIs. -/
noncomputable def oneKey (v : String) : Setting where
  nodes := [Server.new configOnly]
  codecs := shortCodecs firstPut
  window := 10
  route _ := ⟨"config:model", v⟩
  opts := {}

/-- A write of the key under the request ID. -/
def modelPut (value requestId : String) : Command :=
  { op := .put, key := "config:model", value := Url.utf8 value, requestId, cacheable := true
    ttlSeconds := 30 }

theorem model_cacheable : (Server.new configOnly).namespaceCacheable "config:model" = true := by
  decide +kernel

theorem modelPut_issued (value : String) {requestId : String} (named : requestId ≠ "") :
    Issues (Server.new configOnly) (modelPut value requestId) := by
  have id : Server.firstNonEmpty ["", "", requestId] = requestId := by
    simp [Server.firstNonEmpty, named]
  have made : (Server.new configOnly).handlePut "config:model"
      { value, cachePolicy := some ⟨true, 30⟩ } "" "" requestId = .ok (modelPut value requestId) := by
    simp only [Gateway.handlePut, Gateway.expect, Gateway.allowCaching, Except.bind, if_true,
      Option.filter_some, model_cacheable, id]
    rfl
  exact .put named made

theorem modelPut_executes : ∃ store res,
    Store.execute { dedupWindow := 10 } 1 ((modelPut "v12" "id").stamp 0) = some (store, res) ∧
      store.get "config:model" = .ok ⟨Url.utf8 "v12", 1, true, 30, 0⟩ := ⟨_, _, rfl, rfl⟩

/-- The first write of the key. -/
theorem modelPut_write {v : String} {store : Store} {res : Result}
    (executed : Store.execute { dedupWindow := 10 } 1 ((modelPut "v12" "id").stamp 0) =
      some (store, res)) :
    Step (oneKey v) { origin := { dedupWindow := 10 } }
      { origin := store
        calls := [⟨1, (modelPut "v12" "id").stamp 0, { dedupWindow := 10 }, store, res⟩] } := by
  refine .write (List.mem_singleton_self _) (modelPut_issued "v12" (by decide)) (by decide)
    (by decide) (fun x no => nomatch no) ?_ ((oneKey v).codecs.result.round res)
  rw [Store.apply_marshal]
  exact congrArg _ executed

/-- What the node answers to a client without a copy. -/
theorem model_answer {store : Store} {value : Bytes} {version : UInt64} {updated : Int} {v text : String}
    (read : store.get "config:model" = .ok ⟨value, version, true, 30, updated⟩)
    (control : Server.Config.cacheControl v ⟨value, version, true, 30, updated⟩ = some text)
    (uri : Bytes) :
    Server.Answers (oneKey v).nodes store ((oneKey v).request uri "" {})
      { status := 200, cacheControl := text, etag := Server.etag version
        body := .entry ⟨"config:model", value, version, updated⟩ } := by
  have answer : Server.Answers (oneKey v).nodes store ((oneKey v).request uri "" {}) _ :=
    .read (List.mem_singleton_self _) (.failed "")
  have outcome : Server.readOf store ((oneKey v).request uri "" {}).key =
      .ok ⟨value, version, true, 30, updated⟩ := by
    rw [Server.readOf]
    exact congrArg _ read
  rw [outcome, Server.handleCacheGet_current (.failed "") model_cacheable rfl control
    (Server.etag_ne version).symm] at answer
  exact answer

/-- The key is written, read through the edge, and served from the copy at a later time. -/
theorem model_hit {v text : String} {t : Int}
    (control : Server.Config.cacheControl v ⟨Url.utf8 "v12", 1, true, 30, 0⟩ = some text)
    (later : 0 ≤ t) (young : t < maxAge text)
    (storable : ¬ "no-store".toList <:+: text.toList) :
    ∃ run s, Run (oneKey v) run s ∧
      ⟨[], t, .edge (some .hit),
        { status := 200, cacheControl := text, etag := Server.etag 1
          body := .entry ⟨"config:model", Url.utf8 "v12", 1, 0⟩ }⟩ ∈ s.served ∧
      s.served.map (·.source) = [.edge (some .miss), .edge (some .hit)] := by
  obtain ⟨store, res, executed, read⟩ := modelPut_executes
  have empty : Run (oneKey v) _ _ := .initial
  have written := empty.step (modelPut_write executed)
  have looked := ((written.step (.arrive (i := 0) rfl [] "")).step (.start (i := 0) rfl rfl)).step
    (.lookup (i := 0) rfl rfl)
  have sent := looked.step (.send (i := 0) rfl rfl rfl)
  have answered := sent.step (.answer (i := 0) rfl rfl (model_answer read control []))
  have stored := answered.step (.receive (i := 0) rfl rfl
    (receive_stored rfl (later.trans_lt young) storable))
  have passed := stored.step (.tick later)
  have again := ((passed.step (.arrive (i := 0) rfl [] "")).step (.start (i := 0) rfl rfl)).step
    (.lookup (i := 0) rfl rfl)
  have hit := again.step (.hit (i := 0) rfl rfl rfl ((zero_add (maxAge text)).symm ▸ young))
  exact ⟨_, _, hit, System.mem_finish .., rfl⟩

/-- A copy is served twenty seconds after it was fetched, with a TTL of thirty. -/
theorem bounded_staleness_hit :
    ∃ run s x, Run (oneKey "") run s ∧ x ∈ s.served ∧ x.source = .edge (some .hit) ∧
      x.arrived = 20 * second ∧ ∃ body, x.response.body = .entry body ∧ ∃ t ∈ run, ∃ e,
        t.origin.get "config:model" = .ok e ∧ e.version = body.version ∧
        x.arrived - e.ttlSeconds.toNat * second ≤ t.clock := by
  have lifetime : maxAge ("public, max-age=" ++ toString 30) = 30 * second :=
    maxAge_public (by decide)
  obtain ⟨run, s, hit, served, -⟩ := model_hit (v := "") rfl (show (0 : Int) ≤ 20 * second by decide)
    (lifetime ▸ by decide) (by decide +kernel)
  obtain ⟨body, content, bound⟩ := bounded_staleness (oneKey "") run s hit _ served .hit
    rfl (Or.inl rfl) rfl rfl
  exact ⟨run, s, _, hit, served, rfl, rfl, body, content, bound⟩

end Example

end EdgeKV.Edge
