import EdgeKV.Server.Answers

/-!
What leaves the cache path may be stored exactly if it is a success for a record that may be
cached. The header is set to refuse storage before the outcome is known; only the success path
replaces it, on the node that is asked or on the one that it forwards to.
-/
namespace EdgeKV.Server

open Url (utf8)

variable {nodes : List Gateway} {store : Store} {req : CacheRequest} {resp : Response} {hop : Hop}

/-- The header lets a cache keep the response. -/
def Response.AllowsStorage (r : Response) : Prop :=
  ¬ "no-store".toList <:+: r.cacheControl.toList

def Response.Success (r : Response) : Prop := r.status = 200 ∨ r.status = 304

theorem namespaceCacheable_iff {cfg : Config} {key : String} :
    cfg.namespaceCacheable key = true ↔ ∃ ns ∈ cfg.cacheableNamespaces, utf8 ns <+: utf8 key := by
  simp [Config.namespaceCacheable]

/-- The headers of the success path have no letter `n` in them. -/
theorem cacheControl_storable {v text : String} {e : Store.Entry}
    (h : Config.cacheControl v e = some text) : ¬ "no-store".toList <:+: text.toList := by
  intro inside
  have letter : 'n' ∈ text.toList := inside.subset (by decide)
  rw [Config.cacheControl] at h
  split at h
  · cases h
    rw [String.toList_append, Text.toList_toString] at letter
    rcases List.mem_append.mp letter with word | digits
    · exact absurd word (by decide)
    · exact absurd (Text.isDigit_toDigits digits) (by decide)
  · split at h
    · cases h
      exact absurd letter (by decide)
    · cases h

theorem handleCacheGet_allowed {cfg : Config} {outcome : Except ReadError Store.Entry}
    (success : (cfg.handleCacheGet req outcome hop).Success) :
    cfg.namespaceCacheable req.key = true := by
  by_contra outside
  unfold Response.Success Config.handleCacheGet at success
  rw [status_withCacheControl, if_pos outside] at success
  simp [writeError] at success

theorem withCacheControl_same {text : String} {r : Response}
    (h : r.cacheControl = "" ∨ r.cacheControl = text) :
    (r.withCacheControl text).cacheControl = text := by
  rw [Response.withCacheControl]
  split
  · rfl
  next set => exact h.resolve_left set

/-- An error leaves the header alone, unless another node has set it. -/
theorem handleRaftError_control (cfg : Config) (routing : Routing) (key : String) (hop : Hop)
    (err : RaftError) :
    (cfg.handleRaftError routing key hop err).cacheControl = "" ∨
      hop = .answered (cfg.handleRaftError routing key hop err) := by
  cases err with
  | other detail => exact Or.inl rfl
  | notLeader leader =>
      unfold Config.handleRaftError
      dsimp only
      split
      · cases hop with
        | answered resp => exact Or.inr rfl
        | invalid detail => exact Or.inl rfl
        | failed detail => exact Or.inl rfl
      · exact Or.inl rfl

/-- Whatever is not a success refuses storage. -/
theorem handleCacheGet_refused (cfg : Config) {outcome : Except ReadError Store.Entry}
    (failure : ¬ (cfg.handleCacheGet req outcome hop).Success)
    (passed : ∀ err resp, outcome = .error (.raft err) → hop = .answered resp → ¬ resp.Success →
      resp.cacheControl = "no-store") :
    (cfg.handleCacheGet req outcome hop).cacheControl = "no-store" := by
  unfold Response.Success Config.handleCacheGet at failure
  rw [status_withCacheControl] at failure
  unfold Config.handleCacheGet
  refine withCacheControl_same ?_
  split at failure
  next outside =>
    rw [if_pos outside]
    exact Or.inl rfl
  next allowed =>
    rw [if_neg allowed]
    cases outcome with
    | error err =>
        cases err with
        | notFound => exact Or.inl rfl
        | raft err =>
            refine (handleRaftError_control cfg req.toRouting req.key hop err).imp_right ?_
            intro answered
            exact passed err _ rfl answered failure
    | ok e =>
        dsimp only at failure ⊢
        split at failure
        next never =>
          rw [if_pos never]
          exact Or.inl rfl
        next cacheable =>
          rw [if_neg cacheable]
          cases control : Config.cacheControl req.v e with
          | none => exact Or.inl rfl
          | some text =>
              rw [control] at failure
              dsimp only at failure
              split at failure <;> simp at failure

theorem readOf_ne {key : String} (err : RaftError) : readOf store key ≠ .error (.raft err) := by
  unfold readOf
  cases store.get key <;> exact nofun

theorem answers_refused (h : Answers nodes store req resp) (failure : ¬ resp.Success) :
    resp.cacheControl = "no-store" := by
  induction h with
  | read _ hop => exact handleCacheGet_refused _ failure fun err _ no => absurd no (readOf_ne err)
  | failed _ err lost =>
      exact handleCacheGet_refused _ failure fun _ resp _ answered => absurd answered (lost resp)
  | forwarded _ leader answer ih =>
      refine handleCacheGet_refused _ failure fun _ resp _ answered refused => ?_
      cases answered
      exact ih refused

theorem answers_allowed (h : Answers nodes store req resp) (success : resp.Success) :
    ∃ g ∈ nodes, g.namespaceCacheable req.key = true := by
  cases h with
  | read node hop => exact ⟨_, node, handleCacheGet_allowed success⟩
  | failed node err lost => exact ⟨_, node, handleCacheGet_allowed success⟩
  | forwarded node leader answer => exact ⟨_, node, handleCacheGet_allowed success⟩

/-- The cache path is cacheable exactly on success. -/
theorem cacheable_exactly_on_success (nodes : List Gateway) (namespaces : List String)
    (configured : ∀ g ∈ nodes, g.cacheableNamespaces = namespaces) (store : Store)
    (req : CacheRequest) (resp : Response) (h : Answers nodes store req resp) :
    (resp.AllowsStorage ↔
      (resp.status = 200 ∨ resp.status = 304) ∧ (∃ ns ∈ namespaces, utf8 ns <+: utf8 req.key) ∧
        ∃ e, store.get req.key = .ok e ∧ e.cacheable = true) ∧
    (¬ resp.AllowsStorage → resp.cacheControl = "no-store") ∧
    (resp.status = 304 → ∃ e, store.get req.key = .ok e ∧ req.ifNoneMatch = etag e.version) := by
  by_cases success : resp.Success
  · obtain ⟨e, fetched⟩ := answers_fetched h success
    have storable : resp.AllowsStorage := cacheControl_storable fetched.cacheControl
    obtain ⟨g, node, allowed⟩ := answers_allowed h success
    obtain ⟨ns, member, start⟩ := namespaceCacheable_iff.mp allowed
    rw [configured g node] at member
    refine ⟨⟨fun _ => ?_, fun _ => storable⟩, fun no => absurd storable no, fun same => ?_⟩
    · exact ⟨success, ⟨ns, member, start⟩, e, fetched.current, fetched.cacheable⟩
    · exact ⟨e, fetched.current, fetched.unchanged same⟩
  · have refused := answers_refused h success
    have kept : ¬ resp.AllowsStorage := by
      intro storable
      rw [Response.AllowsStorage, refused] at storable
      exact storable (List.infix_refl _)
    refine ⟨⟨fun storable => absurd storable kept, fun all => absurd all.1 success⟩,
      fun _ => refused, fun same => absurd (Or.inr same) success⟩

/-- A node of a cluster in which one namespace is cacheable. -/
def clusterNode (nodeId : String) : Gateway :=
  new
    { nodeId, peerHTTP := fun id => "http://" ++ id, cacheableNamespaces := ["config:"]
      invalidations := false, shardFor := fun _ => 0 }

/-- A copy that is still current is confirmed by the leader, one hop away. -/
theorem cacheable_exactly_on_success_forwarded :
    ∃ resp, Answers [clusterNode "n1", clusterNode "n2"]
        { data := fun _ => some { version := 3, cacheable := true, ttlSeconds := 30 } }
        { key := "config:model", ifNoneMatch := "\"v3\"" } resp ∧
      resp.status = 304 ∧ resp.AllowsStorage ∧
      ∃ e, Store.get { data := fun _ => some { version := 3, cacheable := true, ttlSeconds := 30 } }
        "config:model" = .ok e ∧ "\"v3\"" = etag e.version := by
  have configured : ∀ g ∈ [clusterNode "n1", clusterNode "n2"], g.cacheableNamespaces = ["config:"] := by
    simp [clusterNode, new]
  have answer : Answers [clusterNode "n1", clusterNode "n2"]
      { data := fun _ => some { version := 3, cacheable := true, ttlSeconds := 30 } }
      { key := "config:model", ifNoneMatch := "\"v3\"" } _ :=
    .forwarded (g := clusterNode "n1") (by simp) "n2"
      (.read (g := clusterNode "n2") (by simp) (.failed ""))
  have status : ((clusterNode "n1").handleCacheGet
      { key := "config:model", ifNoneMatch := "\"v3\"" } (.error (.raft (.notLeader "n2")))
      (.answered ((clusterNode "n2").handleCacheGet
        { key := "config:model", ifNoneMatch := "\"v3\"", forwarded := true }
        (.ok ⟨[], 3, true, 30, 0⟩) (.failed "")))).status = 304 := by
    decide +kernel
  obtain ⟨storable, -, unchanged⟩ :=
    cacheable_exactly_on_success _ ["config:"] configured _ _ _ answer
  have inside : ∃ ns ∈ ["config:"], utf8 ns <+: utf8 "config:model" :=
    ⟨"config:", List.mem_singleton_self _, by decide +kernel⟩
  exact ⟨_, answer, status, storable.mpr ⟨Or.inr status, inside, _, rfl, rfl⟩, unchanged status⟩

end EdgeKV.Server
