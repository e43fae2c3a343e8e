import EdgeKV.Server.Gateway

/-!
What the nodes of a cluster answer on the cache path from one state of the store, and what a
successful answer says about the record it was made from.
-/
namespace EdgeKV.Server

open Url (utf8)

variable {nodes : List Gateway} {g : Gateway} {store store' : Store} {req : CacheRequest}
  {resp : Response} {hop : Hop}

/-- The read of a key from the state machine. -/
def readOf (store : Store) (key : String) : Except ReadError Store.Entry :=
  (store.get key).mapError fun _ => .notFound

/-- The request that a node sends to the leader. -/
def CacheRequest.forward (req : CacheRequest) : CacheRequest :=
  { req with forwarded := true, noForward := false }

/-- The answers to a request while the store is in one state: from the record, an error of the
node, or what another node answers after one hop. -/
inductive Answers (nodes : List Gateway) (store : Store) : CacheRequest → Response → Prop
  | read {g : Gateway} {req : CacheRequest} (node : g ∈ nodes) (hop : Hop) :
      Answers nodes store req (g.handleCacheGet req (readOf store req.key) hop)
  | failed {g : Gateway} {req : CacheRequest} {hop : Hop} (node : g ∈ nodes) (err : RaftError)
      (lost : ∀ resp, hop ≠ .answered resp) :
      Answers nodes store req (g.handleCacheGet req (.error (.raft err)) hop)
  | forwarded {g : Gateway} {req : CacheRequest} {resp : Response} (node : g ∈ nodes)
      (leader : String) (answer : Answers nodes store req.forward resp) :
      Answers nodes store req
        (g.handleCacheGet req (.error (.raft (.notLeader leader))) (.answered resp))

/-- The response was made from the current record of the key, which may be cached. -/
structure Fetched (store : Store) (req : CacheRequest) (resp : Response) (e : Store.Entry) :
    Prop where
  current : store.get req.key = .ok e
  cacheable : e.cacheable = true
  etag : resp.etag = etag e.version
  cacheControl : Config.cacheControl req.v e = some resp.cacheControl
  body : resp.status = 200 → resp.body = .entry (toReadResponse req.key e)
  unchanged : resp.status = 304 → req.ifNoneMatch = Server.etag e.version

theorem etag_ne (version : UInt64) : etag version ≠ "" := by
  intro no
  simpa [etag] using congrArg String.toList no

theorem etag_inj {version version' : UInt64} (same : etag version = etag version') :
    version = version' := by
  have texts := congrArg String.toList same
  simp only [etag, String.toList_append, Text.toList_toString] at texts
  have digits := congrArg Text.numeral (List.append_cancel_left (List.append_cancel_right texts))
  rw [Text.numeral_toDigits, Text.numeral_toDigits] at digits
  exact UInt64.toNat_inj.mp (Option.some.inj digits)

theorem status_withCacheControl (text : String) (r : Response) :
    (r.withCacheControl text).status = r.status := by
  rw [Response.withCacheControl]
  split <;> rfl

theorem withCacheControl_set {text : String} {r : Response} (set : r.cacheControl ≠ "") :
    r.withCacheControl text = r := if_neg set

theorem cacheControl_ne {v text : String} {e : Store.Entry}
    (h : Config.cacheControl v e = some text) : text ≠ "" := by
  rw [Config.cacheControl] at h
  split at h
  · cases h
    intro no
    simpa using congrArg String.toList no
  · split at h
    · cases h
      decide
    · cases h

/-- An answer from a record is a success only for a record that may be cached. -/
theorem handleCacheGet_fetched (cfg : Config) (hop : Hop) {e : Store.Entry}
    (current : store.get req.key = .ok e)
    (success : (cfg.handleCacheGet req (.ok e) hop).status = 200 ∨
      (cfg.handleCacheGet req (.ok e) hop).status = 304) :
    Fetched store req (cfg.handleCacheGet req (.ok e) hop) e := by
  unfold Config.handleCacheGet at success ⊢
  rw [status_withCacheControl] at success
  split at success
  · simp [writeError] at success
  next allowed =>
    rw [if_neg allowed]
    dsimp only at success ⊢
    split at success
    · simp [writeError] at success
    next cacheable =>
      rw [if_neg cacheable]
      cases control : Config.cacheControl req.v e with
      | none => simp [control, writeError] at success
      | some text =>
          dsimp only
          have set := cacheControl_ne control
          have kept : e.cacheable = true := by simpa using cacheable
          split
          next same =>
            rw [withCacheControl_set set]
            exact ⟨current, kept, rfl, control, fun no => by simp at no, fun _ => same.2⟩
          next differs =>
            rw [withCacheControl_set set]
            exact ⟨current, kept, rfl, control, fun _ => rfl, fun no => by simp at no⟩

/-- The answer to a request that has no copy, or another version. -/
theorem handleCacheGet_current {cfg : Config} {e : Store.Entry} {text : String} (hop : Hop)
    (allowed : cfg.namespaceCacheable req.key = true) (cacheable : e.cacheable = true)
    (control : Config.cacheControl req.v e = some text)
    (other : req.ifNoneMatch ≠ etag e.version) :
    cfg.handleCacheGet req (.ok e) hop =
      { status := 200, cacheControl := text, etag := etag e.version
        body := .entry (toReadResponse req.key e) } := by
  unfold Config.handleCacheGet
  rw [if_neg (not_not.mpr allowed)]
  dsimp only
  rw [if_neg (not_not.mpr cacheable), control]
  dsimp only
  rw [if_neg fun both => other both.2]
  exact withCacheControl_set (cacheControl_ne control)

/-- An error of the node is a success only if another node answered. -/
theorem handleRaftError_answered {cfg : Config} {routing : Routing} {key : String} {err : RaftError}
    (success : (cfg.handleRaftError routing key hop err).status = 200 ∨
      (cfg.handleRaftError routing key hop err).status = 304) :
    hop = .answered (cfg.handleRaftError routing key hop err) := by
  cases err with
  | other detail => simp [Config.handleRaftError] at success
  | notLeader leader =>
      unfold Config.handleRaftError at success ⊢
      dsimp only at success ⊢
      split
      next forwards =>
        rw [if_pos forwards] at success
        cases hop with
        | answered resp => rfl
        | invalid detail => simp [writeError] at success
        | failed detail => simp at success
      next stays =>
        rw [if_neg stays] at success
        simp at success

/-- What the handler makes of an error of its node. -/
theorem handleCacheGet_raft {cfg : Config} {err : RaftError}
    (success : (cfg.handleCacheGet req (.error (.raft err)) hop).status = 200 ∨
      (cfg.handleCacheGet req (.error (.raft err)) hop).status = 304) :
    ∃ resp, hop = .answered resp ∧
      cfg.handleCacheGet req (.error (.raft err)) hop = resp.withCacheControl "no-store" := by
  unfold Config.handleCacheGet at success ⊢
  rw [status_withCacheControl] at success
  split at success
  · simp [writeError] at success
  next allowed =>
    rw [if_neg allowed]
    exact ⟨_, handleRaftError_answered success, rfl⟩

/-- A successful answer comes from the current record, however it was routed. -/
theorem answers_fetched (h : Answers nodes store req resp)
    (success : resp.status = 200 ∨ resp.status = 304) : ∃ e, Fetched store req resp e := by
  induction h with
  | @read g req _ hop =>
      rw [readOf] at success ⊢
      cases current : store.get req.key with
      | ok e =>
          rw [current] at success
          exact ⟨e, handleCacheGet_fetched g.toConfig hop current success⟩
      | error err =>
          rw [current] at success
          change (g.handleCacheGet req (.error .notFound) hop).status = 200 ∨
            (g.handleCacheGet req (.error .notFound) hop).status = 304 at success
          rw [Config.handleCacheGet, status_withCacheControl] at success
          split at success <;> simp [writeError] at success
  | failed _ err lost =>
      obtain ⟨resp, answered, -⟩ := handleCacheGet_raft success
      exact absurd answered (lost resp)
  | @forwarded g req resp _ leader answer ih =>
      obtain ⟨resp', answered, eq⟩ := handleCacheGet_raft success
      cases answered
      rw [eq, status_withCacheControl] at success
      obtain ⟨e, fetched⟩ := ih success
      rw [eq, withCacheControl_set (cacheControl_ne fetched.cacheControl)]
      exact ⟨e, fetched.current, fetched.cacheable, fetched.etag, fetched.cacheControl, fetched.body,
        fetched.unchanged⟩

theorem expect_cacheable {expected : String} {cmd cmd' : Command}
    (h : Gateway.expect expected cmd = .ok cmd') : cmd'.cacheable = cmd.cacheable := by
  rw [Gateway.expect] at h
  split at h
  · cases h
    rfl
  · split at h
    · cases h
    · cases h
      rfl

theorem clamp_ne (ttl : UInt32) {limit : UInt32} (h : limit ≠ 0) : min (max ttl 1) limit ≠ 0 := by
  change (if max ttl 1 ≤ limit then max ttl 1 else limit) ≠ 0
  split
  · change (if ttl ≤ 1 then 1 else ttl) ≠ 0
    split
    · decide
    next above =>
      intro zero
      rw [zero] at above
      exact above (by decide)
  · exact h

theorem allowCaching_ttl {policy : Option CachePolicy} {cmd cmd' : Command}
    (h : g.allowCaching policy cmd = .ok cmd') (before : cmd.cacheable = false)
    (cacheable : cmd'.cacheable = true) : cmd'.ttlSeconds ≠ 0 := by
  rw [Gateway.allowCaching] at h
  split at h
  · cases h
    rw [before] at cacheable
    cases cacheable
  next policy _ =>
    split at h
    · cases h
    · cases h
      dsimp only
      split
      · exact g.defaultTTL_ne
      · exact clamp_ne policy.ttlSeconds g.maxTTL_ne

/-- A command that makes a key cacheable gives it a TTL. -/
theorem handlePut_ttl {key : String} {put : PutRequest} {expected headerId newId : String}
    {cmd : Command} (h : g.handlePut key put expected headerId newId = .ok cmd)
    (cacheable : cmd.cacheable = true) : cmd.ttlSeconds ≠ 0 := by
  rw [Gateway.handlePut] at h
  cases read : Gateway.expect expected
      { op := .put, key, value := utf8 put.value
        requestId := firstNonEmpty [put.requestId, headerId, newId] } with
  | error resp => rw [read] at h; cases h
  | ok cmd₁ =>
      rw [read] at h
      exact allowCaching_ttl h (expect_cacheable read) cacheable

end EdgeKV.Server
