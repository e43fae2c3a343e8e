import EdgeKV.Server.Gateway
import EdgeKV.Store.Spec

/-!
The consistent path of the gateway: what a request under `/v1/kv/` asks of the store, whichever
node it reaches and whatever name it goes by, and what a node answers.
-/
namespace EdgeKV.Server

open Url (utf8)

/-- A request that writes. The ID of a `PUT` is in its body, that of a `DELETE` in the query. -/
inductive Edit
  | put (body : PutRequest) (expectedVersion : String)
  | delete (requestId : String)
  deriving DecidableEq, Repr

inductive Method
  | edit (e : Edit)
  | get
  deriving DecidableEq, Repr

structure KvRequest extends Routing where
  key : String
  method : Method
  headerId : String := ""
  deriving DecidableEq, Repr

/-- A response with the header that names the shard of the key. -/
structure Reply extends Response where
  shard : Option Nat := none
  deriving DecidableEq, Repr

/-- The ID that the request itself carries. -/
def Edit.id : Edit → String
  | .put body _ => body.requestId
  | .delete requestId => requestId

/-- The IDs in the request are `id`, if there are any. -/
def KvRequest.Carries (r : KvRequest) (id : String) : Prop :=
  (∀ e, r.method = .edit e → e.id = "" ∨ e.id = id) ∧ (r.headerId = "" ∨ r.headerId = id)

/-- Some ID is in a request that writes. -/
def KvRequest.Named (r : KvRequest) : Prop :=
  ∀ e, r.method = .edit e → e.id ≠ "" ∨ r.headerId ≠ ""

namespace Config

variable (cfg : Config)

/-- The URL that `handleRaftError` forwards to, if it does. -/
def forwardURL (routing : Routing) : RaftError → Option String
  | .notLeader leader =>
      let leaderURL := cfg.peerHTTP leader
      if leaderURL ≠ "" ∧ leader ≠ cfg.nodeId ∧ ¬ routing.forwarded ∧ ¬ routing.noForward then
        some leaderURL
      else none
  | .other _ => none

/-- `handleGet`, with `read`. -/
def handleGet (routing : Routing) (key : String) (hop : Hop) :
    Except ReadError Store.Entry → Response
  | .ok e =>
      { status := 200, cacheControl := "no-store", etag := etag e.version
        body := .entry (toReadResponse key e) }
  | .error .notFound =>
      Response.withCacheControl "no-store" (writeError 404 "not_found" "key does not exist")
  | .error (.raft err) =>
      Response.withCacheControl "no-store" (cfg.handleRaftError routing key hop err)

/-- The answer to a write that the node has carried out. -/
def wroteReply (request : KvRequest) (cmd : Command) (hop : Hop) (res : Result) : Reply where
  toResponse := (cfg.write request.toRouting cmd hop (.ok res)).1
  shard := some (cfg.shardFor cmd.key)

/-- The answer to a read that the node has carried out. -/
def gotReply (request : KvRequest) (hop : Hop) (entry : Option Store.Entry) : Reply where
  toResponse :=
    cfg.handleGet request.toRouting request.key hop (entry.elim (.error .notFound) .ok)
  shard := some (cfg.shardFor request.key)

/-- The answer of a node that cannot serve the request itself. A response that was forwarded
brings its own headers. -/
def errorReply (request : KvRequest) (err : RaftError) (hop : Hop) (hopShard : Option Nat) : Reply :=
  match request.method with
  | .edit _ =>
      { toResponse := cfg.handleRaftError request.toRouting request.key hop err, shard := hopShard }
  | .get =>
      { toResponse := cfg.handleGet request.toRouting request.key hop (.error (.raft err))
        shard := hopShard.or (some (cfg.shardFor request.key)) }

end Config

/-- The request that a node sends to the leader, with the ID that it goes by. -/
def KvRequest.forward (r : KvRequest) (requestId : String) : KvRequest :=
  { r with forwarded := true, noForward := false, headerId := requestId }

namespace Gateway

variable (g : Gateway)

/-- The command of a request that writes; `newId` is the ID that the node draws. -/
def command (key headerId newId : String) : Edit → Except Response Command
  | .put body expectedVersion => g.handlePut key body expectedVersion headerId newId
  | .delete requestId => .ok (handleDelete key requestId headerId newId)

/-- What a request asks of the store; nothing, if it is refused. -/
def meaning (key : String) : Method → Option Request
  | .get => some (.get key)
  | .edit e => ((g.command key "" "" e).toOption.bind Command.write).map Request.write

end Gateway

section Meaning

variable {g : Gateway} {key headerId newId : String} {e : Edit} {cmd : Command}

/-- A command under another ID. -/
def withId (id : String) (cmd : Command) : Command := { cmd with requestId := id }

theorem expect_withId (expected id : String) (cmd : Command) :
    Gateway.expect expected (withId id cmd) = (Gateway.expect expected cmd).map (withId id) := by
  rw [Gateway.expect, Gateway.expect]
  split
  · rfl
  · split <;> rfl

theorem allowCaching_withId (policy : Option CachePolicy) (id : String) (cmd : Command) :
    g.allowCaching policy (withId id cmd) = (g.allowCaching policy cmd).map (withId id) := by
  rw [Gateway.allowCaching, Gateway.allowCaching]
  cases policy.filter (·.cacheable) with
  | none => rfl
  | some policy =>
      by_cases inside : g.namespaceCacheable cmd.key = true
      · simp [withId, inside, Except.map]
      · simp [withId, inside, Except.map]

/-- The IDs at hand decide the ID of the command and nothing else. -/
theorem command_withId (g : Gateway) (key headerId newId : String) (e : Edit) :
    g.command key headerId newId e =
      (g.command key "" "" e).map (withId (firstNonEmpty [e.id, headerId, newId])) := by
  cases e with
  | delete requestId => rfl
  | put body expectedVersion =>
      rw [Gateway.command, Gateway.command, Gateway.handlePut, Gateway.handlePut]
      generalize named : firstNonEmpty [body.requestId, headerId, newId] = id
      have start (id' : String) : ({ op := .put, key, value := utf8 body.value, requestId := id } :
          Command) = withId id { op := .put, key, value := utf8 body.value, requestId := id' } := rfl
      rw [start (firstNonEmpty [body.requestId, "", ""]), expect_withId, Edit.id, named]
      cases Gateway.expect expectedVersion _ with
      | error resp => rfl
      | ok cmd => exact allowCaching_withId body.cachePolicy id cmd

theorem command_key (h : g.command key headerId newId e = .ok cmd) : cmd.key = key := by
  cases e with
  | delete requestId =>
      cases h
      rfl
  | put body expectedVersion =>
      rw [Gateway.command, Gateway.handlePut] at h
      generalize first : Gateway.expect expectedVersion _ = expected at h
      cases expected with
      | error resp => cases h
      | ok cmd₁ =>
          have same : cmd₁.key = key := by
            rw [Gateway.expect] at first
            split at first
            · cases first
              rfl
            · split at first
              · cases first
              · cases first
                rfl
          change g.allowCaching body.cachePolicy cmd₁ = .ok cmd at h
          rw [Gateway.allowCaching] at h
          split at h
          · cases h
            exact same
          · split at h
            · cases h
            · cases h
              exact same

theorem command_id (h : g.command key headerId newId e = .ok cmd) :
    cmd.requestId = firstNonEmpty [e.id, headerId, newId] := by
  rw [command_withId] at h
  cases plain : g.command key "" "" e with
  | error resp =>
      rw [plain] at h
      cases h
  | ok cmd₀ =>
      rw [plain] at h
      cases h
      rfl

/-- A command means what its request does. -/
theorem command_meaning (h : g.command key headerId newId e = .ok cmd) :
    cmd.write.map Request.write = g.meaning key (.edit e) := by
  rw [command_withId] at h
  rw [Gateway.meaning]
  cases plain : g.command key "" "" e with
  | error resp =>
      rw [plain] at h
      cases h
  | ok cmd₀ =>
      rw [plain] at h
      cases h
      rfl

end Meaning
end EdgeKV.Server
